import Mathlib.Tactic.Common
import Mathlib.Order.WellFounded

/-!
# Procedures that call each other

A program answers whether it succeeded. What it calls is the procedure of an argument, and a call may not
return.
-/

namespace Procedures

inductive Program (α σ : Type) where
  | ends (result : Bool)
  | reads (next : σ → Program α σ)
  | writes (s : σ) (next : Program α σ)
  /-- The state is changed before the call and after it. -/
  | calls (enter leave : σ → σ) (a : α) (next : Bool → Program α σ)

variable {α σ : Type}

namespace Program

/-- The second program runs where the first one succeeds. -/
def andThen : Program α σ → Program α σ → Program α σ
  | ends true, q => q
  | ends false, _ => ends false
  | reads next, q => reads fun s => (next s).andThen q
  | writes s p, q => writes s (p.andThen q)
  | calls enter leave a next, q => calls enter leave a fun b => (next b).andThen q

def all : List (Program α σ) → Program α σ
  | [] => ends true
  | p :: ps => p.andThen (all ps)

def call (a : α) : Program α σ := calls id id a ends

def run (exec : α → σ → Option (Bool × σ)) : Program α σ → σ → Option (Bool × σ)
  | ends b, s => some (b, s)
  | reads next, s => (next s).run exec s
  | writes t p, _ => p.run exec t
  | calls enter leave a next, s =>
    match exec a (enter s) with
    | some (b, t) => (next b).run exec (leave t)
    | none => none

theorem andThen_assoc (p q r : Program α σ) : (p.andThen q).andThen r = p.andThen (q.andThen r) := by
  induction p with
  | ends b => cases b <;> rfl
  | reads next ih => exact congrArg reads (funext ih)
  | writes s p ih => exact congrArg (writes s) ih
  | calls enter leave a next ih => exact congrArg (calls enter leave a) (funext ih)

theorem all_append (ps qs : List (Program α σ)) : all (ps ++ qs) = (all ps).andThen (all qs) := by
  induction ps with
  | nil => rfl
  | cons p ps ih => rw [List.cons_append, all, all, ih, andThen_assoc]

variable {exec exec' : α → σ → Option (Bool × σ)}

theorem run_calls {enter leave : σ → σ} {a : α} {next : Bool → Program α σ} {s t : σ} {b : Bool}
    (called : exec a (enter s) = some (b, t)) : (calls enter leave a next).run exec s = (next b).run exec (leave t) := by
  rw [run, called]

theorem calls_run {enter leave : σ → σ} {a : α} {next : Bool → Program α σ} {s : σ} {r : Bool × σ}
    (done : (calls enter leave a next).run exec s = some r) :
    ∃ b t, exec a (enter s) = some (b, t) ∧ (next b).run exec (leave t) = some r := by
  rw [run] at done
  split at done
  · exact ⟨_, _, ‹_›, done⟩
  · cases done

theorem run_call (a : α) (s : σ) : (call a).run exec s = exec a s := by
  cases called : exec a s with
  | none => simp [call, run, called]
  | some r => exact run_calls called

theorem run_andThen (p q : Program α σ) (s : σ) : (p.andThen q).run exec s =
    match p.run exec s with
    | some (true, t) => q.run exec t
    | r => r := by
  induction p generalizing s with
  | ends b => cases b <;> rfl
  | reads next ih => exact ih s s
  | writes t p ih => exact ih t
  | calls enter leave a next ih =>
    cases called : exec a (enter s) with
    | none => simp [andThen, run, called]
    | some r =>
      rw [andThen, run_calls called, run_calls called]
      exact ih r.1 (leave r.2)

theorem run_mono (more : ∀ a s r, exec a s = some r → exec' a s = some r) {p : Program α σ} {s : σ} {r : Bool × σ}
    (done : p.run exec s = some r) : p.run exec' s = some r := by
  induction p generalizing s with
  | ends b => exact done
  | reads next ih => exact ih s done
  | writes t p ih => exact ih done
  | calls enter leave a next ih =>
    obtain ⟨b, t, called, rest⟩ := calls_run done
    rw [run_calls (more a _ _ called)]
    exact ih b rest

/-- Every step of the program, calls with what surrounds them included, leads to a related state. -/
def Keeps (R : σ → σ → Prop) : Program α σ → σ → Prop
  | ends _, _ => True
  | reads next, s => Keeps R (next s) s
  | writes t p, s => R s t ∧ Keeps R p t
  | calls enter leave _ next, s => ∀ t, R (enter s) t → R s (leave t) ∧ ∀ b, Keeps R (next b) (leave t)

section Keeps

variable {R : σ → σ → Prop}

theorem Keeps.andThen {p q : Program α σ} {s : σ} (keeps : p.Keeps R s) (keeps' : ∀ t, q.Keeps R t) : (p.andThen q).Keeps R s := by
  induction p generalizing s with
  | ends b =>
    cases b with
    | true => exact keeps' s
    | false => trivial
  | reads next ih => exact ih s keeps
  | writes t p ih => exact ⟨keeps.1, ih keeps.2⟩
  | calls enter leave a next ih => exact fun t kept => ⟨(keeps t kept).1, fun b => ih b ((keeps t kept).2 b)⟩

theorem Keeps.all {ps : List (Program α σ)} (keeps : ∀ p ∈ ps, ∀ s, p.Keeps R s) (s : σ) : (all ps).Keeps R s := by
  induction ps generalizing s with
  | nil => trivial
  | cons p ps ih =>
    obtain ⟨first, others⟩ := List.forall_mem_cons.mp keeps
    exact (first s).andThen (ih others)

theorem Keeps.call (a : α) (s : σ) : (call a).Keeps R s := fun _ kept => ⟨kept, fun _ => trivial⟩

theorem Keeps.run (refl : ∀ s, R s s) (trans : ∀ {s t u}, R s t → R t u → R s u)
    (kept : ∀ a s b t, exec a s = some (b, t) → R s t) {p : Program α σ} {s t : σ} {b : Bool} (keeps : p.Keeps R s)
    (done : p.run exec s = some (b, t)) : R s t := by
  induction p generalizing s with
  | ends b =>
    cases done
    exact refl _
  | reads next ih => exact ih s keeps done
  | writes u p ih => exact trans keeps.1 (ih keeps.2 done)
  | calls enter leave a next ih =>
    obtain ⟨b', u, called, rest⟩ := calls_run done
    obtain ⟨first, later⟩ := keeps u (kept a _ b' u called)
    exact trans first (ih b' (later b') rest)

end Keeps

/-- The arguments that a program calls. -/
def CallsOnly (ok : α → Prop) : Program α σ → Prop
  | ends _ => True
  | reads next => ∀ s, CallsOnly ok (next s)
  | writes _ p => CallsOnly ok p
  | calls _ _ a next => ok a ∧ ∀ b, CallsOnly ok (next b)

theorem CallsOnly.andThen {ok : α → Prop} {p q : Program α σ} (only : p.CallsOnly ok) (only' : q.CallsOnly ok) :
    (p.andThen q).CallsOnly ok := by
  induction p with
  | ends b =>
    cases b with
    | true => exact only'
    | false => trivial
  | reads next ih => exact fun s => ih s (only s)
  | writes t p ih => exact ih only
  | calls enter leave a next ih => exact ⟨only.1, fun b => ih b (only.2 b)⟩

theorem CallsOnly.all {ok : α → Prop} {ps : List (Program α σ)} (only : ∀ p ∈ ps, p.CallsOnly ok) : (Program.all ps).CallsOnly ok := by
  induction ps with
  | nil => trivial
  | cons p ps ih =>
    obtain ⟨first, others⟩ := List.forall_mem_cons.mp only
    exact first.andThen (ih others)

end Program

open Program

variable (body : α → Program α σ)

/-- The procedure of an argument, with calls nested at most so deep. -/
def exec : Nat → α → σ → Option (Bool × σ)
  | 0, _, _ => none
  | n + 1, a, s => (body a).run (exec n) s

def Returns (a : α) (s : σ) (r : Bool × σ) : Prop := ∃ n, exec body n a s = some r

def Yields (p : Program α σ) (s : σ) (r : Bool × σ) : Prop := ∃ n, p.run (exec body n) s = some r

variable {body}

theorem exec_succ (n : Nat) : ∀ a s r, exec body n a s = some r → exec body (n + 1) a s = some r := by
  induction n with
  | zero => exact fun _ _ _ done => by cases done
  | succ n ih => exact fun _ _ _ done => run_mono ih done

theorem exec_mono {n m : Nat} (le : n ≤ m) {a : α} {s : σ} {r : Bool × σ} (done : exec body n a s = some r) :
    exec body m a s = some r := by
  induction le with
  | refl => exact done
  | step _ ih => exact exec_succ _ a s r ih

theorem run_deeper {n m : Nat} (le : n ≤ m) {p : Program α σ} {s : σ} {r : Bool × σ} (done : p.run (exec body n) s = some r) :
    p.run (exec body m) s = some r :=
  run_mono (fun _ _ _ => exec_mono le) done

theorem returns_iff {a : α} {s : σ} {r : Bool × σ} : Returns body a s r ↔ Yields body (body a) s r := by
  constructor
  · rintro ⟨n, done⟩
    cases n with
    | zero => cases done
    | succ n => exact ⟨n, done⟩
  · exact fun ⟨n, done⟩ => ⟨n + 1, done⟩

theorem yields_call {a : α} {s : σ} {r : Bool × σ} : Yields body (call a) s r ↔ Returns body a s r :=
  exists_congr fun n => by rw [run_call]

theorem yields_andThen {p q : Program α σ} {s : σ} {r : Bool × σ} : Yields body (p.andThen q) s r ↔
    ∃ b t, Yields body p s (b, t) ∧ if b = true then Yields body q t r else r = (false, t) := by
  constructor
  · rintro ⟨n, done⟩
    rw [run_andThen] at done
    split at done
    · next t first => exact ⟨true, t, ⟨n, first⟩, ⟨n, done⟩⟩
    · next failed =>
      obtain ⟨b, t⟩ := r
      cases b with
      | true => exact absurd done (failed t)
      | false => exact ⟨false, t, ⟨n, done⟩, rfl⟩
  · rintro ⟨b, t, ⟨n, first⟩, rest⟩
    cases b with
    | true =>
      obtain ⟨m, done⟩ := rest
      refine ⟨max n m, ?_⟩
      rw [run_andThen, run_deeper (Nat.le_max_left n m) first]
      exact run_deeper (Nat.le_max_right n m) done
    | false =>
      obtain rfl : r = (false, t) := rest
      exact ⟨n, by rw [run_andThen, first]⟩

/-- What every program keeps, every procedure keeps. -/
theorem exec_keeps {R : σ → σ → Prop} (refl : ∀ s, R s s) (trans : ∀ {s t u}, R s t → R t u → R s u)
    (keeps : ∀ a s, (body a).Keeps R s) (n : Nat) : ∀ a s b t, exec body n a s = some (b, t) → R s t := by
  induction n with
  | zero => exact fun _ _ _ _ done => by cases done
  | succ n ih => exact fun a s b t done => (keeps a s).run refl trans ih done

/-- Procedures that go on to call each other never return. -/
theorem exec_diverges {X : α → σ → Prop}
    (goes : ∀ exec : α → σ → Option (Bool × σ), (∀ a s, X a s → exec a s = none) → ∀ a s, X a s → (body a).run exec s = none)
    (n : Nat) : ∀ a s, X a s → exec body n a s = none := by
  induction n with
  | zero => exact fun _ _ _ => rfl
  | succ n ih => exact goes _ ih

/-- A procedure returns where its calls go down a well-founded relation. -/
theorem exec_total {r : α → α → Prop} (wf : WellFounded r) (down : ∀ a, (body a).CallsOnly (r · a)) (a : α) :
    ∀ s, ∃ n res, exec body n a s = some res := by
  induction a using wf.induction with
  | h a ih =>
    have whole : ∀ (p : Program α σ), p.CallsOnly (r · a) → ∀ s, ∃ n res, p.run (exec body n) s = some res := by
      intro p only
      induction p with
      | ends b => exact fun s => ⟨0, _, rfl⟩
      | reads next ih' => exact fun s => ih' s (only s) s
      | writes t p ih' => exact fun _ => ih' only t
      | calls enter leave a' next ih' =>
        intro s
        obtain ⟨n, ⟨b, t⟩, called⟩ := ih a' only.1 (enter s)
        obtain ⟨m, res, rest⟩ := ih' b (only.2 b) (leave t)
        refine ⟨max n m, res, ?_⟩
        rw [run_calls (exec_mono (Nat.le_max_left n m) called)]
        exact run_deeper (Nat.le_max_right n m) rest
    intro s
    obtain ⟨n, res, done⟩ := whole (body a) (down a) s
    exact ⟨n + 1, res, done⟩

end Procedures
