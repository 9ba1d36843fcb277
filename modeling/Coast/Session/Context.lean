import Mathlib.Tactic.Common
import Mathlib.Data.List.Infix

/-!
# The session of a context

A `Context` references its session and, unless it works on a copy of the session's store, keeps the mutex
of the session locked. Whether it does is read from the configuration at every push, while a session that
is given back was taken under what was read then.
-/

namespace Coast.Session

variable {σ : Type} [DecidableEq σ]

@[ext]
structure Sessions (σ : Type) where
  fRefCount : σ → Int
  depth : σ → Nat

namespace Sessions

def ref (s : σ) (m : Sessions σ) : Sessions σ := { m with fRefCount := fun t => if t = s then m.fRefCount t + 1 else m.fRefCount t }

def unRef (s : σ) (m : Sessions σ) : Sessions σ := { m with fRefCount := fun t => if t = s then m.fRefCount t - 1 else m.fRefCount t }

def lock (s : σ) (m : Sessions σ) : Sessions σ := { m with depth := fun t => if t = s then m.depth t + 1 else m.depth t }

/-- `Unlock` of a mutex that the thread has not locked does nothing. -/
def unlock (s : σ) (m : Sessions σ) : Sessions σ := { m with depth := fun t => if t = s then m.depth t - 1 else m.depth t }

def isLockedByMe (s : σ) (m : Sessions σ) : Bool := 0 < m.depth s

section Fields

variable (s : σ) (m : Sessions σ)

@[simp] theorem ref_depth : (m.ref s).depth = m.depth := rfl

@[simp] theorem unRef_depth : (m.unRef s).depth = m.depth := rfl

@[simp] theorem lock_fRefCount : (m.lock s).fRefCount = m.fRefCount := rfl

@[simp] theorem unlock_fRefCount : (m.unlock s).fRefCount = m.fRefCount := rfl

@[simp] theorem ref_fRefCount (t : σ) : (m.ref s).fRefCount t = if t = s then m.fRefCount t + 1 else m.fRefCount t := rfl

@[simp] theorem unRef_fRefCount (t : σ) : (m.unRef s).fRefCount t = if t = s then m.fRefCount t - 1 else m.fRefCount t := rfl

@[simp] theorem lock_depth (t : σ) : (m.lock s).depth t = if t = s then m.depth t + 1 else m.depth t := rfl

@[simp] theorem unlock_depth (t : σ) : (m.unlock s).depth t = if t = s then m.depth t - 1 else m.depth t := rfl

end Fields

theorem lock_unlock (s : σ) (m : Sessions σ) : (m.lock s).unlock s = m := by
  ext t
  · rfl
  · rw [unlock_depth, lock_depth]
    split <;> rfl

theorem isLockedByMe_lock (s : σ) (m : Sessions σ) : (m.lock s).isLockedByMe s = true := by
  rw [isLockedByMe, lock_depth, if_pos rfl]
  exact decide_eq_true (Nat.succ_pos _)

end Sessions

structure Context (σ : Type) where
  fSession : Option σ
  fCopySessionStore : Bool

namespace Context

open Sessions

def new : Context σ := ⟨none, false⟩

def unlockSession (c : Context σ) (m : Sessions σ) : Sessions σ :=
  match c.fSession with
  | some s => if c.fCopySessionStore && m.isLockedByMe s then m.unlock s else m
  | none => m

def lockSession (c : Context σ) (m : Sessions σ) : Sessions σ :=
  match c.fSession with
  | some s => if c.fCopySessionStore then m.lock s else m
  | none => m

/-- `Push(Session *)`, which is `InitSession`. The configuration has a slot `Context` or not. -/
def initSession (contextAny : Option Bool) (s : Option σ) (c : Context σ) (m : Sessions σ) : Context σ × Sessions σ :=
  let sessionIsDifferent : Bool := s ≠ c.fSession
  let c' : Context σ := { c with fCopySessionStore := contextAny.getD c.fCopySessionStore }
  if sessionIsDifferent || c'.fCopySessionStore then
    let saveSession := c.fSession
    let c' := { c' with fSession := s }
    let m := match s with
      | some s => c'.unlockSession (if sessionIsDifferent then (m.lock s).ref s else m.lock s)
      | none => m
    let m := match saveSession with
      | some saved =>
        if sessionIsDifferent then ((if c'.fCopySessionStore then m.lock saved else m).unRef saved).unlock saved else m
      | none => m
    (c', m)
  else (c', m)

/-- `~Context`. -/
def destroy (c : Context σ) (m : Sessions σ) : Sessions σ :=
  match c.fSession with
  | some s => ((c.lockSession m).unRef s).unlock s
  | none => m

abbrev PushOf (σ : Type) := Option Bool × Option σ

def push (r : Context σ × Sessions σ) (p : PushOf σ) : Context σ × Sessions σ := initSession p.1 p.2 r.1 r.2

def run (m : Sessions σ) (pushes : List (PushOf σ)) : Context σ × Sessions σ := pushes.foldl push (new, m)

/-! ### Taking and giving back -/

def take (copy : Bool) : Option σ → Sessions σ → Sessions σ
  | some s, m => if copy then m.ref s else (m.lock s).ref s
  | none, m => m

def giveBack (copy : Bool) : Option σ → Sessions σ → Sessions σ
  | some s, m => ((if copy then m.lock s else m).unRef s).unlock s
  | none, m => m

section Counts

variable {m : Sessions σ} {s t : σ} {copy : Bool}

theorem destroy_eq (c : Context σ) (m : Sessions σ) : c.destroy m = giveBack c.fCopySessionStore c.fSession m := by
  obtain ⟨_ | s, copy⟩ := c
  · rfl
  · cases copy <;> rfl

theorem take_fRefCount : (take copy (some s) m).fRefCount t = if t = s then m.fRefCount t + 1 else m.fRefCount t := by
  cases copy <;> rfl

theorem take_depth : (take copy (some s) m).depth t = if t = s ∧ copy = false then m.depth t + 1 else m.depth t := by
  cases copy <;> simp [take]

theorem giveBack_fRefCount : (giveBack copy (some s) m).fRefCount t = if t = s then m.fRefCount t - 1 else m.fRefCount t := by
  cases copy <;> rfl

theorem giveBack_depth : (giveBack copy (some s) m).depth t = if t = s ∧ copy = false then m.depth t - 1 else m.depth t := by
  cases copy
  · simp [giveBack]
  · by_cases here : t = s <;> simp [giveBack, here]

theorem push_eq (r : Context σ × Sessions σ) (p : PushOf σ) : push r p =
    (⟨p.2, p.1.getD r.1.fCopySessionStore⟩, if p.2 = r.1.fSession then r.2
      else giveBack (p.1.getD r.1.fCopySessionStore) r.1.fSession (take (p.1.getD r.1.fCopySessionStore) p.2 r.2)) := by
  obtain ⟨⟨old, flag⟩, m⟩ := r
  obtain ⟨contextAny, new⟩ := p
  rw [push, initSession]
  dsimp only
  generalize contextAny.getD flag = copy
  by_cases same : new = old
  · subst same
    cases copy with
    | false => simp
    | true =>
      cases new with
      | none => simp
      | some s => simp [unlockSession, isLockedByMe_lock, lock_unlock]
  · have taken : ∀ s, (⟨some s, copy⟩ : Context σ).unlockSession ((m.lock s).ref s) = take copy (some s) m := by
      intro s
      have mine : ((m.lock s).ref s).isLockedByMe s = true := isLockedByMe_lock s m
      cases copy with
      | false => rfl
      | true =>
        rw [unlockSession]
        simp only [mine, Bool.and_self, if_true]
        exact congrArg (ref s) (lock_unlock s m)
    cases new <;> cases old <;> simp [same, taken, take, giveBack]

/-- A session that was taken in one mode can be given back in the other only if this was the copy mode and
the thread has no lock on it. -/
def Fits (m : Sessions σ) (current : Option σ) (taken given : Bool) : Prop :=
  ∀ s, current = some s → taken = given ∨ (taken = true ∧ m.depth s = 0)

variable {current other : Option σ} {taken given : Bool}

theorem giveBack_take_iff : giveBack given current (take taken current m) = m ↔ Fits m current taken given := by
  cases current with
  | none => exact iff_of_true rfl (by rintro _ ⟨⟩)
  | some s =>
    constructor
    · rintro same _ ⟨⟩
      have depth := congrArg (fun m => m.depth s) same
      rw [giveBack_depth, take_depth] at depth
      cases taken <;> cases given <;> simp at depth ⊢
      omega
    · intro fits
      ext t
      · rw [giveBack_fRefCount, take_fRefCount]
        split <;> omega
      · rw [giveBack_depth, take_depth]
        rcases fits s rfl with rfl | ⟨rfl, free⟩
        · split <;> omega
        · by_cases here : t = s
          · simp [here, free]
          · simp [here]

omit [DecidableEq σ] in
theorem fits_refl (current : Option σ) : Fits m current copy copy := fun _ _ => Or.inl rfl

theorem fits_next (new : Option σ) (fits : Fits m current taken given) :
    Fits m new (if new = current then taken else given) given := by
  split
  · next same => exact same ▸ fits
  · exact fits_refl new

theorem giveBack_take_comm (different : other ≠ current) :
    giveBack given current (take taken other m) = take taken other (giveBack given current m) := by
  cases current with
  | none => rfl
  | some s =>
    cases other with
    | none => rfl
    | some t =>
      have apart : t ≠ s := fun same => different (congrArg some same)
      ext u
      · rw [giveBack_fRefCount, take_fRefCount, take_fRefCount, giveBack_fRefCount]
        grind
      · rw [giveBack_depth, take_depth, take_depth, giveBack_depth]
        grind

/-! ### Runs -/

theorem push_take (flag : Bool) (p : PushOf σ) : push (⟨current, flag⟩, take taken current m) p =
    (⟨p.2, p.1.getD flag⟩, if p.2 = current then take taken current m
      else take (p.1.getD flag) p.2 (giveBack (p.1.getD flag) current (take taken current m))) := by
  rw [push_eq]
  split
  · rfl
  · next different => rw [giveBack_take_comm different]

theorem destroy_take_iff {flag : Bool} :
    (⟨current, flag⟩ : Context σ).destroy (take taken current m) = m ↔ Fits m current taken flag := by
  rw [destroy_eq]
  exact giveBack_take_iff

theorem push_fits {flag : Bool} {p : PushOf σ} (fits : Fits m current taken (p.1.getD flag)) :
    push (⟨current, flag⟩, take taken current m) p =
      (⟨p.2, p.1.getD flag⟩, take (if p.2 = current then taken else p.1.getD flag) p.2 m) := by
  rw [push_take, giveBack_take_iff.mpr fits]
  by_cases same : p.2 = current
  · rw [if_pos same, if_pos same, same]
  · rw [if_neg same, if_neg same]

theorem destroy_push_iff (flag : Bool) (p : PushOf σ) :
    (push (⟨current, flag⟩, take taken current m) p).1.destroy (push (⟨current, flag⟩, take taken current m) p).2 = m ↔
      Fits m current taken (p.1.getD flag) := by
  rw [push_take, destroy_eq]
  by_cases same : p.2 = current
  · rw [if_pos same, same]
    exact giveBack_take_iff
  · rw [if_neg same]
    show giveBack (p.1.getD flag) p.2 (take (p.1.getD flag) p.2 _) = m ↔ _
    rw [giveBack_take_iff.mpr (fits_refl p.2)]
    exact giveBack_take_iff

theorem push_fRefCount {r : Context σ × Sessions σ} (p : PushOf σ)
    (counted : ∀ s, r.2.fRefCount s = m.fRefCount s + if r.1.fSession = some s then 1 else 0) (s : σ) :
    (push r p).2.fRefCount s = m.fRefCount s + if (push r p).1.fSession = some s then 1 else 0 := by
  obtain ⟨⟨old, flag⟩, k⟩ := r
  have before := counted s
  rw [push_eq]
  dsimp only at before ⊢
  by_cases same : p.2 = old
  · rw [if_pos same, same]
    exact before
  · rw [if_neg same]
    have new : (take (p.1.getD flag) p.2 k).fRefCount s = k.fRefCount s + if p.2 = some s then 1 else 0 := by
      cases p.2 with
      | none => simp [take]
      | some t =>
        rw [take_fRefCount]
        grind
    cases old with
    | none => grind [giveBack]
    | some t =>
      rw [giveBack_fRefCount]
      grind

end Counts

def Balances (m : Sessions σ) (pushes : List (PushOf σ)) : Prop := ∀ done, done <+: pushes →
  (∀ s, (run m done).2.fRefCount s = m.fRefCount s + if (run m done).1.fSession = some s then 1 else 0) ∧
    (run m done).1.destroy (run m done).2 = m

/-- Every push finds a mode in which the current session can be given back. -/
def Steady (m : Sessions σ) : Option σ → Bool → Bool → List (PushOf σ) → Prop
  | _, _, _, [] => True
  | current, taken, flag, p :: rest => Fits m current taken (p.1.getD flag) ∧
      Steady m p.2 (if p.2 = current then taken else p.1.getD flag) (p.1.getD flag) rest

theorem run_fRefCount (m : Sessions σ) (pushes : List (PushOf σ)) (s : σ) :
    (run m pushes).2.fRefCount s = m.fRefCount s + if (run m pushes).1.fSession = some s then 1 else 0 := by
  induction pushes using List.reverseRecOn generalizing s with
  | nil => simp [run, new]
  | append_singleton pushes p ih =>
    rw [run, List.foldl_append]
    exact push_fRefCount p ih s

theorem steady_iff {m : Sessions σ} {current : Option σ} {taken flag : Bool} (pushes : List (PushOf σ))
    (fits : Fits m current taken flag) :
    (∀ done, done <+: pushes → (done.foldl push (⟨current, flag⟩, take taken current m)).1.destroy
      (done.foldl push (⟨current, flag⟩, take taken current m)).2 = m) ↔ Steady m current taken flag pushes := by
  induction pushes generalizing current taken flag with
  | nil =>
    refine iff_of_true (fun done start => ?_) trivial
    rw [List.prefix_nil.mp start]
    exact destroy_take_iff.mpr fits
  | cons p rest ih =>
    rw [Steady]
    constructor
    · intro all
      have fitsNow := (destroy_push_iff flag p).mp (all [p] (List.prefix_append [p] rest))
      refine ⟨fitsNow, (ih (fits_next p.2 fitsNow)).mp fun done start => ?_⟩
      have after := all (p :: done) (List.cons_prefix_cons.mpr ⟨rfl, start⟩)
      rw [List.foldl_cons, push_fits fitsNow] at after
      exact after
    · rintro ⟨fitsNow, later⟩ done start
      cases done with
      | nil => exact destroy_take_iff.mpr fits
      | cons q done =>
        obtain ⟨rfl, begun⟩ := List.cons_prefix_cons.mp start
        rw [List.foldl_cons, push_fits fitsNow]
        exact (ih (fits_next q.2 fitsNow)).mpr later done begun

/-- A context gives back what it took exactly if every session is given back in the mode it was taken in, or was
taken in the copy mode by a thread that has not locked it. -/
theorem context_balances_iff (m : Sessions σ) (pushes : List (PushOf σ)) :
    Balances m pushes ↔ Steady m none false false pushes := by
  have start : Fits m (none : Option σ) false false := fits_refl none
  rw [← steady_iff pushes start]
  constructor
  · intro balances done first
    exact (balances done first).2
  · intro ends done first
    exact ⟨run_fRefCount m done, ends done first⟩

/-- A session that was kept locked stays locked when the copy mode is on at its end: `Lock` once more before the
only `Unlock`. -/
theorem context_leaks : ¬ ∀ (m : Sessions Unit) (pushes : List (PushOf Unit)), Balances m pushes := by
  intro all
  have leak := congrArg (fun m => m.depth ()) (all ⟨fun _ => 0, fun _ => 0⟩ [(none, some ()), (some true, none)] _
    (List.prefix_refl _)).2
  revert leak
  decide

end Context

end Coast.Session
