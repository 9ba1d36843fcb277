import Mathlib.Data.List.Induction
import Mathlib.Logic.Function.Basic
import Mathlib.Tactic.Common

/-!
# The recursive mutex

The native mutex is not recursive. Its owner is known from `fLocker`, which every thread reads and writes
without a lock, in one piece, and how often a thread has locked it from a table of its own. The native
functions do not fail, apart from `CONDWAIT`, and no count overflows.
-/

namespace Coast.Threading.Mutex

inductive Phase where
  /-- `TRYLOCK` in `Lock` or in `TryLock`. -/
  | tryLock (blocks : Bool)
  | locked
  | busy (blocks : Bool)
  /-- `LOCKMUTEX`. -/
  | lock
  | unlock
  | released
  /-- `UNLOCKMUTEX`. -/
  | unlockNative
  | releaseForWait
  /-- `CONDWAIT` or `CONDTIMEDWAIT`. -/
  | condWait
  | asleep
  | acquireAfterWait
  deriving DecidableEq, Repr

inductive Return (μ : Type) where
  | locked (m : μ)
  /-- `TryLock` returns false. -/
  | refused (m : μ)
  | unlocked (m : μ)
  | waited (m : μ)
  deriving DecidableEq, Repr

structure Locks (θ μ : Type) where
  fMutex : μ → Option θ
  fLocker : μ → Option θ
  countarray : θ → Option (μ → Option Int)
  place : θ → Option (μ × Phase)

variable {θ μ : Type} [DecidableEq θ] [DecidableEq μ]

namespace Locks

def new : Locks θ μ := ⟨fun _ => none, fun _ => none, fun _ => none, fun _ => none⟩

def getCount (s : Locks θ μ) (t : θ) (m : μ) : Int :=
  match s.countarray t with
  | some table => (table m).getD 0
  | none => 0

def setCount (newCount : Int) (t : θ) (m : μ) (s : Locks θ μ) : Locks θ μ :=
  let countarray := if s.countarray t = none ∧ newCount > 0 then some fun _ => none else s.countarray t
  let stored := countarray.map fun table => Function.update table m (if newCount ≤ 0 then none else some newCount)
  { s with countarray := Function.update s.countarray t stored }

def setNative (x : Option θ) (m : μ) (s : Locks θ μ) : Locks θ μ := { s with fMutex := Function.update s.fMutex m x }

def setLocker (x : Option θ) (m : μ) (s : Locks θ μ) : Locks θ μ := { s with fLocker := Function.update s.fLocker m x }

def goto (p : Option (μ × Phase)) (t : θ) (s : Locks θ μ) : Locks θ μ := { s with place := Function.update s.place t p }

def phaseAt (s : Locks θ μ) (t : θ) (m : μ) : Option Phase :=
  match s.place t with
  | some (k, phase) => if k = m then some phase else none
  | none => none

end Locks

open Locks

/-- How a call begins. `Wait` and `TimedWait` are for a mutex that is locked. -/
def Begins (s : Locks θ μ) (t : θ) (m : μ) : Phase → Prop
  | .tryLock _ | .unlock => True
  | .releaseForWait => 0 < s.getCount t m
  | _ => False

inductive Step (s : Locks θ μ) (t : θ) : Option (Return μ) → Locks θ μ → Prop where
  | call {m : μ} {phase : Phase} (outside : s.place t = none) (begins : Begins s t m phase) :
    Step s t none (s.goto (some (m, phase)) t)
  | tryLock {m : μ} {blocks : Bool} (here : s.place t = some (m, .tryLock blocks)) (free : s.fMutex m = none) :
    Step s t none ((s.setNative (some t) m).goto (some (m, .locked)) t)
  | tryLockFails {m : μ} {blocks : Bool} (here : s.place t = some (m, .tryLock blocks)) (held : s.fMutex m ≠ none) :
    Step s t none (s.goto (some (m, .busy blocks)) t)
  | locked {m : μ} (here : s.place t = some (m, .locked)) :
    Step s t (some (.locked m)) (((s.setLocker (some t) m).setCount 1 t m).goto none t)
  | recursive {m : μ} {blocks : Bool} (here : s.place t = some (m, .busy blocks)) (mine : s.fLocker m = some t) :
    Step s t (some (.locked m)) ((s.setCount (1 + s.getCount t m) t m).goto none t)
  | refused {m : μ} (here : s.place t = some (m, .busy false)) (other : s.fLocker m ≠ some t) :
    Step s t (some (.refused m)) (s.goto none t)
  | blocks {m : μ} (here : s.place t = some (m, .busy true)) (other : s.fLocker m ≠ some t) :
    Step s t none (s.goto (some (m, .lock)) t)
  | lock {m : μ} (here : s.place t = some (m, .lock)) (free : s.fMutex m = none) :
    Step s t none ((s.setNative (some t) m).goto (some (m, .locked)) t)
  | unlock {m : μ} (here : s.place t = some (m, .unlock)) (mine : s.fLocker m = some t) (more : 0 < s.getCount t m - 1) :
    Step s t (some (.unlocked m)) ((s.setCount (s.getCount t m - 1) t m).goto none t)
  | unlockLast {m : μ} (here : s.place t = some (m, .unlock)) (mine : s.fLocker m = some t)
    (last : s.getCount t m - 1 ≤ 0) :
    Step s t none ((s.setCount (s.getCount t m - 1) t m).goto (some (m, .released)) t)
  | unlockOther {m : μ} (here : s.place t = some (m, .unlock)) (other : s.fLocker m ≠ some t) :
    Step s t (some (.unlocked m)) (s.goto none t)
  | released {m : μ} (here : s.place t = some (m, .released)) :
    Step s t none (((s.setLocker none m).setCount 0 t m).goto (some (m, .unlockNative)) t)
  | unlockNative {m : μ} (here : s.place t = some (m, .unlockNative)) :
    Step s t (some (.unlocked m)) ((s.setNative none m).goto none t)
  | releaseForWait {m : μ} (here : s.place t = some (m, .releaseForWait)) :
    Step s t none ((s.setLocker none m).goto (some (m, .condWait)) t)
  | condWait {m : μ} (here : s.place t = some (m, .condWait)) :
    Step s t none ((s.setNative none m).goto (some (m, .asleep)) t)
  /-- The native function returns with an error and has kept the mutex. -/
  | condWaitFails {m : μ} (here : s.place t = some (m, .condWait)) :
    Step s t none (s.goto (some (m, .acquireAfterWait)) t)
  | wakes {m : μ} (here : s.place t = some (m, .asleep)) (free : s.fMutex m = none) :
    Step s t none ((s.setNative (some t) m).goto (some (m, .acquireAfterWait)) t)
  | acquireAfterWait {m : μ} (here : s.place t = some (m, .acquireAfterWait)) :
    Step s t (some (.waited m)) ((s.setLocker (some t) m).goto none t)

abbrev Calls (θ μ : Type) := List (θ × Return μ)

inductive Run (s : Locks θ μ) : Calls θ μ → Locks θ μ → Prop where
  | refl : Run s [] s
  | step {calls : Calls θ μ} {s' s'' : Locks θ μ} {t : θ} {r : Option (Return μ)} (run : Run s calls s')
    (step : Step s' t r s'') : Run s (calls ++ (r.map (t, ·)).toList) s''

def depth (t : θ) (m : μ) (calls : Calls θ μ) : Nat :=
  calls.foldl (fun n c => if c = (t, .locked m) then n + 1 else if c = (t, .unlocked m) then n - 1 else n) 0

def Phase.waiting : Phase → Bool
  | releaseForWait | condWait | asleep | acquireAfterWait => true
  | _ => false

def Locks.Waits (s : Locks θ μ) (t : θ) (m : μ) : Prop := ∃ phase, s.phaseAt t m = some phase ∧ phase.waiting = true

/-! ### What a step leaves alone -/

section Fields

set_option linter.unusedSectionVars false

variable {s : Locks θ μ} {t u : θ} {m k : μ} {x : Option θ} {p : Option (μ × Phase)} {n : Int}

@[simp] theorem goto_fMutex : (s.goto p t).fMutex = s.fMutex := rfl
@[simp] theorem goto_fLocker : (s.goto p t).fLocker = s.fLocker := rfl
@[simp] theorem goto_getCount : (s.goto p t).getCount = s.getCount := rfl
@[simp] theorem setNative_fLocker : (s.setNative x m).fLocker = s.fLocker := rfl
@[simp] theorem setNative_getCount : (s.setNative x m).getCount = s.getCount := rfl
@[simp] theorem setLocker_fMutex : (s.setLocker x m).fMutex = s.fMutex := rfl
@[simp] theorem setLocker_getCount : (s.setLocker x m).getCount = s.getCount := rfl
@[simp] theorem setCount_fMutex : (s.setCount n t m).fMutex = s.fMutex := rfl
@[simp] theorem setCount_fLocker : (s.setCount n t m).fLocker = s.fLocker := rfl

@[simp] theorem setNative_self : (s.setNative x m).fMutex m = x := by
  simp [setNative]

@[simp] theorem setLocker_self : (s.setLocker x m).fLocker m = x := by
  simp [setLocker]

theorem goto_place : (s.goto p t).place t = p := by
  simp [goto]

theorem setCount_self : (s.setCount n t m).getCount t m = if n ≤ 0 then 0 else n := by
  rw [getCount, setCount]
  dsimp only
  rw [Function.update_self]
  by_cases positive : n ≤ 0
  · rw [if_pos positive]
    cases s.countarray t with
    | none => simp [Int.not_lt.mpr positive]
    | some table => simp [positive]
  · rw [if_neg positive]
    cases s.countarray t with
    | none => simp [positive, Int.not_le.mp positive]
    | some table => simp [positive]

theorem setCount_other (other : (u, k) ≠ (t, m)) : (s.setCount n t m).getCount u k = s.getCount u k := by
  by_cases thread : u = t
  · subst thread
    have mutex : k ≠ m := fun same => other (by rw [same])
    rw [getCount, setCount, getCount]
    dsimp only
    rw [Function.update_self]
    cases s.countarray u with
    | none =>
      by_cases positive : 0 < n <;> simp [positive, mutex]
    | some table => simp [mutex]
  · rw [getCount, setCount, getCount]
    dsimp only
    rw [Function.update_of_ne thread]

theorem update_iff {f : μ → Option θ} (taker : x = none ∨ x = some t) (taken : f m = none ∨ f m = some t)
    (other : (u, k) ≠ (t, m)) : Function.update f m x k = some u ↔ f k = some u := by
  by_cases mutex : k = m
  · subst mutex
    have thread : t ≠ u := fun same => other (by rw [same])
    rw [Function.update_self]
    rcases taker with rfl | rfl <;> rcases taken with taken | taken <;> simp [taken, thread]
  · rw [Function.update_of_ne mutex]

theorem phaseAt_goto {phase : Phase} : (s.goto (some (m, phase)) t).phaseAt t m = some phase := by
  simp [phaseAt, goto]

theorem phaseAt_outside : (s.goto none t).phaseAt t m = none := by
  simp [phaseAt, goto]

theorem phaseAt_other (from_ : ∀ c, s.place t = some c → c.1 = m) (to_ : ∀ c, p = some c → c.1 = m)
    (other : (u, k) ≠ (t, m)) : (s.goto p t).phaseAt u k = s.phaseAt u k := by
  by_cases thread : u = t
  · subst thread
    have mutex : m ≠ k := fun same => other (by rw [same])
    rw [phaseAt, phaseAt, goto_place]
    have nowhere : ∀ q : Option (μ × Phase), (∀ c, q = some c → c.1 = m) →
        (match q with
        | some (k', phase) => if k' = k then some phase else none
        | none => none) = none := by
      intro q only
      cases q with
      | none => rfl
      | some c =>
        have here := only c rfl
        exact if_neg (here ▸ mutex)
    rw [nowhere p to_, nowhere _ from_]
  · rw [phaseAt, phaseAt, goto]
    dsimp only
    rw [Function.update_of_ne thread]

end Fields

/-! ### The invariant -/

/-- Whether a thread holds the native mutex that it has locked `d` times. -/
def owns : Option Phase → Nat → Prop
  | some .locked, _ => True
  | some .asleep, _ => False
  | _, d => 0 < d

def isLocker : Option Phase → Nat → Prop
  | some .locked, _ | some .unlockNative, _ | some .condWait, _ | some .asleep, _ | some .acquireAfterWait, _ => False
  | _, d => 0 < d

def counted : Option Phase → Nat → Int
  | some .released, _ | some .unlockNative, _ => 0
  | _, d => d

def depthFits : Option Phase → Nat → Prop
  | some .locked, d | some .lock, d => d = 0
  | some .released, d | some .unlockNative, d => d = 1
  | some .releaseForWait, d | some .condWait, d | some .asleep, d | some .acquireAfterWait, d => 0 < d
  | _, _ => True

/-- What the native mutex, `fLocker` and the table of a thread say agrees with the calls that the thread has made. -/
structure Agrees (s : Locks θ μ) (t : θ) (m : μ) (d : Nat) : Prop where
  native : s.fMutex m = some t ↔ owns (s.phaseAt t m) d
  locker : s.fLocker m = some t ↔ isLocker (s.phaseAt t m) d
  count : s.getCount t m = counted (s.phaseAt t m) d
  fits : depthFits (s.phaseAt t m) d

structure Apart (s s' : Locks θ μ) (u : θ) (k : μ) : Prop where
  phase : s'.phaseAt u k = s.phaseAt u k
  native : s'.fMutex k = some u ↔ s.fMutex k = some u
  locker : s'.fLocker k = some u ↔ s.fLocker k = some u
  count : s'.getCount u k = s.getCount u k

omit [DecidableEq θ] in
theorem Agrees.apart {s s' : Locks θ μ} {u : θ} {k : μ} {d : Nat} (agrees : Agrees s u k d) (apart : Apart s s' u k) :
    Agrees s' u k d where
  native := apart.native.trans (apart.phase ▸ agrees.native)
  locker := apart.locker.trans (apart.phase ▸ agrees.locker)
  count := apart.count.trans (apart.phase ▸ agrees.count)
  fits := apart.phase ▸ agrees.fits

omit [DecidableEq θ] [DecidableEq μ] in
theorem owns_of_isLocker {phase : Option Phase} {d : Nat} (locker : isLocker phase d) : owns phase d := by
  rcases phase with _ | phase
  · exact locker
  · cases phase <;> first | exact locker | exact locker.elim

section Steps

variable {s s' : Locks θ μ} {t u : θ} {m k : μ} {calls : Calls θ μ} {d : Nat}

omit [DecidableEq θ] in
theorem phaseAt_here {phase : Phase} (here : s.place t = some (m, phase)) : s.phaseAt t m = some phase := by
  simp [phaseAt, here]

omit [DecidableEq θ] in
theorem phaseAt_of_outside (outside : s.place t = none) : s.phaseAt t m = none := by
  simp [phaseAt, outside]

theorem agrees_goto {phase : Phase} (native : s.fMutex m = some t ↔ owns (some phase) d)
    (locker : s.fLocker m = some t ↔ isLocker (some phase) d) (count : s.getCount t m = counted (some phase) d)
    (fits : depthFits (some phase) d) : Agrees (s.goto (some (m, phase)) t) t m d := by
  constructor <;> rw [phaseAt_goto] <;> assumption

theorem agrees_outside (native : s.fMutex m = some t ↔ 0 < d) (locker : s.fLocker m = some t ↔ 0 < d)
    (count : s.getCount t m = d) : Agrees (s.goto none t) t m d := by
  constructor <;> rw [phaseAt_outside]
  · exact native
  · exact locker
  · exact count
  · trivial

structure Same (s s' : Locks θ μ) (t : θ) (m : μ) : Prop where
  place : s'.place = s.place
  native : ∀ u k, (u, k) ≠ (t, m) → (s'.fMutex k = some u ↔ s.fMutex k = some u)
  locker : ∀ u k, (u, k) ≠ (t, m) → (s'.fLocker k = some u ↔ s.fLocker k = some u)
  count : ∀ u k, (u, k) ≠ (t, m) → s'.getCount u k = s.getCount u k

omit [DecidableEq θ] [DecidableEq μ] in
theorem same_refl (s : Locks θ μ) : Same s s t m := ⟨rfl, fun _ _ _ => Iff.rfl, fun _ _ _ => Iff.rfl, fun _ _ _ => rfl⟩

theorem same_setNative {x : Option θ} (taker : x = none ∨ x = some t) (taken : s.fMutex m = none ∨ s.fMutex m = some t) :
    Same s (s.setNative x m) t m :=
  ⟨rfl, fun _ _ other => update_iff taker taken other, fun _ _ _ => Iff.rfl, fun _ _ _ => rfl⟩

theorem same_setLocker {x : Option θ} (taker : x = none ∨ x = some t)
    (taken : s.fLocker m = none ∨ s.fLocker m = some t) : Same s (s.setLocker x m) t m :=
  ⟨rfl, fun _ _ _ => Iff.rfl, fun _ _ other => update_iff taker taken other, fun _ _ _ => rfl⟩

theorem Same.setCount (same : Same s s' t m) (n : Int) : Same s (s'.setCount n t m) t m where
  place := same.place
  native := same.native
  locker := same.locker
  count u k other := (setCount_other other).trans (same.count u k other)

theorem Same.apart {p : Option (μ × Phase)} (same : Same s s' t m) (from_ : ∀ c, s.place t = some c → c.1 = m)
    (to_ : ∀ c, p = some c → c.1 = m) (other : (u, k) ≠ (t, m)) : Apart s (s'.goto p t) u k where
  phase := by
    rw [phaseAt_other (same.place ▸ from_) to_ other, phaseAt, phaseAt, same.place]
  native := same.native u k other
  locker := same.locker u k other
  count := same.count u k other

theorem locker_free (inv : ∀ u k, Agrees s u k (depth u k calls)) (holds : s.fMutex m = some t) :
    s.fLocker m = none ∨ s.fLocker m = some t := by
  cases locker : s.fLocker m with
  | none => exact .inl rfl
  | some u =>
    have holder := (inv u m).native.mpr (owns_of_isLocker ((inv u m).locker.mp locker))
    exact .inr (holder.symm.trans holds)

structure Moves (s s' : Locks θ μ) (t : θ) (r : Option (Return μ)) (m : μ) (calls : Calls θ μ) : Prop where
  apart : ∀ u k, (u, k) ≠ (t, m) → Apart s s' u k
  of : ∀ x, r = some x → x = .locked m ∨ x = .refused m ∨ x = .unlocked m ∨ x = .waited m
  agrees : Agrees s' t m (depth t m (calls ++ (r.map (t, ·)).toList))

theorem depth_locked : depth t m (calls ++ [(t, .locked m)]) = depth t m calls + 1 := by
  simp [depth]

theorem depth_unlocked : depth t m (calls ++ [(t, .unlocked m)]) = depth t m calls - 1 := by
  simp [depth]

theorem depth_refused : depth u k (calls ++ [(t, .refused m)]) = depth u k calls := by
  simp [depth]

theorem depth_waited : depth u k (calls ++ [(t, .waited m)]) = depth u k calls := by
  simp [depth]

theorem Same.moves {phase : Phase} (same : Same s s' t m) (from_ : ∀ c, s.place t = some c → c.1 = m)
    (agrees : Agrees (s'.goto (some (m, phase)) t) t m (depth t m calls)) :
    Moves s (s'.goto (some (m, phase)) t) t none m calls where
  apart u k other := same.apart from_ (by rintro _ ⟨⟩; rfl) other
  of := by rintro _ ⟨⟩
  agrees := by
    rw [Option.map_none, Option.toList_none, List.append_nil]
    exact agrees

theorem Same.returns {x : Return μ} (same : Same s s' t m) (from_ : ∀ c, s.place t = some c → c.1 = m)
    (of : x = .locked m ∨ x = .refused m ∨ x = .unlocked m ∨ x = .waited m)
    (agrees : Agrees (s'.goto none t) t m (depth t m (calls ++ [(t, x)]))) : Moves s (s'.goto none t) t (some x) m calls where
  apart u k other := same.apart from_ (by rintro _ ⟨⟩) other
  of := by
    rintro _ ⟨⟩
    exact of
  agrees := agrees

theorem agrees_here {phase : Phase} (inv : ∀ u k, Agrees s u k (depth u k calls)) (here : s.place t = some (m, phase)) :
    (s.fMutex m = some t ↔ owns (some phase) (depth t m calls)) ∧
      (s.fLocker m = some t ↔ isLocker (some phase) (depth t m calls)) ∧
      s.getCount t m = counted (some phase) (depth t m calls) ∧ depthFits (some phase) (depth t m calls) := by
  have agrees := inv t m
  have at_ := phaseAt_here here
  exact ⟨at_ ▸ agrees.native, at_ ▸ agrees.locker, at_ ▸ agrees.count, at_ ▸ agrees.fits⟩

theorem Step.moves {r : Option (Return μ)} (inv : ∀ u k, Agrees s u k (depth u k calls)) (step : Step s t r s') :
    ∃ m, Moves s s' t r m calls := by
  have only : ∀ {m : μ} {phase : Phase}, s.place t = some (m, phase) → ∀ c, s.place t = some c → c.1 = m := by
    rintro m phase here c there
    rw [here] at there
    cases there
    rfl
  cases step with
  | @call m phase outside begins =>
    refine ⟨m, (same_refl s).moves (by rintro _ there; cases outside.symm.trans there) ?_⟩
    obtain ⟨native, locker, count, -⟩ := inv t m
    rw [phaseAt_of_outside outside] at native locker count
    cases phase with
    | tryLock | unlock => exact agrees_goto native locker count trivial
    | releaseForWait =>
      have locked : 0 < s.getCount t m := begins
      have counts : s.getCount t m = depth t m calls := count
      exact agrees_goto native locker count (Int.natCast_pos.mp (counts ▸ locked))
    | _ => exact begins.elim
  | @tryLock m blocks here free =>
    obtain ⟨native, locker, count, -⟩ := agrees_here inv here
    refine ⟨m, (same_setNative (.inr rfl) (.inl free)).moves (only here) ?_⟩
    have none : depth t m calls = 0 := by
      rw [free] at native
      exact Nat.eq_zero_of_not_pos fun locked => by cases native.mpr locked
    refine agrees_goto (iff_of_true setNative_self trivial) ?_ count none
    exact iff_of_false (fun mine => absurd (locker.mp mine) (none ▸ Nat.lt_irrefl 0)) id
  | @tryLockFails m blocks here held =>
    obtain ⟨native, locker, count, -⟩ := agrees_here inv here
    exact ⟨m, (same_refl s).moves (only here) (agrees_goto native locker count trivial)⟩
  | @locked m here =>
    obtain ⟨native, locker, count, none⟩ := agrees_here inv here
    have owned := native.mpr trivial
    refine ⟨m, ((same_setLocker (.inr rfl) (locker_free inv owned)).setCount 1).returns (only here) (.inl rfl) ?_⟩
    have once : depth t m (calls ++ [(t, .locked m)]) = 1 := depth_locked.trans (congrArg (· + 1) none)
    rw [once]
    exact agrees_outside (iff_of_true owned Nat.one_pos) (iff_of_true setLocker_self Nat.one_pos) setCount_self
  | @recursive m blocks here mine =>
    obtain ⟨native, locker, count, -⟩ := agrees_here inv here
    refine ⟨m, ((same_refl s).setCount _).returns (only here) (.inl rfl) ?_⟩
    have before : 0 < depth t m calls := locker.mp mine
    have again : 0 < depth t m calls + 1 := Nat.succ_pos _
    rw [depth_locked]
    refine agrees_outside (iff_of_true (native.mpr before) again) (iff_of_true mine again) ?_
    show (s.setCount _ t m).getCount t m = _
    have counts : s.getCount t m = depth t m calls := count
    rw [setCount_self, counts, if_neg (by omega)]
    omega
  | @refused m here other =>
    obtain ⟨native, locker, count, -⟩ := agrees_here inv here
    refine ⟨m, (same_refl s).returns (only here) (.inr (.inl rfl)) ?_⟩
    rw [depth_refused]
    exact agrees_outside native locker count
  | @blocks m here other =>
    obtain ⟨native, locker, count, -⟩ := agrees_here inv here
    have none : depth t m calls = 0 := Nat.eq_zero_of_not_pos fun locked => other (locker.mpr locked)
    exact ⟨m, (same_refl s).moves (only here) (agrees_goto native locker count none)⟩
  | @lock m here free =>
    obtain ⟨native, locker, count, none⟩ := agrees_here inv here
    refine ⟨m, (same_setNative (.inr rfl) (.inl free)).moves (only here) ?_⟩
    have none : depth t m calls = 0 := none
    refine agrees_goto (iff_of_true setNative_self trivial) ?_ count none
    exact iff_of_false (fun mine => absurd (locker.mp mine) (none ▸ Nat.lt_irrefl 0)) id
  | @unlock m here mine more =>
    obtain ⟨native, locker, count, -⟩ := agrees_here inv here
    refine ⟨m, ((same_refl s).setCount _).returns (only here) (.inr (.inr (.inl rfl))) ?_⟩
    have counts : s.getCount t m = depth t m calls := count
    have before : 0 < depth t m calls := locker.mp mine
    have still : 0 < depth t m calls - 1 := by omega
    rw [depth_unlocked]
    refine agrees_outside (iff_of_true (native.mpr before) still) (iff_of_true mine still) ?_
    show (s.setCount _ t m).getCount t m = _
    rw [setCount_self, if_neg (by omega)]
    omega
  | @unlockLast m here mine last =>
    obtain ⟨native, locker, count, -⟩ := agrees_here inv here
    refine ⟨m, ((same_refl s).setCount _).moves (only here) ?_⟩
    have counts : s.getCount t m = depth t m calls := count
    have before : 0 < depth t m calls := locker.mp mine
    have once : depth t m calls = 1 := by omega
    exact agrees_goto native locker (setCount_self.trans (if_pos last)) once
  | @unlockOther m here other =>
    obtain ⟨native, locker, count, -⟩ := agrees_here inv here
    refine ⟨m, (same_refl s).returns (only here) (.inr (.inr (.inl rfl))) ?_⟩
    have none : depth t m calls = 0 := Nat.eq_zero_of_not_pos fun locked => other (locker.mpr locked)
    have still : depth t m calls - 1 = depth t m calls := by omega
    rw [depth_unlocked, still]
    exact agrees_outside native locker count
  | @released m here =>
    obtain ⟨native, locker, count, once⟩ := agrees_here inv here
    have once : depth t m calls = 1 := once
    have before : 0 < depth t m calls := by omega
    refine ⟨m, ((same_setLocker (.inl rfl) (.inr (locker.mpr before))).setCount 0).moves (only here) ?_⟩
    exact agrees_goto native (iff_of_false (by rw [setCount_fLocker, setLocker_self]; rintro ⟨⟩) id) setCount_self once
  | @unlockNative m here =>
    obtain ⟨native, locker, count, once⟩ := agrees_here inv here
    have once : depth t m calls = 1 := once
    have before : 0 < depth t m calls := by omega
    refine ⟨m, (same_setNative (.inl rfl) (.inr (native.mpr before))).returns (only here) (.inr (.inr (.inl rfl))) ?_⟩
    rw [depth_unlocked, once]
    exact agrees_outside (iff_of_false (by rw [setNative_self]; rintro ⟨⟩) (Nat.lt_irrefl 0))
      (iff_of_false locker.mp (Nat.lt_irrefl 0)) count
  | @releaseForWait m here =>
    obtain ⟨native, locker, count, deep⟩ := agrees_here inv here
    have deep : 0 < depth t m calls := deep
    refine ⟨m, (same_setLocker (.inl rfl) (.inr (locker.mpr deep))).moves (only here) ?_⟩
    exact agrees_goto native (iff_of_false (by rw [setLocker_self]; rintro ⟨⟩) id) count deep
  | @condWait m here =>
    obtain ⟨native, locker, count, deep⟩ := agrees_here inv here
    have deep : 0 < depth t m calls := deep
    refine ⟨m, (same_setNative (.inl rfl) (.inr (native.mpr deep))).moves (only here) ?_⟩
    exact agrees_goto (iff_of_false (by rw [setNative_self]; rintro ⟨⟩) id) locker count deep
  | @condWaitFails m here =>
    obtain ⟨native, locker, count, deep⟩ := agrees_here inv here
    exact ⟨m, (same_refl s).moves (only here) (agrees_goto native locker count deep)⟩
  | @wakes m here free =>
    obtain ⟨native, locker, count, deep⟩ := agrees_here inv here
    have deep : 0 < depth t m calls := deep
    refine ⟨m, (same_setNative (.inr rfl) (.inl free)).moves (only here) ?_⟩
    exact agrees_goto (iff_of_true setNative_self deep) locker count deep
  | @acquireAfterWait m here =>
    obtain ⟨native, locker, count, deep⟩ := agrees_here inv here
    have deep : 0 < depth t m calls := deep
    have owned := native.mpr deep
    refine ⟨m, (same_setLocker (.inr rfl) (locker_free inv owned)).returns (only here) (.inr (.inr (.inr rfl))) ?_⟩
    rw [depth_waited]
    exact agrees_outside native (iff_of_true setLocker_self deep) count

theorem depth_other {r : Option (Return μ)} (of : ∀ x, r = some x → x = .locked m ∨ x = .refused m ∨ x = .unlocked m ∨ x = .waited m)
    (other : (u, k) ≠ (t, m)) : depth u k (calls ++ (r.map (t, ·)).toList) = depth u k calls := by
  cases r with
  | none => exact congrArg (depth u k) (List.append_nil calls)
  | some x =>
    have apart : ¬ (t = u ∧ m = k) := by
      rintro ⟨rfl, rfl⟩
      exact other rfl
    rw [Option.map_some, Option.toList_some, depth, depth, List.foldl_append]
    rcases of x rfl with rfl | rfl | rfl | rfl <;> simp [apart]

theorem Step.agrees {r : Option (Return μ)} (inv : ∀ u k, Agrees s u k (depth u k calls)) (step : Step s t r s') :
    ∀ u k, Agrees s' u k (depth u k (calls ++ (r.map (t, ·)).toList)) := by
  obtain ⟨m, apart, of, agrees⟩ := step.moves inv
  intro u k
  by_cases here : (u, k) = (t, m)
  · cases here
    exact agrees
  · rw [depth_other of here]
    exact (inv u k).apart (apart u k here)

theorem Run.agrees {s₀ : Locks θ μ} {before : Calls θ μ} (inv : ∀ u k, Agrees s₀ u k (depth u k before))
    (run : Run s₀ calls s) : ∀ u k, Agrees s u k (depth u k (before ++ calls)) := by
  induction run with
  | refl =>
    rw [List.append_nil]
    exact inv
  | step _ step ih =>
    rw [← List.append_assoc]
    exact step.agrees ih

theorem new_agrees (u : θ) (k : μ) : Agrees (.new : Locks θ μ) u k (depth u k []) where
  native := iff_of_false (by rintro ⟨⟩) (Nat.lt_irrefl 0)
  locker := iff_of_false (by rintro ⟨⟩) (Nat.lt_irrefl 0)
  count := rfl
  fits := trivial

theorem reached_agrees (run : Run .new calls s) (u : θ) (k : μ) : Agrees s u k (depth u k calls) :=
  run.agrees new_agrees u k

/-! ### What threads see of the mutex -/

omit [DecidableEq θ] in
theorem holds_of_depth (agrees : Agrees s t m d) (deep : 0 < d) (awake : ¬ s.Waits t m) : s.fMutex m = some t := by
  refine agrees.native.mpr ?_
  cases phase : s.phaseAt t m with
  | none => exact deep
  | some phase' =>
    cases phase' with
    | locked => trivial
    | asleep => exact absurd ⟨_, phase, rfl⟩ awake
    | _ => exact deep

theorem holder_unique (run : Run .new calls s) (first : 0 < depth t m calls) (second : 0 < depth u m calls)
    (awake : ¬ s.Waits t m) (awake' : ¬ s.Waits u m) : t = u := by
  have holds := holds_of_depth (reached_agrees run t m) first awake
  have holds' := holds_of_depth (reached_agrees run u m) second awake'
  exact Option.some.inj (holds.symm.trans holds')

theorem outside_agrees (run : Run .new calls s) (outside : s.place t = none) (m : μ) :
    s.getCount t m = depth t m calls ∧ (s.fMutex m = some t ↔ 0 < depth t m calls) := by
  obtain ⟨native, -, count, -⟩ := reached_agrees run t m
  rw [phaseAt_of_outside outside] at native count
  exact ⟨count, native⟩

theorem Step.place_of_return {x : Return μ} (step : Step s t (some x) s') : s'.place t = none := by
  cases step <;> exact goto_place

/-- Who locks a mutex holds it then, so that a thread that has locked it before is this one or waits. -/
theorem lock_excludes (run : Run .new calls s) (step : Step s u (some (.locked m)) s') (deep : 0 < depth t m calls) :
    t = u ∨ s.Waits t m := by
  by_cases same : t = u
  · exact .inl same
  · refine .inr (by_contra fun awake => same ?_)
    have holds := holds_of_depth (reached_agrees run t m) deep awake
    obtain ⟨k, moves⟩ := step.moves (reached_agrees run)
    have still := (moves.apart t m (fun both => same (congrArg Prod.fst both))).native.mpr holds
    have locked : 0 < depth u m (calls ++ [(u, .locked m)]) := by
      rw [depth_locked]
      exact Nat.succ_pos _
    have taken := ((outside_agrees (run.step step) step.place_of_return m).2).mpr locked
    exact Option.some.inj (still.symm.trans taken)

theorem unlock_by_other {r : Option (Return μ)} (run : Run .new calls s) (here : s.place t = some (m, .unlock))
    (none : depth t m calls = 0) (step : Step s t r s') : r = some (.unlocked m) ∧ s' = s.goto .none t := by
  have other : s.fLocker m ≠ some t := by
    intro mine
    have deep := (agrees_here (reached_agrees run) here).2.1.mp mine
    exact absurd deep (none ▸ Nat.lt_irrefl 0)
  cases step with
  | unlock here' mine | unlockLast here' mine =>
    rw [here] at here'
    cases here'
    exact absurd mine other
  | unlockOther here' =>
    rw [here] at here'
    cases here'
    exact ⟨rfl, rfl⟩
  | _ here' =>
    rw [here] at here'
    cases here'

theorem depth_silent {later : Calls θ μ} (silent : ∀ x, (t, x) ∉ later) : depth t m (calls ++ later) = depth t m calls := by
  induction later using List.reverseRecOn with
  | nil => rw [List.append_nil]
  | append_singleton later c ih =>
    have other : ∀ x, c ≠ (t, x) := by
      rintro x rfl
      exact silent x (List.mem_append_right later (List.mem_singleton_self _))
    rw [← ih fun x call => silent x (List.mem_append_left _ call), ← List.append_assoc, depth, List.foldl_append]
    simp [other, depth]

/-- A wait is one call, after which the mutex is locked as often as before it. -/
theorem wait_restores {later : Calls θ μ} {s₂ : Locks θ μ} (run : Run .new calls s) (outside : s.place t = none)
    (during : Run s later s') (waits : ∀ x, (t, x) ∉ later) (step : Step s' t (some (.waited m)) s₂) :
    s₂.getCount t m = s.getCount t m ∧ s₂.fMutex m = some t := by
  have inv := during.agrees (reached_agrees run)
  have deep : 0 < depth t m (calls ++ later) := by
    cases step with
    | acquireAfterWait here => exact (agrees_here inv here).2.2.2
  obtain ⟨native, -, count, -⟩ := step.agrees inv t m
  rw [phaseAt_of_outside step.place_of_return] at native count
  have same : depth t m (calls ++ later ++ [(t, .waited m)]) = depth t m calls :=
    depth_waited.trans (depth_silent waits)
  constructor
  · rw [(outside_agrees run outside m).1]
    exact count.trans (congrArg Nat.cast same)
  · exact native.mpr (same ▸ depth_silent waits ▸ deep)

/-- The mutex excludes other threads while a thread has locked it more often than unlocked it, apart from the
thread's waits. -/
theorem mutex_excludes (run : Run .new calls s) :
    (∀ m t u, 0 < depth t m calls → 0 < depth u m calls → ¬ s.Waits t m → ¬ s.Waits u m → t = u) ∧
    (∀ t m, 0 < depth t m calls → ¬ s.Waits t m → s.fMutex m = some t) ∧
    (∀ t m, s.place t = none → s.getCount t m = depth t m calls ∧ (s.fMutex m = some t ↔ 0 < depth t m calls)) ∧
    (∀ t u m s', Step s u (some (.locked m)) s' → 0 < depth t m calls → t = u ∨ s.Waits t m) ∧
    (∀ t m r s', s.place t = some (m, .unlock) → depth t m calls = 0 → Step s t r s' →
      r = some (.unlocked m) ∧ s' = s.goto none t) ∧
    (∀ t m later s' s₂, s.place t = none → Run s later s' → (∀ x, (t, x) ∉ later) → Step s' t (some (.waited m)) s₂ →
      s₂.getCount t m = s.getCount t m ∧ s₂.fMutex m = some t) := by
  refine ⟨?_, ?_, ?_, ?_, ?_, ?_⟩
  · intro m t u first second awake awake'
    exact holder_unique run first second awake awake'
  · intro t m deep awake
    exact holds_of_depth (reached_agrees run t m) deep awake
  · intro t m outside
    exact outside_agrees run outside m
  · intro t u m s' step deep
    exact lock_excludes run step deep
  · intro t m r s' here none step
    exact unlock_by_other run here none step
  · intro t m later s' s₂ outside during waits step
    exact wait_restores run outside during waits step

end Steps

theorem mutex_excludes_once : ∃ s : Locks Bool Unit, Run .new [(true, .locked ())] s ∧ s.fMutex () = some true ∧
    ∀ u s', Step s u (some (.locked ())) s' → true = u ∨ s.Waits true () := by
  have called : Run (.new : Locks Bool Unit) _ _ := Run.refl.step (@Step.call _ _ _ _ _ true () (.tryLock true) rfl trivial)
  have tried := called.step (@Step.tryLock _ _ _ _ _ true () true rfl rfl)
  have locked := tried.step (@Step.locked _ _ _ _ _ true () rfl)
  refine ⟨_, locked, rfl, fun u s' step => (mutex_excludes locked).2.2.2.1 true u () s' step ?_⟩
  decide

end Coast.Threading.Mutex
