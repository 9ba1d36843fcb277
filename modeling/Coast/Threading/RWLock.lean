import Coast.Lib.Pool
import Mathlib.Data.Int.Order.Basic
import Mathlib.Logic.Relation

/-!
# The read/write lock

Each call works in one section under the mutex of the lock, or in several of them with a
`pthread_cond_wait` in between. The pthread functions succeed. A thread may hold the lock several times.
-/

namespace Coast.Threading

open Pool

inductive Status where
  | success
  | EINVAL
  | EBUSY
  deriving DecidableEq, Repr

def RWLOCK_VALID : Nat := 0xfacade

structure RWLock where
  valid : Nat
  rActive : Int
  wActive : Int
  rWait : Int
  wWait : Int
  deriving DecidableEq, Repr

namespace RWLock

def init : RWLock where
  valid := RWLOCK_VALID
  rActive := 0
  wActive := 0
  rWait := 0
  wWait := 0

inductive Outcome where
  | returns (status : Status)
  /-- In `pthread_cond_wait`. -/
  | waits
  deriving DecidableEq, Repr

inductive WakeUp where
  | nobody
  | signalWrite
  | broadcastRead
  deriving DecidableEq, Repr

variable (rwl : RWLock)

def readlock : RWLock × WakeUp × Outcome :=
  if rwl.valid ≠ RWLOCK_VALID then (rwl, .nobody, .returns .EINVAL)
  else if rwl.wActive ≠ 0 then ({ rwl with rWait := rwl.rWait + 1 }, .nobody, .waits)
  else ({ rwl with rActive := rwl.rActive + 1 }, .nobody, .returns .success)

def readlockResumed : RWLock × WakeUp × Outcome :=
  if rwl.wActive ≠ 0 then (rwl, .nobody, .waits)
  else ({ rwl with rWait := rwl.rWait - 1, rActive := rwl.rActive + 1 }, .nobody, .returns .success)

def readtrylock : RWLock × WakeUp × Outcome :=
  if rwl.valid ≠ RWLOCK_VALID then (rwl, .nobody, .returns .EINVAL)
  else if rwl.wActive ≠ 0 then (rwl, .nobody, .returns .EBUSY)
  else ({ rwl with rActive := rwl.rActive + 1 }, .nobody, .returns .success)

def readunlock : RWLock × WakeUp × Outcome :=
  if rwl.valid ≠ RWLOCK_VALID then (rwl, .nobody, .returns .EINVAL)
  else ({ rwl with rActive := rwl.rActive - 1 },
    if rwl.rActive - 1 = 0 ∧ rwl.wWait > 0 then .signalWrite else .nobody, .returns .success)

def writelock : RWLock × WakeUp × Outcome :=
  if rwl.valid ≠ RWLOCK_VALID then (rwl, .nobody, .returns .EINVAL)
  else if rwl.wActive ≠ 0 ∨ rwl.rActive > 0 then ({ rwl with wWait := rwl.wWait + 1 }, .nobody, .waits)
  else ({ rwl with wActive := 1 }, .nobody, .returns .success)

def writelockResumed : RWLock × WakeUp × Outcome :=
  if rwl.wActive ≠ 0 ∨ rwl.rActive > 0 then (rwl, .nobody, .waits)
  else ({ rwl with wWait := rwl.wWait - 1, wActive := 1 }, .nobody, .returns .success)

def writetrylock : RWLock × WakeUp × Outcome :=
  if rwl.valid ≠ RWLOCK_VALID then (rwl, .nobody, .returns .EINVAL)
  else if rwl.wActive ≠ 0 ∨ rwl.rActive > 0 then (rwl, .nobody, .returns .EBUSY)
  else ({ rwl with wActive := 1 }, .nobody, .returns .success)

def writeunlock : RWLock × WakeUp × Outcome :=
  if rwl.valid ≠ RWLOCK_VALID then (rwl, .nobody, .returns .EINVAL)
  else ({ rwl with wActive := 0 },
    if rwl.rWait > 0 then .broadcastRead else if rwl.wWait > 0 then .signalWrite else .nobody, .returns .success)

end RWLock

/-! ### Threads -/

inductive Mode where
  | read
  | write
  deriving DecidableEq, Repr

inductive Call where
  | lock (mode : Mode)
  | trylock (mode : Mode)
  | unlock (mode : Mode)
  deriving DecidableEq, Repr

def Call.perform (rwl : RWLock) : Call → RWLock × RWLock.WakeUp × RWLock.Outcome
  | lock .read => rwl.readlock
  | lock .write => rwl.writelock
  | trylock .read => rwl.readtrylock
  | trylock .write => rwl.writetrylock
  | unlock .read => rwl.readunlock
  | unlock .write => rwl.writeunlock

def Mode.resumed (rwl : RWLock) : Mode → RWLock × RWLock.WakeUp × RWLock.Outcome
  | read => rwl.readlockResumed
  | write => rwl.writelockResumed

inductive Place where
  | outside
  | asleep (mode : Mode)
  /-- Signalled or woken without a signal, and not yet back under the mutex. -/
  | woken (mode : Mode)
  deriving DecidableEq, Repr

structure Locker where
  place : Place
  holds : Mode → Nat

namespace Locker

def new : Locker := ⟨.outside, fun _ => 0⟩

def take (mode : Mode) (t : Locker) : Locker := ⟨.outside, Function.update t.holds mode (t.holds mode + 1)⟩

def give (mode : Mode) (t : Locker) : Locker := ⟨.outside, Function.update t.holds mode (t.holds mode - 1)⟩

def tried (mode : Mode) (t : Locker) : RWLock.Outcome → Locker
  | .waits => { t with place := .asleep mode }
  | .returns .success => t.take mode
  | .returns _ => { t with place := .outside }

def after (t : Locker) (outcome : RWLock.Outcome) : Call → Locker
  | .lock mode => t.tried mode outcome
  | .trylock mode => t.tried mode outcome
  | .unlock mode => if outcome = .returns .success then t.give mode else t

def May (t : Locker) (c : Call) : Prop := t.place = .outside ∧ ∀ mode, c = .unlock mode → 0 < t.holds mode

def wake (mode : Mode) (t : Locker) : Locker := if t.place = .asleep mode then { t with place := .woken mode } else t

end Locker

structure Lockers where
  rwl : RWLock
  threads : List Locker

def Lockers.new (threads : Nat) : Lockers := ⟨.init, List.replicate threads .new⟩

inductive Wakes : RWLock.WakeUp → List Locker → List Locker → Prop where
  | nobody {threads : List Locker} : Wakes .nobody threads threads
  | broadcast {threads : List Locker} : Wakes .broadcastRead threads (threads.map (·.wake .read))
  | signal {threads : List Locker} {i : Nat} {t : Locker} (here : threads[i]? = some t) (sleeps : t.place = .asleep .write) :
    Wakes .signalWrite threads (replace threads i (some (t.wake .write)))
  | unheard {threads : List Locker} (awake : ∀ t ∈ threads, t.place ≠ .asleep .write) : Wakes .signalWrite threads threads

inductive LockStep (σ : Lockers) : Lockers → Prop where
  | call {i : Nat} {t : Locker} {c : Call} {threads : List Locker} (here : σ.threads[i]? = some t) (may : t.May c)
    (wakes : Wakes (c.perform σ.rwl).2.1 (replace σ.threads i (some (t.after (c.perform σ.rwl).2.2 c))) threads) :
    LockStep σ ⟨(c.perform σ.rwl).1, threads⟩
  | resume {i : Nat} {t : Locker} {mode : Mode} {threads : List Locker} (here : σ.threads[i]? = some t)
    (back : t.place = .woken mode)
    (wakes : Wakes (mode.resumed σ.rwl).2.1 (replace σ.threads i (some (t.tried mode (mode.resumed σ.rwl).2.2))) threads) :
    LockStep σ ⟨(mode.resumed σ.rwl).1, threads⟩
  | spurious {i : Nat} {t : Locker} {mode : Mode} (here : σ.threads[i]? = some t) (sleeps : t.place = .asleep mode) :
    LockStep σ ⟨σ.rwl, replace σ.threads i (some (t.wake mode))⟩

/-! ### What the threads hold and wait for -/

section Totals

def held (mode : Mode) : List Locker → Nat := total fun t => t.holds mode

def asleep (mode : Mode) : List Locker → Nat := total fun t => if t.place = .asleep mode then 1 else 0

def woken (mode : Mode) : List Locker → Nat := total fun t => if t.place = .woken mode then 1 else 0

variable {σ σ' : Lockers} {threads threads' : List Locker} {i : Nat} {t next : Locker}

theorem totals_replace (here : threads[i]? = some t) (next : Locker) (mode : Mode) :
    held mode (replace threads i (some next)) + t.holds mode = held mode threads + next.holds mode ∧
    asleep mode (replace threads i (some next)) + (if t.place = .asleep mode then 1 else 0) =
      asleep mode threads + (if next.place = .asleep mode then 1 else 0) ∧
    woken mode (replace threads i (some next)) + (if t.place = .woken mode then 1 else 0) =
      woken mode threads + (if next.place = .woken mode then 1 else 0) :=
  ⟨total_replace _ here (some next), total_replace _ here (some next), total_replace _ here (some next)⟩

theorem held_of_mem (mem : t ∈ threads) (mode : Mode) : t.holds mode ≤ held mode threads :=
  @le_total _ (fun t => t.holds mode) _ _ mem

theorem asleep_eq_zero {mode : Mode} : asleep mode threads = 0 ↔ ∀ t ∈ threads, t.place ≠ .asleep mode := by
  constructor
  · intro none t mem sleeps
    have counted := @le_total _ (fun t : Locker => if t.place = .asleep mode then 1 else 0) _ _ mem
    rw [if_pos sleeps] at counted
    exact absurd none (Nat.ne_of_gt counted)
  · intro awake
    by_contra some
    obtain ⟨t, mem, counted⟩ := exists_of_total_ne_zero some
    exact counted (if_neg (awake t mem))

theorem woken_ne_zero {mode : Mode} (some : woken mode threads ≠ 0) : ∃ t ∈ threads, t.place = .woken mode := by
  obtain ⟨t, mem, counted⟩ := exists_of_total_ne_zero some
  exact ⟨t, mem, by_contra fun elsewhere => counted (if_neg elsewhere)⟩

theorem broadcast_totals (threads : List Locker) (mode : Mode) :
    held mode (threads.map (·.wake .read)) = held mode threads ∧
    asleep mode (threads.map (·.wake .read)) = (if mode = .read then 0 else asleep mode threads) ∧
    woken mode (threads.map (·.wake .read)) =
      woken mode threads + (if mode = .read then asleep mode threads else 0) := by
  induction threads with
  | nil => cases mode <;> exact ⟨rfl, rfl, rfl⟩
  | cons t threads ih =>
    obtain ⟨holds, sleeps, wakes⟩ := ih
    simp only [held, asleep, woken, List.map_cons, total_cons] at holds sleeps wakes ⊢
    rw [holds, sleeps, wakes]
    rcases t with ⟨place, holds⟩
    cases mode <;> cases place with
    | outside => simp [Locker.wake]
    | asleep other => cases other <;> simp [Locker.wake] <;> omega
    | woken other => cases other <;> simp [Locker.wake] <;> omega

theorem wakes_totals {w : RWLock.WakeUp} (wakes : Wakes w threads threads') :
    (∀ mode, held mode threads' = held mode threads ∧ asleep mode threads' ≤ asleep mode threads ∧
      asleep mode threads' + woken mode threads' = asleep mode threads + woken mode threads) ∧
    (w = .broadcastRead → asleep .read threads' = 0) ∧
    (w = .signalWrite → asleep .write threads' = 0 ∨ woken .write threads' ≠ 0) := by
  cases wakes with
  | nobody => exact ⟨fun mode => ⟨rfl, Nat.le_refl _, rfl⟩, nofun, nofun⟩
  | broadcast =>
    refine ⟨fun mode => ?_, fun _ => (broadcast_totals threads .read).2.1, nofun⟩
    obtain ⟨holds, sleeps, wakes⟩ := broadcast_totals threads mode
    cases mode <;> simp only [reduceCtorEq, if_true, if_false] at sleeps wakes <;> omega
  | @signal _ i t here sleeps =>
    have woke : t.wake .write = { t with place := .woken .write } := if_pos sleeps
    have changed := totals_replace here { t with place := .woken .write }
    rw [woke]
    refine ⟨fun mode => ?_, nofun, fun _ => .inr ?_⟩
    · have now := changed mode
      simp only [sleeps, Place.asleep.injEq, Place.woken.injEq, reduceCtorEq, if_false] at now
      omega
    · have now := changed .write
      simp only [sleeps, reduceCtorEq, if_true, if_false] at now
      omega
  | unheard awake => exact ⟨fun mode => ⟨rfl, Nat.le_refl _, rfl⟩, nofun, fun _ => .inl (asleep_eq_zero.mpr awake)⟩

end Totals

/-! ### The invariant -/

structure Lockers.Sound (σ : Lockers) : Prop where
  valid : σ.rwl.valid = RWLOCK_VALID
  readers : σ.rwl.rActive = held .read σ.threads
  writers : σ.rwl.wActive = held .write σ.threads
  waitingReaders : σ.rwl.rWait = asleep .read σ.threads + woken .read σ.threads
  waitingWriters : σ.rwl.wWait = asleep .write σ.threads + woken .write σ.threads
  exclusive : held .write σ.threads = 0 ∨ held .write σ.threads = 1 ∧ held .read σ.threads = 0
  readersAwake : held .write σ.threads = 0 → asleep .read σ.threads = 0
  /-- A free lock with a writer on the condition has a thread on its way. -/
  writersAwake : held .write σ.threads = 0 → held .read σ.threads = 0 → asleep .write σ.threads ≠ 0 →
    woken .read σ.threads ≠ 0 ∨ woken .write σ.threads ≠ 0

theorem new_sound (threads : Nat) : (Lockers.new threads).Sound := by
  have nothing : ∀ weight : Locker → Nat, weight .new = 0 → total weight (List.replicate threads .new) = 0 := by
    intro weight zero
    induction threads with
    | zero => rfl
    | succ threads ih => rw [List.replicate_succ, total_cons, zero, ih]
  have holds : ∀ mode, held mode (List.replicate threads .new) = 0 := fun mode => nothing _ rfl
  have sleeps : ∀ mode, asleep mode (List.replicate threads .new) = 0 := fun mode => nothing _ rfl
  have wakes : ∀ mode, woken mode (List.replicate threads .new) = 0 := fun mode => nothing _ rfl
  constructor <;> simp [Lockers.new, RWLock.init, holds, sleeps, wakes]

theorem woken_sound {rActive wActive rWait wWait : Int} {w : RWLock.WakeUp} {mid threads : List Locker}
    (wakes : Wakes w mid threads) (readers : rActive = held .read mid) (writers : wActive = held .write mid)
    (waitingReaders : rWait = asleep .read mid + woken .read mid)
    (waitingWriters : wWait = asleep .write mid + woken .write mid)
    (exclusive : held .write mid = 0 ∨ held .write mid = 1 ∧ held .read mid = 0)
    (readersAwake : held .write mid = 0 → asleep .read mid = 0 ∨ w = .broadcastRead)
    (writersAwake : held .write mid = 0 → held .read mid = 0 → asleep .write mid ≠ 0 →
      woken .read mid ≠ 0 ∨ woken .write mid ≠ 0 ∨ w = .signalWrite ∨ w = .broadcastRead ∧ asleep .read mid ≠ 0) :
    (⟨⟨RWLOCK_VALID, rActive, wActive, rWait, wWait⟩, threads⟩ : Lockers).Sound := by
  obtain ⟨each, broadcast, signal⟩ := wakes_totals wakes
  obtain ⟨heldRead, lessRead, sumRead⟩ := each .read
  obtain ⟨heldWrite, lessWrite, sumWrite⟩ := each .write
  constructor
  · rfl
  · rw [readers, heldRead]
  · rw [writers, heldWrite]
  · show rWait = _
    rw [waitingReaders]
    exact_mod_cast sumRead.symm
  · show wWait = _
    rw [waitingWriters]
    exact_mod_cast sumWrite.symm
  · rwa [heldRead, heldWrite]
  · intro free
    rcases readersAwake (heldWrite ▸ free) with none | told
    · exact Nat.le_zero.mp (none ▸ lessRead)
    · exact broadcast told
  · intro noWriter noReader sleeps
    dsimp only at noWriter noReader sleeps ⊢
    have before : asleep .write mid ≠ 0 := by omega
    rcases writersAwake (heldWrite ▸ noWriter) (heldRead ▸ noReader) before with some | some | told | ⟨told, some⟩
    · exact .inl (by omega)
    · exact .inr (by omega)
    · exact .inr ((signal told).resolve_left sleeps)
    · have none := broadcast told
      exact .inl (by omega)

theorem call_sound {σ : Lockers} (sound : σ.Sound) {i : Nat} {t : Locker} {c : Call} {threads : List Locker}
    (here : σ.threads[i]? = some t) (may : t.May c)
    (wakes : Wakes (c.perform σ.rwl).2.1 (replace σ.threads i (some (t.after (c.perform σ.rwl).2.2 c))) threads) :
    (⟨(c.perform σ.rwl).1, threads⟩ : Lockers).Sound := by
  rcases σ with ⟨⟨valid, rActive, wActive, rWait, wWait⟩, before⟩
  obtain ⟨rfl, readers, writers, waitingReaders, waitingWriters, exclusive, readersAwake, writersAwake⟩ := sound
  obtain ⟨outside, owns⟩ := may
  have changed := totals_replace here (t.after (c.perform ⟨RWLOCK_VALID, rActive, wActive, rWait, wWait⟩).2.2 c)
  have reading := changed .read
  have writing := changed .write
  have holds := held_of_mem (List.mem_of_getElem? here)
  have holdsRead := holds .read
  have holdsWrite := holds .write
  dsimp only at *
  generalize replace before i _ = mid at *
  cases c with
  | lock mode =>
    cases mode with
    | read =>
      by_cases free : wActive = 0 <;>
        simp only [Call.perform, RWLock.readlock, ne_eq, not_true_eq_false, not_false_eq_true, free, Locker.after, Locker.tried,
          Locker.take, Function.update_self, Function.update_of_ne, outside, reduceCtorEq, Place.asleep.injEq, if_true,
          if_false] at wakes reading writing ⊢ <;>
        apply woken_sound wakes <;> omega
    | write =>
      by_cases busy : wActive ≠ 0 ∨ rActive > 0 <;>
        simp only [Call.perform, RWLock.writelock, ne_eq, not_true_eq_false, not_false_eq_true, busy, Locker.after, Locker.tried,
          Locker.take, Function.update_self, Function.update_of_ne, outside, reduceCtorEq, Place.asleep.injEq, if_true,
          if_false] at wakes reading writing ⊢ <;>
        apply woken_sound wakes <;> omega
  | trylock mode =>
    cases mode with
    | read =>
      by_cases free : wActive = 0 <;>
        simp only [Call.perform, RWLock.readtrylock, ne_eq, not_true_eq_false, not_false_eq_true, free, Locker.after,
          Locker.tried, Locker.take, Function.update_self, Function.update_of_ne, outside, reduceCtorEq, if_true,
          if_false] at wakes reading writing ⊢ <;>
        apply woken_sound wakes <;> omega
    | write =>
      by_cases busy : wActive ≠ 0 ∨ rActive > 0 <;>
        simp only [Call.perform, RWLock.writetrylock, ne_eq, not_true_eq_false, not_false_eq_true, busy, Locker.after,
          Locker.tried, Locker.take, Function.update_self, Function.update_of_ne, outside, reduceCtorEq, if_true,
          if_false] at wakes reading writing ⊢ <;>
        apply woken_sound wakes <;> omega
  | unlock mode =>
    have own := owns mode rfl
    cases mode with
    | read =>
      simp only [Call.perform, RWLock.readunlock, ne_eq, not_true_eq_false, not_false_eq_true, Locker.after, Locker.give,
        Function.update_self, Function.update_of_ne, outside, reduceCtorEq, if_true, if_false] at wakes reading writing ⊢
      split at wakes
      · -- the last reader signals, so that a writer on the condition is no obstacle
        exact woken_sound wakes (by omega) (by omega) (by omega) (by omega) (by omega) (by omega)
          fun _ _ _ => .inr (.inr (.inl rfl))
      · apply woken_sound wakes <;> omega
    | write =>
      simp only [Call.perform, RWLock.writeunlock, ne_eq, not_true_eq_false, not_false_eq_true, Locker.after, Locker.give,
        Function.update_self, Function.update_of_ne, outside, reduceCtorEq, if_true, if_false] at wakes reading writing ⊢
      split at wakes
      · -- of the waiting readers each is woken already or by the broadcast
        refine woken_sound wakes (by omega) (by omega) (by omega) (by omega) (by omega) (fun _ => .inr rfl) fun _ _ _ => ?_
        by_cases none : asleep .read mid = 0
        · exact .inl (by omega)
        · exact .inr (.inr (.inr ⟨rfl, none⟩))
      · split at wakes
        · exact woken_sound wakes (by omega) (by omega) (by omega) (by omega) (by omega) (by omega)
            fun _ _ _ => .inr (.inr (.inl rfl))
        · apply woken_sound wakes <;> omega

theorem resume_sound {σ : Lockers} (sound : σ.Sound) {i : Nat} {t : Locker} {mode : Mode} {threads : List Locker}
    (here : σ.threads[i]? = some t) (back : t.place = .woken mode)
    (wakes : Wakes (mode.resumed σ.rwl).2.1 (replace σ.threads i (some (t.tried mode (mode.resumed σ.rwl).2.2))) threads) :
    (⟨(mode.resumed σ.rwl).1, threads⟩ : Lockers).Sound := by
  rcases σ with ⟨⟨valid, rActive, wActive, rWait, wWait⟩, before⟩
  obtain ⟨rfl, readers, writers, waitingReaders, waitingWriters, exclusive, readersAwake, writersAwake⟩ := sound
  have changed := totals_replace here (t.tried mode (mode.resumed ⟨RWLOCK_VALID, rActive, wActive, rWait, wWait⟩).2.2)
  have reading := changed .read
  have writing := changed .write
  dsimp only at *
  generalize replace before i _ = mid at *
  cases mode with
  | read =>
    by_cases free : wActive = 0 <;>
      simp only [Mode.resumed, RWLock.readlockResumed, ne_eq, not_true_eq_false, not_false_eq_true, free, Locker.tried,
        Locker.take, Function.update_self, Function.update_of_ne, back, reduceCtorEq, Place.asleep.injEq, Place.woken.injEq, if_true,
        if_false] at wakes reading writing ⊢ <;>
      apply woken_sound wakes <;> omega
  | write =>
    by_cases busy : wActive ≠ 0 ∨ rActive > 0 <;>
      simp only [Mode.resumed, RWLock.writelockResumed, ne_eq, not_false_eq_true, busy, Locker.tried, Locker.take,
        Function.update_self, Function.update_of_ne, back, reduceCtorEq, Place.asleep.injEq, Place.woken.injEq, if_true,
        if_false] at wakes reading writing ⊢ <;>
      apply woken_sound wakes <;> omega

theorem step_sound {σ σ' : Lockers} (step : LockStep σ σ') (sound : σ.Sound) : σ'.Sound := by
  cases step with
  | call here may wakes => exact call_sound sound here may wakes
  | resume here back wakes => exact resume_sound sound here back wakes
  | @spurious i t mode here sleeps =>
    rcases σ with ⟨⟨valid, rActive, wActive, rWait, wWait⟩, before⟩
    obtain ⟨rfl, readers, writers, waitingReaders, waitingWriters, exclusive, readersAwake, writersAwake⟩ := sound
    have woke : t.wake mode = { t with place := .woken mode } := if_pos sleeps
    have changed := totals_replace here { t with place := .woken mode }
    have reading := changed .read
    have writing := changed .write
    rw [woke]
    cases mode <;>
      simp only [sleeps, Place.asleep.injEq, Place.woken.injEq, reduceCtorEq, if_true, if_false] at * <;>
      apply woken_sound .nobody <;> omega

theorem reachable_sound {threads : Nat} {σ : Lockers} (run : Relation.ReflTransGen LockStep (.new threads) σ) : σ.Sound := by
  induction run with
  | refl => exact new_sound threads
  | tail _ step ih => exact step_sound step ih

/-! ### The lock -/

def Lockers.Free (σ : Lockers) : Prop := ∀ t ∈ σ.threads, ∀ mode, t.holds mode = 0

def waiting (mode : Mode) : List Locker → Nat :=
  total fun t => if t.place = .asleep mode ∨ t.place = .woken mode then 1 else 0

theorem waiting_eq (mode : Mode) (threads : List Locker) : waiting mode threads = asleep mode threads + woken mode threads := by
  unfold asleep woken
  rw [← total_add]
  refine congrArg (total · threads) (funext fun t => ?_)
  by_cases sleeps : t.place = .asleep mode <;> by_cases woke : t.place = .woken mode <;> simp_all

theorem Lockers.Free.held {σ : Lockers} (free : σ.Free) (mode : Mode) : held mode σ.threads = 0 := by
  by_contra some
  obtain ⟨t, mem, holds⟩ := exists_of_total_ne_zero some
  exact holds (free t mem mode)

/-- The writers and the readers exclude each other, the counters are the numbers of those who hold the
lock and who wait for it, and while the lock is free no reader is on its condition, and no writer unless
a waiter has been woken and is on its way to the lock. -/
theorem rwlock_sound {threads : Nat} {σ : Lockers} (run : Relation.ReflTransGen LockStep (.new threads) σ) :
    (held .write σ.threads = 0 ∨ held .write σ.threads = 1 ∧ held .read σ.threads = 0) ∧
    σ.rwl.rActive = held .read σ.threads ∧ σ.rwl.wActive = held .write σ.threads ∧
    σ.rwl.rWait = waiting .read σ.threads ∧ σ.rwl.wWait = waiting .write σ.threads ∧
    (σ.Free → (∀ t ∈ σ.threads, t.place ≠ .asleep .read) ∧
      ((∃ t ∈ σ.threads, t.place = .asleep .write) → ∃ t ∈ σ.threads, ∃ mode, t.place = .woken mode)) := by
  have sound := reachable_sound run
  refine ⟨sound.exclusive, sound.readers, sound.writers, ?_, ?_, fun free => ⟨?_, ?_⟩⟩
  · rw [waiting_eq, sound.waitingReaders, Int.natCast_add]
  · rw [waiting_eq, sound.waitingWriters, Int.natCast_add]
  · exact asleep_eq_zero.mp (sound.readersAwake (free.held .write))
  · rintro ⟨t, mem, sleeps⟩
    have some : asleep .write σ.threads ≠ 0 := fun none => asleep_eq_zero.mp none t mem sleeps
    rcases sound.writersAwake (free.held .write) (free.held .read) some with reader | writer
    · obtain ⟨t, mem, woke⟩ := woken_ne_zero reader
      exact ⟨t, mem, .read, woke⟩
    · obtain ⟨t, mem, woke⟩ := woken_ne_zero writer
      exact ⟨t, mem, .write, woke⟩

theorem rwlock_sound_locked : ∃ σ, Relation.ReflTransGen LockStep (.new 1) σ ∧ held .write σ.threads = 1 ∧
    σ.rwl.wActive = held .write σ.threads :=
  have run := .single (.call (i := 0) (c := .lock .write) rfl ⟨rfl, nofun⟩ .nobody)
  ⟨_, run, rfl, (rwlock_sound run).2.2.1⟩

/-- A writer unlocks while a reader and a writer wait: the reader alone is woken, and the lock is free. -/
theorem writer_sleeps : ∃ σ, Relation.ReflTransGen LockStep (.new 3) σ ∧ σ.Free ∧
    (∃ t ∈ σ.threads, t.place = .asleep .write) ∧ ∀ t ∈ σ.threads, t.place ≠ .woken .write := by
  refine ⟨_, .head (.call (i := 0) (c := .lock .write) rfl ⟨rfl, nofun⟩ .nobody)
    (.head (.call (i := 1) (c := .lock .read) rfl ⟨rfl, nofun⟩ .nobody)
    (.head (.call (i := 2) (c := .lock .write) rfl ⟨rfl, nofun⟩ .nobody)
    (.single (.call (i := 0) (c := .unlock .write) rfl ⟨rfl, fun | .write, _ => Nat.one_pos⟩ .broadcast)))), ?_, ?_, ?_⟩
  · intro t mem mode
    rcases mem with _ | ⟨_, _ | ⟨_, _ | ⟨_, ⟨⟩⟩⟩⟩ <;> cases mode <;> rfl
  · exact ⟨_, .tail _ (.tail _ (.head _)), rfl⟩
  · intro t mem
    rcases mem with _ | ⟨_, _ | ⟨_, _ | ⟨_, ⟨⟩⟩⟩⟩ <;> exact nofun

end Coast.Threading
