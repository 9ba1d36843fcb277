import Mathlib.Algebra.Order.Ring.Int
import Mathlib.Tactic.Common
import Mathlib.Tactic.Ring

/-!
# The absolute time of a timed wait

`doTimedWait` hands `pthread_cond_timedwait` the time that `AdjustTimeToAbsolut` makes of a timeout. A
`long` has 64 bits, and a sum that does not fit has no value.
-/

namespace Coast.Threading.TimedWait

/-- `ONESECOND`, in nanoseconds. -/
def oneSecond : Int := 1000 * 1000 * 1000

theorem second_pos : 0 < oneSecond := by decide

def IsLong (n : Int) : Prop := -2 ^ 63 ≤ n ∧ n < 2 ^ 63

instance (n : Int) : Decidable (IsLong n) := inferInstanceAs (Decidable (_ ∧ _))

def addLong (a b : Int) : Option Int := if IsLong (a + b) then some (a + b) else none

structure Timeval where
  tv_sec : Int
  tv_usec : Int
  long : IsLong tv_sec
  nonneg : 0 ≤ tv_usec
  below : tv_usec < 10 ^ 6

/-- What the clock says: nothing where `gettimeofday` fails, and the seconds of `time`. -/
structure Clock where
  gettimeofday : Option Timeval
  time : Int
  long : IsLong time

structure Timeout where
  s : Int
  n : Int
  s_nonneg : 0 ≤ s
  n_nonneg : 0 ≤ n
  s_long : s < 2 ^ 63
  n_long : n < 2 ^ 63

theorem Timeout.isLong_n (t : Timeout) : IsLong t.n := ⟨by have := t.n_nonneg; omega, t.n_long⟩

structure Timespec where
  tv_sec : Int
  tv_nsec : Int
  deriving DecidableEq, Repr

/-! ### The code -/

def carrySeconds (s n : Int) : Option (Int × Int) :=
  if n > oneSecond then (addLong s 1).bind fun s => carrySeconds s (n - oneSecond) else some (s, n)
termination_by n.toNat
decreasing_by
  simp only [oneSecond] at *
  omega

def adjustTimeToAbsolut (clock : Clock) (s n : Int) : Option (Int × Int) :=
  match clock.gettimeofday with
  | some tv => (addLong n (tv.tv_usec * 1000)).bind fun n => (addLong s tv.tv_sec).bind fun s => carrySeconds s n
  | none => (addLong s clock.time).bind fun s => carrySeconds s n

/-- The time that `pthread_cond_timedwait` is given. -/
def doTimedWait (clock : Clock) (s n : Int) : Option Timespec :=
  (adjustTimeToAbsolut clock s n).map fun t => ⟨t.1, t.2⟩

/-! ### Clocks -/

namespace Clock

def seconds (clock : Clock) : Int := clock.gettimeofday.elim clock.time Timeval.tv_sec

def nanos (clock : Clock) : Int := clock.gettimeofday.elim 0 fun tv => tv.tv_usec * 1000

def now (clock : Clock) : Int := clock.seconds * oneSecond + clock.nanos

theorem seconds_long (clock : Clock) : IsLong clock.seconds := by
  unfold seconds
  cases clock.gettimeofday with
  | none => exact clock.long
  | some tv => exact tv.long

theorem nanos_range (clock : Clock) : 0 ≤ clock.nanos ∧ clock.nanos < oneSecond := by
  unfold nanos oneSecond
  cases clock.gettimeofday with
  | none => simp
  | some tv =>
    have nonneg := tv.nonneg
    have below := tv.below
    simp only [Option.elim_some]
    omega

end Clock

theorem addLong_of_long {a b : Int} (long : IsLong (a + b)) : addLong a b = some (a + b) := if_pos long

theorem addLong_of_not_long {a b : Int} (long : ¬IsLong (a + b)) : addLong a b = none := if_neg long

theorem adjustTimeToAbsolut_eq (clock : Clock) (s : Int) {n : Int} (long : IsLong n) :
    adjustTimeToAbsolut clock s n =
      (addLong n clock.nanos).bind fun n => (addLong s clock.seconds).bind fun s => carrySeconds s n := by
  unfold adjustTimeToAbsolut Clock.nanos Clock.seconds
  cases clock.gettimeofday with
  | none =>
    rw [Option.elim_none, Option.elim_none, addLong_of_long (b := 0) (by rwa [Int.add_zero]), Int.add_zero, Option.bind_some]
  | some tv => rfl

/-! ### The loop -/

theorem carrySeconds_zero (s : Int) : carrySeconds s 0 = some (s, 0) := by
  rw [carrySeconds, if_neg (by decide)]

theorem carrySeconds_eq {s n : Int} (long : IsLong s) (pos : 0 < n) :
    carrySeconds s n =
      if s + (n - 1) / oneSecond < 2 ^ 63 then some (s + (n - 1) / oneSecond, (n - 1) % oneSecond + 1) else none := by
  induction s, n using carrySeconds.induct with
  | case1 s n above ih =>
    have next : (n - oneSecond - 1) / oneSecond = (n - 1) / oneSecond - 1 := by unfold oneSecond at above ⊢; omega
    have rest : (n - oneSecond - 1) % oneSecond = (n - 1) % oneSecond := by unfold oneSecond at above ⊢; omega
    have turn : 0 ≤ (n - 1) / oneSecond - 1 := by unfold oneSecond at above ⊢; omega
    rw [carrySeconds, if_pos above]
    by_cases fits : IsLong (s + 1)
    · rw [addLong_of_long fits, Option.bind_some, ih (s + 1) fits (Int.sub_pos.mpr above), next, rest,
        show s + 1 + ((n - 1) / oneSecond - 1) = s + (n - 1) / oneSecond by omega]
    · rw [addLong_of_not_long fits, Option.bind_none, if_neg]
      unfold IsLong at fits long
      omega
  | case2 s n within =>
    have none_over : (n - 1) / oneSecond = 0 := by unfold oneSecond at within ⊢; omega
    have all : (n - 1) % oneSecond + 1 = n := by unfold oneSecond at within ⊢; omega
    rw [carrySeconds, if_neg within, none_over, all, Int.add_zero, if_pos long.2]

/-! ### The time that is waited for -/

/-- The timeout and the clock together fit in a time, and their nanoseconds are no whole seconds. -/
structure Normalises (clock : Clock) (t : Timeout) : Prop where
  nanoseconds : t.n + clock.nanos < 2 ^ 63
  seconds : t.s + clock.seconds + (t.n + clock.nanos) / oneSecond < 2 ^ 63
  apart : ¬(0 < t.n + clock.nanos ∧ oneSecond ∣ t.n + clock.nanos)

/-- What `pthread_cond_timedwait` asks of a time. -/
def Valid (t : Timespec) : Prop := 0 ≤ t.tv_nsec ∧ t.tv_nsec < oneSecond

def Meets (clock : Clock) (t : Timeout) : Prop :=
  ∃ time, doTimedWait clock t.s t.n = some time ∧ Valid time ∧
    time.tv_sec * oneSecond + time.tv_nsec = t.s * oneSecond + t.n + clock.now

theorem doTimedWait_of_pos {clock : Clock} {t : Timeout} (pos : 0 < t.n + clock.nanos) :
    doTimedWait clock t.s t.n =
      if t.n + clock.nanos < 2 ^ 63 ∧ t.s + clock.seconds + (t.n + clock.nanos - 1) / oneSecond < 2 ^ 63 then
        some ⟨t.s + clock.seconds + (t.n + clock.nanos - 1) / oneSecond, (t.n + clock.nanos - 1) % oneSecond + 1⟩
      else none := by
  have nonneg := t.s_nonneg
  have low := clock.seconds_long.1
  have turns : 0 ≤ (t.n + clock.nanos - 1) / oneSecond := by unfold oneSecond; omega
  rw [doTimedWait, adjustTimeToAbsolut_eq clock t.s t.isLong_n]
  by_cases nanoseconds : t.n + clock.nanos < 2 ^ 63
  · rw [addLong_of_long ⟨by omega, nanoseconds⟩, Option.bind_some]
    by_cases seconds : t.s + clock.seconds < 2 ^ 63
    · have long : IsLong (t.s + clock.seconds) := ⟨by omega, seconds⟩
      rw [addLong_of_long long, Option.bind_some, carrySeconds_eq long pos]
      simp only [nanoseconds, true_and]
      split <;> rfl
    · rw [addLong_of_not_long fun long => seconds long.2, if_neg (by omega)]
      rfl
  · rw [addLong_of_not_long fun long => nanoseconds long.2, if_neg fun both => nanoseconds both.1]
    rfl

theorem doTimedWait_of_zero {clock : Clock} {t : Timeout} (zero : t.n + clock.nanos = 0) :
    doTimedWait clock t.s t.n =
      if t.s + clock.seconds < 2 ^ 63 then some ⟨t.s + clock.seconds, 0⟩ else none := by
  have nonneg := t.s_nonneg
  have low := clock.seconds_long.1
  rw [doTimedWait, adjustTimeToAbsolut_eq clock t.s t.isLong_n,
    addLong_of_long (by rw [zero]; decide), Option.bind_some, zero]
  split
  · rw [addLong_of_long ⟨by omega, ‹_›⟩, Option.bind_some, carrySeconds_zero]
    rfl
  · rw [addLong_of_not_long fun long => absurd long.2 ‹_›]
    rfl

/-- A time past the start of a second is carried into the seconds; the start of a second is not. -/
theorem doTimedWait_iff (clock : Clock) (t : Timeout) : Meets clock t ↔ Normalises clock t := by
  have nonneg := t.n_nonneg
  have range := clock.nanos_range
  have now : t.s * oneSecond + t.n + clock.now = (t.s + clock.seconds) * oneSecond + (t.n + clock.nanos) := by
    unfold Clock.now
    ring
  unfold Meets
  rw [now]
  by_cases zero : t.n + clock.nanos = 0
  · rw [doTimedWait_of_zero zero, zero]
    constructor
    · rintro ⟨time, given, -⟩
      split at given
      · exact ⟨by omega, by rw [zero]; simpa using ‹_›, by omega⟩
      · cases given
    · intro normal
      have seconds := normal.seconds
      rw [zero, Int.zero_ediv, Int.add_zero] at seconds
      exact ⟨_, if_pos seconds, ⟨Int.le_refl 0, second_pos⟩, rfl⟩
  · have pos : 0 < t.n + clock.nanos := by omega
    have nanos : ∀ sec : Int, sec * oneSecond + (t.n + clock.nanos) =
        (sec + (t.n + clock.nanos - 1) / oneSecond) * oneSecond + ((t.n + clock.nanos - 1) % oneSecond + 1) := by
      intro sec
      have split' := Int.ediv_mul_add_emod (t.n + clock.nanos - 1) oneSecond
      rw [Int.add_mul]
      omega
    rw [doTimedWait_of_pos pos, nanos]
    constructor
    · rintro ⟨time, given, valid, -⟩
      split at given
      · rename_i fits
        obtain rfl := Option.some.inj given
        have below : (t.n + clock.nanos - 1) % oneSecond + 1 < oneSecond := valid.2
        refine ⟨fits.1, ?_, ?_⟩
        · have seconds := fits.2
          unfold oneSecond at below seconds ⊢
          omega
        · unfold oneSecond at below ⊢
          omega
      · cases given
    · rintro ⟨nanoseconds, seconds, apart⟩
      refine ⟨_, if_pos ⟨nanoseconds, ?fits⟩, ⟨?low, ?high⟩, rfl⟩
      case fits =>
        unfold oneSecond at seconds ⊢
        omega
      case low =>
        show 0 ≤ (t.n + clock.nanos - 1) % oneSecond + 1
        unfold oneSecond
        omega
      case high =>
        show (t.n + clock.nanos - 1) % oneSecond + 1 < oneSecond
        unfold oneSecond at apart ⊢
        omega

def halfPast : Clock := ⟨some ⟨0, 500000, by decide, by decide, by decide⟩, 0, by decide⟩

def halfSecond : Timeout := ⟨0, 500000000, by decide, by decide, by decide, by decide⟩

theorem doTimedWait_halfPast :
    doTimedWait halfPast halfSecond.s halfSecond.n = some ⟨0, 1000000000⟩ ∧ ¬Meets halfPast halfSecond := by
  have given : doTimedWait halfPast halfSecond.s halfSecond.n = some ⟨0, 1000000000⟩ := by
    rw [doTimedWait_of_pos (by decide)]
    decide
  refine ⟨given, ?_⟩
  rintro ⟨time, found, valid, -⟩
  obtain rfl := Option.some.inj (given.symm.trans found)
  exact absurd valid.2 (by decide)

end Coast.Threading.TimedWait
