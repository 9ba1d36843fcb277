import Coast.Lib.Spans
import Coast.Time.TimeStamp
import Mathlib.Tactic.IntervalCases

/-!
# The calendar

Years and months are spans of days. The days of a date are counted from the start of year 0, and so are its seconds.
A stamp shows a date and time when its components are those of it.
-/

namespace Coast.Time

open Spans

def LeapYear (y : Nat) : Prop := 4 ∣ y ∧ (¬ 100 ∣ y ∨ 400 ∣ y)

instance (y : Nat) : Decidable (LeapYear y) := inferInstanceAs (Decidable (_ ∧ _))

def yearLength (y : Nat) : Nat := if LeapYear y then 366 else 365

def monthLength (y m : Nat) : Nat :=
  if m = 2 then (if LeapYear y then 29 else 28) else if m = 4 ∨ m = 6 ∨ m = 9 ∨ m = 11 then 30 else 31

def monthSpan (y i : Nat) : Nat := monthLength y (i + 1)

structure DateTime where
  year : Nat
  month : Nat
  day : Nat
  hour : Nat
  minute : Nat
  second : Nat
  month_pos : 1 ≤ month
  month_le : month ≤ 12
  day_pos : 1 ≤ day
  day_le : day ≤ monthLength year month
  hour_lt : hour < 24
  minute_lt : minute < 60
  second_lt : second < 60

namespace DateTime

def fields (d : DateTime) : List Nat := [d.year, d.month, d.day, d.hour, d.minute, d.second]

def dayOfYear (d : DateTime) : Nat := start (monthSpan d.year) (d.month - 1) + (d.day - 1)

def dayNumber (d : DateTime) : Nat := start yearLength d.year + d.dayOfYear

def secondOfDay (d : DateTime) : Nat := d.hour * 3600 + d.minute * 60 + d.second

def secondNumber (d : DateTime) : Nat := 86400 * d.dayNumber + d.secondOfDay

end DateTime

def epoch : Nat := 719528

/-! ### Years and months -/

theorem yearLength_le (y : Nat) : 365 ≤ yearLength y ∧ yearLength y ≤ 366 := by
  unfold yearLength
  split <;> simp

theorem start_yearLength (y : Nat) : start yearLength y + (y + 99) / 100 = 365 * y + (y + 3) / 4 + (y + 399) / 400 := by
  induction y with
  | zero => simp
  | succ y ih =>
    rw [start_succ, yearLength]
    by_cases leap : LeapYear y
    all_goals
      simp only [leap, if_true, if_false]
      unfold LeapYear at leap
      omega

theorem start_1970 : start yearLength 1970 = epoch := by
  have counted := start_yearLength 1970
  rw [epoch]
  omega

theorem le_monthLength_iff (y m day : Nat) : day ≤ monthLength y m ↔
    day ≤ 31 ∧ (m = 2 → day ≤ if LeapYear y then 29 else 28) ∧ (m = 4 ∨ m = 6 ∨ m = 9 ∨ m = 11 → day ≤ 30) := by
  by_cases leap : LeapYear y
  all_goals
    simp only [monthLength, leap, if_true, if_false]
    split
    · omega
    · split <;> omega

theorem start_monthSpan (y : Nat) : start (monthSpan y) 12 = yearLength y := by
  by_cases leap : LeapYear y <;> simp [start, Finset.sum_range_succ, monthSpan, monthLength, yearLength, leap]

theorem isLeap_iff (y : Nat) : isLeap y = true ↔ LeapYear y := by
  simp only [isLeap, LeapYear, Bool.and_eq_true, Bool.or_eq_true, beq_iff_eq, bne_iff_ne]
  omega

/-! ### Dates -/

namespace DateTime

variable {d e : DateTime}

theorem day_lt (d : DateTime) : d.day - 1 < monthSpan d.year (d.month - 1) := by
  have inside := d.day_le
  have first := d.day_pos
  rw [monthSpan, Nat.sub_add_cancel d.month_pos]
  omega

theorem dayOfYear_lt (d : DateTime) : d.dayOfYear < yearLength d.year := by
  have last := d.month_le
  have first := d.month_pos
  have span : start (monthSpan d.year) (d.month - 1) + monthSpan d.year (d.month - 1) ≤ start (monthSpan d.year) 12 :=
    end_le_start (by omega)
  have inside := d.day_lt
  rw [start_monthSpan] at span
  rw [dayOfYear]
  omega

theorem secondOfDay_lt (d : DateTime) : d.secondOfDay < 86400 := by
  have hour := d.hour_lt
  have minute := d.minute_lt
  have second := d.second_lt
  simp only [secondOfDay]
  omega

theorem dayOfYear_lt_iff (same : d.year = e.year) :
    d.dayOfYear < e.dayOfYear ↔ d.month < e.month ∨ d.month = e.month ∧ d.day < e.day := by
  have here := d.day_lt
  rw [same] at here
  rw [dayOfYear, dayOfYear, same, position_lt_iff here e.day_lt]
  have := d.month_pos
  have := e.month_pos
  have := d.day_pos
  have := e.day_pos
  omega

theorem dayNumber_lt_iff : d.dayNumber < e.dayNumber ↔ d.year < e.year ∨ d.year = e.year ∧ d.dayOfYear < e.dayOfYear :=
  position_lt_iff d.dayOfYear_lt e.dayOfYear_lt

theorem secondOfDay_lt_iff : d.secondOfDay < e.secondOfDay ↔
    d.hour < e.hour ∨ d.hour = e.hour ∧ (d.minute < e.minute ∨ d.minute = e.minute ∧ d.second < e.second) := by
  have := d.minute_lt
  have := d.second_lt
  have := e.minute_lt
  have := e.second_lt
  simp only [secondOfDay]
  omega

theorem secondNumber_lt_iff : d.secondNumber < e.secondNumber ↔
    d.dayNumber < e.dayNumber ∨ d.dayNumber = e.dayNumber ∧ d.secondOfDay < e.secondOfDay := by
  have := d.secondOfDay_lt
  have := e.secondOfDay_lt
  simp only [secondNumber]
  omega

theorem secondNumber_lt_iff_fields : d.secondNumber < e.secondNumber ↔ d.fields < e.fields := by
  have days : d.dayNumber < e.dayNumber ↔ _ := dayNumber_lt_iff
  have days' : e.dayNumber < d.dayNumber ↔ _ := dayNumber_lt_iff
  simp only [fields, List.cons_lt_cons_iff, List.lt_irrefl, and_false, or_false, secondNumber_lt_iff, secondOfDay_lt_iff]
  rcases Nat.lt_trichotomy d.year e.year with before | same | after
  · omega
  · have months := dayOfYear_lt_iff same
    have months' := dayOfYear_lt_iff same.symm
    omega
  · omega

theorem exists_secondNumber {n y : Nat} (before : n < 86400 * start yearLength y) : ∃ d : DateTime, d.secondNumber = n ∧ d.year < y := by
  have first : start yearLength 0 + n / 86400 < start yearLength y := by
    rw [start_zero]
    omega
  obtain ⟨year, a, inside, here, earlier⟩ := exists_position first
  rw [start_zero] at here
  have days : start (monthSpan year) 0 + a < start (monthSpan year) 12 := by
    rw [start_zero, start_monthSpan]
    omega
  obtain ⟨month, b, inside', here', last⟩ := exists_position days
  rw [start_zero] at here'
  simp only [monthSpan] at inside'
  let d : DateTime := {
    year := year
    month := month + 1
    day := b + 1
    hour := n % 86400 / 3600
    minute := n % 3600 / 60
    second := n % 60
    month_pos := by omega
    month_le := by omega
    day_pos := by omega
    day_le := by omega
    hour_lt := by omega
    minute_lt := by omega
    second_lt := by omega }
  refine ⟨d, ?_, earlier⟩
  simp only [d, secondNumber, dayNumber, dayOfYear, secondOfDay, Nat.add_sub_cancel]
  omega

end DateTime

end Coast.Time
