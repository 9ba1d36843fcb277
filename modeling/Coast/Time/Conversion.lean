import Coast.Time.Calendar

/-!
# Stamps and seconds

The seconds of a stamp are those of the date that it shows, and the stamp of a number of seconds shows the date of it.
-/

namespace Coast.Time

open Spans

structure Shows (r : IntTimeRep) (d : DateTime) : Prop where
  year : r.year = d.year
  month : r.eMonth.toInt = d.month
  day : r.eDay.toInt = d.day
  hour : r.eHour.toInt = d.hour
  minute : r.eMin.toInt = d.minute
  second : r.eSec.toInt = d.second

def DateTime.InRange (d : DateTime) : Prop := 1970 ≤ d.year ∧ d.year ≤ 2037

namespace IntTimeRep

variable {r : IntTimeRep} {d : DateTime}

theorem isValidDate_iff_fields : r.isValidDate = true ↔
    (1970 ≤ r.year ∧ r.year ≤ 2037) ∧ (1 ≤ r.eMonth.toInt ∧ r.eMonth.toInt ≤ 12) ∧
    (1 ≤ r.eDay.toInt ∧ r.eDay.toInt.toNat ≤ monthLength r.year.toNat r.eMonth.toInt.toNat) ∧ (0 ≤ r.eHour.toInt ∧ r.eHour.toInt ≤ 23) ∧
    (0 ≤ r.eMin.toInt ∧ r.eMin.toInt ≤ 59) ∧ 0 ≤ r.eSec.toInt ∧ r.eSec.toInt ≤ 59 := by
  simp only [isValidDate, le_monthLength_iff]
  by_cases range : 1970 ≤ r.year
  · have same : isLeap r.year = true ↔ LeapYear r.year.toNat := by
      rw [← isLeap_iff, Int.toNat_of_nonneg (by omega)]
    simp only [Bool.not_eq_true', Bool.or_eq_false_iff, Bool.and_eq_false_imp, decide_eq_false_iff_not, beq_iff_eq,
      Bool.or_eq_true, same]
    by_cases leap : LeapYear r.year.toNat
    all_goals
      simp only [leap, if_true, if_false]
      omega
  · simp [range, Int.lt_of_not_ge range]

def dateTime (r : IntTimeRep) (valid : r.isValidDate = true) : DateTime where
  year := r.year.toNat
  month := r.eMonth.toInt.toNat
  day := r.eDay.toInt.toNat
  hour := r.eHour.toInt.toNat
  minute := r.eMin.toInt.toNat
  second := r.eSec.toInt.toNat
  month_pos := by have := isValidDate_iff_fields.mp valid; omega
  month_le := by have := isValidDate_iff_fields.mp valid; omega
  day_pos := by have := isValidDate_iff_fields.mp valid; omega
  day_le := by have := isValidDate_iff_fields.mp valid; omega
  hour_lt := by have := isValidDate_iff_fields.mp valid; omega
  minute_lt := by have := isValidDate_iff_fields.mp valid; omega
  second_lt := by have := isValidDate_iff_fields.mp valid; omega

theorem shows_dateTime (valid : r.isValidDate = true) : Shows r (r.dateTime valid) ∧ (r.dateTime valid).InRange := by
  have fields := isValidDate_iff_fields.mp valid
  constructor
  · apply Shows.mk
    all_goals
      apply (Int.toNat_of_nonneg _).symm
      omega
  · change 1970 ≤ r.year.toNat ∧ r.year.toNat ≤ 2037
    omega

theorem isValidDate_of_shows (here : Shows r d) (range : d.InRange) : r.isValidDate = true := by
  have := d.month_pos
  have := d.month_le
  have := d.day_pos
  have := d.day_le
  have := d.hour_lt
  have := d.minute_lt
  have := d.second_lt
  simp only [DateTime.InRange] at range
  simp only [isValidDate_iff_fields, here.year, here.month, here.day, here.hour, here.minute, here.second, Int.toNat_natCast]
  omega

theorem sum_months (y m : Nat) (first : 1 ≤ m) (last : m ≤ 12) :
    ((MDAYS.take (m - 1)).map fun days => days * DAY).sum + (if 2 < m ∧ LeapYear y then DAY else 0) =
      start (monthSpan y) (m - 1) * 86400 := by
  by_cases leap : LeapYear y
  all_goals
    interval_cases m
    all_goals simp [MDAYS, DAY, HOUR, MIN, start, Finset.sum_range_succ, monthSpan, monthLength, leap]

theorem second_units : MIN = 60 ∧ HOUR = 3600 ∧ DAY = 86400 ∧ YEAR = 31536000 := by decide

theorem asTimeT_of_shows (here : Shows r d) (range : d.InRange) : r.asTimeT + (86400 * epoch : Nat) = d.secondNumber := by
  have years := start_yearLength d.year
  have months := sum_months d.year d.month d.month_pos d.month_le
  have first := d.day_pos
  obtain ⟨minute, hour, day, year⟩ := second_units
  have leap : isLeap r.year = true ↔ LeapYear d.year := by rw [here.year, isLeap_iff]
  have index : ((d.month : Int) - 1).toNat = d.month - 1 := by omega
  have adjusted : (if 2 < (d.month : Int) ∧ LeapYear d.year then (DAY : Int) else 0) =
      (if 2 < d.month ∧ LeapYear d.year then DAY else 0 : Nat) := by
    push_cast
    simp
  simp only [asTimeT, isValidDate_of_shows here range, if_true, here.month, here.day, here.hour, here.minute, here.second, leap, index,
    adjusted]
  simp only [DateTime.InRange] at range
  simp only [day] at months
  simp only [here.year, DateTime.secondNumber, DateTime.dayNumber, DateTime.dayOfYear, DateTime.secondOfDay, epoch, minute, hour,
    day, year]
  omega

/-! ### From seconds to components -/

theorem countYears_eq_walk (fuel y days : Nat) : countYears fuel y days = walk yearDays fuel y days := by
  induction fuel generalizing y days with
  | zero => rfl
  | succ fuel ih => simp only [countYears, walk, ih]

theorem countMonths_eq_walk {y : Nat} {len : Nat → Nat} {months : List Nat} {i : Nat} (days : Nat)
    (same : ∀ j, (inside : j < months.length) → len (i + j) = months[j] + lyfa (asInt y) (i + j)) :
    countMonths y months i days = walk len months.length i days := by
  induction months generalizing i days with
  | nil => rfl
  | cons m months ih =>
    have first := same 0 (by simp)
    simp only [Nat.add_zero, List.getElem_cons_zero] at first
    simp only [countMonths, walk, List.length_cons, first]
    rw [ih]
    intro j inside
    have next := same (j + 1) (by simpa using inside)
    simpa [Nat.add_assoc, Nat.add_comm 1] using next

theorem asInt_of_lt {n : Nat} (small : n < 2147483648) : asInt n = n := by
  unfold asInt
  rw [show (2 : Nat) ^ 32 = 4294967296 by norm_num]
  apply Int.bmod_eq_of_le <;> omega

theorem yearDays_of_lt {y : Nat} (small : y < 2147483648) : yearDays y = yearLength y := by
  simp only [yearDays, yearLength, asInt_of_lt small, isLeap_iff]

theorem start_yearDays {y : Nat} (small : y < 2147483648) : start yearDays y = start yearLength y := by
  apply Finset.sum_congr rfl
  intro i below
  exact yearDays_of_lt ((Finset.mem_range.mp below).trans small)

theorem countYears_of_year {y a days : Nat} (small : y < 2147483648) (later : 1970 ≤ y) (inside : a < yearLength y)
    (here : epoch + days = start yearLength y + a) : countYears (days / 365 + 1) 1970 days = (y, a) := by
  have first : start yearDays 1970 = epoch := (start_yearDays (by omega)).trans start_1970
  have least := start_add_mul_le yearLength (fun i => (yearLength_le i).1) 1970 (y - 1970)
  rw [Nat.add_sub_cancel' later, start_1970] at least
  rw [countYears_eq_walk]
  apply walk_eq
  · rw [yearDays_of_lt small]
    exact inside
  · rw [start_yearDays small, first, here]
  · omega

theorem countMonths_of_month {y i a : Nat} (small : y < 2147483648) (last : i < 12) (inside : a < monthSpan y i) :
    countMonths y MDAYS 0 (start (monthSpan y) i + a) = (i, a) := by
  have table : ∀ j, (listed : j < MDAYS.length) → monthSpan y (0 + j) = MDAYS[j] + lyfa (asInt y) (0 + j) := by
    intro j listed
    have named : j < 12 := listed
    simp only [Nat.zero_add, asInt_of_lt small]
    by_cases leap : LeapYear y
    all_goals
      interval_cases j
      all_goals simp [monthSpan, monthLength, lyfa, MDAYS, isLeap_iff, leap]
  rw [countMonths_eq_walk _ table]
  exact walk_eq inside (by simp) (by simpa [MDAYS] using last)

theorem toInt_ofInt_small {n : Nat} (small : n < 128) : (Int8.ofInt n).toInt = n :=
  Int8.toInt_ofInt_of_le (by omega) (by omega)

theorem initFromTimeT_shows {t : Nat} (r : IntTimeRep) (here : 86400 * epoch + t = d.secondNumber) (range : d.InRange) :
    Shows (initFromTimeT t r) d := by
  obtain ⟨-, hour, day, -⟩ := second_units
  have within := d.secondOfDay_lt
  simp only [DateTime.secondNumber] at here
  simp only [DateTime.InRange] at range
  have small : d.year < 2147483648 := by omega
  have apart : epoch + t / DAY = start yearLength d.year + d.dayOfYear := by
    simp only [DateTime.dayNumber] at here
    rw [day]
    omega
  have years := countYears_of_year small range.1 d.dayOfYear_lt apart
  have months : countMonths d.year MDAYS 0 d.dayOfYear = (d.month - 1, d.day - 1) := by
    have last := d.month_le
    have first := d.month_pos
    exact countMonths_of_month small (by omega) d.day_lt
  have rest : t % DAY = d.secondOfDay := by
    rw [day]
    omega
  have bounds := d.day_le
  have bound := (le_monthLength_iff d.year d.month d.day).mp bounds
  have := d.month_pos
  have := d.month_le
  have := d.day_pos
  have := d.hour_lt
  have := d.minute_lt
  have := d.second_lt
  simp only [DateTime.secondOfDay] at rest
  simp only [initFromTimeT, years, months, rest, hour]
  constructor
  · simp (disch := omega) only [year, toInt_ofInt_small]
    omega
  all_goals
    simp (disch := omega) only [toInt_ofInt_small]
    omega

end IntTimeRep

namespace TimeStamp

variable {s : TimeStamp} {d : DateTime}

theorem isValid_of_shows (here : Shows s.fTimeStruct d) (range : d.InRange) : s.isValid = true :=
  IntTimeRep.isValidDate_of_shows here range

theorem asLong_of_shows (here : Shows s.fTimeStruct d) (range : d.InRange) :
    s.asLong = d.secondNumber - (86400 * epoch : Nat) := by
  have counted := IntTimeRep.asTimeT_of_shows here range
  rw [asLong]
  omega

theorem asLong_nonneg (here : Shows s.fTimeStruct d) (range : d.InRange) : 0 ≤ s.asLong := by
  have years := start_mono yearLength range.1
  rw [start_1970] at years
  rw [asLong_of_shows here range, DateTime.secondNumber, DateTime.dayNumber]
  omega

theorem ofTimeT_shows {t : Int} (nonneg : 0 ≤ t) (here : (86400 * epoch : Nat) + t = d.secondNumber) (range : d.InRange) :
    Shows (ofTimeT t).fTimeStruct d := by
  simp only [ofTimeT, setTimeT, if_pos nonneg]
  apply IntTimeRep.initFromTimeT_shows _ _ range
  omega

theorem ofTimeT_asLong (here : Shows s.fTimeStruct d) (range : d.InRange) : Shows (ofTimeT s.asLong).fTimeStruct d := by
  apply ofTimeT_shows (asLong_nonneg here range) _ range
  rw [asLong_of_shows here range]
  omega

theorem max_asLong : max.asLong = 2145916799 := by decide

theorem exists_date {t : Int} (nonneg : 0 ≤ t) (bounded : t ≤ max.asLong) :
    ∃ d : DateTime, (86400 * epoch : Nat) + t = d.secondNumber ∧ d.InRange := by
  have last := start_yearLength 2038
  rw [max_asLong] at bounded
  have before : 86400 * epoch + t.toNat < 86400 * start yearLength 2038 := by
    simp only [epoch]
    omega
  obtain ⟨d, here, earlier⟩ := DateTime.exists_secondNumber before
  refine ⟨d, by omega, ?_, by omega⟩
  by_contra early
  have apart : start yearLength d.year + yearLength d.year ≤ start yearLength 1970 := end_le_start (by omega)
  have inside := d.dayOfYear_lt
  have within := d.secondOfDay_lt
  rw [start_1970] at apart
  simp only [DateTime.secondNumber, DateTime.dayNumber] at here
  omega

theorem asLong_lt_iff {s' : TimeStamp} {d' : DateTime} (here : Shows s.fTimeStruct d) (range : d.InRange)
    (here' : Shows s'.fTimeStruct d') (range' : d'.InRange) : s.asLong < s'.asLong ↔ d.fields < d'.fields := by
  rw [asLong_of_shows here range, asLong_of_shows here' range', ← DateTime.secondNumber_lt_iff_fields]
  omega

end TimeStamp

end Coast.Time
