import Coast.Time.Conversion

/-!
# Weekdays and weeks

Days are counted from 1970 here, whose first day was a Thursday. The weekday comes from tables, and the day of the year from the
two digits of the year alone: which stamps the counted days bear out.
-/

namespace Coast.Time

open Spans IntTimeRep

def firstDay (y : Nat) : Int := start yearLength y - epoch

def thursday (day : Int) : Int := day - (day + 3) % 7 + 3

def isoWeek (y : Nat) (day : Int) : Int :=
  if thursday day < firstDay y then 0
  else if firstDay (y + 1) ≤ thursday day then 1
  else (thursday day - firstDay y) / 7 + 1

theorem firstDay_succ (y : Nat) : firstDay (y + 1) = firstDay y + yearLength y := by
  rw [firstDay, firstDay, start_succ]
  omega

def DateTime.day1970 (d : DateTime) : Int := firstDay d.year + d.dayOfYear

namespace IntTimeRep

variable {r : IntTimeRep} {d : DateTime}

/-! ### The weekday -/

theorem weekDayMonthCorrect (y m : Nat) (first : 1 ≤ m) (last : m ≤ 12) :
    ∃ v : Int, entry (if LeapYear y then weekDayMonthCorrectLeap else weekDayMonthCorrectNoLeap) ((m : Int) - 1) = some v ∧ 0 ≤ v ∧
      (v - start (monthSpan y) (m - 1) + if LeapYear y then 1 else 0) % 7 = 0 := by
  by_cases leap : LeapYear y
  all_goals
    simp only [leap, if_true, if_false]
    interval_cases m
    all_goals
      refine ⟨_, rfl, by decide, ?_⟩
      simp [start, Finset.sum_range_succ, monthSpan, monthLength, leap]

theorem leapYear_iff (range : d.InRange) : LeapYear d.year ↔ d.year % 4 = 0 := by
  simp only [DateTime.InRange] at range
  simp only [LeapYear]
  omega

theorem firstDay_inRange (range : d.InRange) : firstDay d.year = 365 * d.year + (d.year + 3) / 4 - 719543 := by
  have years := start_yearLength d.year
  simp only [DateTime.InRange] at range
  have centuries : (d.year + 399) / 400 + 15 = (d.year + 99) / 100 := by omega
  simp only [firstDay, epoch]
  omega

theorem day1970_mod (range : d.InRange) :
    (4 + d.day1970) % 7 =
      (d.year + d.year / 4 + start (monthSpan d.year) (d.month - 1) + (if LeapYear d.year then 0 else 1) + d.day + 4) % 7 := by
  have first := d.day_pos
  have years : ((d.year : Int) + 3) / 4 = d.year / 4 + if LeapYear d.year then 0 else 1 := by
    by_cases leap : LeapYear d.year
    all_goals
      simp only [leap, if_true, if_false]
      rw [leapYear_iff range] at leap
      omega
  have weeks : 4 + d.day1970 = d.year + d.year / 4 + start (monthSpan d.year) (d.month - 1) +
      (if LeapYear d.year then 0 else 1) + d.day + 4 + 7 * (52 * d.year - 102792) := by
    simp only [DateTime.day1970, firstDay_inRange range, DateTime.dayOfYear, years]
    omega
  rw [weeks, Int.add_mul_emod_self_left]

theorem century_of_shows (here : Shows r d) (range : d.InRange) :
    r.eCent.toInt = 19 ∨ r.eCent.toInt = 20 ∨ r.eCent.toInt = 21 := by
  have low := r.eYear.le_toInt
  have high := r.eYear.toInt_lt
  have year := here.year
  simp only [DateTime.InRange] at range
  rw [IntTimeRep.year] at year
  omega

def weekdaySum (r : IntTimeRep) : Int :=
  6 + r.eYear.toInt + r.eYear.toInt / 4 + weekDayMonthCorrectLeap.getD (r.eMonth.toInt - 1).toNat 0 + r.eDay.toInt

theorem weekday_eq (here : Shows r d) {v : Int}
    (corrected : entry (if LeapYear d.year then weekDayMonthCorrectLeap else weekDayMonthCorrectNoLeap) ((d.month : Int) - 1) = some v) :
    r.weekday = (entry weekDayCenturyCorrect (r.eCent.toInt - 17)).map fun century =>
      (century + r.eYear.toInt + r.eYear.toInt.tdiv 4 + v + d.day).tmod 7 := by
  have leap : isLeap r.year = true ↔ LeapYear d.year := by rw [here.year, isLeap_iff]
  simp only [weekday, leap, here.month, here.day, corrected]
  cases entry weekDayCenturyCorrect (r.eCent.toInt - 17) <;> rfl

theorem getD_of_entry {table : List Int} {i v : Int} (here : entry table i = some v) : table.getD i.toNat 0 = v := by
  unfold entry at here
  split at here
  · rw [List.getD_eq_getElem?_getD, here, Option.getD_some]
  · simp at here

theorem weekdaySum_mod (range : d.InRange) {v c correction : Int}
    (months : (v - start (monthSpan d.year) (d.month - 1) + if LeapYear d.year then 1 else 0) % 7 = 0)
    (year : 100 * c = d.year - r.eYear.toInt) (right : (125 * c + 5 - correction) % 7 = 0) :
    (correction + r.eYear.toInt + r.eYear.toInt / 4 + v + d.day) % 7 = (4 + d.day1970) % 7 := by
  rw [day1970_mod range]
  have quarter : (d.year : Int) / 4 = 25 * c + r.eYear.toInt / 4 := by omega
  rw [quarter]
  by_cases leap : LeapYear d.year
  all_goals
    simp only [leap, if_true, if_false] at months ⊢
    omega

theorem weekday_iff (here : Shows r d) (range : d.InRange) : r.weekday = some ((4 + d.day1970) % 7) ↔
    r.eCent.toInt = 19 ∨ r.eCent.toInt = 20 ∧
      (0 ≤ r.eYear.toInt ∨ 4 ∣ r.eYear.toInt ∧ (0 ≤ r.weekdaySum ∨ 7 ∣ r.weekdaySum)) := by
  obtain ⟨v, corrected, nonneg, months⟩ := weekDayMonthCorrect d.year d.month d.month_pos d.month_le
  have year := here.year
  have first := d.day_pos
  rw [IntTimeRep.year] at year
  rw [weekday_eq here corrected]
  rcases century_of_shows here range with century | century | century
  · have found : entry weekDayCenturyCorrect (19 - 17) = some 0 := rfl
    have low := range.1
    have sum : (0 + r.eYear.toInt + r.eYear.toInt / 4 + v + d.day) % 7 = (4 + d.day1970) % 7 :=
      weekdaySum_mod (c := 19) range months (by omega) (by decide)
    rw [century, found, Option.map_some, Int.tdiv_eq_ediv_of_nonneg (by omega), Int.tmod_eq_emod_of_nonneg (by omega), sum]
    simp
  · have found : entry weekDayCenturyCorrect (20 - 17) = some 6 := rfl
    have sum : (6 + r.eYear.toInt + r.eYear.toInt / 4 + v + d.day) % 7 = (4 + d.day1970) % 7 :=
      weekdaySum_mod (c := 20) range months (by omega) (by decide)
    rw [century, found, Option.map_some, Option.some.injEq, ← sum]
    by_cases later : 0 ≤ r.eYear.toInt
    · rw [Int.tdiv_eq_ediv_of_nonneg later, Int.tmod_eq_emod_of_nonneg (by omega)]
      simp [later]
    · by_cases quarter : 4 ∣ r.eYear.toInt
      · have leap : LeapYear d.year := (leapYear_iff range).mpr (by omega)
        rw [if_pos leap, ← here.month] at corrected
        have same : r.weekdaySum = 6 + r.eYear.toInt + r.eYear.toInt / 4 + v + d.day := by
          rw [weekdaySum, getD_of_entry corrected, here.day]
        rw [Int.tdiv_eq_ediv_of_dvd quarter, ← same, Int.tmod_eq_emod]
        simp only [later, quarter, true_and, false_or]
        split
        · omega
        · omega
      · rw [Int.tdiv_eq_ediv, Int.tmod_eq_emod]
        have next : 6 + r.eYear.toInt + (r.eYear.toInt / 4 + Int.sign 4) + v + d.day =
            6 + r.eYear.toInt + r.eYear.toInt / 4 + v + d.day + 1 := by
          rw [show Int.sign 4 = 1 from rfl]
          omega
        simp only [later, quarter, false_and, or_self, if_false, next]
        generalize 6 + r.eYear.toInt + r.eYear.toInt / 4 + v + (d.day : Int) = total
        split <;> simp <;> omega
  · have none : entry weekDayCenturyCorrect (21 - 17) = none := rfl
    rw [century, none]
    simp

/-! ### The day of the year -/

theorem daysOfMonths_iff (theyear : Int) (y : Nat) {i : Nat} (last : i < 12) :
    ∃ n, daysOfMonths theyear i = some n ∧ (n = start (monthSpan y) i ↔ i ≤ 1 ∨ (isLeap theyear = true ↔ LeapYear y)) := by
  by_cases leap : LeapYear y
  all_goals
    by_cases leap' : isLeap theyear = true
    all_goals
      interval_cases i
      all_goals
        refine ⟨_, rfl, ?_⟩
        simp [start, Finset.sum_range_succ, monthSpan, monthLength, lyfa, leap, leap']

theorem dayOfYear_iff (here : Shows r d) : r.dayOfYear = some ((d.dayOfYear : Int) + 1) ↔
    d.month ≤ 2 ∨ (isLeap r.eYear.toInt = true ↔ LeapYear d.year) := by
  have first := d.month_pos
  have last := d.month_le
  have day := d.day_pos
  obtain ⟨n, counted, right⟩ := daysOfMonths_iff r.eYear.toInt d.year (show d.month - 1 < 12 by omega)
  have index : ((d.month : Int) - 1).toNat = d.month - 1 := by omega
  have months : d.month ≤ 2 ↔ d.month - 1 ≤ 1 := by omega
  rw [IntTimeRep.dayOfYear, here.month, here.day, index, counted, months, ← right, Option.map_some, Option.some.injEq, DateTime.dayOfYear]
  omega

theorem isLeap_eYear_iff (here : Shows r d) (range : d.InRange) (century : r.eCent.toInt = 19 ∨ r.eCent.toInt = 20) :
    (isLeap r.eYear.toInt = true ↔ LeapYear d.year) ↔ ¬ (r.eCent.toInt = 19 ∧ r.eYear.toInt = 100) := by
  have year := here.year
  rw [leapYear_iff range]
  simp only [DateTime.InRange] at range
  rw [IntTimeRep.year] at year
  simp only [isLeap, Bool.and_eq_true, Bool.or_eq_true, beq_iff_eq, bne_iff_ne]
  omega

/-! ### The week -/

theorem thursday_eq (first z : Int) : thursday (first + z) - first = z - ((4 + first) % 7 - 1 + z) % 7 + 3 := by
  simp only [thursday]
  omega

theorem unadjustedWeek_eq {f z : Int} (low : 0 ≤ f) (high : f < 7) (day : 0 ≤ z) :
    unadjustedWeek f z = (z + (f + 6) % 7) / 7 + if 1 ≤ f ∧ f ≤ 4 then 1 else 0 := by
  interval_cases f
  all_goals
    simp (disch := omega) only [unadjustedWeek, Int.tdiv_eq_ediv_of_nonneg, Int.tmod_eq_emod_of_nonneg, Int.reduceSub, Int.reduceMod,
      Int.reduceEq, OfNat.zero_ne_ofNat, OfNat.one_ne_ofNat, or_true, or_false, zero_ne_one, if_true, if_false]
    omega

theorem week_eq {first f z len : Int} {leap : Bool} (start : f = (4 + first) % 7) (low : 0 ≤ z) (high : z < len)
    (year : len = 365 ∨ len = 366) (agrees : z < 60 ∨ (leap = true ↔ len = 366)) :
    (if 52 < unadjustedWeek f z then
      if (if leap then (f + 1).tmod 7 else f) = 1 ∨ (if leap then (f + 1).tmod 7 else f) = 2 ∨
        (if leap then (f + 1).tmod 7 else f) = 3 then 1 else unadjustedWeek f z
    else unadjustedWeek f z) =
    if thursday (first + z) < first then 0 else if first + len ≤ thursday (first + z) then 1
      else (thursday (first + z) - first) / 7 + 1 := by
  have counted := thursday_eq first z
  have low' : 0 ≤ f := by omega
  have high' : f < 7 := by omega
  rw [← start] at counted
  rw [unadjustedWeek_eq low' high' low, Int.tmod_eq_emod_of_nonneg (by omega)]
  generalize thursday (first + z) = t at counted ⊢
  clear start
  cases leap
  all_goals
    simp only [if_true, if_false, Bool.false_eq_true, true_iff, false_iff] at agrees ⊢
    interval_cases f
    all_goals
      simp only [Int.reduceLE, Int.reduceAdd, Int.reduceMod, Int.reduceEq, Int.reduceSub, and_true, and_self, or_self, or_true, true_or,
        if_true, if_false, and_false] at counted ⊢
      split_ifs <;> omega

theorem weekOfYear_eq (weekday : r.weekday = some ((4 + d.day1970) % 7))
    (day : r.dayOfYear = some ((d.dayOfYear : Int) + 1)) (agrees : d.month ≤ 2 ∨ (isLeap r.eYear.toInt = true ↔ LeapYear d.year)) :
    r.weekOfYear = some (isoWeek d.year d.day1970) := by
  have inside := d.dayOfYear_lt
  have length : (yearLength d.year : Int) = 365 ∨ (yearLength d.year : Int) = 366 := by
    rw [yearLength]
    split <;> simp
  have first : ((4 + d.day1970) % 7 + 7 - (d.dayOfYear : Int).tmod 7).tmod 7 = (4 + firstDay d.year) % 7 := by
    have inner : (d.dayOfYear : Int).tmod 7 = d.dayOfYear % 7 := Int.tmod_eq_emod_of_nonneg (Int.natCast_nonneg _)
    rw [DateTime.day1970, inner, Int.tmod_eq_emod_of_nonneg (by omega)]
    omega
  have early : (d.dayOfYear : Int) < 60 ∨ (isLeap r.eYear.toInt = true ↔ (yearLength d.year : Int) = 366) := by
    rcases agrees with early | same
    · left
      have months : start (monthSpan d.year) (d.month - 1) + monthSpan d.year (d.month - 1) ≤ start (monthSpan d.year) 2 :=
        end_le_start (by have := d.month_pos; omega)
      have two : start (monthSpan d.year) 2 ≤ 60 := by
        by_cases leap : LeapYear d.year <;> simp [start, Finset.sum_range_succ, monthSpan, monthLength, leap]
      have day := d.day_lt
      simp only [DateTime.dayOfYear]
      omega
    · right
      rw [same, yearLength]
      by_cases leap : LeapYear d.year <;> simp [leap]
  have week := week_eq (rfl : (4 + firstDay d.year) % 7 = _) (Int.natCast_nonneg _) (by omega) length early
  rw [← firstDay_succ] at week
  rw [IntTimeRep.weekOfYear, weekday, day, isoWeek]
  simp only [Option.bind_eq_bind, Option.bind_some, Int.add_sub_cancel, first]
  rw [DateTime.day1970, ← week]
  split <;> rfl

end IntTimeRep

namespace TimeStamp

/-- The calendar bears out the week, the weekday and the day of the year of a valid stamp exactly when its century is 19, but
not in the year 100 of it after February, or 20, where a year before it has to be divided by 4 with a weekday that is not counted
from below 0. -/
theorem weeks_agree_iff (s : TimeStamp) (valid : s.isValid = true) :
    (s.weekday = some ((4 + s.asLong / 86400) % 7) ∧
      s.dayOfYear = some (s.asLong / 86400 - firstDay s.fTimeStruct.year.toNat + 1) ∧
      s.weekOfYear = some (isoWeek s.fTimeStruct.year.toNat (s.asLong / 86400))) ↔
    s.fTimeStruct.eCent.toInt = 19 ∧ (s.fTimeStruct.eYear.toInt ≠ 100 ∨ s.fTimeStruct.eMonth.toInt ≤ 2) ∨
    s.fTimeStruct.eCent.toInt = 20 ∧ (0 ≤ s.fTimeStruct.eYear.toInt ∨
      4 ∣ s.fTimeStruct.eYear.toInt ∧ (0 ≤ s.fTimeStruct.weekdaySum ∨ 7 ∣ s.fTimeStruct.weekdaySum)) := by
  obtain ⟨here, range⟩ := shows_dateTime valid
  generalize s.fTimeStruct.dateTime valid = d at here range
  have seconds := asLong_of_shows here range
  have within := d.secondOfDay_lt
  have day : s.asLong / 86400 = d.day1970 := by
    rw [seconds, DateTime.secondNumber, DateTime.dayNumber, DateTime.day1970, firstDay]
    omega
  have year : s.fTimeStruct.year.toNat = d.year := by rw [here.year, Int.toNat_natCast]
  have ordinal : d.day1970 - firstDay d.year + 1 = (d.dayOfYear : Int) + 1 := by
    rw [DateTime.day1970]
    omega
  rw [day, year, ordinal]
  have weekdays : s.weekday = some ((4 + d.day1970) % 7) ↔ _ := weekday_iff here range
  have days : s.dayOfYear = some ((d.dayOfYear : Int) + 1) ↔ _ := dayOfYear_iff here
  have month := here.month
  constructor
  · rintro ⟨weekday, dayOfYear, -⟩
    rcases weekdays.mp weekday with century | later
    · rcases days.mp dayOfYear with early | same
      · exact .inl ⟨century, .inr (by omega)⟩
      · have other := (isLeap_eYear_iff here range (.inl century)).mp same
        exact .inl ⟨century, .inl fun hundred => other ⟨century, hundred⟩⟩
    · exact .inr later
  · intro right
    have agrees : d.month ≤ 2 ∨ (isLeap s.fTimeStruct.eYear.toInt = true ↔ LeapYear d.year) := by
      rcases right with ⟨century, other | early⟩ | ⟨century, -⟩
      · exact .inr ((isLeap_eYear_iff here range (.inl century)).mpr fun hundred => other hundred.2)
      · exact .inl (by omega)
      · exact .inr ((isLeap_eYear_iff here range (.inr century)).mpr (by omega))
    have weekday := weekdays.mpr (right.imp_left And.left)
    have dayOfYear := days.mpr agrees
    exact ⟨weekday, dayOfYear, weekOfYear_eq weekday dayOfYear agrees⟩

theorem weeks_agree_leapDay : (ofComponents 20 0 2 29 0 0 0).weekOfYear = some (isoWeek 2000 11016) := by
  have agreed := (weeks_agree_iff (ofComponents 20 0 2 29 0 0 0) (by decide)).mpr (by decide)
  exact agreed.2.2

/-- The first of March of 2000, as one of the year 100 of the century 19, is taken for the 60th day of the year, and is the 61st. -/
theorem dayOfYear_hundred : (ofComponents 19 100 3 1 0 0 0).isValid = true ∧
    (ofComponents 19 100 3 1 0 0 0).dayOfYear = some 60 ∧
    (ofComponents 19 100 3 1 0 0 0).asLong / 86400 - firstDay (ofComponents 19 100 3 1 0 0 0).fTimeStruct.year.toNat + 1 = 61 := by
  have day : (ofComponents 19 100 3 1 0 0 0).asLong / 86400 = 11017 := by decide
  have year : (ofComponents 19 100 3 1 0 0 0).fTimeStruct.year.toNat = 2000 := by decide
  have first := start_yearLength 2000
  rw [day, year, firstDay, epoch]
  refine ⟨by decide, by decide, ?_⟩
  omega

end TimeStamp

end Coast.Time
