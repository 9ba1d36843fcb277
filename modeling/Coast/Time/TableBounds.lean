import Coast.Time.Parsing
import Coast.Time.Weeks

/-!
# Inside the tables

A stamp can be made, set and moved in many ways, also to a state that is no date. From what it is made of follows
whether the names and numbers of its day are read inside their tables.
-/

namespace Coast.Time

open Spans IntTimeRep

namespace IntTimeRep

def weekdayTotal (r : IntTimeRep) : Int :=
  weekDayCenturyCorrect.getD (r.eCent.toInt - 17).toNat 0 + r.eYear.toInt + r.eYear.toInt.tdiv 4 +
    (if isLeap r.year then weekDayMonthCorrectLeap else weekDayMonthCorrectNoLeap).getD (r.eMonth.toInt - 1).toNat 0 + r.eDay.toInt

variable {r : IntTimeRep}

theorem entry_sub {table : List Int} {i first last : Int} (length : table.length = last + 1 - first) :
    entry table (i - first) = if first ≤ i ∧ i ≤ last then some (table.getD (i - first).toNat 0) else none := by
  unfold entry
  by_cases low : first ≤ i
  · by_cases high : i ≤ last
    · rw [if_pos (by omega), if_pos ⟨low, high⟩, List.getD_eq_getElem?_getD, List.getElem?_eq_getElem (by omega), Option.getD_some]
    · rw [if_pos (by omega), if_neg (by omega), List.getElem?_eq_none (by omega)]
  · rw [if_neg (by omega), if_neg (by omega)]

theorem isSome_entry {α : Type} {table : List α} {i : Int} : (entry table i).isSome = true ↔ 0 ≤ i ∧ i < table.length := by
  unfold entry
  split
  · rename_i low
    simp only [isSome_getElem?, low, true_and]
    omega
  · rename_i low
    simp [low]

theorem weekday_total : r.weekday =
    if (17 ≤ r.eCent.toInt ∧ r.eCent.toInt ≤ 20) ∧ 1 ≤ r.eMonth.toInt ∧ r.eMonth.toInt ≤ 12 then some (r.weekdayTotal.tmod 7) else none := by
  have months : ((if isLeap r.year then weekDayMonthCorrectLeap else weekDayMonthCorrectNoLeap).length : Int) = 12 + 1 - 1 := by
    split <;> rfl
  have centuries : (weekDayCenturyCorrect.length : Int) = 20 + 1 - 17 := rfl
  rw [weekday, entry_sub centuries, entry_sub months]
  by_cases century : 17 ≤ r.eCent.toInt ∧ r.eCent.toInt ≤ 20
  · by_cases month : 1 ≤ r.eMonth.toInt ∧ r.eMonth.toInt ≤ 12
    · simp only [century, month, and_self, if_true]
      rfl
    · simp only [century, month, and_self, and_false, if_true, if_false]
      rfl
  · simp only [century, false_and, if_false]
    rfl

end IntTimeRep

namespace TimeStamp

def InsideTables (s : TimeStamp) : Prop :=
  s.weekday.isSome = true ∧ s.dayName.isSome = true ∧ s.monthName.isSome = true ∧ s.dayOfYear.isSome = true ∧ s.weekOfYear.isSome = true

theorem insideTables_iff (s : TimeStamp) : s.InsideTables ↔
    (17 ≤ s.fTimeStruct.eCent.toInt ∧ s.fTimeStruct.eCent.toInt ≤ 20) ∧
    (1 ≤ s.fTimeStruct.eMonth.toInt ∧ s.fTimeStruct.eMonth.toInt ≤ 12) ∧
    (0 ≤ s.fTimeStruct.weekdayTotal ∨ 7 ∣ s.fTimeStruct.weekdayTotal) := by
  have total : s.weekday = _ := weekday_total
  by_cases inside : (17 ≤ s.fTimeStruct.eCent.toInt ∧ s.fTimeStruct.eCent.toInt ≤ 20) ∧
      1 ≤ s.fTimeStruct.eMonth.toInt ∧ s.fTimeStruct.eMonth.toInt ≤ 12
  · rw [if_pos inside] at total
    obtain ⟨n, counted, -⟩ := daysOfMonths_iff s.fTimeStruct.eYear.toInt 0 (show (s.fTimeStruct.eMonth.toInt - 1).toNat < 12 by omega)
    have day : s.dayOfYear = some (n + s.fTimeStruct.eDay.toInt) := by
      rw [dayOfYear, IntTimeRep.dayOfYear, counted, Option.map_some]
    have week : s.weekOfYear.isSome = true := by
      have day' : s.fTimeStruct.dayOfYear = _ := day
      have total' : s.fTimeStruct.weekday = _ := total
      rw [weekOfYear, IntTimeRep.weekOfYear, day', total']
      simp only [Option.bind_eq_bind, Option.bind_some]
      split <;> rfl
    have month : s.monthName.isSome = true := isSome_entry.mpr (by
      have names : monthes.length = 13 := rfl
      omega)
    have name : s.dayName.isSome = true ↔ 0 ≤ s.fTimeStruct.weekdayTotal ∨ 7 ∣ s.fTimeStruct.weekdayTotal := by
      have names : days.length = 7 := rfl
      have small := Int.emod_lt_of_pos s.fTimeStruct.weekdayTotal (show (0 : Int) < 7 by decide)
      have nonneg := Int.emod_nonneg s.fTimeStruct.weekdayTotal (show (7 : Int) ≠ 0 by decide)
      rw [dayName, total, Option.bind_some, isSome_entry, names, Int.tmod_eq_emod]
      split
      · rename_i right
        simp only [right, iff_true]
        omega
      · rename_i wrong
        simp only [wrong, iff_false]
        omega
    simp only [InsideTables, total, name, month, day, week, Option.isSome_some, true_and, and_true, inside]
  · rw [if_neg inside] at total
    constructor
    · intro all
      simp [InsideTables, total] at all
    · intro all
      exact absurd ⟨all.1, all.2.1⟩ inside

theorem getD_nonneg {table : List Int} (nonneg : ∀ v ∈ table, 0 ≤ v) (i : Nat) : 0 ≤ table.getD i 0 := by
  rw [List.getD_eq_getElem?_getD]
  cases here : table[i]? with
  | none => simp
  | some v => exact nonneg v (List.mem_of_getElem? here)

theorem weekdayTotal_nonneg {r : IntTimeRep} (year : 0 ≤ r.eYear.toInt) (day : 0 ≤ r.eDay.toInt) : 0 ≤ r.weekdayTotal := by
  have century := getD_nonneg (show ∀ v ∈ weekDayCenturyCorrect, 0 ≤ v by decide) (r.eCent.toInt - 17).toNat
  have months : ∀ v ∈ if isLeap r.year then weekDayMonthCorrectLeap else weekDayMonthCorrectNoLeap, 0 ≤ v := by
    split <;> decide
  have month := getD_nonneg months (r.eMonth.toInt - 1).toNat
  have quarter := Int.tdiv_nonneg year (show (0 : Int) ≤ 4 by decide)
  rw [weekdayTotal]
  omega

theorem insideTables_of_nonneg {s : TimeStamp} (year : 0 ≤ s.fTimeStruct.eYear.toInt) (day : 0 ≤ s.fTimeStruct.eDay.toInt) :
    s.InsideTables ↔ (17 ≤ s.fTimeStruct.eCent.toInt ∧ s.fTimeStruct.eCent.toInt ≤ 20) ∧
      1 ≤ s.fTimeStruct.eMonth.toInt ∧ s.fTimeStruct.eMonth.toInt ≤ 12 := by
  have total := weekdayTotal_nonneg year day
  rw [insideTables_iff]
  simp only [total, true_or, and_true]

theorem not_insideTables_reset : ¬ (⟨reset⟩ : TimeStamp).InsideTables := by
  intro inside
  exact absurd inside.1 (by decide)

/-! ### Seconds -/

theorem le_yearDays (y : Nat) : 365 ≤ yearDays y := by
  unfold yearDays
  split <;> simp

def adjustedMonth (y i : Nat) : Nat := MDAYS.getD i 0 + lyfa (asInt y) i

theorem start_adjustedMonth (y : Nat) : start (adjustedMonth y) 12 = yearDays y := by
  by_cases leap : isLeap (asInt y) = true <;> simp [start, Finset.sum_range_succ, adjustedMonth, MDAYS, lyfa, yearDays, leap]

theorem adjustedMonth_le {y i : Nat} (listed : i < 12) : adjustedMonth y i ≤ 32 := by
  by_cases leap : isLeap (asInt y) = true
  all_goals
    interval_cases i
    all_goals simp [adjustedMonth, MDAYS, lyfa, leap]

theorem countMonths_inside {y days : Nat} (inside : days < yearDays y) :
    (countMonths y MDAYS 0 days).1 < 12 ∧ (countMonths y MDAYS 0 days).2 < 32 := by
  have table : ∀ j, (listed : j < MDAYS.length) → adjustedMonth y (0 + j) = MDAYS[j] + lyfa (asInt y) (0 + j) := by
    intro j listed
    rw [adjustedMonth, Nat.zero_add, List.getD_eq_getElem?_getD, List.getElem?_eq_getElem listed, Option.getD_some]
  have before : start (adjustedMonth y) 0 + days < start (adjustedMonth y) 12 := by
    rw [start_zero, start_adjustedMonth]
    omega
  rw [countMonths_eq_walk _ table]
  have month : (walk (adjustedMonth y) MDAYS.length 0 days).1 < 12 := walk_lt before
  have day := walk_rest_lt before (show 12 ≤ 0 + MDAYS.length by decide)
  exact ⟨month, day.trans_le (adjustedMonth_le month)⟩

theorem initFromTimeT_components (t : Nat) (r : IntTimeRep) : ∃ y a : Nat, a < yearDays y ∧ start yearDays y + a = epoch + t / 86400 ∧
    (initFromTimeT t r).eCent = Int8.ofInt (y / 100 : Nat) ∧ 0 ≤ (initFromTimeT t r).eYear.toInt ∧
    (1 ≤ (initFromTimeT t r).eMonth.toInt ∧ (initFromTimeT t r).eMonth.toInt ≤ 12) ∧ 0 ≤ (initFromTimeT t r).eDay.toInt := by
  obtain ⟨-, -, day, -⟩ := second_units
  have first : start yearDays 1970 = epoch := (start_yearDays (by omega)).trans start_1970
  have enough := start_add_mul_le yearDays le_yearDays 1970 (t / DAY / 365 + 1)
  have before : start yearDays 1970 + t / DAY < start yearDays (1970 + (t / DAY / 365 + 1)) := by omega
  have position : start yearDays _ + _ = start yearDays 1970 + t / DAY := walk_position (t / DAY / 365 + 1) 1970 (t / DAY)
  have rest := walk_rest_lt before le_rfl
  rw [← countYears_eq_walk] at position rest
  have months := countMonths_inside rest
  rw [first] at position
  simp only [initFromTimeT]
  generalize countYears (t / DAY / 365 + 1) 1970 (t / DAY) = p at *
  generalize countMonths p.1 MDAYS 0 p.2 = q at *
  rw [day] at position
  refine ⟨p.1, p.2, rest, position, rfl, ?_, ?_, ?_⟩
  · rw [toInt_ofInt_small (by omega)]
    omega
  · rw [toInt_ofInt_small (by omega)]
    omega
  · rw [toInt_ofInt_small (by omega)]
    omega

/-- The century of the year of a time, as a `char`, is one that has a correction for the weekday. -/
def InCenturies (utc : Int) : Prop :=
  0 ≤ utc ∧ ∃ y a : Nat, a < yearDays y ∧ start yearDays y + a = epoch + utc.toNat / 86400 ∧
    17 ≤ (Int8.ofInt (y / 100 : Nat)).toInt ∧ (Int8.ofInt (y / 100 : Nat)).toInt ≤ 20

theorem insideTables_setTimeT (utc : Int) : (setTimeT utc).InsideTables ↔ InCenturies utc := by
  by_cases nonneg : 0 ≤ utc
  · obtain ⟨y, a, inside, here, cent, year, month, day⟩ := initFromTimeT_components utc.toNat reset
    rw [setTimeT, if_pos nonneg, insideTables_of_nonneg (s := ⟨initFromTimeT utc.toNat reset⟩) year day, cent]
    constructor
    · rintro ⟨century, -⟩
      exact ⟨nonneg, y, a, inside, here, century⟩
    · rintro ⟨-, y', a', inside', here', century⟩
      obtain ⟨rfl, -⟩ := position_inj inside' inside (here'.trans here.symm)
      exact ⟨century, month⟩
  · rw [setTimeT, if_neg nonneg]
    constructor
    · intro inside
      exact absurd inside not_insideTables_reset
    · intro inside
      exact absurd inside.1 nonneg

/-! ### Texts -/

theorem component_bounds {text : Bytes} (digits : ∀ c ∈ text, isdigit c = true) (p : Nat) : 0 ≤ (component text p).toInt := by
  rcases Nat.lt_trichotomy text.length (2 * p + 1) with short | single | pair
  · rw [component_beyond (by omega)]
    decide
  · have first := List.getElem?_eq_getElem (show 2 * p < text.length by omega)
    rw [component_single first single (digits _ (List.getElem_mem _))]
    omega
  · have first := List.getElem?_eq_getElem (show 2 * p < text.length by omega)
    have second := List.getElem?_eq_getElem (show 2 * p + 1 < text.length by omega)
    rw [component_pair first second (digits _ (List.getElem_mem _)) (digits _ (List.getElem_mem _))]
    omega

theorem insideTables_intDoInit (text : Bytes) : (intDoInit text).InsideTables ↔
    (17 ≤ (component ((completed text).take (kept text)) 0).toInt ∧ (component ((completed text).take (kept text)) 0).toInt ≤ 20) ∧
    1 ≤ (component ((completed text).take (kept text)) 2).toInt ∧ (component ((completed text).take (kept text)) 2).toInt ≤ 12 := by
  have data : (intDoInit text).fTimeStruct.cData = _ := cData_ofString_eq text
  have digits : ∀ c ∈ (completed text).take (kept text), isdigit c = true := fun c mem =>
    isdigit_completed text c (List.mem_of_mem_take mem)
  have places : List.range 7 = [0, 1, 2, 3, 4, 5, 6] := rfl
  simp only [cData, places, List.map_cons, List.map_nil, List.cons.injEq] at data
  obtain ⟨cent, year, month, day, -⟩ := data
  rw [insideTables_of_nonneg, cent, month]
  · rw [year]
    exact component_bounds digits 1
  · rw [day]
    exact component_bounds digits 3

/-! ### Components -/

theorem insideTables_ofComponents (iCent iYear iMonth iDay iHour iMin iSec : Int8) :
    (TimeStamp.ofComponents iCent iYear iMonth iDay iHour iMin iSec).InsideTables ↔
      (IntTimeRep.ofComponents iCent iYear iMonth iDay iHour iMin iSec).isValidDate = true ∧ iCent.toInt ≤ 20 ∧
        (0 ≤ (IntTimeRep.ofComponents iCent iYear iMonth iDay iHour iMin iSec).weekdayTotal ∨
          7 ∣ (IntTimeRep.ofComponents iCent iYear iMonth iDay iHour iMin iSec).weekdayTotal) := by
  rw [TimeStamp.ofComponents, intSet]
  split
  · rename_i valid
    obtain ⟨here, range⟩ := shows_dateTime valid
    have century := century_of_shows here range
    have fields := isValidDate_iff_fields.mp valid
    have inside : 19 ≤ iCent.toInt := by
      rcases century with century | century | century
      all_goals
        change iCent.toInt = _ at century
        omega
    have month : 1 ≤ iMonth.toInt ∧ iMonth.toInt ≤ 12 := fields.2.1
    rw [insideTables_iff]
    change (17 ≤ iCent.toInt ∧ iCent.toInt ≤ 20) ∧ (1 ≤ iMonth.toInt ∧ iMonth.toInt ≤ 12) ∧ _ ↔ _
    simp only [month, valid, true_and, and_self]
    exact and_congr_left' ⟨And.right, fun last => ⟨by omega, last⟩⟩
  · rename_i invalid
    constructor
    · intro inside
      exact absurd inside not_insideTables_reset
    · intro inside
      exact absurd inside.1 invalid

theorem insideTables_setTime (s : TimeStamp) (iHour iMin iSec : UInt8) :
    (s.setTime iHour iMin iSec).InsideTables ↔ s.InsideTables := by
  rw [insideTables_iff, insideTables_iff, TimeStamp.setTime, IntTimeRep.setTime]
  split <;> rfl

end TimeStamp

/-! ### All stamps -/

inductive Made where
  | now (utc : Int64)
  | time (utc : Int64)
  | text (externalTimeRep : Bytes)
  | components (iCent iYear iMonth iDay iHour iMin iSec : Int8)
  | copy (aTimeStamp : Made)
  | set (before : Made) (externalTimeRep : Bytes)
  | assign (before : Made) (lTimeUtc : Int64)
  | setTime (before : Made) (iHour iMin iSec : UInt8)
  | add (before : Made) (deltasecs : Int64)
  | sub (before : Made) (deltasecs : Int64)
  | addAssign (before : Made) (deltasecs : Int64)
  | subAssign (before : Made) (deltasecs : Int64)

namespace Made

def stamp : Made → TimeStamp
  | now utc => TimeStamp.setTimeT utc.toInt
  | time utc => TimeStamp.ofTimeT utc.toInt
  | text externalTimeRep => TimeStamp.ofString externalTimeRep
  | components iCent iYear iMonth iDay iHour iMin iSec => TimeStamp.ofComponents iCent iYear iMonth iDay iHour iMin iSec
  | copy aTimeStamp => aTimeStamp.stamp
  | set _ externalTimeRep => TimeStamp.intDoInit externalTimeRep
  | assign _ lTimeUtc => TimeStamp.setTimeT lTimeUtc.toInt
  | setTime before iHour iMin iSec => before.stamp.setTime iHour iMin iSec
  | add before deltasecs => before.stamp.add deltasecs
  | sub before deltasecs => before.stamp.sub deltasecs
  | addAssign before deltasecs => before.stamp.addAssign deltasecs
  | subAssign before deltasecs => before.stamp.subAssign deltasecs

def NamesMonth (text : Bytes) : Prop :=
  (17 ≤ (component ((TimeStamp.completed text).take (TimeStamp.kept text)) 0).toInt ∧
    (component ((TimeStamp.completed text).take (TimeStamp.kept text)) 0).toInt ≤ 20) ∧
  1 ≤ (component ((TimeStamp.completed text).take (TimeStamp.kept text)) 2).toInt ∧
    (component ((TimeStamp.completed text).take (TimeStamp.kept text)) 2).toInt ≤ 12

/-- What the last time, text or components that a stamp is made of have to be. -/
def Tabled : Made → Prop
  | now utc => TimeStamp.InCenturies utc.toInt
  | time utc => TimeStamp.InCenturies utc.toInt
  | text externalTimeRep => NamesMonth externalTimeRep
  | components iCent iYear iMonth iDay iHour iMin iSec =>
    (IntTimeRep.ofComponents iCent iYear iMonth iDay iHour iMin iSec).isValidDate = true ∧ iCent.toInt ≤ 20 ∧
      (0 ≤ (IntTimeRep.ofComponents iCent iYear iMonth iDay iHour iMin iSec).weekdayTotal ∨
        7 ∣ (IntTimeRep.ofComponents iCent iYear iMonth iDay iHour iMin iSec).weekdayTotal)
  | copy aTimeStamp => aTimeStamp.Tabled
  | set _ externalTimeRep => NamesMonth externalTimeRep
  | assign _ lTimeUtc => TimeStamp.InCenturies lTimeUtc.toInt
  | setTime before _ _ _ => before.Tabled
  | add before deltasecs => TimeStamp.InCenturies (Int64.ofInt before.stamp.asLong + deltasecs).toInt
  | sub before deltasecs => TimeStamp.InCenturies (Int64.ofInt before.stamp.asLong - deltasecs).toInt
  | addAssign before deltasecs => TimeStamp.InCenturies (Int64.ofInt before.stamp.asLong + deltasecs).toInt
  | subAssign before deltasecs => TimeStamp.InCenturies (Int64.ofInt before.stamp.asLong + -deltasecs).toInt

/-- The tables are read inside exactly for the stamps that are made of such times, texts and components. -/
theorem insideTables_iff_tabled (m : Made) : m.stamp.InsideTables ↔ m.Tabled := by
  induction m with
  | now utc => exact TimeStamp.insideTables_setTimeT utc.toInt
  | time utc => exact TimeStamp.insideTables_setTimeT utc.toInt
  | text externalTimeRep => exact TimeStamp.insideTables_intDoInit externalTimeRep
  | components iCent iYear iMonth iDay iHour iMin iSec =>
    exact TimeStamp.insideTables_ofComponents iCent iYear iMonth iDay iHour iMin iSec
  | copy aTimeStamp ih => exact ih
  | set before externalTimeRep => exact TimeStamp.insideTables_intDoInit externalTimeRep
  | assign before lTimeUtc => exact TimeStamp.insideTables_setTimeT lTimeUtc.toInt
  | setTime before iHour iMin iSec ih => exact (TimeStamp.insideTables_setTime before.stamp iHour iMin iSec).trans ih
  | add before deltasecs => exact TimeStamp.insideTables_setTimeT _
  | sub before deltasecs => exact TimeStamp.insideTables_setTimeT _
  | addAssign before deltasecs => exact TimeStamp.insideTables_setTimeT _
  | subAssign before deltasecs => exact TimeStamp.insideTables_setTimeT _

/-- The stamp of an empty text has no weekday: its century is 0, and the correction is looked up at -17. -/
theorem not_insideTables_empty : ¬ (text []).stamp.InsideTables := by
  intro inside
  exact absurd inside.1 (by decide)

end Made

end Coast.Time
