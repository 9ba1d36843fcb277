import Coast.Time.Conversion
import Coast.Time.Parsing

/-!
# There and back

A stamp, its seconds and its text stand for the same date.
-/

namespace Coast.Time

open IntTimeRep

namespace TimeStamp

/-! ### The text of a date -/

theorem digit_byte : ∀ v < 10, isdigit (UInt8.ofNat (48 + v)) = true ∧ digitValue (UInt8.ofNat (48 + v)) = v ∧
    UInt8.ofNat (Nat.digitChar v).toNat = UInt8.ofNat (48 + v) := by
  decide

theorem zfnum_eq {n : Nat} (small : n < 100) : zfnum n = [UInt8.ofNat (48 + n / 10), UInt8.ofNat (48 + n % 10)] := by
  unfold zfnum
  split
  · have tens : n / 10 = 0 := by omega
    have ones : n % 10 = n := by omega
    rw [tens, ones]
    rfl
  · rfl

theorem longText_eq {y : Nat} (low : 1000 ≤ y) (high : y < 10000) : longText y = zfnum (y / 100 : Nat) ++ zfnum (y % 100 : Nat) := by
  have digit : ∀ v < 10, decimalText v = [UInt8.ofNat (48 + v)] := fun v small => by
    rw [decimalText_lt small, (digit_byte v small).2.2]
  have positive : ¬ (y : Int) < 0 := by omega
  rw [longText, if_neg positive, Int.natAbs_natCast, decimalText_ge (by omega), decimalText_ge (by omega), decimalText_ge (by omega),
    digit _ (by omega), digit _ (by omega), digit _ (by omega), digit _ (by omega), zfnum_eq (by omega), zfnum_eq (by omega)]
  have thousands : y / 10 / 10 / 10 = y / 100 / 10 := by omega
  have hundreds : y / 10 / 10 % 10 = y / 100 % 10 := by omega
  have tens : y / 10 % 10 = y % 100 / 10 := by omega
  have ones : y % 10 = y % 100 % 10 := by omega
  rw [thousands, hundreds, tens, ones]
  rfl

theorem component_zfnum {numbers : List Nat} (small : ∀ n ∈ numbers, n < 100) (p : Nat) (inside : p < numbers.length) :
    (component (numbers.flatMap fun n : Nat => zfnum n) p).toInt = numbers[p] := by
  induction numbers generalizing p with
  | nil => simp at inside
  | cons n numbers ih =>
    have first := small n (by simp)
    obtain ⟨digit, value, -⟩ := digit_byte (n / 10) (by omega)
    obtain ⟨digit', value', -⟩ := digit_byte (n % 10) (by omega)
    rw [List.flatMap_cons, zfnum_eq first]
    cases p with
    | zero =>
      rw [component_pair rfl rfl digit digit', value, value', List.getElem_cons_zero]
      omega
    | succ p => exact ih (fun m mem => small m (List.mem_cons_of_mem n mem)) p (by simpa using inside)

/-- The components of a date, as `asString` writes them. -/
def numbers (d : DateTime) : List Nat := [d.year / 100, d.year % 100, d.month, d.day, d.hour, d.minute, d.second]

variable {s : TimeStamp} {d : DateTime}

theorem numbers_lt (range : d.InRange) : ∀ n ∈ numbers d, n < 100 := by
  have day := ((le_monthLength_iff d.year d.month d.day).mp d.day_le).1
  have := d.month_le
  have := d.hour_lt
  have := d.minute_lt
  have := d.second_lt
  simp only [DateTime.InRange] at range
  simp only [numbers, List.forall_mem_cons, List.not_mem_nil, false_implies, implies_true, and_true]
  omega

theorem asString_of_shows (here : Shows s.fTimeStruct d) (range : d.InRange) :
    s.asString = (numbers d).flatMap fun n : Nat => zfnum n := by
  have bounds := range
  simp only [DateTime.InRange] at bounds
  simp only [asString, isValid_of_shows here range, if_true, IntTimeRep.asString, here.year, here.month, here.day, here.hour,
    here.minute, here.second]
  rw [longText_eq (by omega) (by omega)]
  simp only [numbers, List.flatMap_cons, List.flatMap_nil, List.append_nil, List.append_assoc]

theorem isdigit_zfnum {n : Nat} (small : n < 100) : ∀ c ∈ zfnum n, isdigit c = true := by
  rw [zfnum_eq small]
  simp only [List.forall_mem_cons, List.not_mem_nil, false_implies, implies_true, and_true]
  exact ⟨(digit_byte _ (by omega)).1, (digit_byte _ (by omega)).1⟩

theorem length_flatMap_zfnum {numbers : List Nat} (small : ∀ n ∈ numbers, n < 100) :
    (numbers.flatMap fun n : Nat => zfnum n).length = 2 * numbers.length := by
  induction numbers with
  | nil => rfl
  | cons n numbers ih =>
    rw [List.flatMap_cons, List.length_append, ih (fun m mem => small m (List.mem_cons_of_mem n mem)),
      zfnum_eq (small n List.mem_cons_self), List.length_cons]
    simp only [List.length_cons, List.length_nil]
    omega

theorem ofString_asString (here : Shows s.fTimeStruct d) (range : d.InRange) : Shows (ofString s.asString).fTimeStruct d := by
  have small := numbers_lt range
  have places : s.asString.length = 14 := by
    rw [asString_of_shows here range, length_flatMap_zfnum small]
    rfl
  have digits : ∀ c ∈ s.asString, isdigit c = true := by
    rw [asString_of_shows here range]
    intro c mem
    obtain ⟨n, listed, mem⟩ := List.mem_flatMap.mp mem
    exact isdigit_zfnum (small n listed) c mem
  have whole : completed s.asString = s.asString := by
    have all : s.asString.filter isdigit = s.asString := List.filter_eq_self.mpr digits
    have none : pattern.drop 14 = [] := rfl
    simp only [completed, all, List.take_of_length_le places.le, places, none, List.append_nil]
  have data := cData_ofString_digits digits (by omega) places.le
  have value : ∀ p, (inside : p < 7) → (component (completed s.asString) p).toInt = (numbers d)[p] := fun p inside => by
    rw [whole, asString_of_shows here range, component_zfnum small p inside]
  have places' : List.range 7 = [0, 1, 2, 3, 4, 5, 6] := rfl
  simp only [cData, places', List.map_cons, List.map_nil, List.cons.injEq, and_true] at data
  obtain ⟨cent, year, month, day, hour, minute, second⟩ := data
  constructor
  · rw [IntTimeRep.year, cent, year, value 0 (by decide), value 1 (by decide)]
    simp only [numbers, List.getElem_cons_zero, List.getElem_cons_succ]
    omega
  · rw [month, value 2 (by decide)]
    rfl
  · rw [day, value 3 (by decide)]
    rfl
  · rw [hour, value 4 (by decide)]
    rfl
  · rw [minute, value 5 (by decide)]
    rfl
  · rw [second, value 6 (by decide)]
    rfl

/-! ### Stamps of dates -/

def ofDateTime (d : DateTime) : TimeStamp :=
  ofComponents (Int8.ofInt (d.year / 100 : Nat)) (Int8.ofInt (d.year % 100 : Nat)) (Int8.ofInt d.month) (Int8.ofInt d.day)
    (Int8.ofInt d.hour) (Int8.ofInt d.minute) (Int8.ofInt d.second)

theorem shows_ofDateTime (range : d.InRange) : Shows (ofDateTime d).fTimeStruct d := by
  have small := numbers_lt range
  simp only [numbers, List.forall_mem_cons, List.not_mem_nil, false_implies, implies_true, and_true] at small
  have here : Shows (IntTimeRep.ofComponents (Int8.ofInt (d.year / 100 : Nat)) (Int8.ofInt (d.year % 100 : Nat)) (Int8.ofInt d.month)
      (Int8.ofInt d.day) (Int8.ofInt d.hour) (Int8.ofInt d.minute) (Int8.ofInt d.second)) d := by
    constructor
    · simp (disch := omega) only [IntTimeRep.year, IntTimeRep.ofComponents, toInt_ofInt_small]
      omega
    all_goals simp (disch := omega) only [IntTimeRep.ofComponents, toInt_ofInt_small]
  rw [ofDateTime, TimeStamp.ofComponents, intSet, if_pos (isValidDate_of_shows here range)]
  exact here

/-- Stamps of seconds are valid and give the seconds back, also over their text; a date has a stamp, and the stamp of
its seconds shows the date; and seconds are in the order of the calendar. -/
theorem calendar_agrees :
    (∀ t : Int, 0 ≤ t → t ≤ max.asLong → (ofTimeT t).isValid = true ∧ (ofTimeT t).asLong = t ∧
      (ofString (ofTimeT t).asString).asLong = t) ∧
    (∀ d : DateTime, d.InRange → Shows (ofDateTime d).fTimeStruct d ∧
      ∀ s : TimeStamp, Shows s.fTimeStruct d → s.isValid = true ∧ Shows (ofTimeT s.asLong).fTimeStruct d) ∧
    (∀ (s s' : TimeStamp) (d d' : DateTime), d.InRange → d'.InRange → Shows s.fTimeStruct d → Shows s'.fTimeStruct d' →
      (s.asLong < s'.asLong ↔ d.fields < d'.fields)) := by
  refine ⟨fun t nonneg bounded => ?_, fun d range => ⟨shows_ofDateTime range, fun s here => ?_⟩,
    fun s s' d d' range range' here here' => asLong_lt_iff here range here' range'⟩
  · obtain ⟨d, counted, range⟩ := exists_date nonneg bounded
    have here := ofTimeT_shows nonneg counted range
    refine ⟨isValid_of_shows here range, ?_, ?_⟩
    · rw [asLong_of_shows here range]
      omega
    · rw [asLong_of_shows (ofString_asString here range) range]
      omega
  · exact ⟨isValid_of_shows here range, ofTimeT_asLong here range⟩

def leapDay : DateTime := ⟨2000, 2, 29, 12, 0, 0, by decide, by decide, by decide, by decide, by decide, by decide, by decide⟩

theorem calendar_agrees_leapDay : (ofString (ofTimeT 951825600).asString).asLong = 951825600 ∧
    Shows (ofTimeT (ofDateTime leapDay).asLong).fTimeStruct leapDay ∧ ¬ (ofDateTime leapDay).asLong < (ofDateTime leapDay).asLong := by
  have shown := calendar_agrees.2.1 leapDay (by constructor <;> decide)
  have order := calendar_agrees.2.2 (ofDateTime leapDay) (ofDateTime leapDay) leapDay leapDay (by constructor <;> decide)
    (by constructor <;> decide) shown.1 shown.1
  exact ⟨(calendar_agrees.1 951825600 (by decide) (by decide)).2.2, (shown.2 _ shown.1).2, order.not.mpr (by decide)⟩

end TimeStamp

end Coast.Time
