import Coast.Time.TimeStamp
import Mathlib.Data.List.Induction

/-!
# Stamps from text

The loop that reads a text looks at 14 characters, and has 14 places to fill. The digits among the characters and
the default for those that the text is short of make the components, two characters each.
-/

namespace Coast.Time

namespace IntTimeRep

def addDigit (item : Int8) (c : UInt8) : Int8 :=
  Int8.ofInt ((Int8.ofInt (item.toInt * 10)).toInt + (charInt c - charInt '0'.toUInt8))

def component (text : Bytes) (p : Nat) : Int8 := ((text.drop (2 * p)).take 2).foldl addDigit 0

theorem cData_change (pos : Nat) (f : Int8 → Int8) (r : IntTimeRep) : (r.change pos f).cData = r.cData.modify pos f := by
  match pos with
  | 0 | 1 | 2 | 3 | 4 | 5 | 6 => rfl
  | pos + 7 => simp [change, cData]

theorem component_append (text : Bytes) (c : UInt8) (p : Nat) :
    component (text ++ [c]) p = if text.length / 2 = p then addDigit (component text p) c else component text p := by
  simp only [component]
  split
  · have short : (text.drop (2 * p)).length < 2 := by
      rw [List.length_drop]
      omega
    rw [List.drop_append_of_le_length (by omega), List.take_of_length_le (by simp only [List.length_append, List.length_singleton]; omega),
      List.take_of_length_le (by omega), List.foldl_append]
    rfl
  · by_cases before : 2 * p ≤ text.length
    · rw [List.drop_append_of_le_length before, List.take_append_of_le_length]
      rw [List.length_drop]
      omega
    · rw [List.drop_of_length_le (by simp only [List.length_append, List.length_singleton]; omega), List.drop_of_length_le (by omega)]

theorem foldl_addCharacter {text : Bytes} (short : text.length < 256) :
    (text.foldl addCharacter reset).cData = (List.range 7).map (component text) ∧
    (text.foldl addCharacter reset).fStructPos = UInt8.ofNat text.length := by
  induction text using List.reverseRecOn with
  | nil => decide
  | append_singleton text c ih =>
    rw [List.length_append, List.length_singleton] at short ⊢
    obtain ⟨data, place⟩ := ih (by omega)
    have pos : (UInt8.ofNat text.length >>> 1).toNat = text.length / 2 := by
      rw [UInt8.toNat_shiftRight, UInt8.toNat_ofNat_of_lt' (by rw [UInt8.size]; omega)]
      exact Nat.shiftRight_eq_div_pow text.length 1
    rw [List.foldl_append]
    simp only [List.foldl_cons, List.foldl_nil, addCharacter]
    constructor
    · change (change _ _ _).cData = _
      rw [cData_change, data, place, pos]
      apply List.ext_getElem
      · simp
      · intro i inside inside'
        simp [List.getElem_modify, component_append, addDigit]
    · rw [place]
      exact (UInt8.ofNat_add text.length 1).symm

end IntTimeRep

namespace TimeStamp

open IntTimeRep

/-! ### The loop -/

def gathered (text : Bytes) (n : Nat) : Bytes :=
  let digits := (text.take n).filter isdigit
  digits ++ (pattern.drop digits.length).take (n - text.length)

theorem length_digits_le (text : Bytes) (n : Nat) :
    ((text.take n).filter isdigit).length ≤ n ∧ ((text.take n).filter isdigit).length ≤ text.length := by
  have kept := List.length_filter_le isdigit (text.take n)
  rw [List.length_take] at kept
  omega

theorem length_gathered {text : Bytes} {n : Nat} (short : n ≤ 14) :
    (gathered text n).length = ((text.take n).filter isdigit).length + (n - text.length) := by
  have bounds := length_digits_le text n
  have places : pattern.length = 14 := rfl
  simp only [gathered, List.length_append, List.length_take, List.length_drop, places]
  omega

theorem gathered_some {text : Bytes} {n : Nat} {c : UInt8} (here : text[n]? = some c) :
    gathered text (n + 1) = gathered text n ++ [c].filter isdigit := by
  obtain ⟨inside, rfl⟩ := List.getElem?_eq_some_iff.mp here
  have early : n + 1 - text.length = 0 := by omega
  have early' : n - text.length = 0 := by omega
  simp only [gathered, early, early', List.take_zero, List.append_nil, ← List.take_append_getElem inside, List.filter_append]

theorem gathered_none {text : Bytes} {n : Nat} (short : n < 14) (here : text[n]? = none) :
    gathered text (n + 1) = gathered text n ++ [pattern.getD (gathered text n).length 0] := by
  have places : pattern.length = 14 := rfl
  have beyond := List.getElem?_eq_none_iff.mp here
  have bounds := length_digits_le text n
  rw [length_gathered (by omega)]
  simp only [gathered, List.take_of_length_le beyond, List.take_of_length_le (Nat.le_succ_of_le beyond), List.append_assoc] at bounds ⊢
  rw [Nat.succ_sub beyond, List.take_add_one, List.getElem?_drop, List.getD_eq_getElem?_getD, List.getElem?_eq_getElem (by omega)]
  rfl

theorem rounds (text : Bytes) (n : Nat) (short : n ≤ 14) :
    (List.range n).foldl (intDoInitRound text) (reset, 0, 0) =
      ((gathered text n).foldl addCharacter reset, ((text.take n).filter isdigit).length, (gathered text n).length) := by
  induction n with
  | zero => simp [gathered]
  | succ n ih =>
    have bounds := length_digits_le text n
    have room : (gathered text n).length < 14 := by
      rw [length_gathered (by omega)]
      omega
    rw [List.range_succ, List.foldl_append, ih (by omega)]
    simp only [List.foldl_cons, List.foldl_nil, intDoInitRound, if_pos room]
    cases here : text[n]? with
    | some c =>
      obtain ⟨inside, rfl⟩ := List.getElem?_eq_some_iff.mp here
      rw [gathered_some here, ← List.take_append_getElem inside, List.filter_append]
      by_cases digit : isdigit text[n] = true <;> simp [digit, List.foldl_append]
    | none =>
      have beyond := List.getElem?_eq_none_iff.mp here
      rw [gathered_none short here, List.take_of_length_le beyond, List.take_of_length_le (Nat.le_succ_of_le beyond)]
      simp [List.foldl_append]

theorem cData_ofString (text : Bytes) : (ofString text).fTimeStruct.cData =
    if ((text.take 14).filter isdigit).length < 4 then reset.cData else (List.range 7).map (component (gathered text 14)) := by
  have bounds := length_digits_le text 14
  have short : (gathered text 14).length < 256 := by
    rw [length_gathered (by omega)]
    omega
  simp only [ofString, intDoInit, rounds text 14 (by omega)]
  split
  · rfl
  · exact (foldl_addCharacter short).1

/-! ### The digits that count -/

/-- The first 14 digits of a text, with the default for those that it is short of. -/
def completed (text : Bytes) : Bytes :=
  let digits := (text.filter isdigit).take 14
  digits ++ pattern.drop digits.length

def kept (text : Bytes) : Nat :=
  let found := ((text.take 14).filter isdigit).length
  if found < 4 then 0 else found + (14 - text.length)

theorem length_completed (text : Bytes) : (completed text).length = 14 := by
  have places : pattern.length = 14 := rfl
  simp only [completed, List.length_append, List.length_drop, List.length_take, places]
  omega

theorem isdigit_completed (text : Bytes) : ∀ c ∈ completed text, isdigit c = true := by
  have default : pattern.all isdigit = true := rfl
  intro c mem
  rcases List.mem_append.mp mem with mem | mem
  · exact (List.mem_filter.mp (List.mem_of_mem_take mem)).2
  · exact List.all_eq_true.mp default c (List.mem_of_mem_drop mem)

theorem gathered_eq_take (text : Bytes) :
    gathered text 14 = (completed text).take (((text.take 14).filter isdigit).length + (14 - text.length)) := by
  have bounds := length_digits_le text 14
  have places : pattern.length = 14 := rfl
  by_cases long : 14 ≤ text.length
  · have early : 14 - text.length = 0 := by omega
    have front : (text.filter isdigit).take 14 = (text.take 14).filter isdigit ++
        ((text.drop 14).filter isdigit).take (14 - ((text.take 14).filter isdigit).length) := by
      conv_lhs => rw [← List.take_append_drop 14 text, List.filter_append, List.take_append, List.take_of_length_le bounds.1]
    simp only [gathered, completed, early, List.take_zero, List.append_nil, Nat.add_zero, front]
    rw [List.append_assoc, List.take_left]
  · have whole : text.take 14 = text := List.take_of_length_le (by omega)
    simp only [gathered, completed, whole] at bounds ⊢
    rw [List.take_of_length_le bounds.1, List.take_length_add_append]

theorem cData_ofString_eq (text : Bytes) :
    (ofString text).fTimeStruct.cData = (List.range 7).map (component ((completed text).take (kept text))) := by
  rw [cData_ofString, kept]
  split
  · rfl
  · rw [gathered_eq_take]

theorem cData_ofString_digits {text : Bytes} (digits : ∀ c ∈ text, isdigit c = true) (enough : 4 ≤ text.length)
    (short : text.length ≤ 14) : (ofString text).fTimeStruct.cData = (List.range 7).map (component (completed text)) := by
  have all : text.filter isdigit = text := List.filter_eq_self.mpr digits
  have count : kept text = 14 := by
    simp only [kept, List.take_of_length_le short, all]
    rw [if_neg (by omega)]
    omega
  rw [cData_ofString_eq, count, List.take_of_length_le (length_completed text).le]

theorem completed_digits (text : Bytes) : completed ((text.filter isdigit).take 14) = completed text := by
  have all : ((text.filter isdigit).take 14).filter isdigit = (text.filter isdigit).take 14 :=
    List.filter_eq_self.mpr fun c mem => (List.mem_filter.mp (List.mem_of_mem_take mem)).2
  simp only [completed, all, List.take_take, Nat.min_self]

/-! ### Digits of a component -/

theorem digit_value {c : UInt8} (digit : isdigit c = true) :
    charInt c - charInt '0'.toUInt8 = digitValue c ∧ (digitValue c = 0 ↔ c = '0'.toUInt8) := by
  revert digit
  exact forall_byte (by decide) c

theorem addDigit_digit {item : Int8} {c : UInt8} (low : 0 ≤ item.toInt) (high : item.toInt < 10) (digit : isdigit c = true) :
    (addDigit item c).toInt = 10 * item.toInt + digitValue c := by
  have small := digitValue_lt_ten digit
  have tens : (Int8.ofInt (item.toInt * 10)).toInt = item.toInt * 10 := Int8.toInt_ofInt_of_le (by omega) (by omega)
  rw [addDigit, (digit_value digit).1, tens, Int8.toInt_ofInt_of_le (by omega) (by omega)]
  omega

variable {text : Bytes} {p : Nat} {a b : UInt8}

theorem component_pair (first : text[2 * p]? = some a) (second : text[2 * p + 1]? = some b) (digit : isdigit a = true)
    (digit' : isdigit b = true) : (component text p).toInt = 10 * digitValue a + digitValue b := by
  obtain ⟨inside, rfl⟩ := List.getElem?_eq_some_iff.mp first
  obtain ⟨inside', rfl⟩ := List.getElem?_eq_some_iff.mp second
  have small := digitValue_lt_ten digit
  have one : (addDigit 0 text[2 * p]).toInt = digitValue text[2 * p] := by
    rw [addDigit_digit (by decide) (by decide) digit]
    simp
  rw [component, List.drop_eq_getElem_cons inside, List.drop_eq_getElem_cons inside']
  simp only [List.take_succ_cons, List.take_zero, List.foldl_cons, List.foldl_nil]
  rw [addDigit_digit (by omega) (by omega) digit', one]

theorem component_single (first : text[2 * p]? = some a) (last : text.length = 2 * p + 1) (digit : isdigit a = true) :
    (component text p).toInt = digitValue a := by
  obtain ⟨inside, rfl⟩ := List.getElem?_eq_some_iff.mp first
  rw [component, List.drop_eq_getElem_cons inside, List.drop_of_length_le last.le]
  simp only [List.take_succ_cons, List.take_nil, List.foldl_cons, List.foldl_nil]
  rw [addDigit_digit (by decide) (by decide) digit]
  simp

theorem component_beyond (beyond : text.length ≤ 2 * p) : component text p = 0 := by
  rw [component, List.drop_of_length_le beyond]
  rfl

theorem component_take_eq_iff (first : text[2 * p]? = some a) (second : text[2 * p + 1]? = some b) (digit : isdigit a = true)
    (digit' : isdigit b = true) (m : Nat) :
    component (text.take m) p = component text p ↔ (m / 2 ≤ p → a = '0'.toUInt8 ∧ b = '0'.toUInt8) := by
  have whole := component_pair first second digit digit'
  have inside := (List.getElem?_eq_some_iff.mp second).1
  rw [← Int8.toInt_inj, whole, ← (digit_value digit).2, ← (digit_value digit').2]
  rcases Nat.lt_trichotomy m (2 * p + 1) with early | cut | late
  · have none : component (text.take m) p = 0 := by
      apply component_beyond
      rw [List.length_take]
      omega
    rw [none, Int8.toInt_zero]
    omega
  · have half : (component (text.take m) p).toInt = digitValue a := by
      apply component_single _ _ digit
      · rw [List.getElem?_take_of_lt (by omega), first]
      · rw [List.length_take]
        omega
    rw [half]
    omega
  · have same : (component (text.take m) p).toInt = 10 * digitValue a + digitValue b := by
      apply component_pair _ _ digit digit'
      · rw [List.getElem?_take_of_lt (by omega), first]
      · rw [List.getElem?_take_of_lt (by omega), second]
    rw [same]
    omega

/-! ### Separators -/

theorem component_eq_iff (text : Bytes) : (∀ p < 7, component ((completed text).take (kept text)) p = component (completed text) p) ↔
    ∀ j, 2 * (kept text / 2) ≤ j → j < 14 → (completed text)[j]? = some '0'.toUInt8 := by
  have places := length_completed text
  have digit : ∀ j, (inside : j < 14) → isdigit (completed text)[j] = true := fun j inside =>
    isdigit_completed text _ (List.getElem_mem _)
  have listed : ∀ j, (inside : j < 14) → (completed text)[j]? = some (completed text)[j] := fun j inside =>
    List.getElem?_eq_getElem (by omega)
  have pairs : ∀ p, (inside : p < 7) → (component ((completed text).take (kept text)) p = component (completed text) p ↔
      (kept text / 2 ≤ p → (completed text)[2 * p] = '0'.toUInt8 ∧ (completed text)[2 * p + 1] = '0'.toUInt8)) := fun p inside =>
    component_take_eq_iff (listed _ (by omega)) (listed _ (by omega)) (digit _ (by omega)) (digit _ (by omega)) _
  constructor
  · intro same j late inside
    have pair := (pairs (j / 2) (by omega)).mp (same (j / 2) (by omega)) (by omega)
    rw [listed j inside]
    rcases Nat.mod_two_eq_zero_or_one j with even | odd
    · have here : 2 * (j / 2) = j := by omega
      simp only [here] at pair
      rw [pair.1]
    · have here : 2 * (j / 2) + 1 = j := by omega
      simp only [here] at pair
      rw [pair.2]
  · intro zeros p inside
    apply (pairs p inside).mpr
    intro late
    have first := zeros (2 * p) (by omega) (by omega)
    have second := zeros (2 * p + 1) (by omega) (by omega)
    rw [listed _ (by omega), Option.some.injEq] at first second
    exact ⟨first, second⟩

theorem isEqual_of_cData {s t : TimeStamp} (same : s.fTimeStruct.cData = t.fTimeStruct.cData) : s.isEqual t = true := by
  obtain ⟨⟨cent, year, month, day, hour, minute, second, pos⟩⟩ := s
  obtain ⟨⟨cent', year', month', day', hour', minute', second', pos'⟩⟩ := t
  simp only [cData, List.cons.injEq, and_true] at same
  obtain ⟨rfl, rfl, rfl, rfl, rfl, rfl, rfl⟩ := same
  exact beq_iff_eq.mpr rfl

/-- A text makes the stamp of its digits exactly when the digits that are not read are zeros. -/
theorem ofString_eq_digits_iff (text : Bytes) (enough : 4 ≤ (text.filter isdigit).length) :
    ((ofString text).fTimeStruct.cData = (ofString ((text.filter isdigit).take 14)).fTimeStruct.cData ↔
      ∀ j, 2 * (kept text / 2) ≤ j → j < 14 → (completed text)[j]? = some '0'.toUInt8) ∧
    ((∀ j, 2 * (kept text / 2) ≤ j → j < 14 → (completed text)[j]? = some '0'.toUInt8) →
      (ofString text).isEqual (ofString ((text.filter isdigit).take 14)) = true) := by
  have digits : ∀ c ∈ (text.filter isdigit).take 14, isdigit c = true := fun c mem =>
    (List.mem_filter.mp (List.mem_of_mem_take mem)).2
  have count : ((text.filter isdigit).take 14).length = min 14 (text.filter isdigit).length := List.length_take
  have exact : (ofString text).fTimeStruct.cData = (ofString ((text.filter isdigit).take 14)).fTimeStruct.cData ↔
      ∀ j, 2 * (kept text / 2) ≤ j → j < 14 → (completed text)[j]? = some '0'.toUInt8 := by
    rw [← component_eq_iff, cData_ofString_eq, cData_ofString_digits digits (by omega) (by omega), completed_digits, List.map_inj_left]
    simp only [List.mem_range]
  exact ⟨exact, fun zeros => isEqual_of_cData (exact.mpr zeros)⟩

theorem ofString_midnight : (ofString (ascii "2007-01-02 00:00:00")).isEqual (ofString (ascii "20070102000000")) = true :=
  (ofString_eq_digits_iff (ascii "2007-01-02 00:00:00") (by decide)).2 (by decide)

/-- Of a time that is written with separators only the hour is read. -/
theorem ofString_separators : 4 ≤ ((ascii "2007-01-02 03:04:05").filter isdigit).length ∧
    (ofString (ascii "2007-01-02 03:04:05")).isEqual (ofString (((ascii "2007-01-02 03:04:05").filter isdigit).take 14)) = false := by
  decide

end TimeStamp

end Coast.Time
