import Coast.Regex.Fragment

/-!
# Reading the grammar

The compiler reads a text of the grammar as a tree that denotes the language of the text. It takes runs of
characters together as atoms, and it copies operands as often as the number in braces says, which `strtol`
cuts off at its greatest value; a program of less than 2^15 nodes does not hold so many copies.
-/

namespace Coast.Regex

open Scan

/-! ### What the scanner stands at -/

theorem ofInt_toNat (c : UInt8) : UInt8.ofInt c.toNat = c := forall_byte (by decide) c

section Reading

variable {pattern rest : Bytes} {s : Scanner} {c : UInt8}

def Scanner.on (s : Scanner) (n : Nat) : Scanner := { s with patternIdx := s.patternIdx + n }

@[simp] theorem Scanner.on_idx (s : Scanner) (n : Nat) : (s.on n).patternIdx = s.patternIdx + n := rfl

theorem Scanner.on_on (s : Scanner) (n k : Nat) : (s.on n).on k = s.on (n + k) := by
  rw [on, on, on, Nat.add_assoc]

theorem patternAt_of_drop (here : pattern.drop s.patternIdx = rest) (k : Nat) :
    patternAt pattern (s.patternIdx + k) = rest.getD k 0 := by
  rw [← here, patternAt, List.getD_eq_getElem?_getD, List.getD_eq_getElem?_getD, List.getElem?_drop]

theorem length_of_drop (here : pattern.drop s.patternIdx = rest) : pattern.length - s.patternIdx = rest.length := by
  rw [← here, List.length_drop]

theorem peek_of_drop (here : pattern.drop s.patternIdx = c :: rest) : patternAt pattern s.patternIdx = c :=
  patternAt_of_drop here 0

theorem lookAhead_plain (plain : c ≠ '\\'.toUInt8) (here : pattern.drop s.patternIdx = c :: rest) :
    lookAhead pattern s = some (some rest.head?, s) := by
  have length := length_of_drop here
  rw [List.length_cons] at length
  rw [lookAhead, current_bind]
  cases rest with
  | nil =>
    rw [List.length_nil] at length
    rw [if_pos (by omega)]
    rfl
  | cons b rest =>
    rw [List.length_cons] at length
    rw [if_neg (by omega), peek_of_drop here, if_pos plain, patternAt_of_drop here]
    rfl

end Reading

/-- The last piece continues where it is told to, so that the next one can be connected with it. -/
def Sequence.Sound (q : Sequence) : Prop := q.broken = false ∧ ∀ last ∈ q.pieces.getLast?, last.closed = true

theorem Sequence.Sound.add {q : Sequence} (sound : q.Sound) {p : Piece} (closed : p.closed = true) : (q.add p).Sound := by
  refine ⟨?_, fun last has => ?_⟩
  · show q.breaks p = false
    rw [Sequence.breaks, Bool.and_eq_false_iff]
    refine .inl (Bool.eq_false_iff.mpr fun opens => ?_)
    obtain ⟨last, has, no⟩ := (Option.any_eq_true _ _).mp opens
    rw [sound.2 last has] at no
    cases no
  · rw [Sequence.add, List.getLast?_concat] at has
    cases has
    exact closed

end Coast.Regex

namespace Coast.Regex.Fragment

open Languages Scan Computability

/-! ### Trees and languages -/

structure Denotes (p : Piece) (L : MatchFlags → Language UInt8) : Prop where
  closed : p.closed = true
  means : p.size < 32768 → ∀ flags, p.Greedy flags ∧ p.language flags = L flags

def AltsDenote (a : Alts) (L : MatchFlags → Language UInt8) : Prop :=
  a.size < 32768 → ∀ flags, a.Greedy flags ∧ a.language flags = L flags

theorem Alts.denote_last {p : Piece} {L : MatchFlags → Language UInt8} (denotes : Denotes p L) : AltsDenote (.last p) L := by
  intro small
  rw [Alts.size] at small
  exact denotes.means (by omega)

theorem Alts.denote_alt {p : Piece} {a : Alts} {L M : MatchFlags → Language UInt8} (denotes : Denotes p L) (others : AltsDenote a M) :
    AltsDenote (.alt p a) fun flags => L flags + M flags := by
  intro small flags
  rw [Alts.size] at small
  obtain ⟨greedy, is⟩ := denotes.means (by omega) flags
  obtain ⟨greedy', is'⟩ := others (by omega) flags
  exact ⟨⟨greedy, greedy'⟩, by rw [Alts.language, is, is']⟩

namespace Denotes

variable {p q : Piece} {L M : MatchFlags → Language UInt8}

theorem congr (denotes : Denotes p L) (same : ∀ flags, L flags = M flags) : Denotes p M := by
  rwa [← funext same]

theorem nothing : Denotes .nothing fun _ => 1 := ⟨rfl, fun _ _ => ⟨trivial, rfl⟩⟩

theorem any : Denotes (.simple .opAny) MatchFlags.anyChar := ⟨rfl, fun _ _ => ⟨trivial, rfl⟩⟩

theorem atom {text : Bytes} (some : text ≠ []) (plain : 0 ∉ text) :
    Denotes (.simple (.opAtom text)) fun flags => alike flags.fold text := ⟨rfl, fun _ _ => ⟨⟨some, plain⟩, rfl⟩⟩

theorem group {a : Alts} (k : Nat) (denotes : AltsDenote a L) : Denotes (.group k a) L := by
  refine ⟨rfl, fun small => ?_⟩
  rw [Piece.size] at small
  exact denotes (by omega)

theorem chain (first : Denotes p L) (later : Denotes q M) : Denotes (.chain p q) fun flags => L flags * M flags := by
  refine ⟨later.closed, fun small flags => ?_⟩
  rw [Piece.size] at small
  obtain ⟨greedy, is⟩ := first.means (by omega) flags
  obtain ⟨greedy', is'⟩ := later.means (by omega) flags
  exact ⟨⟨greedy, greedy'⟩, by rw [Piece.language, is, is']⟩

theorem ofList {ps : List Piece} (first : Denotes p L) (later : Denotes (.ofList ps) M) :
    Denotes (.ofList (p :: ps)) fun flags => L flags * M flags := by
  cases ps with
  | nil =>
    refine ⟨first.closed, fun small flags => ?_⟩
    obtain ⟨greedy, is⟩ := first.means small flags
    have one := (later.means (by decide) flags).2
    rw [Piece.ofList, Piece.language] at one
    exact ⟨greedy, by rw [← one, mul_one]; exact is⟩
  | cons q ps => exact first.chain later

theorem copies (first : Denotes p L) (later : Denotes q M) (n : Nat) : Denotes (.copies p n q) fun flags => L flags ^ n * M flags := by
  induction n with
  | zero => exact later.congr fun flags => by rw [pow_zero, one_mul]
  | succ n ih => exact (first.chain ih).congr fun flags => by rw [pow_succ', mul_assoc]

theorem question (denotes : Denotes p L) : Denotes (.question p) fun flags => 1 + L flags := by
  refine ⟨rfl, fun small flags => ?_⟩
  rw [Piece.size] at small
  obtain ⟨greedy, is⟩ := denotes.means (by omega) flags
  exact ⟨greedy, by rw [Piece.language, is]⟩

variable (full : ∀ flags, [] ∉ L flags)

include full

theorem star (denotes : Denotes p L) : Denotes (.star p) fun flags => (L flags)∗ := by
  refine ⟨rfl, fun small flags => ?_⟩
  rw [Piece.size] at small
  obtain ⟨greedy, is⟩ := denotes.means (by omega) flags
  exact ⟨⟨greedy, is ▸ full flags⟩, by rw [Piece.language, is]⟩

theorem plus (denotes : Denotes p L) : Denotes (.plus p) fun flags => L flags * (L flags)∗ := by
  refine ⟨rfl, fun small flags => ?_⟩
  rw [Piece.size] at small
  obtain ⟨greedy, is⟩ := denotes.means (by omega) flags
  exact ⟨⟨greedy, is ▸ full flags⟩, by rw [Piece.language, is]⟩

theorem repeated (denotes : Denotes p L) (least : Nat) (most : Option Nat) (some : most = some 0 → least ≠ 0) :
    Denotes (repeated p least most) fun flags => powers (L flags) least (most.map fun more => least + more) := by
  cases most with
  | none => exact (denotes.copies (denotes.star full) least).congr fun flags => (powers_unbounded _ _).symm
  | some more =>
    cases more with
    | zero =>
      obtain ⟨k, rfl⟩ : ∃ k, least = k + 1 := ⟨least - 1, by have := some rfl; omega⟩
      refine (denotes.copies denotes k).congr fun flags => ?_
      rw [Option.map_some, Nat.add_zero, powers_exactly, pow_succ]
    | succ more =>
      refine (denotes.copies (denotes.question.copies denotes.question more) least).congr fun flags => ?_
      rw [Option.map_some, powers_bounded, pow_succ]

end Denotes

theorem size_copies (p q : Piece) (n : Nat) : n + q.size ≤ (Piece.copies p n q).size := by
  induction n with
  | zero => exact (Nat.zero_add _).le
  | succ n ih =>
    have := p.size_pos
    rw [Piece.copies, Piece.size]
    omega

theorem size_repeated (p : Piece) (least : Nat) (most : Option Nat) : least + most.getD 0 ≤ (repeated p least most).size := by
  have pos := p.size_pos
  cases most with
  | none =>
    have := size_copies p (.star p) least
    rw [repeated, Option.getD_none]
    omega
  | some more =>
    cases more with
    | zero =>
      have := size_copies p p (least - 1)
      rw [repeated, Option.getD_some]
      omega
    | succ more =>
      have outer := size_copies p (.copies (.question p) more (.question p)) least
      have inner := size_copies (.question p) (.question p) more
      have := (Piece.question p).size_pos
      rw [repeated, Option.getD_some]
      omega

/-- The greatest value of a `long`. -/
def longMax : Nat := 2 ^ 63 - 1

theorem Denotes.repeated_capped {p : Piece} {L : MatchFlags → Language UInt8} (full : ∀ flags, [] ∉ L flags) (denotes : Denotes p L)
    {least : Nat} {most : Option Nat} (some : ∀ k ∈ most, k ≠ 0 ∧ least ≤ k) :
    Denotes (Regex.repeated p (min least longMax) (most.map fun k => min k longMax - min least longMax)) fun flags =>
      powers (L flags) least most := by
  have large : 32768 ≤ longMax := by decide
  have nonzero : (most.map fun k => min k longMax - min least longMax) = Option.some 0 → min least longMax ≠ 0 := by
    intro zero
    obtain ⟨k, rfl, is⟩ := Option.map_eq_some_iff.mp zero
    have := some k rfl
    omega
  have capped := denotes.repeated full (min least longMax) (most.map fun k => min k longMax - min least longMax) nonzero
  refine ⟨capped.closed, fun small flags => ?_⟩
  have counted := Nat.lt_of_le_of_lt (size_repeated p (min least longMax) (most.map fun k => min k longMax - min least longMax)) small
  obtain ⟨greedy, is⟩ := capped.means small flags
  refine ⟨greedy, is.trans ?_⟩
  cases most with
  | none => rw [Option.map_none, Option.map_none, min_eq_left (by omega)]
  | some k =>
    have := some k rfl
    rw [Option.map_some, Option.getD_some] at counted
    rw [Option.map_some, Option.map_some, min_eq_left (by omega), min_eq_left (by omega), Nat.add_sub_cancel' this.2]

/-! ### Numbers in braces -/

section Numbers

theorem asLong_digits {digits : Bytes} (nonempty : digits ≠ []) (all : ∀ c ∈ digits, isdigit c = true) :
    asLong digits = (min (digitsValue 10 digits) longMax : Nat) := by
  obtain ⟨c, digits, rfl⟩ := List.exists_cons_of_ne_nil nonempty
  obtain ⟨space, minus, plus⟩ := digit_not_mark (all c List.mem_cons_self)
  have unsigned : scanNumber 10 (c :: digits) = (false, digitsValue 10 (c :: digits)) := by
    rw [scanNumber, List.dropWhile_cons_of_neg (by simp [space])]
    simp [splitSign, minus, plus]
  rw [asLong, strtol, unsigned]
  dsimp only
  split
  · rename_i small
    rw [Int64.toInt_ofNat_of_lt small, min_eq_left (by rw [longMax]; omega)]
  · rw [min_eq_right (by rw [longMax]; omega)]
    rfl

variable {pattern : Bytes} {s : Scanner} {rest behind : Bytes}

theorem advance_on {α : Type} (n : Nat) (f : Unit → Scan α) (s : Scanner) : (advance n >>= f) s = f () (s.on n) := rfl

theorem drop_on {text : Bytes} (here : pattern.drop s.patternIdx = text ++ rest) :
    pattern.drop (s.on text.length).patternIdx = rest := by
  rw [Scanner.on_idx, ← List.drop_drop, here, List.drop_left]

theorem drop_on_one {c : UInt8} (here : pattern.drop s.patternIdx = c :: rest) : pattern.drop (s.on 1).patternIdx = rest :=
  @drop_on pattern s rest [c] here

theorem readNumber_digits {digits : Bytes} {c : UInt8} (dflt : Int) (nonempty : digits ≠ [])
    (all : ∀ c ∈ digits, isdigit c = true) (other : isdigit c = false) (here : pattern.drop s.patternIdx = digits ++ c :: rest) :
    readNumber pattern dflt s = some (some ((min (digitsValue 10 digits) longMax : Nat) : Int), s.on digits.length) := by
  have value := asLong_digits nonempty all
  have taken : (digits ++ c :: rest).takeWhile isdigit = digits := by
    rw [List.takeWhile_append_of_pos all, List.takeWhile_cons_of_neg (by simp [other]), List.append_nil]
  have first : isdigit (patternAt pattern s.patternIdx) = true := by
    obtain ⟨d, digits, rfl⟩ := List.exists_cons_of_ne_nil nonempty
    rw [peek_of_drop here]
    exact all d List.mem_cons_self
  rw [readNumber, peek_bind, if_pos first, current_bind, here, taken, advance_on, value]
  rfl

theorem bracket_exactly {digits : Bytes} (nonempty : digits ≠ []) (all : ∀ c ∈ digits, isdigit c = true)
    (here : pattern.drop s.patternIdx = '\x7b'.toUInt8 :: (digits ++ '\x7d'.toUInt8 :: behind)) :
    bracket pattern s = some (some (((min (digitsValue 10 digits) longMax : Nat) : Int), some 0), s.on (1 + (digits.length + 1))) := by
  have number := readNumber_digits 1 nonempty all (by decide) (drop_on_one here)
  have close := drop_on (drop_on_one here)
  rw [bracket, advance_on, bind_of_ok number, peek_bind, peek_of_drop close, if_pos rfl, advance_on, Scanner.on_on, Scanner.on_on]
  rfl

theorem bracket_atLeast {digits : Bytes} (nonempty : digits ≠ []) (all : ∀ c ∈ digits, isdigit c = true)
    (here : pattern.drop s.patternIdx = '\x7b'.toUInt8 :: (digits ++ ','.toUInt8 :: '\x7d'.toUInt8 :: behind)) :
    bracket pattern s = some (some (((min (digitsValue 10 digits) longMax : Nat) : Int), none), s.on (1 + (digits.length + (1 + 1)))) := by
  have number := readNumber_digits 1 nonempty all (by decide) (drop_on_one here)
  have comma := drop_on (drop_on_one here)
  have close := drop_on_one comma
  rw [bracket, advance_on, bind_of_ok number, peek_bind, peek_of_drop comma, if_neg (by decide), peek_bind, peek_of_drop comma,
    advance_on, if_neg (by decide), peek_bind, peek_of_drop close, if_pos rfl, advance_on, Scanner.on_on, Scanner.on_on,
    Scanner.on_on]
  rfl

theorem bracket_between {least most : Bytes} (nonempty : least ≠ []) (all : ∀ c ∈ least, isdigit c = true)
    (nonempty' : most ≠ []) (all' : ∀ c ∈ most, isdigit c = true) (le : digitsValue 10 least ≤ digitsValue 10 most)
    (here : pattern.drop s.patternIdx = '\x7b'.toUInt8 :: (least ++ ','.toUInt8 :: (most ++ '\x7d'.toUInt8 :: behind))) :
    bracket pattern s = some (some (((min (digitsValue 10 least) longMax : Nat) : Int),
      some (min (digitsValue 10 most) longMax - min (digitsValue 10 least) longMax)),
      s.on (1 + (least.length + (1 + (most.length + 1))))) := by
  have number := readNumber_digits 1 nonempty all (by decide) (drop_on_one here)
  have comma := drop_on (drop_on_one here)
  have second := drop_on_one comma
  have number' := readNumber_digits (min (digitsValue 10 least) longMax : Nat) nonempty' all' (by decide) second
  have close := drop_on second
  have digit : patternAt pattern (((s.on 1).on least.length).on 1).patternIdx ≠ '\x7d'.toUInt8 := by
    obtain ⟨d, digits, rfl⟩ := List.exists_cons_of_ne_nil nonempty'
    rw [peek_of_drop second]
    rintro rfl
    exact absurd (all' _ List.mem_cons_self) (by decide)
  rw [bracket, advance_on, bind_of_ok number, peek_bind, peek_of_drop comma, if_neg (by decide), peek_bind, peek_of_drop comma,
    advance_on, if_neg (by decide), peek_bind, if_neg digit, bind_of_ok number']
  have apart : (((min (digitsValue 10 most) longMax : Nat) : Int) - (min (digitsValue 10 least) longMax : Nat)).toNat =
      min (digitsValue 10 most) longMax - min (digitsValue 10 least) longMax := by omega
  rw [if_neg (by omega), peek_bind, peek_of_drop close, advance_on, if_neg (by decide), apart, Scanner.on_on, Scanner.on_on,
    Scanner.on_on, Scanner.on_on]
  rfl

def Closure.inBraces : Closure → Bool
  | .exactly _ | .atLeast _ | .between _ _ => true
  | _ => false

theorem bracket_closure {closure : Closure} (wf : closure.wellFormed = true) (braces : closure.inBraces = true)
    (here : pattern.drop s.patternIdx = closure.text ++ behind) :
    bracket pattern s = some (some (((min closure.least longMax : Nat) : Int),
      closure.most.map fun k => min k longMax - min closure.least longMax), s.on closure.text.length) := by
  cases closure with
  | once | question | star | plus => cases braces
  | exactly digits =>
    simp only [Closure.wellFormed, Bool.and_eq_true, Bool.not_eq_true', List.isEmpty_eq_false_iff, List.all_eq_true] at wf
    have read := @bracket_exactly _ _ behind _ wf.1.1 wf.1.2 (by rw [here]; simp [Closure.text])
    have length : (Closure.exactly digits).text.length = 1 + (digits.length + 1) := by simp [Closure.text, Nat.add_comm]
    rw [read, length, Closure.least, Closure.most, Option.map_some, Nat.sub_self]
  | atLeast digits =>
    simp only [Closure.wellFormed, Bool.and_eq_true, Bool.not_eq_true', List.isEmpty_eq_false_iff, List.all_eq_true] at wf
    have read := @bracket_atLeast _ _ behind _ wf.1 wf.2 (by rw [here]; simp [Closure.text])
    have length : (Closure.atLeast digits).text.length = 1 + (digits.length + (1 + 1)) := by simp [Closure.text, Nat.add_comm]
    rw [read, length, Closure.least, Closure.most, Option.map_none]
  | between least most =>
    simp only [Closure.wellFormed, Bool.and_eq_true, Bool.not_eq_true', List.isEmpty_eq_false_iff, List.all_eq_true,
      decide_eq_true_eq] at wf
    obtain ⟨⟨⟨⟨⟨nonempty, all⟩, nonempty'⟩, all'⟩, le⟩, -⟩ := wf
    have read := @bracket_between _ _ behind _ _ nonempty all nonempty' all' le (by rw [here]; simp [Closure.text])
    have length : (Closure.between least most).text.length = 1 + (least.length + (1 + (most.length + 1))) := by
      simp only [Closure.text, List.length_cons, List.length_append, List.length_nil]
      omega
    rw [read, length, Closure.least, Closure.most, Option.map_some]

end Numbers

/-! ### Closures -/

section Closures

variable {pattern : Bytes} {s s' : Scanner} {rest behind : Bytes}

def Open (behind : Bytes) : Prop := ∀ b ∈ behind.head?, isClosure b = false

theorem closure_most {closure : Closure} (wf : closure.wellFormed = true) (braces : closure.inBraces = true) :
    ∀ k ∈ closure.most, k ≠ 0 ∧ closure.least ≤ k := by
  intro k has
  cases closure with
  | once | question | star | plus => cases braces
  | atLeast => cases has
  | exactly digits =>
    cases has
    simp only [Closure.wellFormed, Bool.and_eq_true, bne_iff_ne] at wf
    exact ⟨wf.2, Nat.le_refl _⟩
  | between least most =>
    cases has
    simp only [Closure.wellFormed, Bool.and_eq_true, bne_iff_ne, decide_eq_true_eq] at wf
    exact ⟨wf.2, wf.1.2⟩

theorem parseRepetition_closure {closure : Closure} (wf : closure.wellFormed = true) (braces : closure.inBraces = true)
    (here : pattern.drop s.patternIdx = closure.text ++ behind) {x : Terminal} {L : MatchFlags → Language UInt8}
    (full : ∀ flags, [] ∉ L flags) (denotes : Denotes x.piece L) :
    ∃ p, parseRepetition pattern x s = some (some (p, closure.least == 0), s.on closure.text.length) ∧
      Denotes p fun flags => powers (L flags) closure.least closure.most := by
  have large : 0 < longMax := by decide
  have counts := closure_most wf braces
  refine ⟨_, ?_, denotes.repeated_capped full counts⟩
  have goesOn : ¬((closure.most.map fun k => min k longMax - min closure.least longMax) = some 0 ∧
      ((min closure.least longMax : Nat) : Int) ≤ 0) := by
    rintro ⟨zero, none⟩
    obtain ⟨k, is, zero⟩ := Option.map_eq_some_iff.mp zero
    have := counts k is
    omega
  have flag : (((min closure.least longMax : Nat) : Int) == 0) = (closure.least == 0) := by
    rw [Bool.eq_iff_iff, beq_iff_eq, beq_iff_eq]
    omega
  rw [parseRepetition, bind_of_ok (bracket_closure wf braces here)]
  dsimp only
  rw [if_neg goesOn, flag]
  rfl

theorem closure_head {closure : Closure} (marked : closure.isOnce = false) : ∃ h text, closure.text = h :: text ∧
    isClosure h = true ∧ (closure.inBraces = true ↔ h = '\x7b'.toUInt8) := by
  cases closure with
  | once => cases marked
  | question | star | plus => exact ⟨_, _, rfl, by decide, by decide⟩
  | exactly | atLeast | between => exact ⟨_, _, rfl, by decide, by simp [Closure.inBraces]⟩

theorem parseMark_open (here : pattern.drop s.patternIdx = behind) (isOpen : Open behind) :
    parseMark pattern s = some (some false, s) := by
  have other : patternAt pattern s.patternIdx ≠ '?'.toUInt8 := by
    cases behind with
    | nil =>
      rw [patternAt, List.getD_eq_default _ _ (List.drop_eq_nil_iff.mp here)]
      decide
    | cons b behind =>
      rw [peek_of_drop here]
      rintro rfl
      exact absurd (isOpen _ rfl) (by decide)
  rw [parseMark, peek_bind, if_neg other]
  rfl

theorem closureOf_denotes {closure : Closure} (marked : closure.isOnce = false) (braces : closure.inBraces = false) {p : Piece}
    {L : MatchFlags → Language UInt8} (full : ∀ flags, [] ∉ L flags) (denotes : Denotes p L) :
    ∃ mark, closure.text = [mark] ∧ isClosure mark = true ∧ mark ≠ '\x7b'.toUInt8 ∧ decide (mark ≠ '+'.toUInt8) = (closure.least == 0) ∧
      Denotes (closureOf mark false p) fun flags => powers (L flags) closure.least closure.most := by
  cases closure with
  | once => cases marked
  | exactly | atLeast | between => cases braces
  | question =>
    refine ⟨_, rfl, by decide, by decide, by decide, denotes.question.congr fun flags => ?_⟩
    rw [Closure.least, Closure.most, ← Nat.zero_add 1, powers_bounded, pow_zero, pow_one, one_mul]
  | star =>
    refine ⟨_, rfl, by decide, by decide, by decide, (denotes.star full).congr fun flags => ?_⟩
    rw [Closure.least, Closure.most, powers_unbounded, pow_zero, one_mul]
  | plus =>
    refine ⟨_, rfl, by decide, by decide, by decide, (denotes.plus full).congr fun flags => ?_⟩
    rw [Closure.least, Closure.most, powers_unbounded, pow_one]

variable {expr : Scan (Terminal × Bool)} {fuel : Nat} {x : Terminal}

theorem parseClosure_once {nullable : Bool} (read : parseTerminal pattern expr fuel s = some (some (x, nullable), s'))
    (here : pattern.drop s'.patternIdx = behind) (isOpen : Open behind) :
    parseClosure pattern expr fuel s = some (some (x.piece, nullable), s') := by
  rw [parseClosure, bind_of_ok read]
  dsimp only
  rw [atEnd_bind]
  cases behind with
  | nil =>
    rw [decide_eq_true (List.drop_eq_nil_iff.mp here), if_pos rfl]
    rfl
  | cons b behind =>
    have length := length_of_drop here
    rw [List.length_cons] at length
    rw [decide_eq_false (by omega), if_neg (by decide), peek_bind, peek_of_drop here, isOpen b rfl, if_pos rfl]
    rfl

theorem parseClosure_closed {closure : Closure} (marked : closure.isOnce = false) (wf : closure.wellFormed = true)
    (read : parseTerminal pattern expr fuel s = some (some (x, false), s'))
    (here : pattern.drop s'.patternIdx = closure.text ++ behind) (isOpen : Open behind) {L : MatchFlags → Language UInt8}
    (full : ∀ flags, [] ∉ L flags) (denotes : Denotes x.piece L) :
    ∃ p, parseClosure pattern expr fuel s = some (some (p, closure.least == 0), s'.on closure.text.length) ∧
      Denotes p fun flags => powers (L flags) closure.least closure.most := by
  have inside : ¬decide (pattern.length ≤ s'.patternIdx) = true := by
    obtain ⟨h, text, is, -⟩ := closure_head marked
    rw [is] at here
    have length := length_of_drop here
    rw [List.cons_append, List.length_cons] at length
    rw [decide_eq_true_eq]
    omega
  rw [parseClosure, bind_of_ok read]
  dsimp only
  rw [atEnd_bind, if_neg inside, peek_bind]
  cases braces : closure.inBraces with
  | true =>
    obtain ⟨h, text, is, closes, brace⟩ := closure_head marked
    obtain rfl := brace.mp braces
    have first : patternAt pattern s'.patternIdx = '\x7b'.toUInt8 := by
      rw [is] at here
      exact peek_of_drop here
    rw [first, if_neg (by decide), if_pos rfl, if_neg (by decide)]
    exact parseRepetition_closure wf braces here full denotes
  | false =>
    obtain ⟨mark, is, closes, other, flag, denoted⟩ := closureOf_denotes marked braces full denotes
    rw [is] at here ⊢
    have unmarked := parseMark_open (drop_on_one here) isOpen
    rw [peek_of_drop here, closes, if_neg (by decide), if_neg other, advance_on, if_neg (by decide), bind_of_ok unmarked, flag]
    exact ⟨_, rfl, denoted⟩

end Closures

/-! ### Characters -/

section Characters

variable {pattern : Bytes} {s : Scanner} {escaped : Bool} {c : UInt8} {more : Bytes}

theorem literal_plain (literal : isLiteral false c = true) :
    c ∉ ascii "^$.[()|" ∧ isClosure c = false ∧ c ≠ '\\'.toUInt8 ∧ c ≠ 0 := by
  have marks : ascii "^$.[()|\\" = ascii "^$.[()|" ++ ['\\'.toUInt8] := rfl
  simp only [isLiteral, Bool.false_eq_true, if_false, Bool.and_eq_true, bne_iff_ne, Bool.not_eq_true', List.contains_eq_mem,
    decide_eq_false_iff_not, marks, List.mem_append, not_or, List.mem_singleton] at literal
  obtain ⟨nonzero, ⟨marked, backslash⟩, closure⟩ := literal
  exact ⟨marked, closure, backslash, nonzero⟩

theorem literal_escaped (literal : isLiteral true c = true) : isalnum c = false ∧ charInt c = c.toNat ∧ c.toNat < 128 ∧ c ≠ 0 := by
  simp only [isLiteral, if_true, Bool.and_eq_true, bne_iff_ne, Bool.not_eq_true', decide_eq_true_eq, UInt8.lt_iff_toNat_lt] at literal
  obtain ⟨nonzero, other, below⟩ := literal
  exact ⟨other, if_pos below, below, nonzero⟩

theorem literal_nonzero (literal : isLiteral escaped c = true) : c ≠ 0 := by
  cases escaped with
  | false => exact (literal_plain literal).2.2.2
  | true => exact (literal_escaped literal).2.2.2

theorem escape_literal (literal : isLiteral true c = true) (here : pattern.drop s.patternIdx = '\\'.toUInt8 :: c :: more) :
    escape pattern s = some (some (.char c.toNat), s.on 2) := by
  have length := length_of_drop here
  have second : patternAt pattern (s.patternIdx + 1) = c := patternAt_of_drop here 1
  obtain ⟨other, value, -⟩ := literal_escaped literal
  rw [List.length_cons, List.length_cons] at length
  rw [escape_other pattern (by omega) (by rwa [second]), second, value]
  rfl

def lookedAt (escaped : Bool) (c : UInt8) (more : Bytes) : Option UInt8 := if escaped then some (more.headD c) else more.head?

theorem lookAhead_literal (literal : isLiteral escaped c = true)
    (here : pattern.drop s.patternIdx = (Operand.char escaped c).text ++ more) :
    lookAhead pattern s = some (some (lookedAt escaped c more), s) := by
  cases escaped with
  | false => exact lookAhead_plain (literal_plain literal).2.2.1 here
  | true =>
    have here : pattern.drop s.patternIdx = '\\'.toUInt8 :: c :: more := here
    have length := length_of_drop here
    have nonneg : ¬(Escape.char c.toNat).isNegative = true := by
      rw [Escape.isNegative, decide_eq_true_eq]
      omega
    rw [List.length_cons, List.length_cons] at length
    rw [lookAhead, current_bind, if_neg (by omega), peek_of_drop here, if_neg (not_not.mpr rfl),
      bind_of_ok (escape_literal literal here), if_neg nonneg, current_bind, change_bind, Scanner.on_idx]
    cases more with
    | nil =>
      rw [List.length_nil] at length
      rw [if_neg (by omega), patternAt_of_drop here]
      rfl
    | cons b more =>
      rw [List.length_cons] at length
      rw [if_pos (by omega), patternAt_of_drop here]
      rfl

theorem atomStep_literal (literal : isLiteral escaped c = true)
    (here : pattern.drop s.patternIdx = (Operand.char escaped c).text ++ more) (text : Bytes) :
    atomStep pattern text s = if (lookedAt escaped c more).any isClosure = true ∧ text ≠ [] then some (some none, s)
      else some (some (some (text ++ [c])), s.on (Operand.char escaped c).text.length) := by
  have inside : ¬decide (pattern.length ≤ s.patternIdx) = true := by
    have length := length_of_drop here
    rw [List.length_append] at length
    have pos : 0 < (Operand.char escaped c).text.length := by cases escaped <;> exact Nat.succ_pos _
    rw [decide_eq_true_eq]
    omega
  rw [atomStep, atEnd_bind, if_neg inside, bind_of_ok (lookAhead_literal literal here)]
  split
  · rfl
  · rw [current_bind, peek_bind]
    cases escaped with
    | false =>
      obtain ⟨opens, closure, backslash, -⟩ := literal_plain literal
      have here : pattern.drop s.patternIdx = c :: more := here
      rw [peek_of_drop here, if_neg opens, closure, if_neg (by decide), if_neg backslash]
      rfl
    | true =>
      have here : pattern.drop s.patternIdx = '\\'.toUInt8 :: c :: more := here
      have value := (literal_escaped literal).2.2.1
      rw [peek_of_drop here, if_neg (by decide), if_neg (by decide), if_pos rfl, bind_of_ok (escape_literal literal here)]
      dsimp only
      rw [if_neg (by omega), ofInt_toNat]
      rfl

theorem atomStep_stop {text : Bytes} (nonempty : text ≠ []) (here : pattern.drop s.patternIdx = more)
    (stops : ∀ h ∈ more.head?, h ∈ ascii "^$.[()|" ∨ isClosure h = true) : atomStep pattern text s = some (some none, s) := by
  have length := length_of_drop here
  cases more with
  | nil =>
    rw [List.length_nil] at length
    rw [atomStep, atEnd_bind, decide_eq_true (by omega), if_pos rfl]
    rfl
  | cons h more =>
    have other : h ≠ '\\'.toUInt8 := by
      rintro rfl
      have := stops _ rfl
      revert this
      decide
    rw [List.length_cons] at length
    rw [atomStep, atEnd_bind, decide_eq_false (by omega), if_neg (by decide), bind_of_ok (lookAhead_plain other here)]
    split
    · rfl
    · rw [current_bind, peek_bind, peek_of_drop here]
      split
      · rfl
      · rename_i opens
        rw [(stops h rfl).resolve_left opens, if_pos rfl]
        rfl

theorem parseTerminal_literal (literal : isLiteral escaped c = true)
    (here : pattern.drop s.patternIdx = (Operand.char escaped c).text ++ more) (expr : Scan (Terminal × Bool)) (fuel : Nat) :
    parseTerminal pattern expr fuel s = (atomText pattern fuel >>= fun text => pure (Terminal.simple (.opAtom text), false)) s := by
  rw [parseTerminal, current_bind, peek_bind]
  cases escaped with
  | false =>
    obtain ⟨opens, closure, backslash, nonzero⟩ := literal_plain literal
    have here : pattern.drop s.patternIdx = c :: more := here
    have differs : ∀ b ∈ ascii "^$.[()|", c ≠ b := fun b mem is => opens (is ▸ mem)
    rw [peek_of_drop here, if_neg (differs _ (by decide)), if_neg (differs _ (by decide)), if_neg (differs _ (by decide)),
      if_neg (differs _ (by decide)), if_neg (differs _ (by decide)), if_neg (differs _ (by decide)),
      if_neg (differs _ (by decide)), if_neg nonzero, closure, if_neg (by decide), if_neg backslash]
  | true =>
    have here : pattern.drop s.patternIdx = '\\'.toUInt8 :: c :: more := here
    rw [peek_of_drop here, if_neg (by decide), if_neg (by decide), if_neg (by decide), if_neg (by decide), if_neg (by decide),
      if_neg (by decide), if_neg (by decide), if_neg (by decide), if_neg (by decide), if_pos rfl,
      bind_of_ok (escape_literal literal here)]
    rfl

end Characters

/-! ### Runs of characters -/

def Ends (tail : Bytes) : Prop := ∀ h ∈ tail.head?, h = '|'.toUInt8 ∨ h = ')'.toUInt8

theorem Operand.text_cons {x : Operand} (wf : x.wellFormed = true) : ∃ h text, x.text = h :: text ∧ isClosure h = false ∧
    h ≠ '|'.toUInt8 ∧ h ≠ ')'.toUInt8 := by
  cases x with
  | any | group => exact ⟨_, _, rfl, by decide, by decide, by decide⟩
  | char escaped c =>
    cases escaped with
    | true => exact ⟨_, _, rfl, by decide, by decide, by decide⟩
    | false =>
      obtain ⟨opens, closure, -⟩ := literal_plain wf
      refine ⟨c, [], rfl, closure, ?_, ?_⟩
      · rintro rfl
        exact opens (by decide)
      · rintro rfl
        exact opens (by decide)

theorem Branch.wellFormed_cons {x : Operand} {closure : Closure} {rest : Branch} : (Branch.cons x closure rest).wellFormed = true ↔
    x.wellFormed = true ∧ closure.wellFormed = true ∧ (closure.isOnce = true ∨ x.nullable = false) ∧ rest.wellFormed = true := by
  simp only [Branch.wellFormed, Bool.and_eq_true, Bool.or_eq_true, Bool.not_eq_true', and_assoc]

theorem Branch.text_open {b : Branch} (wf : b.wellFormed = true) {tail : Bytes} (ends : Ends tail) : Open (b.text ++ tail) := by
  intro h has
  cases b with
  | nil =>
    rcases ends h has with rfl | rfl
    · decide
    · decide
  | cons x closure rest =>
    obtain ⟨first, text, is, other, -⟩ := Operand.text_cons (Branch.wellFormed_cons.mp wf).1
    rw [Branch.text, is] at has
    cases has
    exact other

/-- `n` characters of a branch denote the language, and another branch follows them. -/
structure Begins (b : Branch) (n : Nat) (L : MatchFlags → Language UInt8) (rest : Branch) : Prop where
  length : n + rest.text.length = b.text.length
  wellFormed : rest.wellFormed = true
  language : ∀ flags, b.language flags = L flags * rest.language flags

theorem Begins.nothing {b : Branch} (wf : b.wellFormed = true) : Begins b 0 (fun flags => alike flags.fold []) b := by
  refine ⟨Nat.zero_add _, wf, fun flags => ?_⟩
  have one : alike flags.fold [] = 1 := by
    ext w
    simp [mem_alike]
  rw [one, one_mul]

theorem Begins.operand {x : Operand} {closure : Closure} {rest : Branch} (wf : rest.wellFormed = true) :
    Begins (.cons x closure rest) (x.text ++ closure.text).length
      (fun flags => powers (x.language flags) closure.least closure.most) rest := by
  refine ⟨?_, wf, fun flags => by rw [Branch.language]⟩
  rw [Branch.text, @List.length_append _ (x.text ++ closure.text)]

theorem Begins.char {escaped : Bool} {c : UInt8} {rest b' : Branch} {n : Nat} {run : Bytes}
    (begins : Begins rest n (fun flags => alike flags.fold run) b') :
    Begins (.cons (.char escaped c) .once rest) ((Operand.char escaped c).text.length + n) (fun flags => alike flags.fold (c :: run)) b' := by
  refine ⟨?_, begins.wellFormed, fun flags => ?_⟩
  · rw [Branch.text, Closure.text, List.append_nil, List.length_append, Nat.add_assoc, begins.length]
  · rw [Branch.language, Closure.least, Closure.most, powers_exactly, pow_one, begins.language, Operand.language, ← mul_assoc,
      ← alike_append, List.singleton_append]

section Runs

variable {pattern : Bytes} {s : Scanner} {tail : Bytes}

theorem atomLoop_run {fuel : Nat} {b : Branch} (wf : b.wellFormed = true) (ends : Ends tail) {text : Bytes} (nonempty : text ≠ [])
    (here : pattern.drop s.patternIdx = b.text ++ tail) (enough : b.text.length < fuel) :
    ∃ run n b', Begins b n (fun flags => alike flags.fold run) b' ∧ 0 ∉ run ∧
      atomLoop pattern fuel text s = some (some (text ++ run), s.on n) ∧ pattern.drop (s.on n).patternIdx = b'.text ++ tail := by
  induction fuel generalizing b s text with
  | zero => omega
  | succ fuel ih =>
    have stops : atomStep pattern text s = some (some none, s) → ∃ run n b', Begins b n (fun flags => alike flags.fold run) b' ∧
        0 ∉ run ∧ atomLoop pattern (fuel + 1) text s = some (some (text ++ run), s.on n) ∧
          pattern.drop (s.on n).patternIdx = b'.text ++ tail := by
      intro step
      refine ⟨[], 0, b, .nothing wf, List.not_mem_nil, ?_, here⟩
      rw [atomLoop, bind_of_ok step, List.append_nil]
      rfl
    cases b with
    | nil => exact stops (atomStep_stop nonempty here fun h has => .inl (by rcases ends h has with rfl | rfl <;> decide))
    | cons x closure rest =>
      obtain ⟨wfx, -, -, wfr⟩ := Branch.wellFormed_cons.mp wf
      cases x with
      | any => exact stops (atomStep_stop nonempty here fun h has => .inl (by cases has; decide))
      | group e => exact stops (atomStep_stop nonempty here fun h has => .inl (by cases has; decide))
      | char escaped c =>
        have here' : pattern.drop s.patternIdx = (Operand.char escaped c).text ++ (closure.text ++ (rest.text ++ tail)) := by
          rw [here, Branch.text, List.append_assoc, List.append_assoc]
        have step := atomStep_literal wfx here' text
        split at step
        · exact stops step
        · rename_i goesOn
          have once : closure.text = [] := by
            cases marked : closure.isOnce with
            | true =>
              cases closure with
              | once => rfl
              | _ => cases marked
            | false =>
              obtain ⟨h, more, is, closes, -⟩ := closure_head marked
              refine absurd ⟨?_, nonempty⟩ goesOn
              rw [is]
              cases escaped with
              | true => exact closes
              | false => exact closes
          obtain rfl : closure = .once := by
            cases closure with
            | once => rfl
            | _ => cases once
          rw [Branch.text, Closure.text, List.append_nil, List.length_append] at enough
          have pos : 0 < (Operand.char escaped c).text.length := by cases escaped <;> exact Nat.succ_pos _
          have longer : text ++ [c] ≠ [] := List.append_ne_nil_of_right_ne_nil text (List.cons_ne_nil c [])
          obtain ⟨run, n, b', begins, plain, loop, behind⟩ := ih wfr longer (drop_on here') (by omega)
          rw [Scanner.on_on] at loop behind
          refine ⟨c :: run, _, b', begins.char, ?_, ?_, behind⟩
          · rw [List.mem_cons, not_or]
            exact ⟨(literal_nonzero wfx).symm, plain⟩
          · rw [atomLoop, bind_of_ok step]
            refine loop.trans ?_
            rw [List.append_assoc, List.singleton_append]

end Runs

/-! ### Pieces -/

structure After (s : Scanner) (n : Nat) (s' : Scanner) : Prop where
  idx : s'.patternIdx = s.patternIdx + n
  msg : s'.errorMsg = s.errorMsg

theorem After.on (s : Scanner) (n : Nat) : After s n (s.on n) := ⟨rfl, rfl⟩

theorem After.trans {s s' s'' : Scanner} {n k : Nat} (first : After s n s') (later : After s' k s'') : After s (n + k) s'' :=
  ⟨by rw [later.idx, first.idx, Nat.add_assoc], later.msg.trans first.msg⟩

theorem After.drop {pattern text rest : Bytes} {s s' : Scanner} (after : After s text.length s')
    (here : pattern.drop s.patternIdx = text ++ rest) : pattern.drop s'.patternIdx = rest := by
  rw [after.idx, ← List.drop_drop, here, List.drop_left]

/-- Groups whose text is not longer than this are read as what they denote. -/
def ReadsGroups (pattern : Bytes) (expr : Scan (Terminal × Bool)) (n : Nat) : Prop :=
  ∀ (e : Exp) (s : Scanner) (more : Bytes), e.wellFormed = true → (Operand.group e).text.length ≤ n →
    pattern.drop s.patternIdx = (Operand.group e).text ++ more →
      ∃ t s', expr s = some (some (t, e.nullable), s') ∧ After s (Operand.group e).text.length s' ∧
        Denotes t.piece fun flags => e.language flags

section Pieces

variable {pattern : Bytes} {expr : Scan (Terminal × Bool)} {n fuel : Nat} {s : Scanner} {tail more : Bytes}

theorem atomText_closed {escaped : Bool} {c h : UInt8} (literal : isLiteral escaped c = true) (closes : isClosure h = true)
    (here : pattern.drop s.patternIdx = (Operand.char escaped c).text ++ h :: more) (enough : 1 < fuel) :
    atomText pattern fuel s = some (some [c], s.on (Operand.char escaped c).text.length) := by
  obtain ⟨f, rfl⟩ : ∃ f, fuel = f + 2 := ⟨fuel - 2, by omega⟩
  have step := atomStep_literal literal here []
  rw [if_neg (fun both => both.2 rfl)] at step
  have stop := atomStep_stop (List.cons_ne_nil c []) (drop_on here) fun b has => by
    cases has
    exact .inr closes
  have loop : atomLoop pattern (f + 2) [] s = some (some [c], s.on (Operand.char escaped c).text.length) := by
    rw [atomLoop, bind_of_ok step]
    dsimp only
    rw [List.nil_append, atomLoop, bind_of_ok stop]
    rfl
  rw [atomText, bind_of_ok loop, if_neg (List.cons_ne_nil c [])]
  rfl

theorem atomText_run {escaped : Bool} {c : UInt8} {rest : Branch} (literal : isLiteral escaped c = true)
    (wf : rest.wellFormed = true) (ends : Ends tail) (here : pattern.drop s.patternIdx = (Operand.char escaped c).text ++ (rest.text ++ tail))
    (enough : rest.text.length + 1 < fuel) :
    ∃ run k b', Begins (.cons (.char escaped c) .once rest) k (fun flags => alike flags.fold (c :: run)) b' ∧ 0 < k ∧ 0 ∉ c :: run ∧
      atomText pattern fuel s = some (some (c :: run), s.on k) ∧ pattern.drop (s.on k).patternIdx = b'.text ++ tail := by
  obtain ⟨f, rfl⟩ : ∃ f, fuel = f + 1 := ⟨fuel - 1, by omega⟩
  have step := atomStep_literal literal here []
  rw [if_neg (fun both => both.2 rfl)] at step
  obtain ⟨run, k, b', begins, plain, loop, behind⟩ :=
    atomLoop_run wf ends (List.cons_ne_nil c []) (drop_on here) (by omega : rest.text.length < f)
  rw [Scanner.on_on] at loop behind
  have whole : atomLoop pattern (f + 1) [] s = some (some (c :: run), s.on ((Operand.char escaped c).text.length + k)) := by
    rw [atomLoop, bind_of_ok step]
    exact loop
  have pos : 0 < (Operand.char escaped c).text.length := by cases escaped <;> exact Nat.succ_pos _
  refine ⟨run, _, b', begins.char, by omega, ?_, ?_, behind⟩
  · rw [List.mem_cons, not_or]
    exact ⟨(literal_nonzero literal).symm, plain⟩
  · rw [atomText, bind_of_ok whole, if_neg (List.cons_ne_nil c run)]
    rfl

theorem parseTerminal_operand (groups : ReadsGroups pattern expr n) {x : Operand} (wf : x.wellFormed = true)
    (short : x.text.length ≤ n) (enough : 1 < fuel) (here : pattern.drop s.patternIdx = x.text ++ more)
    (closed : ∀ escaped c, x = .char escaped c → ∃ h ∈ more.head?, isClosure h = true) :
    ∃ t s', parseTerminal pattern expr fuel s = some (some (t, x.nullable), s') ∧ After s x.text.length s' ∧
      Denotes t.piece fun flags => x.language flags := by
  cases x with
  | any =>
    refine ⟨.simple .opAny, s.on 1, ?_, .on s 1, .any⟩
    rw [parseTerminal, current_bind, peek_bind, peek_of_drop here, if_neg (by decide), if_neg (by decide), if_pos rfl, advance_on]
    rfl
  | group e =>
    obtain ⟨t, s', read, after, denotes⟩ := groups e s more wf short here
    refine ⟨t, s', ?_, after, denotes⟩
    rw [parseTerminal, current_bind, peek_bind, peek_of_drop here, if_neg (by decide), if_neg (by decide), if_neg (by decide),
      if_neg (by decide), if_pos rfl]
    exact read
  | char escaped c =>
    obtain ⟨h, has, closes⟩ := closed escaped c rfl
    cases more with
    | nil => cases has
    | cons b more =>
      cases has
      refine ⟨.simple (.opAtom [c]), _, ?_, .on s _, .atom (List.cons_ne_nil c []) ?_⟩
      · rw [parseTerminal_literal wf here, bind_of_ok (atomText_closed wf closes here enough)]
        rfl
      · rw [List.mem_singleton]
        exact (literal_nonzero wf).symm

theorem parseClosure_branch (groups : ReadsGroups pattern expr n) {x : Operand} {closure : Closure} {rest : Branch}
    (wf : (Branch.cons x closure rest).wellFormed = true) (ends : Ends tail) (short : (Branch.cons x closure rest).text.length ≤ n)
    (enough : (Branch.cons x closure rest).text.length < fuel)
    (here : pattern.drop s.patternIdx = (Branch.cons x closure rest).text ++ tail) :
    ∃ p flag k L b' s', parseClosure pattern expr fuel s = some (some (p, flag), s') ∧ After s k s' ∧ 0 < k ∧
      Begins (.cons x closure rest) k L b' ∧ Denotes p L ∧ (Branch.cons x closure rest).nullable = (flag && b'.nullable) ∧
      pattern.drop s'.patternIdx = b'.text ++ tail := by
  obtain ⟨wfx, wfc, full, wfr⟩ := Branch.wellFormed_cons.mp wf
  have isOpen := Branch.text_open wfr ends
  have here' : pattern.drop s.patternIdx = x.text ++ (closure.text ++ (rest.text ++ tail)) := by
    rw [here, Branch.text, List.append_assoc, List.append_assoc]
  have pos : 0 < x.text.length := by
    obtain ⟨h, text, is, -⟩ := Operand.text_cons wfx
    rw [is]
    exact Nat.succ_pos _
  rw [Branch.text, List.length_append, List.length_append] at short enough
  cases marked : closure.isOnce with
  | false =>
    have nonnull := full.resolve_left (by rw [marked]; decide)
    have closed : ∀ escaped c, x = .char escaped c → ∃ h ∈ (closure.text ++ (rest.text ++ tail)).head?, isClosure h = true := by
      intro escaped c _
      obtain ⟨h, text, is, closes, -⟩ := closure_head marked
      exact ⟨h, by rw [is]; rfl, closes⟩
    obtain ⟨t, s', read, after, denotes⟩ := parseTerminal_operand groups wfx (by omega) (by omega : 1 < fuel) here' closed
    rw [nonnull] at read
    have behind := after.drop here'
    have nonempty : ∀ flags, [] ∉ x.language flags := by
      intro flags
      rw [Operand.nil_mem_language flags wfx, nonnull]
      decide
    obtain ⟨p, read', denotes'⟩ := parseClosure_closed marked wfc read behind isOpen nonempty denotes
    refine ⟨p, _, (x.text ++ closure.text).length, _, rest, _, read', ?_, ?_, .operand wfr, denotes', ?_, drop_on behind⟩
    · rw [List.length_append]
      exact after.trans (.on s' _)
    · rw [List.length_append]
      omega
    · rw [Branch.nullable, nonnull, Bool.false_or]
  | true =>
    obtain rfl : closure = .once := by
      cases closure with
      | once => rfl
      | _ => cases marked
    have plainly : (∀ escaped c, x ≠ .char escaped c) → ∃ p flag k L b' s', parseClosure pattern expr fuel s = some (some (p, flag), s') ∧
        After s k s' ∧ 0 < k ∧ Begins (.cons x .once rest) k L b' ∧ Denotes p L ∧
          (Branch.cons x .once rest).nullable = (flag && b'.nullable) ∧ pattern.drop s'.patternIdx = b'.text ++ tail := by
      intro other
      obtain ⟨t, s', read, after, denotes⟩ := parseTerminal_operand groups wfx (by omega) (by omega : 1 < fuel) here'
        fun escaped c is => absurd is (other escaped c)
      have behind := after.drop here'
      refine ⟨t.piece, _, (x.text ++ Closure.once.text).length, _, rest, s', parseClosure_once read behind isOpen, ?_, ?_, .operand wfr,
        denotes.congr fun flags => ?_, ?_, behind⟩
      · rwa [Closure.text, List.append_nil]
      · rwa [Closure.text, List.append_nil]
      · rw [Closure.least, Closure.most, powers_exactly, pow_one]
      · rw [Branch.nullable, Closure.least, show (1 == 0) = false from rfl, Bool.or_false]
    cases x with
    | any => exact plainly fun _ _ same => by cases same
    | group e => exact plainly fun _ _ same => by cases same
    | char escaped c =>
      obtain ⟨run, k, b', begins, some', plain, read, behind⟩ := atomText_run wfx wfr ends here' (by omega : rest.text.length + 1 < fuel)
      have terminal : parseTerminal pattern expr fuel s = some (some (.simple (.opAtom (c :: run)), false), s.on k) := by
        rw [parseTerminal_literal wfx here', bind_of_ok read]
        rfl
      exact ⟨_, false, k, _, b', s.on k, parseClosure_once terminal behind (Branch.text_open begins.wellFormed ends), .on s k, some', begins,
        .atom (List.cons_ne_nil c run) plain, rfl, behind⟩

end Pieces

/-! ### Branches and expressions -/

section Expressions

variable {pattern : Bytes} {expr : Scan (Terminal × Bool)} {n fuel : Nat} {s : Scanner} {tail more : Bytes}

theorem parsePieces_branch (groups : ReadsGroups pattern expr n) {b : Branch} (wf : b.wellFormed = true) (ends : Ends tail)
    (short : b.text.length ≤ n) (enough : 2 * b.text.length + 1 ≤ fuel) (here : pattern.drop s.patternIdx = b.text ++ tail)
    {q : Sequence} (sound : q.Sound) (isnullable : Bool) :
    ∃ ps q' s', parsePieces pattern expr fuel q isnullable s = some (some (q', isnullable && b.nullable), s') ∧
      After s b.text.length s' ∧ q'.pieces = q.pieces ++ ps ∧ q'.broken = false ∧ Denotes (.ofList ps) fun flags => b.language flags := by
  induction fuel generalizing b s q isnullable with
  | zero => omega
  | succ fuel ih =>
    rw [parsePieces, peek_bind, atEnd_bind]
    cases b with
    | nil =>
      have ended : decide (pattern.length ≤ s.patternIdx) = true ∨ patternAt pattern s.patternIdx = '|'.toUInt8 ∨
          patternAt pattern s.patternIdx = ')'.toUInt8 := by
        cases tail with
        | nil => exact .inl (decide_eq_true (List.drop_eq_nil_iff.mp here))
        | cons h tail =>
          rw [peek_of_drop here]
          exact .inr (ends h rfl)
      rw [if_pos ended]
      refine ⟨[], q, s, ?_, .on s 0, (List.append_nil _).symm, sound.1, .nothing⟩
      rw [Branch.nullable, Bool.and_true]
      rfl
    | cons x closure rest =>
      have goesOn : ¬(decide (pattern.length ≤ s.patternIdx) = true ∨ patternAt pattern s.patternIdx = '|'.toUInt8 ∨
          patternAt pattern s.patternIdx = ')'.toUInt8) := by
        obtain ⟨h, text, is, -, bar, close⟩ := Operand.text_cons (Branch.wellFormed_cons.mp wf).1
        rw [Branch.text, is] at here
        have length := length_of_drop here
        simp only [List.cons_append, List.length_cons] at length
        rw [peek_of_drop here, decide_eq_true_eq]
        rintro (ended | is | is)
        · omega
        · exact bar is
        · exact close is
      obtain ⟨h, text, is, -⟩ := Operand.text_cons (Branch.wellFormed_cons.mp wf).1
      have pos : 0 < (Branch.cons x closure rest).text.length := by
        rw [Branch.text, is]
        exact Nat.succ_pos _
      obtain ⟨p, flag, k, L, b', s₁, read, after, some', begins, denotes, nullable, behind⟩ :=
        parseClosure_branch groups wf ends short (by omega : _ < fuel) here
      have length := begins.length
      obtain ⟨ps, q', s₂, read', after', pieces, intact, denotes'⟩ :=
        ih begins.wellFormed (by omega) (by omega) behind (sound.add denotes.closed) (isnullable && flag)
      refine ⟨p :: ps, q', s₂, ?_, ?_, ?_, intact, (denotes.ofList denotes').congr fun flags => (begins.language flags).symm⟩
      · rw [if_neg goesOn, bind_of_ok read, sound.1]
        dsimp only
        rw [if_neg (by decide)]
        refine read'.trans ?_
        rw [nullable, Bool.and_assoc]
      · rw [← length]
        exact after.trans after'
      · rw [pieces, Sequence.add, List.append_assoc, List.singleton_append]

def Closes (tail : Bytes) : Prop := ∀ h ∈ tail.head?, h = ')'.toUInt8

theorem Closes.ends (closes : Closes tail) : Ends tail := fun h has => .inr (closes h has)

theorem parseAlternatives_done (closes : Closes tail) (here : pattern.drop s.patternIdx = tail) (branches : List Sequence)
    (isnullable : Bool) : parseAlternatives pattern expr (fuel + 1) branches isnullable s = some (some (branches, isnullable), s) := by
  rw [parseAlternatives, atEnd_bind, peek_bind, if_pos]
  · rfl
  · cases tail with
    | nil => exact .inl (decide_eq_true (List.drop_eq_nil_iff.mp here))
    | cons h tail =>
      refine .inr ?_
      rw [peek_of_drop here, closes h rfl]
      decide

def SequencesDenote (qs : List Sequence) (L : MatchFlags → Language UInt8) : Prop :=
  ∃ q qs', qs = q :: qs' ∧ (∀ q ∈ qs, q.broken = false) ∧ AltsDenote (.ofList q.piece (qs'.map (·.piece))) L

theorem SequencesDenote.single {q : Sequence} {L : MatchFlags → Language UInt8} (intact : q.broken = false) (denotes : Denotes q.piece L) :
    SequencesDenote [q] L := by
  refine ⟨q, [], rfl, fun q' mem => ?_, Alts.denote_last denotes⟩
  rwa [List.mem_singleton.mp mem]

theorem SequencesDenote.cons {q : Sequence} {qs : List Sequence} {L M : MatchFlags → Language UInt8} (intact : q.broken = false)
    (denotes : Denotes q.piece L) (others : SequencesDenote qs M) : SequencesDenote (q :: qs) fun flags => L flags + M flags := by
  obtain ⟨q', qs', rfl, intact', denote⟩ := others
  exact ⟨q, q' :: qs', rfl, List.forall_mem_cons.mpr ⟨intact, intact'⟩, Alts.denote_alt denotes denote⟩

theorem parseAlternatives_exp (groups : ReadsGroups pattern expr n) {e : Exp} (wf : e.wellFormed = true) (closes : Closes tail)
    (short : e.text.length ≤ n) (enough : 2 * e.text.length + 3 ≤ fuel) (here : pattern.drop s.patternIdx = '|'.toUInt8 :: (e.text ++ tail))
    (branches : List Sequence) (isnullable : Bool) :
    ∃ qs s', parseAlternatives pattern expr fuel branches isnullable s = some (some (branches ++ qs, isnullable || e.nullable), s') ∧
      After s (1 + e.text.length) s' ∧ SequencesDenote qs fun flags => e.language flags := by
  induction fuel generalizing e s branches isnullable with
  | zero => omega
  | succ fuel ih =>
    have goesOn : ¬(decide (pattern.length ≤ s.patternIdx) = true ∨ patternAt pattern s.patternIdx ≠ '|'.toUInt8) := by
      have length := length_of_drop here
      rw [List.length_cons] at length
      rw [peek_of_drop here, decide_eq_true_eq]
      rintro (ended | other)
      · omega
      · exact other rfl
    have sound : Sequence.empty.Sound := ⟨rfl, fun last has => by cases has⟩
    have behind := drop_on_one here
    rw [parseAlternatives, atEnd_bind, peek_bind, if_neg goesOn, advance_on]
    cases e with
    | last b =>
      obtain ⟨ps, q, s', read, after, pieces, intact, denotes⟩ :=
        parsePieces_branch groups (b := b) wf closes.ends short (by rw [Exp.text] at enough; omega : _ ≤ fuel) behind sound true
      obtain ⟨f, rfl⟩ : ∃ f, fuel = f + 1 := ⟨fuel - 1, by omega⟩
      have done := @parseAlternatives_done _ expr f _ _ closes (after.drop behind) (branches ++ [q]) (isnullable || (true && b.nullable))
      refine ⟨[q], s', ?_, (After.on s 1).trans after, .single intact ?_⟩
      · rw [bind_of_ok read]
        exact done
      · rw [Sequence.piece, pieces]
        exact denotes
    | alt b rest =>
      rw [Exp.wellFormed, Bool.and_eq_true] at wf
      rw [Exp.text, List.length_append, List.length_cons] at short enough
      rw [Exp.text, List.append_assoc] at behind
      have ends : Ends ('|'.toUInt8 :: rest.text ++ tail) := fun h has => .inl (by cases has; rfl)
      obtain ⟨ps, q, s₁, read, after, pieces, intact, denotes⟩ :=
        parsePieces_branch groups (b := b) wf.1 ends (by omega) (by omega : _ ≤ fuel) behind sound true
      obtain ⟨qs, s₂, read', after', denote⟩ :=
        ih wf.2 (by omega) (by omega) (after.drop behind) (branches ++ [q]) (isnullable || (true && b.nullable))
      refine ⟨q :: qs, s₂, ?_, ?_, .cons intact ?_ denote⟩
      · rw [bind_of_ok read]
        refine read'.trans ?_
        rw [List.append_assoc, List.singleton_append, Bool.true_and, Bool.or_assoc, Exp.nullable]
      · have whole := ((After.on s 1).trans after).trans after'
        rw [Exp.text, List.length_append, List.length_cons]
        rwa [show 1 + (b.text.length + (rest.text.length + 1)) = 1 + b.text.length + (1 + rest.text.length) by omega]
      · rw [Sequence.piece, pieces]
        exact denotes

end Expressions

/-! ### Groups and whole patterns -/

section Whole

variable {pattern : Bytes} {expr : Scan (Terminal × Bool)} {n fuel k : Nat} {s : Scanner} {tail : Bytes} {opened : Option Nat}

theorem parseExprWith_done {q : Sequence} {qs : List Sequence} {L : MatchFlags → Language UInt8} {first rest : Bool} {s₁ s₂ s₃ : Scanner}
    (read : parsePieces pattern expr fuel .empty true s = some (some (q, first), s₁))
    (read' : parseAlternatives pattern expr fuel [] first s₁ = some (some (qs, rest), s₂))
    (closed : parseClose pattern opened s₂ = some (some (), s₃)) (denote : SequencesDenote (q :: qs) L) :
    ∃ a, parseExprWith pattern expr opened fuel s = some (some (a, rest), s₃) ∧ AltsDenote a L := by
  obtain ⟨_, _, is, intact, denotes⟩ := denote
  cases is
  obtain ⟨intact, intact'⟩ := List.forall_mem_cons.mp intact
  have whole : ¬(q.broken = true ∨ (qs.any fun q => q.broken) = true) := by
    rw [intact, List.any_eq_true]
    rintro (broken | ⟨q', mem, broken⟩)
    · cases broken
    · rw [intact' q' mem] at broken
      cases broken
  refine ⟨_, ?_, denotes⟩
  rw [parseExprWith, bind_of_ok read]
  dsimp only
  rw [bind_of_ok read']
  dsimp only
  rw [bind_of_ok closed, if_neg whole]
  rfl

theorem parseExprWith_exp (groups : ReadsGroups pattern expr n) {e : Exp} (wf : e.wellFormed = true) (closes : Closes tail)
    (short : e.text.length ≤ n) (enough : 2 * e.text.length + 1 ≤ fuel) (here : pattern.drop s.patternIdx = e.text ++ tail)
    (closed : ∀ s₁, pattern.drop s₁.patternIdx = tail → ∃ s₂, parseClose pattern opened s₁ = some (some (), s₂) ∧ After s₁ k s₂) :
    ∃ a s', parseExprWith pattern expr opened fuel s = some (some (a, e.nullable), s') ∧ After s (e.text.length + k) s' ∧
      AltsDenote a fun flags => e.language flags := by
  have sound : Sequence.empty.Sound := ⟨rfl, fun last has => by cases has⟩
  obtain ⟨f, rfl⟩ : ∃ f, fuel = f + 1 := ⟨fuel - 1, by omega⟩
  cases e with
  | last b =>
    obtain ⟨ps, q, s₁, read, after, pieces, intact, denotes⟩ :=
      parsePieces_branch groups (b := b) wf closes.ends short enough here sound true
    have done := @parseAlternatives_done _ expr f _ _ closes (after.drop here) [] (true && b.nullable)
    obtain ⟨s₂, finish, after'⟩ := closed s₁ (after.drop here)
    have sequence : Denotes q.piece fun flags => b.language flags := by
      rw [Sequence.piece, pieces]
      exact denotes
    obtain ⟨a, whole, denote⟩ := parseExprWith_done read done finish (.single intact sequence)
    rw [Bool.true_and] at whole
    exact ⟨a, s₂, whole, after.trans after', denote⟩
  | alt b rest =>
    rw [Exp.wellFormed, Bool.and_eq_true] at wf
    rw [Exp.text, List.length_append, List.length_cons] at short enough
    rw [Exp.text, List.append_assoc] at here
    have ends : Ends ('|'.toUInt8 :: rest.text ++ tail) := fun h has => .inl (by cases has; rfl)
    obtain ⟨ps, q, s₁, read, after, pieces, intact, denotes⟩ :=
      parsePieces_branch groups (b := b) wf.1 ends (by omega) (by omega : _ ≤ f + 1) here sound true
    have behind := after.drop here
    obtain ⟨qs, s₂, read', after', denote⟩ :=
      parseAlternatives_exp groups wf.2 closes (by omega) (by omega : _ ≤ f + 1) behind [] (true && b.nullable)
    have sequence : Denotes q.piece fun flags => b.language flags := by
      rw [Sequence.piece, pieces]
      exact denotes
    have left : pattern.drop s₂.patternIdx = tail := by
      have whole : pattern.drop s₁.patternIdx = ('|'.toUInt8 :: rest.text) ++ tail := behind
      refine @After.drop _ ('|'.toUInt8 :: rest.text) _ _ _ ?_ whole
      rwa [List.length_cons, Nat.add_comm]
    obtain ⟨s₃, finish, after''⟩ := closed s₂ left
    obtain ⟨a, whole, denote'⟩ := parseExprWith_done read read' finish (.cons intact sequence denote)
    rw [Bool.true_and] at whole
    refine ⟨a, s₃, whole, ?_, denote'⟩
    have total := (after.trans after').trans after''
    rw [Exp.text, List.length_append, List.length_cons]
    rwa [show b.text.length + (rest.text.length + 1) + k = b.text.length + (1 + rest.text.length) + k by omega]

theorem readsGroups (g n : Nat) (enough : 2 * n ≤ g) : ReadsGroups pattern (parseExpr pattern g) n := by
  induction g generalizing n with
  | zero =>
    intro e s more wf short
    rw [Operand.text, List.length_cons] at short
    omega
  | succ g ih =>
    intro e s more wf short here
    have inner : pattern.drop (s.on 1).patternIdx = e.text ++ (')'.toUInt8 :: more) := by
      refine drop_on_one (c := '('.toUInt8) ?_
      rw [here, Operand.text, List.cons_append, List.append_assoc]
      rfl
    rw [Operand.text, List.length_cons, List.length_append, List.length_singleton] at short
    have closed : ∀ s₁, pattern.drop s₁.patternIdx = ')'.toUInt8 :: more →
        ∃ s₂, parseClose pattern (some s.nofParentheses) s₁ = some (some (), s₂) ∧ After s₁ 1 s₂ := by
      intro s₁ behind
      refine ⟨{ s₁.on 1 with
        maskOfClosedParentheses := s₁.maskOfClosedParentheses ||| 2 ^ (s.nofParentheses % 64) }, ?_, ⟨rfl, rfl⟩⟩
      rw [parseClose, closeParen, peek_bind, peek_of_drop behind, if_pos rfl, advance_on]
      rfl
    obtain ⟨opened, is⟩ : ∃ opened : Scanner, opened = { s.on 1 with nofParentheses := s.nofParentheses + 1 } := ⟨_, rfl⟩
    have begin' : After s 1 opened := by rw [is]; exact ⟨rfl, rfl⟩
    have inner' : pattern.drop opened.patternIdx = e.text ++ (')'.toUInt8 :: more) := by rw [is]; exact inner
    obtain ⟨a, s', read, after, denote⟩ := parseExprWith_exp (ih (n := e.text.length) (by omega)) wf
      (fun h has => by cases has; rfl : Closes (')'.toUInt8 :: more)) (Nat.le_refl _) (by omega : _ ≤ g) inner' closed
    refine ⟨.group s.nofParentheses a, s', ?_, ?_, .group _ denote⟩
    · have number : openParen s = some (some s.nofParentheses, opened) := by rw [is]; rfl
      rw [parseExpr, bind_of_ok number, bind_of_ok read]
      rfl
    · have total := begin'.trans after
      rw [Operand.text, List.length_cons, List.length_append, List.length_singleton]
      rwa [show e.text.length + 1 + 1 = 1 + (e.text.length + 1) by omega]

theorem parse_exp {e : Exp} (wf : e.wellFormed = true) :
    ∃ a, parse e.text (2 * e.text.length + 1) = some (some a, []) ∧ AltsDenote a fun flags => e.language flags := by
  have here : e.text.drop (Scanner.patternIdx ⟨0, 1, 0, []⟩) = e.text ++ [] := by rw [List.append_nil]; rfl
  have closed : ∀ s₁, e.text.drop s₁.patternIdx = [] →
      ∃ s₂, parseClose e.text none s₁ = some (some (), s₂) ∧ After s₁ 0 s₂ := fun s₁ _ => ⟨s₁, rfl, .on s₁ 0⟩
  have ended : Closes [] := fun h has => by cases has
  obtain ⟨a, s', read, after, denote⟩ := parseExprWith_exp (readsGroups (2 * e.text.length + 1) e.text.length (by omega)) wf
    ended (Nat.le_refl _) (Nat.le_refl _) here closed
  refine ⟨a, ?_, denote⟩
  have outer : parseOutermost e.text (2 * e.text.length + 1) ⟨0, 0, 0, []⟩ = some (some (a, e.nullable), s') := by
    rw [parseOutermost, change_bind]
    exact read
  have last : s'.patternIdx = e.text.length := by
    rw [after.idx]
    exact (Nat.zero_add _).trans (Nat.add_zero _)
  have whole : parseWith e.text (2 * e.text.length + 1) ⟨0, 0, 0, []⟩ = some (some a, s') := by
    rw [parseWith, bind_of_ok outer]
    dsimp only
    rw [readAll, bind_assoc, current_bind, if_pos last]
    rfl
  rw [parse, whole]
  exact congrArg (fun msg => some (some a, msg)) after.msg

end Whole

/-- A pattern of the grammar compiles. If it takes less than 2^15 nodes, a search succeeds if and only if the language of
the pattern has a word in the text from there on, and register 0 delimits one that begins leftmost. -/
theorem containedIn_exp {e : Exp} (wf : e.wellFormed = true) :
    ∃ c, compile e.text (2 * e.text.length + 1) = some (some c, []) ∧ (c.program.length < 2 ^ 15 →
      ∀ (flags : MatchFlags) (search : Bytes) (i : Int), ∃ f r,
        Matcher.containedIn ⟨c.program, flags, search⟩ c.fPrefix f i = some r ∧
          (r.isSome = true ↔ ∃ j k : Nat, i ≤ j ∧ Spans search (e.language flags) j k) ∧
            ∀ caps ∈ r, ∃ j k : Nat, caps.startRegister 0 = some j ∧ caps.endRegister 0 = some k ∧ i ≤ j ∧
              Spans search (e.language flags) j k ∧
                ∀ j' k' : Nat, i ≤ j' → Spans search (e.language flags) j' k' → j ≤ j') := by
  obtain ⟨a, read, denote⟩ := parse_exp wf
  refine ⟨a.compiled, compile_of_parse read, fun small flags search i => ?_⟩
  have length := a.length_program
  change a.program.length < 32768 at small
  obtain ⟨greedy, is⟩ := denote (by omega) flags
  obtain ⟨m, hm⟩ : ∃ m : Matcher, m = ⟨a.program, flags, search⟩ := ⟨_, rfl⟩
  have low : 0 ≤ max i 0 := le_max_right i 0
  obtain ⟨f, r, run, found⟩ := Matcher.containedIn_language (m := m) (by rw [hm]) (by rw [hm]; exact greedy) (by rw [hm]; exact small) low
  have run' : Matcher.containedIn ⟨a.compiled.program, flags, search⟩ a.compiled.fPrefix (max f 2) i = some r := by
    have same := Matcher.containedIn_prefix (c := a.compiled) rfl flags search (Nat.le_max_right f 2) low
    rw [Matcher.containedIn_max, same]
    rw [hm] at run
    exact Matcher.containedIn_mono _ [] (Nat.le_max_left f 2) _ r run
  have from_i : ∀ j : Nat, max i 0 ≤ j ↔ i ≤ j := fun j => by omega
  subst hm
  rw [is] at found
  refine ⟨max f 2, r, run', ?_⟩
  cases r with
  | none =>
    refine ⟨iff_of_false (by decide) ?_, nofun⟩
    rintro ⟨j, k, low, spans⟩
    exact found j k ((from_i j).mpr low) spans
  | some c =>
    obtain ⟨j, k, low, start, finish, spans, least⟩ := found
    have low := (from_i j).mp low
    refine ⟨iff_of_true rfl ⟨j, k, low, spans⟩, fun caps has => ?_⟩
    cases has
    exact ⟨j, k, start, finish, low, spans, fun j' k' low' => least j' k' ((from_i j').mpr low')⟩

theorem containedIn_exp_loop : ∃ e : Exp, e.text = ascii "(ab|.)*c" ∧ ∃ c, compile (ascii "(ab|.)*c") 17 = some (some c, []) ∧
    ∀ (flags : MatchFlags) (search : Bytes) (i : Int), ∃ f r, Matcher.containedIn ⟨c.program, flags, search⟩ c.fPrefix f i = some r ∧
      (r.isSome = true ↔ ∃ j k : Nat, i ≤ j ∧ Spans search (e.language flags) j k) := by
  obtain ⟨e, shape⟩ : ∃ e, e = Exp.last (.cons (.group (.alt (.cons (.char false 97) .once (.cons (.char false 98) .once .nil))
    (.last (.cons .any .once .nil)))) .star (.cons (.char false 99) .once .nil)) := ⟨_, rfl⟩
  have text : e.text = ascii "(ab|.)*c" := by
    rw [shape]
    decide
  have wf : e.wellFormed = true := by
    rw [shape]
    decide
  obtain ⟨a, tree⟩ : ∃ a, a = Alts.last (.chain (.star (.group 1 (.alt (.simple (.opAtom [97, 98])) (.last (.simple .opAny)))))
    (.simple (.opAtom [99]))) := ⟨_, rfl⟩
  have reads : parse (ascii "(ab|.)*c") 17 = some (some a, []) := by
    rw [tree]
    rfl
  obtain ⟨c, compiled, found⟩ := containedIn_exp wf
  rw [text, show 2 * (ascii "(ab|.)*c").length + 1 = 17 from rfl] at compiled
  have is : c = a.compiled := by
    cases compiled.symm.trans (compile_of_parse reads)
    rfl
  have small : c.program.length < 2 ^ 15 := by
    rw [is, tree]
    decide
  refine ⟨e, text, c, compiled, fun flags search i => ?_⟩
  obtain ⟨f, r, run, finds, -⟩ := found small flags search i
  exact ⟨f, r, run, finds⟩

end Coast.Regex.Fragment
