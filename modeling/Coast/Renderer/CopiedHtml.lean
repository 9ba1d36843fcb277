import Coast.Renderer.OrdinaryHtml

/-!
# Copying ordinary HTML

What the parser stores for each piece of an ordinary template, and for all of it.
-/

namespace Coast.Renderer

open Regex (cstr caselessEq cstr_of_plain)
open Xml (tolower isValidNameChar)

/-! ### Attributes -/

def ofSlots : List (Option Bytes × Value) → Value
  | [] => .null
  | slot :: slots => .array () (slot :: slots)

theorem slots_ofSlots (ss : List (Option Bytes × Value)) : slots (ofSlots ss) = ss := by
  cases ss <;> rfl

theorem expand_ofSlots (ss : List (Option Bytes × Value)) : (ofSlots ss).expand () = .array () ss := by
  cases ss <;> rfl

theorem ofSlots_append (ss : List (Option Bytes × Value)) (slot : Option Bytes × Value) : ofSlots (ss ++ [slot]) = .array () (ss ++ [slot]) := by
  cases ss <;> rfl

theorem append_ofSlots (value : Value) (ss : List (Option Bytes × Value)) :
    Any.append () value (ofSlots ss) = ofSlots (ss ++ [(none, value)]) := by
  rw [Any.append_expand, expand_ofSlots, Any.append_array, ofSlots_append]

theorem withName_ofSlots {name : Bytes} {ss : List (Option Bytes × Value)} (isNamed : name ≠ []) (fresh : some name ∉ ss.map Prod.fst)
    (f : Value → Value) : (ofSlots ss).withName () name f = ofSlots (ss ++ [(some name, f .null)]) := by
  have absent : ss.findIdx? (fun slot => slot.1 = some name) = none := by
    rw [List.findIdx?_eq_none_iff]
    intro slot mem
    exact decide_eq_false fun same => fresh (List.mem_map.mpr ⟨slot, mem, same⟩)
  rw [Any.withName_expand, expand_ofSlots, Any.withName_array isNamed, Any.change_eq, absent, ofSlots_append]

namespace Attribute

def slot (a : Attribute) (left : Bytes) : Option Bytes × Value :=
  match a.value with
  | some _ => (some a.name, literal left)
  | none => (none, literal a.name)

def unblanked (a : Attribute) : Bytes :=
  a.name ++
    match a.value with
    | some value => ascii "=\"" ++ value ++ ascii "\""
    | none => []

theorem text_eq (a : Attribute) : a.text = ' '.toUInt8 :: a.unblanked := rfl

theorem name_ne_nil {a : Attribute} (fits : a.WellFormed) : a.name ≠ [] := by
  intro empty
  have first := fits.isName.1
  rw [empty] at first
  cases first

end Attribute

def tagRest (attributes : List Attribute) (rest : Bytes) : Bytes := attributes.flatMap Attribute.text ++ '>'.toUInt8 :: rest

def innerRest : List Attribute → Bytes → Bytes
  | [], rest => '>'.toUInt8 :: rest
  | a :: attributes, rest => a.unblanked ++ tagRest attributes rest

theorem tagRest_cons (a : Attribute) (attributes : List Attribute) (rest : Bytes) :
    tagRest (a :: attributes) rest = ' '.toUInt8 :: innerRest (a :: attributes) rest := by
  simp [tagRest, innerRest, Attribute.text_eq]

theorem visible_of_name {c : UInt8} (letter : isValidNameChar (some c) = true) : isspace c = false := by
  rw [Bool.eq_false_iff]
  intro space
  simp only [isspace, isValidNameChar, Xml.isalpha, isupper, islower, Option.any_some, Bool.or_eq_true, Bool.and_eq_true, beq_iff_eq,
    decide_eq_true_eq, UInt8.le_iff_toNat_le] at space letter
  rcases space with rfl | space
  · revert letter
    decide
  · have low : c.toNat ≤ 13 := space.2
    rcases letter with (((letter | rfl) | rfl) | rfl) | rfl
    · rcases letter with ⟨letter, -⟩ | ⟨letter, -⟩ <;> exact absurd (letter.trans low) (by decide)
    all_goals exact absurd low (by decide)

theorem ne_of_name {c d : UInt8} (letter : isValidNameChar (some c) = true) (noLetter : isValidNameChar (some d) = false) : c ≠ d := by
  rintro rfl
  rw [letter] at noLetter
  cases noLetter

theorem innerRest_head {attributes : List Attribute} (fits : ∀ a ∈ attributes, a.WellFormed) (rest : Bytes) :
    ∃ c text, innerRest attributes rest = c :: text ∧ isspace c = false ∧ c ≠ '='.toUInt8 := by
  cases attributes with
  | nil => exact ⟨_, _, rfl, by decide, by decide⟩
  | cons a attributes =>
    have isName := (fits a List.mem_cons_self).isName
    cases named : a.name with
    | nil => exact absurd named (Attribute.name_ne_nil (fits a List.mem_cons_self))
    | cons c name =>
      have letter : isValidNameChar (some c) = true := by simpa [named] using isName.1
      exact ⟨c, _, by rw [innerRest, Attribute.unblanked, named]; rfl, visible_of_name letter, ne_of_name letter (by decide)⟩

theorem tagRest_head (attributes : List Attribute) (rest : Bytes) :
    ∃ c text, tagRest attributes rest = c :: text ∧ TemplateParser.endsName c = true := by
  cases attributes with
  | nil => exact ⟨_, _, rfl, by decide⟩
  | cons a attributes => exact ⟨_, _, tagRest_cons a attributes rest, by decide⟩

theorem innerRest_length_le (attributes : List Attribute) (rest : Bytes) :
    (innerRest attributes rest).length ≤ (tagRest attributes rest).length := by
  cases attributes with
  | nil => rfl
  | cons a attributes => simp [tagRest_cons]

namespace TemplateParser

open Endings

variable {env : Environment} {p q : TemplateParser} {rest passed tagName : Bytes} {fuel : Nat} {attributes : List Attribute}

theorem skipWhitespace_inner (fits : ∀ a ∈ attributes, a.WellFormed) :
    skipWhitespace (fuel + 1) (p.facing (innerRest attributes rest) passed) = some ((), p.facing (innerRest attributes rest) passed) := by
  obtain ⟨c, text, first, visible, -⟩ := innerRest_head fits rest
  rw [first, skipWhitespace_visible visible]

theorem skipWhitespace_tagRest (p : TemplateParser) (fuel : Nat) (rest passed : Bytes) (fits : ∀ a ∈ attributes, a.WellFormed) : ∃ passed',
    skipWhitespace (fuel + 2) (p.facing (tagRest attributes rest) passed) = some ((), p.facing (innerRest attributes rest) passed') := by
  cases attributes with
  | nil => exact ⟨passed, skipWhitespace_inner fits⟩
  | cons a attributes => exact ⟨_, by rw [tagRest_cons, skipWhitespace_blank, skipWhitespace_inner fits]⟩

theorem parseTagLoop_tagRest (env : Environment) (p : TemplateParser) (fuel : Nat) (tagName rest passed : Bytes) (fits : ∀ a ∈ attributes, a.WellFormed) (needsrendering : Bool) (tagAttributes : Value) : ∃ passed',
    parseTagLoop env tagName (fuel + 2) needsrendering tagAttributes (p.facing (tagRest attributes rest) passed) =
      parseTagLoop env tagName (fuel + 2) needsrendering tagAttributes (p.facing (innerRest attributes rest) passed') := by
  obtain ⟨passed', skipped⟩ := skipWhitespace_tagRest p fuel rest passed fits
  refine ⟨passed', ?_⟩
  rw [parseTagLoop, bind_run isGood_facing, if_neg Bool.false_ne_true, bind_run skipped, bind_run isGood_facing,
    if_neg Bool.false_ne_true, bind_run (skipWhitespace_inner fits)]

def KeepsLower (attrNameCase : Bytes → Bytes) : Prop := ∀ tagName, (attrNameCase tagName).map tolower ≠ ascii "upper"

theorem adjustCase_lower {strCase name : Bytes} (keeps : strCase.map tolower ≠ ascii "upper") (lower : name.map tolower = name) :
    adjustCase strCase name = name := by
  rw [adjustCase, if_neg keeps, lower, ite_self]

theorem configuredCase_facing : configuredCase tagName (p.facing rest passed) = some (p.attrNameCase tagName, p.facing rest passed) := rfl

theorem parseAttribute_valueless (env : Environment) (tagName rest passed : Bytes) {a : Attribute} (keeps : KeepsLower p.attrNameCase) (fits : ∀ b ∈ a :: attributes, b.WellFormed)
    (none : a.value = none) (enough : a.name.length < fuel + 2) : ∃ passed',
    parseAttribute env (fuel + 2) tagName (p.facing (innerRest (a :: attributes) rest) passed) =
      some ((false, a.name, literal []), p.facing (innerRest attributes rest) passed') := by
  obtain ⟨c, text, next, ends⟩ := tagRest_head attributes rest
  have fitsRest : ∀ b ∈ attributes, b.WellFormed := fun b mem => fits b (List.mem_cons_of_mem _ mem)
  have here : innerRest (a :: attributes) rest = a.name ++ c :: text := by
    rw [innerRest, Attribute.unblanked, none, List.append_nil, next]
  obtain ⟨d, text', first, -, noValue⟩ := innerRest_head fitsRest rest
  obtain ⟨passed', skipped⟩ := skipWhitespace_tagRest p fuel rest (a.name.reverse ++ passed) fitsRest
  refine ⟨passed', ?_⟩
  have fit := fits a List.mem_cons_self
  rw [here, parseAttribute, bind_run (parseName_isName fit.isName ends enough), bind_run configuredCase_facing, ← next, bind_run skipped,
    first, bind_run peek_facing, if_neg (by simpa using noValue), adjustCase_lower (keeps tagName) fit.lower]
  rfl

theorem parseValue_quoted (env : Environment) (p : TemplateParser) (rest passed : Bytes) {value : Bytes} (quotable : Quotable value)
    (enough : value.length < fuel) : ∃ left q,
    parseValue env fuel (p.facing ('"'.toUInt8 :: (value ++ '"'.toUInt8 :: rest)) passed) = some (literal left, q) ∧ 0 ∉ left ∧
      (p.Reaches rest q ∨ p.Stopped q) ∧ (Kept value → left = value ∧ p.Reaches rest q) ∧ (¬ Kept value → Loses value left) := by
  obtain ⟨left, q, run, facts⟩ := readQuoted_value env p rest [] ('"'.toUInt8 :: passed) quotable enough
  refine ⟨left, q, ?_, facts⟩
  rw [parseValue, bind_run peek_facing, if_neg (by decide), if_pos (by decide), bind_run get_facing, bind_run run, List.nil_append]
  rfl

theorem parseAttribute_value (env : Environment) (tagName rest passed : Bytes) {a : Attribute} {value : Bytes} (keeps : KeepsLower p.attrNameCase) (fit : a.WellFormed)
    (valued : a.value = some value) (enough : a.name.length + value.length < fuel) : ∃ left q,
    parseAttribute env fuel tagName (p.facing (a.unblanked ++ rest) passed) = some ((true, a.name, literal left), q) ∧ 0 ∉ left ∧
      (p.Reaches rest q ∨ p.Stopped q) ∧ (Kept value → left = value ∧ p.Reaches rest q) ∧ (¬ Kept value → Loses value left) := by
  obtain ⟨fuel, rfl⟩ := Nat.exists_eq_succ_of_ne_zero (Nat.ne_of_gt (Nat.zero_lt_of_lt enough))
  have here : a.unblanked ++ rest = a.name ++ '='.toUInt8 :: '"'.toUInt8 :: (value ++ '"'.toUInt8 :: rest) := by
    have equals : ascii "=\"" = ['='.toUInt8, '"'.toUInt8] := rfl
    have quote : ascii "\"" = ['"'.toUInt8] := rfl
    simp [Attribute.unblanked, valued, equals, quote]
  obtain ⟨left, q, run, facts⟩ := parseValue_quoted env p rest ('='.toUInt8 :: (a.name.reverse ++ passed)) (fit.quotable value valued)
    (by omega : value.length < fuel + 1)
  refine ⟨left, q, ?_, facts⟩
  rw [here, parseAttribute, bind_run (parseName_isName fit.isName (by decide) (by omega)), bind_run configuredCase_facing,
    bind_run (skipWhitespace_visible (by decide)), bind_run peek_facing, if_pos rfl, bind_run get_facing, bind_run run,
    adjustCase_lower (keeps tagName) fit.lower]
  rfl

/-! ### Tags -/

theorem renderAttribute_slot {a : Attribute} {left : Bytes} (plain : 0 ∉ left) (plainName : 0 ∉ a.name) : renderAttribute (a.slot left) =
    ascii " " ++ a.name ++ (match a.value with
      | some _ => ascii "=\"" ++ left ++ ascii "\""
      | none => []) := by
  cases valued : a.value with
  | none => simp [Attribute.slot, renderAttribute, valued, literal, Any.asCharPtr, conversions, Simple.asText, cstr_of_plain plainName]
  | some value => simp [Attribute.slot, renderAttribute, valued, literal, charPtr, cstr_of_plain plain]

theorem plain_of_isName {name : Bytes} (isName : IsName name) : 0 ∉ name := fun zero => absurd (isName.2 0 zero) (by decide)

def InTag (p : TemplateParser) (attributes : List Attribute) (rest : Bytes) (q : TemplateParser) : Prop :=
  p.Reaches (tagRest attributes rest) q ∨ p.Reaches (innerRest attributes rest) q

theorem parseTagItem_slot (env : Environment) (p : TemplateParser) (fuel : Nat) (tagName rest passed : Bytes) {a : Attribute}
    {ss : List (Option Bytes × Value)} (keeps : KeepsLower p.attrNameCase) (fits : ∀ b ∈ a :: attributes, b.WellFormed)
    (fresh : some a.name ∉ ss.map Prod.fst) (enough : a.unblanked.length < fuel + 2) :
    ∃ left q, parseTagItem env (fuel + 2) tagName (ofSlots ss) (p.facing (innerRest (a :: attributes) rest) passed) =
        some ((false, ofSlots (ss ++ [a.slot left])), q) ∧ 0 ∉ renderAttribute (a.slot left) ∧
      (p.InTag attributes rest q ∨ p.Stopped q) ∧ (a.Copied → renderAttribute (a.slot left) = a.text ∧ p.InTag attributes rest q) ∧
      (¬ a.Copied → Parts a.text (renderAttribute (a.slot left))) := by
  have fit := fits a List.mem_cons_self
  have plainName := plain_of_isName fit.isName
  have isNamed := Attribute.name_ne_nil fit
  cases valued : a.value with
  | none =>
    have short : a.name.length < fuel + 2 := lt_of_le_of_lt (by simp [Attribute.unblanked]) enough
    obtain ⟨passed', run⟩ := parseAttribute_valueless env tagName rest passed keeps fits valued short
    have text : renderAttribute (a.slot []) = a.text := by
      rw [renderAttribute_slot (by simp) plainName, valued, Attribute.text, valued]
    refine ⟨[], p.facing (innerRest attributes rest) passed', ?_, ?_, Or.inl (Or.inr reaches_facing), fun _ => ⟨text, Or.inr reaches_facing⟩, fun lost => ?_⟩
    · rw [parseTagItem, bind_run run, if_neg Bool.false_ne_true, if_pos (List.length_pos_iff.mpr isNamed), append_ofSlots, Attribute.slot, valued]
      rfl
    · rw [text, Attribute.text, valued, List.append_nil]
      simp [plainName, ascii]
    · exact absurd (fun value mem => by rw [valued] at mem; cases mem) lost
  | some value =>
    have short : a.name.length + value.length < fuel + 2 := lt_of_le_of_lt (by simp [Attribute.unblanked, valued]; omega) enough
    obtain ⟨left, q, run, plain, stands, kept, lost⟩ := parseAttribute_value env tagName (tagRest attributes rest) passed keeps fit valued short
    have text : renderAttribute (a.slot left) = ascii " " ++ a.name ++ (ascii "=\"" ++ left ++ ascii "\"") := by
      rw [renderAttribute_slot plain plainName, valued]
    have original : a.text = ascii " " ++ a.name ++ (ascii "=\"" ++ value ++ ascii "\"") := by rw [Attribute.text, valued]
    have same : a.Copied ↔ Kept value := by simp [Attribute.Copied, valued]
    refine ⟨left, q, ?_, ?_, stands.imp Or.inl id, fun copied => ?_, fun changed => ?_⟩
    · rw [parseTagItem, innerRest, bind_run run, if_pos rfl, withName_ofSlots isNamed fresh, Attribute.slot, valued]
      rfl
    · rw [text]
      simp [plainName, plain, ascii]
    · obtain ⟨rfl, reaches⟩ := kept (same.mp copied)
      exact ⟨text.trans original.symm, Or.inl reaches⟩
    · rw [text, original, List.append_assoc (ascii "=\""), List.append_assoc (ascii "=\"")]
      have parts := ((lost fun kept => changed (same.mpr kept)).parts.append (ascii "\"") []).behind (ascii "=\"")
      rw [List.append_nil] at parts
      exact parts.behind _

theorem parseTagLoop_item {a : Attribute} (fits : ∀ b ∈ a :: attributes, b.WellFormed) {tagAttributes : Value} :
    parseTagLoop env tagName (fuel + 1) false tagAttributes (p.facing (innerRest (a :: attributes) rest) passed) =
      (do
        let item ← parseTagItem env (fuel + 1) tagName tagAttributes
        parseTagLoop env tagName fuel (false || item.1) item.2 : ParserM (Bool × Value))
        (p.facing (innerRest (a :: attributes) rest) passed) := by
  have isName := (fits a List.mem_cons_self).isName
  obtain ⟨c, name, named⟩ := List.exists_cons_of_ne_nil (Attribute.name_ne_nil (fits a List.mem_cons_self))
  have letter : isValidNameChar (some c) = true := by simpa [named] using isName.1
  have here : ∃ text, innerRest (a :: attributes) rest = c :: text := ⟨_, by rw [innerRest, Attribute.unblanked, named]; rfl⟩
  obtain ⟨text, here⟩ := here
  have apart : ∀ d : UInt8, isValidNameChar (some d) = false → ¬ some c = some d := fun d noLetter => by
    simpa using ne_of_name letter noLetter
  rw [parseTagLoop, bind_run isGood_facing, if_neg Bool.false_ne_true, bind_run (skipWhitespace_inner fits), here, bind_run peek_facing,
    if_neg (apart _ (by decide)), if_neg (apart _ (by decide)), if_neg (apart _ (by decide))]

theorem parseTagLoop_attributes (env : Environment) (p : TemplateParser) (fuel : Nat) (tagName rest passed : Bytes)
    (keeps : KeepsLower p.attrNameCase) (attributes : List Attribute) (ss : List (Option Bytes × Value))
    (fits : ∀ a ∈ attributes, a.WellFormed) (distinct : (attributes.map Attribute.name).Nodup)
    (fresh : ∀ a ∈ attributes, some a.name ∉ ss.map Prod.fst) (enough : (innerRest attributes rest).length < fuel) :
    ∃ ts q, parseTagLoop env tagName fuel false (ofSlots ss) (p.facing (innerRest attributes rest) passed) =
        some ((false, ofSlots (ss ++ ts)), q) ∧ 0 ∉ ts.flatMap renderAttribute ∧ (p.Reaches rest q ∨ p.Stopped q) ∧
      ((∀ a ∈ attributes, a.Copied) → ts.flatMap renderAttribute = attributes.flatMap Attribute.text ∧ p.Reaches rest q) ∧
      (¬ (∀ a ∈ attributes, a.Copied) → Parts (attributes.flatMap Attribute.text) (ts.flatMap renderAttribute)) := by
  induction attributes generalizing ss passed fuel with
  | nil =>
    obtain ⟨fuel, rfl⟩ := Nat.exists_eq_succ_of_ne_zero (Nat.ne_of_gt (Nat.zero_lt_of_lt enough))
    refine ⟨[], p.facing rest ('>'.toUInt8 :: passed), ?_, by simp, Or.inl reaches_facing, fun _ => ⟨rfl, reaches_facing⟩, ?_⟩
    · rw [parseTagLoop, bind_run isGood_facing, if_neg Bool.false_ne_true, bind_run (skipWhitespace_inner fits), innerRest,
        bind_run peek_facing, if_neg (by decide), if_pos rfl, bind_run get_facing, List.append_nil]
      rfl
    · intro changed
      exact absurd (by simp) changed
  | cons a attributes ih =>
    have lengths : a.unblanked.length + (tagRest attributes rest).length < fuel := by simpa [innerRest] using enough
    have named : 0 < a.unblanked.length := by
      refine (List.length_pos_iff.mpr (Attribute.name_ne_nil (fits a List.mem_cons_self))).trans_le ?_
      simp [Attribute.unblanked]
    have inner : (innerRest attributes rest).length ≤ (tagRest attributes rest).length := innerRest_length_le attributes rest
    have some' : 0 < (tagRest attributes rest).length := by simp [tagRest]
    obtain ⟨fuel, rfl⟩ : ∃ n, fuel = n + 3 := Nat.exists_eq_add_of_le' (by omega)
    have fitsRest : ∀ b ∈ attributes, b.WellFormed := fun b mem => fits b (List.mem_cons_of_mem _ mem)
    obtain ⟨other, distinctRest⟩ := List.nodup_cons.mp distinct
    obtain ⟨left, q, item, plain, stands, kept, lost⟩ := parseTagItem_slot env p (fuel + 1) tagName rest passed keeps fits
      (fresh a List.mem_cons_self) (by omega)
    have step : parseTagLoop env tagName (fuel + 3) false (ofSlots ss) (p.facing (innerRest (a :: attributes) rest) passed) =
        parseTagLoop env tagName (fuel + 2) false (ofSlots (ss ++ [a.slot left])) q := by
      rw [parseTagLoop_item fits, bind_run item]
      rfl
    rw [step]
    rcases stands with inTag | stopped
    · have freshRest : ∀ b ∈ attributes, some b.name ∉ (ss ++ [a.slot left]).map Prod.fst := by
        intro b mem taken
        rw [List.map_append, List.mem_append] at taken
        rcases taken with taken | taken
        · exact fresh b (List.mem_cons_of_mem _ mem) taken
        · have slotName : (a.slot left).1 = some a.name ∨ (a.slot left).1 = none := by
            cases valued : a.value <;> simp [Attribute.slot, valued]
          obtain slotName | slotName := slotName
          · exact other (List.mem_map.mpr ⟨b, mem, by simpa [slotName] using taken⟩)
          · simp [slotName] at taken
      obtain ⟨passed', next⟩ : ∃ passed', parseTagLoop env tagName (fuel + 2) false (ofSlots (ss ++ [a.slot left])) q =
          parseTagLoop env tagName (fuel + 2) false (ofSlots (ss ++ [a.slot left])) (p.facing (innerRest attributes rest) passed') := by
        obtain ⟨passed', rfl⟩ | ⟨passed', rfl⟩ := inTag
        · exact parseTagLoop_tagRest env p fuel tagName rest passed' fitsRest false _
        · exact ⟨passed', rfl⟩
      obtain ⟨ts, q', run, plainRest, standsRest, keptRest, lostRest⟩ := ih (fuel + 2) passed' (ss ++ [a.slot left]) fitsRest distinctRest
        freshRest (by omega)
      refine ⟨a.slot left :: ts, q', ?_, ?_, standsRest, fun copied => ?_, fun changed => ?_⟩
      · rw [next, run, List.append_assoc, List.singleton_append]
      · rw [List.flatMap_cons, List.mem_append, not_or]
        exact ⟨plain, plainRest⟩
      · obtain ⟨first, others⟩ := List.forall_mem_cons.mp copied
        obtain ⟨same, reaches⟩ := keptRest others
        exact ⟨by rw [List.flatMap_cons, List.flatMap_cons, (kept first).1, same], reaches⟩
      · rw [List.flatMap_cons, List.flatMap_cons]
        by_cases first : a.Copied
        · rw [(kept first).1]
          exact (lostRest fun others => changed (List.forall_mem_cons.mpr ⟨first, others⟩)).behind _
        · exact (lost first).append _ _
    · have first : ¬ a.Copied := fun copied => by
        obtain ⟨_, rfl⟩ | ⟨_, rfl⟩ := (kept copied).2 <;> cases stopped.1
      refine ⟨[a.slot left], q, ?_, by simpa using plain, Or.inr stopped, fun copied => ?_, fun _ => ?_⟩
      · rw [parseTagLoop, bind_run (isGood_ended stopped.good), if_pos rfl]
        rfl
      · exact absurd (copied a List.mem_cons_self) first
      · rw [List.flatMap_cons, List.flatMap_singleton]
        simpa using (lost first).append (attributes.flatMap Attribute.text) []

theorem parseTag_facing (env : Environment) (p : TemplateParser) (fuel : Nat) (rest passed : Bytes) (keeps : KeepsLower p.attrNameCase)
    {name : Bytes} (isName : IsName name) {attributes : List Attribute} (fits : ∀ a ∈ attributes, a.WellFormed)
    (distinct : (attributes.map Attribute.name).Nodup) (enough : (name ++ tagRest attributes rest).length < fuel) :
    ∃ ts q, parseTag env fuel (p.facing (name ++ tagRest attributes rest) passed) = some ((false, name, ofSlots ts), q) ∧
      0 ∉ ts.flatMap renderAttribute ∧ (p.Reaches rest q ∨ p.Stopped q) ∧
      ((∀ a ∈ attributes, a.Copied) → ts.flatMap renderAttribute = attributes.flatMap Attribute.text ∧ p.Reaches rest q) ∧
      (¬ (∀ a ∈ attributes, a.Copied) → Parts (attributes.flatMap Attribute.text) (ts.flatMap renderAttribute)) := by
  obtain ⟨c, text, next, ends⟩ := tagRest_head attributes rest
  have some' : 0 < (tagRest attributes rest).length := by simp [next]
  have named : 0 < name.length := List.length_pos_iff.mpr fun empty => by
    have first := isName.1
    rw [empty] at first
    cases first
  rw [List.length_append] at enough
  obtain ⟨fuel, rfl⟩ : ∃ n, fuel = n + 2 := Nat.exists_eq_add_of_le' (by omega)
  obtain ⟨passed', same⟩ := parseTagLoop_tagRest env p fuel name rest (name.reverse ++ passed) fits false .null
  obtain ⟨ts, q, run, facts⟩ := parseTagLoop_attributes env p (fuel + 2) name rest passed' keeps attributes [] fits distinct (by simp)
    ((innerRest_length_le attributes rest).trans_lt (by omega))
  refine ⟨ts, q, ?_, facts⟩
  have run' : parseTagLoop env name (fuel + 2) false .null (p.facing (tagRest attributes rest) (name.reverse ++ passed)) =
      some ((false, ofSlots ts), q) := same.trans run
  rw [parseTag, next, bind_run (parseName_isName isName ends (by omega)), ← next, bind_run run']
  rfl

/-! ### What is stored -/

def stored (cache : List Value) : Bytes := cache.flatMap fun a => ((charPtr a).map cstr).getD []

theorem literals_block (htmlBlock : Bytes) : literals (if 0 < htmlBlock.length then [literal htmlBlock] else []) = htmlBlock := by
  cases htmlBlock with
  | nil => rfl
  | cons c htmlBlock => simp [literals, literal, charPtr]

theorem literals_append (cache cache' : List Value) : literals (cache ++ cache') = literals cache ++ literals cache' :=
  List.flatMap_append

theorem literals_compactHTMLBlocks (htmlBlock : Bytes) (cache : List Value) :
    literals (compactHTMLBlocks htmlBlock cache) = htmlBlock ++ stored cache := by
  induction cache generalizing htmlBlock with
  | nil =>
    rw [compactHTMLBlocks, literals_block]
    simp [stored]
  | cons a cache ih =>
    rw [compactHTMLBlocks]
    cases text : charPtr a with
    | some text => simp [ih, stored, text]
    | none =>
      have rest : literals (a :: compactHTMLBlocks [] cache) = stored (a :: cache) := by
        have alone : literals (a :: compactHTMLBlocks [] cache) = literals (compactHTMLBlocks [] cache) := by simp [literals, text]
        rw [alone, ih]
        simp [stored, text]
      rw [literals_append, literals_block, rest]

def storing (p : TemplateParser) (t : Bytes) : TemplateParser :=
  if 0 < t.length then { p with fCache := p.fCache ++ [literal t] } else p

theorem storeText_run (t : Bytes) : storeText t p = some ((), p.storing t) := rfl

theorem storing_facing (t : Bytes) : (p.facing rest passed).storing t = (p.storing t).facing rest passed := by
  unfold storing
  split <;> rfl

@[simp] theorem attrNameCase_storing (t : Bytes) : (p.storing t).attrNameCase = p.attrNameCase := by
  unfold storing
  split <;> rfl

@[simp] theorem fReader_storing (t : Bytes) : (p.storing t).fReader = p.fReader := by
  unfold storing
  split <;> rfl

theorem stored_storing {t : Bytes} (plain : 0 ∉ t) : stored (p.storing t).fCache = stored p.fCache ++ t := by
  cases t with
  | nil => exact (List.append_nil _).symm
  | cons c t =>
    rw [storing, if_pos (List.length_pos_iff.mpr (List.cons_ne_nil c t)), stored, List.flatMap_append]
    simp [stored, literal, charPtr, cstr_of_plain plain]

theorem stored_literal {cache : List Value} {t : Bytes} (plain : 0 ∉ t) : stored (cache ++ [literal t]) = stored cache ++ t := by
  rw [stored, List.flatMap_append]
  simp [stored, literal, charPtr, cstr_of_plain plain]

/-! ### The loop -/

/-- From here on the text is stored, and the text before that was not stored yet. -/
def Emits (env : Environment) (fuel : Nat) (p : TemplateParser) (reply out : Bytes) : Prop :=
  ∃ q, doParseLoop env (storeTag env) fuel reply p = some ((), q) ∧ stored q.fCache = stored p.fCache ++ reply ++ out

theorem emits_ended {reply : Bytes} (ended : p.fReader.good = false) (plain : 0 ∉ reply) : Emits env (fuel + 1) p reply [] := by
  refine ⟨p.storing reply, ?_, by rw [stored_storing plain, List.append_nil]⟩
  rw [doParseLoop, bind_run (get_ended ended), if_pos (Or.inr rfl)]
  rfl

theorem emits_nothing {reply : Bytes} (plain : 0 ∉ reply) : Emits env (fuel + 1) (p.facing [] passed) reply [] := by
  have read : get (p.facing [] passed) = some (none, { p with fReader := ⟨[], true, true⟩, passed := passed }) := rfl
  refine ⟨storing { p with fReader := ⟨[], true, true⟩, passed := passed } reply, ?_, by rw [stored_storing plain, List.append_nil]; rfl⟩
  rw [doParseLoop, bind_run read, if_pos (Or.inl rfl)]
  rfl

theorem Emits.after {fuel' : Nat} {reply reply' t out : Bytes} (emits : Emits env fuel q reply' out)
    (run : doParseLoop env (storeTag env) fuel' reply p = doParseLoop env (storeTag env) fuel reply' q)
    (took : stored q.fCache ++ reply' = stored p.fCache ++ reply ++ t) : Emits env fuel' p reply (t ++ out) := by
  obtain ⟨q', run', kept⟩ := emits
  refine ⟨q', run.trans run', ?_⟩
  rw [kept, took, List.append_assoc _ t out]

def Copies (env : Environment) (attrNameCase : Bytes → Bytes) (text : Bytes) (G : Prop) : Prop :=
  ∀ fuel (p : TemplateParser) passed reply, text.length < fuel → p.attrNameCase = attrNameCase → 0 ∉ reply →
    ∃ out, Emits env fuel (p.facing text passed) reply out ∧ (out = text ↔ G)

variable {attrNameCase : Bytes → Bytes} {G : Prop} {t : Bytes} {c : UInt8}

theorem Copies.turn (copies : Copies env attrNameCase rest G) (some' : t ≠ [])
    (run : ∀ fuel (p : TemplateParser) passed reply, (t ++ rest).length ≤ fuel → p.attrNameCase = attrNameCase → 0 ∉ reply →
      ∃ (p' : TemplateParser) (passed' reply' : Bytes), p'.attrNameCase = attrNameCase ∧ 0 ∉ reply' ∧
        stored p'.fCache ++ reply' = stored p.fCache ++ reply ++ t ∧
        doParseLoop env (storeTag env) (fuel + 1) reply (p.facing (t ++ rest) passed) =
          doParseLoop env (storeTag env) fuel reply' (p'.facing rest passed')) :
    Copies env attrNameCase (t ++ rest) G := by
  intro fuel p passed reply enough config plain
  obtain ⟨fuel, rfl⟩ := Nat.exists_eq_succ_of_ne_zero (Nat.ne_of_gt (Nat.zero_lt_of_lt enough))
  obtain ⟨p', passed', reply', config', plain', took, same⟩ := run fuel p passed reply (Nat.le_of_lt_succ enough) config plain
  have shorter : rest.length < fuel := by
    have := List.length_pos_iff.mpr some'
    rw [List.length_append] at enough
    omega
  obtain ⟨out, emits, copied⟩ := copies fuel p' passed' reply' shorter config' plain'
  exact ⟨t ++ out, emits.after same took, by rw [List.append_cancel_left_eq, copied]⟩

theorem copies_nil : Copies env attrNameCase [] True := by
  intro fuel p passed reply enough _ plain
  obtain ⟨fuel, rfl⟩ := Nat.exists_eq_succ_of_ne_zero (Nat.ne_of_gt enough)
  exact ⟨[], emits_nothing plain, by simp⟩

/-! ### Characters -/

theorem alive (nonzero : c ≠ 0) : ¬ (some c = none ∨ some c = some 0) := by simpa using nonzero

theorem doParseLoop_inert {reply : Bytes} (nonzero : c ≠ 0) (noAngle : c ≠ '<'.toUInt8) (noBracket : c ≠ '['.toUInt8) :
    doParseLoop env (storeTag env) (fuel + 1) reply (p.facing (c :: rest) passed) =
      doParseLoop env (storeTag env) fuel (reply ++ [c]) (p.facing rest (c :: passed)) := by
  rw [doParseLoop, bind_run get_facing, if_neg (alive nonzero), if_neg (by simpa using noAngle), if_neg (by simpa using noBracket)]
  rfl

theorem doParseLoop_bracket {reply : Bytes} (single : c ≠ '['.toUInt8) :
    doParseLoop env (storeTag env) (fuel + 1) reply (p.facing ('['.toUInt8 :: c :: rest) passed) =
      doParseLoop env (storeTag env) fuel (reply ++ ['['.toUInt8]) (p.facing (c :: rest) ('['.toUInt8 :: passed)) := by
  rw [doParseLoop, bind_run get_facing, if_neg (by decide), if_neg (by decide), if_pos rfl, bind_run peek_facing, if_neg (by simpa using single)]
  rfl

theorem putBack_bang (env : Environment) (p : TemplateParser) (rest passed : Bytes) : ∃ q, peek (p.facing rest ('!'.toUInt8 :: passed)) = some (rest.head?, q) ∧
    putBack env '!'.toUInt8 q = some ((), p.facing ('!'.toUInt8 :: rest) passed) := by
  cases rest with
  | nil =>
    refine ⟨{ p with fReader := ⟨[], true, false⟩, passed := '!'.toUInt8 :: passed }, rfl, ?_⟩
    simp [putBack, facing, IStream.on, IStream.putback]
  | cons c rest => exact ⟨_, peek_facing, putBack_facing⟩

theorem doParseLoop_lone {reply : Bytes} (opens : OpensNothing (c :: rest)) :
    doParseLoop env (storeTag env) (fuel + 1) reply (p.facing ('<'.toUInt8 :: c :: rest) passed) =
      doParseLoop env (storeTag env) fuel (ascii "<") ((p.storing reply).facing (c :: rest) ('<'.toUInt8 :: passed)) := by
  rw [doParseLoop, bind_run get_facing, if_neg (by decide), if_pos rfl, bind_run (storeText_run reply), storing_facing, bind_run peek_facing]
  by_cases bang : c = '!'.toUInt8
  · subst bang
    obtain ⟨q, looked, back⟩ := putBack_bang env (p.storing reply) rest ('<'.toUInt8 :: passed)
    have noDash : rest.head? ≠ some '-'.toUInt8 := by
      intro dash
      obtain ⟨text, rfl⟩ := List.head?_eq_some_iff.mp dash
      exact opens.noComment ⟨text, rfl⟩
    rw [if_pos rfl, bind_run get_facing, bind_run looked]
    exact (bind_run back).trans (by rw [if_neg noDash])
  · have noMark : ¬ isMark (some c) = true := by simpa using opens.noMark
    have noName : ¬ isValidNameChar (some c) = true := by simpa using opens.noName
    have noSlash : ¬ some c = some '/'.toUInt8 := by simpa using opens.notClosing
    rw [if_neg (by simpa using bang), if_neg noSlash, if_neg noMark, if_neg noName]

theorem peek_last : peek (p.facing [] passed) = some (none, { p with fReader := .ended, passed := passed }) := rfl

theorem emits_last {reply : Bytes} (nonzero : c ≠ 0) (plain : 0 ∉ reply) : Emits env (fuel + 2) (p.facing [c] passed) reply [c] := by
  by_cases angle : c = '<'.toUInt8
  · subst angle
    have run : doParseLoop env (storeTag env) (fuel + 2) reply (p.facing ['<'.toUInt8] passed) =
        doParseLoop env (storeTag env) (fuel + 1) (ascii "<")
          { p.storing reply with fReader := .ended, passed := '<'.toUInt8 :: passed } := by
      rw [doParseLoop, bind_run get_facing, if_neg (by decide), if_pos rfl, bind_run (storeText_run reply), storing_facing, bind_run peek_last,
        if_neg (by decide), if_neg (by decide), if_neg (by decide), if_neg (by decide)]
    refine (emits_ended rfl (by decide)).after (t := ['<'.toUInt8]) run ?_
    exact congrArg (· ++ ['<'.toUInt8]) (stored_storing plain)
  · by_cases bracket : c = '['.toUInt8
    · subst bracket
      have run : doParseLoop env (storeTag env) (fuel + 2) reply (p.facing ['['.toUInt8] passed) =
          doParseLoop env (storeTag env) (fuel + 1) (reply ++ ['['.toUInt8])
            { p with fReader := .ended, passed := '['.toUInt8 :: passed } := by
        rw [doParseLoop, bind_run get_facing, if_neg (by decide), if_neg (by decide), if_pos rfl, bind_run peek_last, if_neg (by decide)]
        rfl
      refine (emits_ended rfl (List.not_mem_append plain (by decide))).after (t := ['['.toUInt8]) run ?_
      exact (List.append_assoc _ _ _).symm
    · refine (emits_nothing (by simpa [plain] using nonzero.symm)).after (t := [c]) (doParseLoop_inert nonzero angle bracket) ?_
      exact (List.append_assoc _ _ _).symm

theorem copies_char (copies : Copies env attrNameCase rest G) (fits : (Piece.char c).Fits rest) (last : rest = [] → G) :
    Copies env attrNameCase (c :: rest) G := by
  obtain ⟨nonzero, bracket, angle⟩ := fits
  cases rest with
  | nil =>
    intro fuel p passed reply enough _ plain
    obtain ⟨fuel, rfl⟩ : ∃ n, fuel = n + 2 := Nat.exists_eq_add_of_le' enough
    exact ⟨[c], emits_last nonzero plain, by simp [last rfl]⟩
  | cons d rest =>
    refine copies.turn (t := [c]) (List.cons_ne_nil _ _) fun fuel p passed reply _ config plain => ?_
    by_cases isAngle : c = '<'.toUInt8
    · subst isAngle
      exact ⟨p.storing reply, _, ascii "<", by rw [attrNameCase_storing, config], by decide, congrArg (· ++ ['<'.toUInt8]) (stored_storing plain),
        doParseLoop_lone (angle rfl)⟩
    · refine ⟨p, c :: passed, reply ++ [c], config, by simpa [plain] using nonzero.symm, (List.append_assoc _ _ _).symm, ?_⟩
      by_cases isBracket : c = '['.toUInt8
      · subst isBracket
        exact doParseLoop_bracket (by simpa using bracket rfl)
      · exact doParseLoop_inert nonzero isAngle isBracket

/-! ### Closing tags and comments -/

theorem copies_closing (copies : Copies env attrNameCase rest G) {name : Bytes} (isName : IsName name) :
    Copies env attrNameCase ((Piece.closing name).text ++ rest) G := by
  refine copies.turn (t := (Piece.closing name).text) (by simp [Piece.text, ascii]) fun fuel p passed reply enough config plain => ?_
  have here : (Piece.closing name).text ++ rest = '<'.toUInt8 :: '/'.toUInt8 :: (name ++ '>'.toUInt8 :: rest) := by
    have opening : ascii "</" = ['<'.toUInt8, '/'.toUInt8] := rfl
    have close : ascii ">" = ['>'.toUInt8] := rfl
    simp [Piece.text, opening, close]
  have plainName := plain_of_isName isName
  have short : name.length < fuel + 1 := by
    rw [here] at enough
    simp only [List.length_cons, List.length_append] at enough
    omega
  refine ⟨p.storing reply, '>'.toUInt8 :: (name.reverse ++ '/'.toUInt8 :: '<'.toUInt8 :: passed), ascii "</" ++ name ++ ascii ">",
    by rw [attrNameCase_storing, config], by simp [plainName, ascii], congrArg (· ++ _) (stored_storing plain), ?_⟩
  rw [here, doParseLoop, bind_run get_facing, if_neg (by decide), if_pos rfl, bind_run (storeText_run reply), storing_facing,
    bind_run peek_facing, if_neg (by decide), if_pos rfl, bind_run get_facing, bind_run (parseName_isName isName (by decide) short),
    bind_run peek_facing, if_pos rfl, bind_run get_facing]

theorem copies_comment (copies : Copies env attrNameCase rest G) {body : Bytes} (fits : (Piece.comment body).Fits rest) :
    Copies env attrNameCase ((Piece.comment body).text ++ rest) G := by
  obtain ⟨plainBody, unclosed, noMacro⟩ := fits
  refine copies.turn (t := (Piece.comment body).text) (by simp [Piece.text, ascii]) fun fuel p passed reply enough config plain => ?_
  have here : (Piece.comment body).text ++ rest = '<'.toUInt8 :: '!'.toUInt8 :: '-'.toUInt8 :: ('-'.toUInt8 :: (body ++ ascii "-->" ++ rest)) := by
    have opening : ascii "<!--" = ['<'.toUInt8, '!'.toUInt8, '-'.toUInt8, '-'.toUInt8] := rfl
    simp [Piece.text, opening]
  have again : '!'.toUInt8 :: '-'.toUInt8 :: ('-'.toUInt8 :: (body ++ ascii "-->" ++ rest)) = ascii "!--" ++ body ++ ascii "-->" ++ rest := by
    have opening : ascii "!--" = ['!'.toUInt8, '-'.toUInt8, '-'.toUInt8] := rfl
    simp [opening]
  have short : body.length < fuel + 1 := by
    rw [here] at enough
    simp only [List.length_cons, List.length_append] at enough
    omega
  obtain ⟨passed', run⟩ := oldStyleComment_facing env (p.storing reply) rest ('<'.toUInt8 :: passed) plainBody unclosed noMacro short
  have plainText : 0 ∉ ascii "<!--" ++ body ++ ascii "-->" := by simp [plainBody, ascii]
  refine ⟨{ p.storing reply with fCache := (p.storing reply).fCache ++ [literal (ascii "<!--" ++ body ++ ascii "-->")] }, passed', [],
    (attrNameCase_storing reply).trans config, by simp, ?_, ?_⟩
  · rw [List.append_nil, stored_literal plainText, stored_storing plain]
    rfl
  · rw [here, doParseLoop, bind_run get_facing, if_neg (by decide), if_pos rfl, bind_run (storeText_run reply), storing_facing,
      bind_run peek_facing, if_pos rfl, bind_run get_facing, bind_run peek_facing]
    refine (bind_run putBack_facing).trans ?_
    have bang : Xml.toChar (some '!'.toUInt8) = '!'.toUInt8 := rfl
    rw [if_pos rfl, bang, again, bind_run run]
    rfl

/-! ### Instructions and tags -/

theorem doParseLoop_inerts (env : Environment) (p : TemplateParser) (fuel : Nat) (reply rest passed : Bytes) {text : Bytes}
    (plain : ∀ c ∈ text, c ≠ 0 ∧ c ≠ '<'.toUInt8 ∧ c ≠ '['.toUInt8) : ∃ passed',
    doParseLoop env (storeTag env) (fuel + text.length) reply (p.facing (text ++ rest) passed) =
      doParseLoop env (storeTag env) fuel (reply ++ text) (p.facing rest passed') := by
  induction text generalizing reply passed with
  | nil => exact ⟨passed, by simp⟩
  | cons c text ih =>
    obtain ⟨⟨nonzero, angle, bracket⟩, others⟩ := List.forall_mem_cons.mp plain
    obtain ⟨passed', run⟩ := ih (reply ++ [c]) (c :: passed) others
    refine ⟨passed', ?_⟩
    rw [List.length_cons, ← Nat.add_assoc, List.cons_append, doParseLoop_inert nonzero angle bracket, run, List.append_assoc]
    rfl

theorem doParseLoop_instruction (env : Environment) (p : TemplateParser) (fuel : Nat) (reply rest passed : Bytes) {mark : UInt8} {start : Bytes}
    (fits : (Piece.instruction mark start).Fits rest) :
    (∃ passed', doParseLoop env (storeTag env) (fuel + (start.length + 2)) reply
        (p.facing ((Piece.instruction mark start).text ++ rest) passed) =
          doParseLoop env (storeTag env) fuel ('<'.toUInt8 :: mark :: start.map tolower) ((p.storing reply).facing rest passed')) ∨
      ∃ q, doParseLoop env (storeTag env) (fuel + (start.length + 2)) reply (p.facing ((Piece.instruction mark start).text ++ rest) passed) =
          doParseLoop env (storeTag env) (fuel + (start.length + 1)) (ascii "<") q ∧
        start.map tolower ≠ start ∧ (p.storing reply).Stopped q := by
  obtain ⟨marked, first, no, more⟩ := fits
  obtain ⟨q, looked, result⟩ := isEmptyOrWd_facing env (p.storing reply) (mark :: '<'.toUInt8 :: passed) first more no
  have noBang : ¬ some mark = some '!'.toUInt8 := by obtain rfl | rfl := isMark_iff.mp marked <;> decide
  have noSlash : ¬ some mark = some '/'.toUInt8 := by obtain rfl | rfl := isMark_iff.mp marked <;> decide
  have reading : doParseLoop env (storeTag env) (fuel + (start.length + 2)) reply
      (p.facing ((Piece.instruction mark start).text ++ rest) passed) =
        (do putBack env mark; doParseLoop env (storeTag env) (fuel + (start.length + 1)) (ascii "<") : ParserM Unit) q := by
    rw [← Nat.add_assoc, Piece.text, List.cons_append, List.cons_append, doParseLoop, bind_run get_facing, if_neg (by decide), if_pos rfl,
      bind_run (storeText_run reply), storing_facing, bind_run peek_facing, if_neg noBang, if_neg noSlash, if_pos marked, bind_run get_facing,
      bind_run looked]
    rfl
  rw [reading]
  rcases result with rfl | ⟨changed, stopped⟩
  · refine Or.inl ?_
    have plain : ∀ c ∈ mark :: start.map tolower, c ≠ 0 ∧ c ≠ '<'.toUInt8 ∧ c ≠ '['.toUInt8 := by
      refine List.forall_mem_cons.mpr ⟨?_, fun c mem => ?_⟩
      · obtain rfl | rfl := isMark_iff.mp marked <;> decide
      · obtain rfl | rfl := wdStart_lower (start ++ rest) c (by rwa [first]) <;> decide
    have length : start.length + 1 = (mark :: start.map tolower).length := by simp
    rw [bind_run putBack_facing, length, ← List.cons_append]
    exact doParseLoop_inerts env (p.storing reply) fuel (ascii "<") rest _ plain
  · obtain ⟨q', back, stopped⟩ := putBack_stopped env mark stopped
    exact Or.inr ⟨q', bind_run back, changed, stopped⟩

theorem copies_instruction (copies : Copies env attrNameCase rest G) {mark : UInt8} {start : Bytes}
    (fits : (Piece.instruction mark start).Fits rest) :
    Copies env attrNameCase ((Piece.instruction mark start).text ++ rest) (start.map tolower = start ∧ G) := by
  intro fuel p passed reply enough config plain
  have enough : start.length + rest.length + 2 < fuel := by simpa [Piece.text] using enough
  obtain ⟨fuel, rfl⟩ : ∃ n, fuel = n + (start.length + 2) := Nat.exists_eq_add_of_le' (by omega)
  obtain ⟨passed', run⟩ | ⟨q, run, changed, stopped⟩ := doParseLoop_instruction env p fuel reply rest passed fits
  · have plainText : 0 ∉ '<'.toUInt8 :: mark :: start.map tolower := by
      rw [List.mem_cons, List.mem_cons, not_or, not_or]
      refine ⟨by decide, ?_, fun zero => ?_⟩
      · obtain rfl | rfl := isMark_iff.mp fits.1 <;> decide
      · obtain zero | zero := wdStart_lower (start ++ rest) 0 (by rwa [fits.2.1]) <;> cases zero
    obtain ⟨out, emits, copied⟩ := copies fuel (p.storing reply) passed' ('<'.toUInt8 :: mark :: start.map tolower) (by omega)
      (by rw [attrNameCase_storing, config]) plainText
    refine ⟨'<'.toUInt8 :: mark :: start.map tolower ++ out, emits.after run (congrArg (· ++ _) (stored_storing plain)), ?_⟩
    rw [← copied]
    constructor
    · intro same
      have same : start.map tolower ++ out = start ++ rest := (List.cons.inj (List.cons.inj same).2).2
      exact List.append_inj same (by simp)
    · rintro ⟨lower, rfl⟩
      rw [lower]
      rfl
  · refine ⟨ascii "<" ++ [], (emits_ended stopped.good (by decide)).after run ?_, ?_⟩
    · rw [stopped.2, stored_storing plain]
      rfl
    · refine iff_of_false (fun same => ?_) fun both => changed both.1
      cases same

theorem storeTag_plain {name : Bytes} (noScript : caselessEq name (ascii "script") = false) (noForm : caselessEq name (ascii "form") = false)
    (ts : List (Option Bytes × Value)) : storeTag env fuel (false, name, ofSlots ts) p =
      some ((), { p with fCache := p.fCache ++ [literal (ascii "<" ++ name ++ ts.flatMap renderAttribute ++ ascii ">")] }) := by
  have plain : isSpecialTag env name (ofSlots ts) = false := by simp [isSpecialTag, noScript, noForm]
  rw [storeTag, plain, if_neg Bool.false_ne_true, plainTag, if_neg Bool.false_ne_true, renderTagAsLiteral, slots_ofSlots]
  rfl

theorem copies_tag (copies : Copies env attrNameCase rest G) (keeps : KeepsLower attrNameCase) {name : Bytes} {attributes : List Attribute}
    (fits : (Piece.tag name attributes).Fits rest) :
    Copies env attrNameCase ((Piece.tag name attributes).text ++ rest) ((∀ a ∈ attributes, a.Copied) ∧ G) := by
  obtain ⟨isName, noScript, noForm, distinct, fits⟩ := fits
  intro fuel p passed reply enough config plain
  obtain ⟨fuel, rfl⟩ := Nat.exists_eq_succ_of_ne_zero (Nat.ne_of_gt (Nat.zero_lt_of_lt enough))
  have here : (Piece.tag name attributes).text ++ rest = '<'.toUInt8 :: (name ++ tagRest attributes rest) := by
    have opening : ascii "<" = ['<'.toUInt8] := rfl
    have close : ascii ">" = ['>'.toUInt8] := rfl
    simp [Piece.text, tagRest, opening, close]
  have short : (name ++ tagRest attributes rest).length < fuel := by
    rw [here] at enough
    exact Nat.lt_of_succ_lt_succ enough
  have behind : rest.length < fuel := by
    simp only [tagRest, List.length_append, List.length_cons] at short
    omega
  have keeps' : KeepsLower (p.storing reply).attrNameCase := by rwa [attrNameCase_storing, config]
  obtain ⟨ts, q, run, plainTag, stands, kept, lost⟩ := parseTag_facing env (p.storing reply) (fuel + 1) rest ('<'.toUInt8 :: passed) keeps'
    isName fits distinct (Nat.lt_succ_of_lt short)
  have turn : doParseLoop env (storeTag env) (fuel + 1) reply (p.facing ((Piece.tag name attributes).text ++ rest) passed) =
      doParseLoop env (storeTag env) fuel []
        { q with fCache := q.fCache ++ [literal (ascii "<" ++ name ++ ts.flatMap renderAttribute ++ ascii ">")] } := by
    obtain ⟨c, tail, named⟩ : ∃ c tail, name = c :: tail := List.exists_cons_of_ne_nil fun empty => by
      have first := isName.1
      rw [empty] at first
      cases first
    have letter : isValidNameChar (some c) = true := by simpa [named] using isName.1
    have noMark : ¬ isMark (some c) = true := fun marked => by
      obtain rfl | rfl := isMark_iff.mp marked <;> cases letter
    have first : name ++ tagRest attributes rest = c :: (tail ++ tagRest attributes rest) := by rw [named, List.cons_append]
    rw [here, doParseLoop, bind_run get_facing, if_neg (by decide), if_pos rfl, bind_run (storeText_run reply), storing_facing, first,
      bind_run peek_facing, if_neg (by simpa using ne_of_name letter (by decide)), if_neg (by simpa using ne_of_name letter (by decide)),
      if_neg noMark, if_pos letter, ← first, bind_run run, bind_run (storeTag_plain noScript noForm ts)]
  have plainName := plain_of_isName isName
  have plainText : 0 ∉ ascii "<" ++ name ++ ts.flatMap renderAttribute ++ ascii ">" := by simp [plainName, plainTag, ascii]
  have took : ∀ q : TemplateParser, q.fCache = (p.storing reply).fCache →
      stored (q.fCache ++ [literal (ascii "<" ++ name ++ ts.flatMap renderAttribute ++ ascii ">")]) ++ [] =
        stored p.fCache ++ reply ++ (ascii "<" ++ name ++ ts.flatMap renderAttribute ++ ascii ">") := by
    intro q same
    rw [List.append_nil, stored_literal plainText, same, stored_storing plain]
  have apart : ¬ (∀ a ∈ attributes, a.Copied) →
      Parts (Piece.tag name attributes).text (ascii "<" ++ name ++ ts.flatMap renderAttribute ++ ascii ">") := fun changed =>
    ((lost changed).behind (ascii "<" ++ name)).append _ _
  rcases stands with ⟨passed', rfl⟩ | stopped
  · obtain ⟨out, emits, copied⟩ := copies fuel
      { p.storing reply with fCache := (p.storing reply).fCache ++ [literal (ascii "<" ++ name ++ ts.flatMap renderAttribute ++ ascii ">")] }
      passed' [] behind ((attrNameCase_storing reply).trans config) List.not_mem_nil
    refine ⟨_, emits.after turn (took _ rfl), ?_⟩
    by_cases all : ∀ a ∈ attributes, a.Copied
    · rw [(kept all).1, Piece.text, List.append_cancel_left_eq, copied]
      exact (and_iff_right all).symm
    · exact iff_of_false (fun same => apart all rest out same.symm) fun both => all both.1
  · have changed : ¬ ∀ a ∈ attributes, a.Copied := fun all => by
      obtain ⟨_, rfl⟩ := (kept all).2
      cases stopped.1
    obtain ⟨fuel, rfl⟩ := Nat.exists_eq_succ_of_ne_zero (Nat.ne_of_gt (Nat.zero_lt_of_lt behind))
    exact ⟨_, (emits_ended (p := { q with fCache := q.fCache ++
        [literal (ascii "<" ++ name ++ ts.flatMap renderAttribute ++ ascii ">")] }) stopped.good List.not_mem_nil).after turn (took q stopped.2),
      iff_of_false (fun same => apart changed rest [] same.symm) fun both => changed both.1⟩

/-! ### Templates -/

theorem text_ne_nil (piece : Piece) : piece.text ≠ [] := by
  cases piece <;> simp [Piece.text, ascii]

theorem copies_textOf (env : Environment) (keeps : KeepsLower attrNameCase) {pieces : List Piece} (ordinary : Ordinary pieces) :
    Copies env attrNameCase (textOf pieces) (∀ piece ∈ pieces, piece.Copied) := by
  induction pieces with
  | nil => simpa [textOf] using copies_nil
  | cons piece pieces ih =>
    obtain ⟨fits, ordinary⟩ := ordinary
    rw [List.forall_mem_cons, textOf, List.flatMap_cons]
    cases piece with
    | char c =>
      rw [Piece.Copied, true_and]
      refine copies_char (ih ordinary) fits fun last piece mem => ?_
      exact absurd (List.flatMap_eq_nil_iff.mp last piece mem) (text_ne_nil piece)
    | closing name =>
      rw [Piece.Copied, true_and]
      exact copies_closing (ih ordinary) fits
    | comment body =>
      rw [Piece.Copied, true_and]
      exact copies_comment (ih ordinary) fits
    | instruction mark start => exact copies_instruction (ih ordinary) fits
    | tag name attributes => exact copies_tag (ih ordinary) keeps fits

def bare : Environment := ⟨fun _ => .null, fun _ => false, fun _ => false, fun _ => true⟩

/-- `<a b="<" c>t</a>`. -/
def angleValue : List Piece := [.tag [97] [⟨[98], some [60]⟩, ⟨[99], none⟩], .char 116, .closing [97]]

/-- `<a b="<?x">`. -/
def markedValue : List Piece := [.tag [97] [⟨[98], some [60, 63, 120]⟩]]

theorem isName_letter {c : UInt8} (letter : isValidNameChar (some c) = true) : IsName [c] :=
  ⟨letter, List.forall_mem_singleton.mpr (by rw [letter, Bool.true_or])⟩

theorem quotable_angle : Quotable [60] where
  plain := by decide
  unquoted := by decide
  macroless := by decide
  scriptless := fun mark text _ there => by simp [List.suffix_cons_iff] at there

theorem quotable_marked : Quotable [60, 63, 120] where
  plain := by decide
  unquoted := by decide
  macroless := by decide
  scriptless := fun mark text _ there => by
    simp only [List.suffix_cons_iff, List.cons.injEq, List.suffix_nil, reduceCtorEq, and_false, or_false] at there
    obtain ⟨-, -, rfl⟩ | ⟨angle, -⟩ := there
    · decide
    · cases angle

theorem angleValue_ordinary : Ordinary angleValue := by
  refine ⟨⟨isName_letter (by decide), by decide, by decide, by decide, ?_⟩, ⟨by decide, by decide, fun angle => absurd angle (by decide)⟩, isName_letter (by decide), trivial⟩
  refine List.forall_mem_cons.mpr ⟨⟨isName_letter (by decide), by decide, ?_⟩, List.forall_mem_singleton.mpr ⟨isName_letter (by decide), by decide, ?_⟩⟩
  · rintro value ⟨⟩
    exact quotable_angle
  · rintro value ⟨⟩

theorem markedValue_ordinary : Ordinary markedValue := by
  refine ⟨⟨isName_letter (by decide), by decide, by decide, by decide, List.forall_mem_singleton.mpr ⟨isName_letter (by decide), by decide, ?_⟩⟩, trivial⟩
  rintro value ⟨⟩
  exact quotable_marked

/-- The value loses its `<`. -/
theorem parse_markedValue : Ordinary markedValue ∧ textOf markedValue = ascii "<a b=\"<?x\">" ∧
    (parse bare noConfig 20 (.on (textOf markedValue))).map literals = some (ascii "<a b=\"?x\">") := by
  exact ⟨markedValue_ordinary, rfl, by decide +kernel⟩

/-- The literals of an ordinary template are the template exactly when its instructions start with no `W` and no `wD`, and no
value of its tags has `<?` or `<%` in it. -/
theorem parse_copies_iff (env : Environment) (attrNameCase : Bytes → Bytes) (keeps : KeepsLower attrNameCase) (pieces : List Piece)
    (ordinary : Ordinary pieces) (more : Nat) : ∃ cache,
    parse env attrNameCase ((textOf pieces).length + 1 + more) (.on (textOf pieces)) = some cache ∧
      (literals cache = textOf pieces ↔ ∀ piece ∈ pieces, piece.Copied) := by
  obtain ⟨out, ⟨q, run, kept⟩, copied⟩ := copies_textOf env keeps ordinary ((textOf pieces).length + 1 + more)
    ⟨[], .on (textOf pieces), [], attrNameCase⟩ [] [] (by omega) rfl (by simp)
  refine ⟨compactHTMLBlocks [] q.fCache, ?_, ?_⟩
  · rw [parse, parseWith, doParse]
    exact congrArg (Option.map _) run
  · rw [literals_compactHTMLBlocks, List.nil_append, kept]
    exact copied

theorem parse_angleValue : ∃ cache, parse bare noConfig ((textOf angleValue).length + 1 + 0) (.on (textOf angleValue)) = some cache ∧
    literals cache = textOf angleValue := by
  have keeps : KeepsLower noConfig := fun _ => (by decide : (ascii "lower").map tolower ≠ ascii "upper")
  obtain ⟨cache, run, copied⟩ := parse_copies_iff bare noConfig keeps angleValue angleValue_ordinary 0
  refine ⟨cache, run, copied.mpr ?_⟩
  refine List.forall_mem_cons.mpr ⟨?_, by simp [Piece.Copied]⟩
  refine List.forall_mem_cons.mpr ⟨?_, List.forall_mem_singleton.mpr ?_⟩
  · rintro value ⟨⟩
    exact ⟨by decide, by decide⟩
  · rintro value ⟨⟩

end TemplateParser

end Coast.Renderer
