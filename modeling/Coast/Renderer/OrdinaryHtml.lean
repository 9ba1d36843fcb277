import Coast.Lib.Endings
import Coast.Renderer.TemplateParser
import Mathlib.Data.List.Infix

/-!
# Ordinary HTML

A template without macros, as a list of pieces. What a piece may be depends on what is behind it, since the parser looks ahead.
-/

namespace Coast.Renderer

open Regex (cstr caselessEq)
open Xml (tolower toChar isValidNameChar)

/-! ### Pieces -/

def IsName (name : Bytes) : Prop :=
  name.head?.any (fun c => isValidNameChar (some c)) = true ∧ ∀ c ∈ name, (isValidNameChar (some c) || isdigit c) = true

/-- White space, or `wd` with white space behind it, in any case. -/
def emptyOrWd : Bytes → Bool
  | w :: d :: c :: _ => isspace w || (tolower w == 'w'.toUInt8 && tolower d == 'd'.toUInt8 && isspace c)
  | w :: _ => isspace w
  | [] => false

/-- As much of `wd`, in any case, as a text starts with. -/
def wdStart : Bytes → Bytes
  | [] => []
  | [w] => if tolower w = 'w'.toUInt8 then [w] else []
  | w :: d :: _ => if tolower w = 'w'.toUInt8 then if tolower d = 'd'.toUInt8 then [w, d] else [w] else []

structure Quotable (value : Bytes) : Prop where
  plain : 0 ∉ value
  unquoted : '"'.toUInt8 ∉ value
  macroless : ¬ ascii "[[" <:+: value
  scriptless : ∀ mark text, isMark (some mark) = true → '<'.toUInt8 :: mark :: text <:+ value → emptyOrWd text = false

/-- A value with `<?` or `<%` in it is not kept. -/
def Kept (value : Bytes) : Prop := ¬ ascii "<?" <:+: value ∧ ¬ ascii "<%" <:+: value

structure Attribute where
  name : Bytes
  value : Option Bytes

namespace Attribute

def text (a : Attribute) : Bytes :=
  ascii " " ++ a.name ++
    match a.value with
    | some value => ascii "=\"" ++ value ++ ascii "\""
    | none => []

/-- Its name is in lower case. -/
structure WellFormed (a : Attribute) : Prop where
  isName : IsName a.name
  lower : a.name.map tolower = a.name
  quotable : ∀ value ∈ a.value, Quotable value

def Copied (a : Attribute) : Prop := ∀ value ∈ a.value, Kept value

end Attribute

/-- A `<` that opens a declaration, or none of what the parser knows. -/
structure OpensNothing (behind : Bytes) : Prop where
  noName : behind.head?.any (fun c => isValidNameChar (some c)) = false
  noMark : isMark behind.head? = false
  notClosing : behind.head? ≠ some '/'.toUInt8
  noComment : ¬ ascii "!-" <+: behind

def macroOf (body : Bytes) : Bytes :=
  match body.dropWhile isspace with
  | c :: text => if c = '#'.toUInt8 then text.takeWhile isalnum else []
  | [] => []

/-- An instruction is opened by `<?` or `<%`; as much of `wd` as follows belongs to the opening. What the instruction
contains, and its end, are pieces like others. -/
inductive Piece where
  | char (c : UInt8)
  | closing (name : Bytes)
  | comment (body : Bytes)
  | instruction (mark : UInt8) (start : Bytes)
  | tag (name : Bytes) (attributes : List Attribute)

namespace Piece

def text : Piece → Bytes
  | char c => [c]
  | closing name => ascii "</" ++ name ++ ascii ">"
  | comment body => ascii "<!--" ++ body ++ ascii "-->"
  | instruction mark start => '<'.toUInt8 :: mark :: start
  | tag name attributes => ascii "<" ++ name ++ attributes.flatMap Attribute.text ++ ascii ">"

def Fits (behind : Bytes) : Piece → Prop
  | char c => c ≠ 0 ∧ (c = '['.toUInt8 → behind.head? ≠ some '['.toUInt8) ∧ (c = '<'.toUInt8 → OpensNothing behind)
  | closing name => IsName name
  | comment body => 0 ∉ body ∧ ¬ ascii "-->" <:+: body ∧ macroOf body ≠ ascii "wd"
  | instruction mark start =>
    isMark (some mark) = true ∧ wdStart (start ++ behind) = start ∧ emptyOrWd (start ++ behind) = false ∧ behind ≠ []
  | tag name attributes =>
    IsName name ∧ caselessEq name (ascii "script") = false ∧ caselessEq name (ascii "form") = false ∧
      (attributes.map Attribute.name).Nodup ∧ ∀ a ∈ attributes, a.WellFormed

/-- What is copied as it is: an instruction that starts with no `W` and no `wD`, and a tag whose values are all kept. -/
def Copied : Piece → Prop
  | char _ => True
  | closing _ => True
  | comment _ => True
  | instruction _ start => start.map tolower = start
  | tag _ attributes => ∀ a ∈ attributes, a.Copied

end Piece

def textOf (pieces : List Piece) : Bytes := pieces.flatMap Piece.text

def Ordinary : List Piece → Prop
  | [] => True
  | piece :: pieces => piece.Fits (textOf pieces) ∧ Ordinary pieces

/-! ### What is lost -/

def Parts (t u : Bytes) : Prop := ∀ x y, t ++ x ≠ u ++ y

theorem parts_of_head {c d : UInt8} (other : c ≠ d) (t u : Bytes) : Parts (c :: t) (d :: u) := by
  intro x y same
  exact other (List.cons.inj same).1

theorem Parts.append {t u : Bytes} (parts : Parts t u) (x y : Bytes) : Parts (t ++ x) (u ++ y) := by
  intro x' y' same
  exact parts (x ++ x') (y ++ y') (by simpa using same)

theorem Parts.behind {t u : Bytes} (parts : Parts t u) (x : Bytes) : Parts (x ++ t) (x ++ u) := by
  intro x' y' same
  rw [List.append_assoc, List.append_assoc] at same
  exact parts x' y' (List.append_cancel_left same)

/-- What is left of a value parts from it at a `<`, or ends there. -/
def Loses (value left : Bytes) : Prop :=
  ∃ x y z, value = x ++ '<'.toUInt8 :: y ∧ left = x ++ z ∧ z.head? ≠ some '<'.toUInt8

theorem Loses.cons {value left : Bytes} (loses : Loses value left) (c : UInt8) : Loses (c :: value) (c :: left) := by
  obtain ⟨x, y, z, rfl, rfl, other⟩ := loses
  exact ⟨c :: x, y, z, rfl, rfl, other⟩

theorem Loses.parts {value left : Bytes} (loses : Loses value left) : Parts value (left ++ ascii "\"") := by
  obtain ⟨x, y, z, rfl, rfl, other⟩ := loses
  rw [List.append_assoc]
  refine Parts.behind ?_ x
  cases z with
  | nil => exact parts_of_head (by decide) _ _
  | cons c z => exact parts_of_head (fun same => other (by rw [← same]; rfl)) _ _

/-! ### Values -/

theorem Quotable.suffix {value text : Bytes} (quotable : Quotable value) (suffix : text <:+ value) : Quotable text where
  plain := fun zero => quotable.plain (suffix.subset zero)
  unquoted := fun quote => quotable.unquoted (suffix.subset quote)
  macroless := fun found => quotable.macroless (found.trans suffix.isInfix)
  scriptless := fun mark tail isMark there => quotable.scriptless mark tail isMark (there.trans suffix)

theorem Quotable.tail {c : UInt8} {text : Bytes} (quotable : Quotable (c :: text)) : Quotable text :=
  quotable.suffix (List.suffix_cons c text)

theorem isMark_iff {mark : UInt8} : isMark (some mark) = true ↔ mark = '?'.toUInt8 ∨ mark = '%'.toUInt8 := by
  simp [isMark]

theorem kept_cons {c : UInt8} {text : Bytes} : Kept (c :: text) ↔ ¬ (c = '<'.toUInt8 ∧ isMark text.head? = true) ∧ Kept text := by
  have opening : ∀ d : UInt8, ['<'.toUInt8, d] <+: c :: text ↔ c = '<'.toUInt8 ∧ text.head? = some d := by
    intro d
    rw [List.cons_prefix_cons]
    cases text with
    | nil => simp
    | cons e text => simp [eq_comm]
  have either : isMark text.head? = true ↔ text.head? = some '?'.toUInt8 ∨ text.head? = some '%'.toUInt8 := by
    simp [isMark]
  have quest : ascii "<?" = ['<'.toUInt8, '?'.toUInt8] := rfl
  have percent : ascii "<%" = ['<'.toUInt8, '%'.toUInt8] := rfl
  rw [Kept, Kept, List.infix_cons_iff, List.infix_cons_iff, quest, percent, opening, opening, either]
  tauto

/-! ### Reading -/

namespace TemplateParser

open Endings

def facing (p : TemplateParser) (rest passed : Bytes) : TemplateParser := { p with fReader := .on rest, passed := passed }

def Reaches (p : TemplateParser) (rest : Bytes) (q : TemplateParser) : Prop := ∃ passed, q = p.facing rest passed

def Stopped (p q : TemplateParser) : Prop := q.fReader.failbit = true ∧ q.fCache = p.fCache

variable {env : Environment} {p q : TemplateParser} {c : UInt8} {rest passed : Bytes} {fuel : Nat}

theorem get_facing : get (p.facing (c :: rest) passed) = some (some c, p.facing rest (c :: passed)) := rfl

theorem peek_facing : peek (p.facing (c :: rest) passed) = some (some c, p.facing (c :: rest) passed) := rfl

theorem isGood_facing : isGood (p.facing rest passed) = some (false, p.facing rest passed) := rfl

theorem Stopped.good (stopped : p.Stopped q) : q.fReader.good = false := by
  simp [IStream.good, stopped.1]

theorem isGood_ended (ended : q.fReader.good = false) : isGood q = some (true, q) := by
  rw [isGood, ended]
  rfl

theorem get_ended (ended : q.fReader.good = false) : get q = some (some 0, q) := by
  rw [get, ended]
  rfl

theorem putBack_facing : putBack env c (p.facing rest (c :: passed)) = some ((), p.facing (c :: rest) passed) := by
  simp [putBack, facing, IStream.on, IStream.putback]

theorem reaches_facing : p.Reaches rest (p.facing rest passed) := ⟨passed, rfl⟩

theorem Reaches.trans {rest' : Bytes} (reaches : (p.facing rest' passed).Reaches rest q) : p.Reaches rest q := by
  obtain ⟨passed', rfl⟩ := reaches
  exact ⟨passed', rfl⟩

theorem putBack_cases (env : Environment) (p : TemplateParser) (c d : UInt8) (rest passed : Bytes) : ∃ q, putBack env d (p.facing rest (c :: passed)) = some ((), q) ∧
    (q = p.facing (d :: rest) passed ∨ c ≠ d ∧ p.Stopped q) := by
  by_cases same : c = d
  · subst same
    exact ⟨_, putBack_facing, Or.inl rfl⟩
  · cases replaces : env.replaces passed with
    | true => exact ⟨_, by simp [putBack, facing, IStream.on, IStream.putback, replaces], Or.inl rfl⟩
    | false =>
      refine ⟨_, by simp [putBack, facing, IStream.on, replaces, same]; rfl, Or.inr ⟨same, ?_⟩⟩
      simp [Stopped]

theorem putBack_stopped (env : Environment) (c : UInt8) (stopped : p.Stopped q) : ∃ q', putBack env c q = some ((), q') ∧ p.Stopped q' := by
  obtain ⟨failed, same⟩ := stopped
  rw [putBack]
  cases q.passed with
  | nil => exact ⟨_, rfl, rfl, same⟩
  | cons last passed =>
    refine ⟨_, if_pos (Or.inl failed), ?_, same⟩
    simp [IStream.putback, failed]

/-! ### Looking for a macro -/

theorem wdStart_nil {c : UInt8} {text : Bytes} (none : wdStart (c :: text) = []) : tolower c ≠ 'w'.toUInt8 := by
  intro isW
  cases text with
  | nil => simp [wdStart, isW] at none
  | cons d text =>
    rw [wdStart, if_pos isW] at none
    split at none <;> cases none

theorem wdStart_one {w c : UInt8} {text : Bytes} (one : wdStart (w :: c :: text) = [w]) :
    tolower w = 'w'.toUInt8 ∧ tolower c ≠ 'd'.toUInt8 := by
  by_cases isW : tolower w = 'w'.toUInt8
  · refine ⟨isW, fun isD => ?_⟩
    rw [wdStart, if_pos isW, if_pos isD] at one
    cases one
  · rw [wdStart, if_neg isW] at one
    cases one

theorem wdStart_two {w d : UInt8} {start text : Bytes} (two : wdStart (w :: d :: text) = w :: d :: start) :
    tolower w = 'w'.toUInt8 ∧ tolower d = 'd'.toUInt8 ∧ start = [] := by
  rw [wdStart] at two
  split at two
  · rename_i isW
    split at two
    · rename_i isD
      exact ⟨isW, isD, (List.cons.inj (List.cons.inj two).2).2.symm⟩
    · cases two
  · cases two

theorem not_space_of_tolower {c d : UInt8} (letter : islower d = true) (same : tolower c = d) : isspace c = false := by
  have letters : 97 ≤ (tolower c).toNat := by
    simp only [← same, islower, Bool.and_eq_true, decide_eq_true_eq, UInt8.le_iff_toNat_le] at letter
    exact letter.1
  rw [Bool.eq_false_iff]
  intro space
  have low : c.toNat ≤ 32 := by
    simp only [isspace, Bool.or_eq_true, Bool.and_eq_true, beq_iff_eq, decide_eq_true_eq, UInt8.le_iff_toNat_le] at space
    rcases space with rfl | ⟨-, low⟩
    · decide
    · exact low.trans (by decide)
  have kept : tolower c = c := by
    refine if_neg fun upper => ?_
    simp only [isupper, Bool.and_eq_true, decide_eq_true_eq, UInt8.le_iff_toNat_le] at upper
    exact absurd (upper.1.trans low) (by decide)
  rw [kept] at letters
  omega

theorem isEmptyOrWd_facing (env : Environment) (p : TemplateParser) (passed : Bytes) {start tail : Bytes} (first : wdStart (start ++ tail) = start) (more : tail ≠ [])
    (no : emptyOrWd (start ++ tail) = false) : ∃ q, isEmptyOrWd env (p.facing (start ++ tail) passed) = some (false, q) ∧
      (q = p.facing (start.map tolower ++ tail) passed ∨ start.map tolower ≠ start ∧ p.Stopped q) := by
  obtain ⟨c, tail, rfl⟩ := List.exists_cons_of_ne_nil more
  rcases start with _ | ⟨w, _ | ⟨d, _ | ⟨e, start⟩⟩⟩
  · have other : tolower c ≠ 'w'.toUInt8 := wdStart_nil first
    have visible : isspace c = false := by
      rcases tail with _ | ⟨d, _ | ⟨e, tail⟩⟩ <;> simp_all [emptyOrWd]
    refine ⟨_, ?_, Or.inl rfl⟩
    rw [List.nil_append, isEmptyOrWd, bind_run peek_facing, if_neg (by simpa using visible), if_neg (by simpa using other)]
    rfl
  · obtain ⟨isW, other⟩ := wdStart_one first
    have visible : isspace w = false := not_space_of_tolower (by decide) isW
    obtain ⟨q, back, result⟩ := putBack_cases env p w 'w'.toUInt8 (c :: tail) passed
    refine ⟨q, ?_, result.imp ?_ ?_⟩
    · rw [List.cons_append, List.nil_append, isEmptyOrWd, bind_run peek_facing, if_neg (by simpa using visible), if_pos (by simp [isW]),
        bind_run get_facing, bind_run peek_facing, if_neg (by simpa using other), bind_run back]
      rfl
    · rintro rfl
      simp [isW]
    · rintro ⟨differ, stopped⟩
      exact ⟨by simpa [isW] using Ne.symm differ, stopped⟩
  · obtain ⟨isW, isD, -⟩ := wdStart_two first
    have visible : isspace w = false := not_space_of_tolower (by decide) isW
    have behind : isspace c = false := by simpa [emptyOrWd, isW, isD, visible] using no
    obtain ⟨q, back, result⟩ := putBack_cases env p d 'd'.toUInt8 (c :: tail) (w :: passed)
    have reading : isEmptyOrWd env (p.facing ([w, d] ++ c :: tail) passed) =
        (do putBack env 'w'.toUInt8; pure false : ParserM Bool) q := by
      rw [List.cons_append, List.cons_append, List.nil_append, isEmptyOrWd, bind_run peek_facing, if_neg (by simpa using visible),
        if_pos (by simp [isW]), bind_run get_facing, bind_run peek_facing, if_pos (by simp [isD]), bind_run get_facing,
        bind_run peek_facing, if_neg (by simpa using behind), bind_run back]
    rw [reading]
    rcases result with rfl | ⟨differ, stopped⟩
    · obtain ⟨q, back, result⟩ := putBack_cases env p w 'w'.toUInt8 ('d'.toUInt8 :: c :: tail) passed
      refine ⟨q, by rw [bind_run back]; rfl, result.imp ?_ ?_⟩
      · rintro rfl
        simp [isW, isD]
      · rintro ⟨differ, stopped⟩
        exact ⟨by simpa [isW, isD] using fun same => absurd same.symm differ, stopped⟩
    · obtain ⟨q', back, stopped⟩ := putBack_stopped env 'w'.toUInt8 stopped
      refine ⟨q', by rw [bind_run back]; rfl, Or.inr ⟨?_, stopped⟩⟩
      simpa [isW, isD] using fun _ same => absurd same.symm differ
  · obtain ⟨-, -, empty⟩ := wdStart_two first
    cases empty

/-! ### Names and white space -/

theorem skipWhitespace_visible (visible : isspace c = false) :
    skipWhitespace (fuel + 1) (p.facing (c :: rest) passed) = some ((), p.facing (c :: rest) passed) := by
  rw [skipWhitespace, bind_run isGood_facing, if_neg Bool.false_ne_true, bind_run peek_facing, if_neg (by simpa using visible)]
  rfl

theorem skipWhitespace_blank : skipWhitespace (fuel + 1) (p.facing (' '.toUInt8 :: rest) passed) =
    skipWhitespace fuel (p.facing rest (' '.toUInt8 :: passed)) := by
  rw [skipWhitespace, bind_run isGood_facing, if_neg Bool.false_ne_true, bind_run peek_facing, if_pos (by decide), bind_run get_facing]

def endsName (c : UInt8) : Bool := !isValidNameChar (some c) && !isdigit c

theorem parseName_facing {name theName : Bytes} (letters : ∀ c ∈ name, (isValidNameChar (some c) || isdigit c) = true)
    (started : theName = [] → name.head?.any (fun c => isValidNameChar (some c)) = true) (ends : endsName c = true)
    (enough : name.length < fuel) : parseName fuel theName (p.facing (name ++ c :: rest) passed) =
      some (theName ++ name, p.facing (c :: rest) (name.reverse ++ passed)) := by
  obtain ⟨noLetter, noDigit⟩ : isValidNameChar (some c) = false ∧ isdigit c = false := by simpa [endsName] using ends
  induction name generalizing theName passed fuel with
  | nil =>
    obtain ⟨fuel, rfl⟩ := Nat.exists_eq_succ_of_ne_zero (Nat.ne_of_gt enough)
    rw [List.nil_append, parseName, bind_run isGood_facing, if_neg Bool.false_ne_true, bind_run peek_facing,
      if_neg (by simp [noLetter, noDigit])]
    simp
    rfl
  | cons d name ih =>
    obtain ⟨fuel, rfl⟩ := Nat.exists_eq_succ_of_ne_zero (Nat.ne_of_gt (Nat.zero_lt_of_lt enough))
    have taken : (isValidNameChar (some d) || ((some d).any isdigit && !theName.isEmpty)) = true := by
      cases theName with
      | nil => simpa using started rfl
      | cons e theName => simpa using letters d List.mem_cons_self
    rw [List.cons_append, parseName, bind_run isGood_facing, if_neg Bool.false_ne_true, bind_run peek_facing, if_pos taken,
      bind_run get_facing, ih (fun e mem => letters e (List.mem_cons_of_mem _ mem)) (by simp) (Nat.lt_of_succ_lt_succ enough)]
    simp [toChar]

theorem parseName_isName {name : Bytes} (isName : IsName name) (ends : endsName c = true) (enough : name.length < fuel) :
    parseName fuel [] (p.facing (name ++ c :: rest) passed) = some (name, p.facing (c :: rest) (name.reverse ++ passed)) :=
  parseName_facing isName.2 (fun _ => isName.1) ends enough

/-! ### Values -/

theorem readQuoted_char {result : Value} {value : Bytes} {d : UInt8} (inside : c ≠ '"'.toUInt8)
    (noMacro : ¬ (c = '['.toUInt8 ∧ d = '['.toUInt8)) (noOpening : ¬ (c = '<'.toUInt8 ∧ isMark (some d) = true)) :
    readQuoted env (some '"'.toUInt8) (fuel + 1) result value (p.facing (c :: d :: rest) passed) =
      readQuoted env (some '"'.toUInt8) fuel result (value ++ [c]) (p.facing (d :: rest) (c :: passed)) := by
  rw [readQuoted, bind_run isGood_facing, if_neg Bool.false_ne_true, bind_run get_facing, if_neg (by simpa using inside)]
  by_cases bracket : c = '['.toUInt8
  · rw [if_pos (by rw [bracket]), bind_run peek_facing, if_neg (by simpa using fun same => noMacro ⟨bracket, same⟩)]
    rfl
  · rw [if_neg (by simpa using bracket)]
    by_cases angle : c = '<'.toUInt8
    · rw [if_pos (by rw [angle]), bind_run peek_facing, if_neg fun mark => noOpening ⟨angle, mark⟩]
      rfl
    · rw [if_neg (by simpa using angle)]
      rfl

theorem readQuoted_end {result : Value} {value : Bytes} :
    readQuoted env (some '"'.toUInt8) (fuel + 1) result value (p.facing ('"'.toUInt8 :: rest) passed) =
      some ((result, value), p.facing rest ('"'.toUInt8 :: passed)) := by
  rw [readQuoted, bind_run isGood_facing, if_neg Bool.false_ne_true, bind_run get_facing, if_pos rfl]
  rfl

def inert (c : UInt8) : Bool := c != '"'.toUInt8 && c != '['.toUInt8 && c != '<'.toUInt8

theorem readQuoted_inert {result : Value} (value text passed : Bytes) (plain : ∀ c ∈ text, inert c = true) (more : rest ≠ []) :
    ∃ passed', readQuoted env (some '"'.toUInt8) (fuel + text.length) result value (p.facing (text ++ rest) passed) =
      readQuoted env (some '"'.toUInt8) fuel result (value ++ text) (p.facing rest passed') := by
  obtain ⟨e, rest, rfl⟩ := List.exists_cons_of_ne_nil more
  induction text generalizing value passed with
  | nil => exact ⟨passed, by simp⟩
  | cons c text ih =>
    obtain ⟨quote, bracket, angle⟩ : c ≠ '"'.toUInt8 ∧ c ≠ '['.toUInt8 ∧ c ≠ '<'.toUInt8 := by
      simpa [inert, and_assoc] using plain c List.mem_cons_self
    obtain ⟨passed', run⟩ := ih (value ++ [c]) (c :: passed) fun d mem => plain d (List.mem_cons_of_mem _ mem)
    obtain ⟨d, rest', behind⟩ : ∃ d rest', text ++ e :: rest = d :: rest' := List.exists_cons_of_ne_nil (by simp)
    refine ⟨passed', ?_⟩
    rw [List.length_cons, ← Nat.add_assoc, List.cons_append, behind, readQuoted_char quote (fun both => bracket both.1) (fun both => angle both.1),
      ← behind, run]
    simp

theorem wdStart_cases (text : Bytes) : wdStart text = [] ∨
    (∃ w behind, text = w :: behind ∧ wdStart text = [w] ∧ tolower w = 'w'.toUInt8) ∨
      ∃ w d behind, text = w :: d :: behind ∧ wdStart text = [w, d] ∧ tolower w = 'w'.toUInt8 ∧ tolower d = 'd'.toUInt8 := by
  rcases text with _ | ⟨w, _ | ⟨d, text⟩⟩
  · exact Or.inl rfl
  · by_cases isW : tolower w = 'w'.toUInt8
    · exact Or.inr (Or.inl ⟨w, [], rfl, if_pos isW, isW⟩)
    · exact Or.inl (if_neg isW)
  · by_cases isW : tolower w = 'w'.toUInt8
    · by_cases isD : tolower d = 'd'.toUInt8
      · exact Or.inr (Or.inr ⟨w, d, text, rfl, by rw [wdStart, if_pos isW, if_pos isD], isW, isD⟩)
      · exact Or.inr (Or.inl ⟨w, d :: text, rfl, by rw [wdStart, if_pos isW, if_neg isD], isW⟩)
    · exact Or.inl (if_neg isW)

theorem wdStart_lower (text : Bytes) : ∀ c ∈ (wdStart text).map tolower, c = 'w'.toUInt8 ∨ c = 'd'.toUInt8 := by
  obtain none | ⟨w, behind, -, one, isW⟩ | ⟨w, d, behind, -, two, isW, isD⟩ := wdStart_cases text
  · simp [none]
  · simp [one, isW]
  · simp [two, isW, isD]

theorem wdStart_prefix (text : Bytes) : wdStart text <+: text := by
  obtain none | ⟨w, behind, rfl, one, -⟩ | ⟨w, d, behind, rfl, two, -⟩ := wdStart_cases text
  · simp [none]
  · simp [one]
  · simp [two]

theorem wdStart_quote (text rest : Bytes) : wdStart (text ++ '"'.toUInt8 :: rest) = wdStart text := by
  rcases text with _ | ⟨w, _ | ⟨d, text⟩⟩
  · cases rest <;> rfl
  · rfl
  · rfl

theorem emptyOrWd_quote (text rest : Bytes) : emptyOrWd (text ++ '"'.toUInt8 :: rest) = emptyOrWd text := by
  rcases text with _ | ⟨w, _ | ⟨d, _ | ⟨c, text⟩⟩⟩
  · rcases rest with _ | ⟨d, _ | ⟨c, rest⟩⟩ <;> rfl
  · cases rest with
    | nil => rfl
    | cons d rest => simp [emptyOrWd, (by decide : tolower '"'.toUInt8 ≠ 'd'.toUInt8)]
  · simp [emptyOrWd, (by decide : isspace '"'.toUInt8 = false)]
  · rfl

theorem readQuoted_opening (env : Environment) (p : TemplateParser) (fuel : Nat) (value passed : Bytes) {behind start : Bytes} {mark : UInt8} (isMark : isMark (some mark) = true)
    (first : wdStart (start ++ behind) = start) (no : emptyOrWd (start ++ behind) = false) (more : behind ≠ []) :
    (∃ passed', readQuoted env (some '"'.toUInt8) (fuel + (start.length + 2)) .null value
        (p.facing ('<'.toUInt8 :: mark :: (start ++ behind)) passed) =
          readQuoted env (some '"'.toUInt8) fuel .null (value ++ mark :: start.map tolower) (p.facing behind passed')) ∨
      ∃ q, readQuoted env (some '"'.toUInt8) (fuel + (start.length + 2)) .null value
        (p.facing ('<'.toUInt8 :: mark :: (start ++ behind)) passed) = some ((.null, value), q) ∧ p.Stopped q := by
  obtain ⟨q, looked, result⟩ := isEmptyOrWd_facing env p (mark :: '<'.toUInt8 :: passed) first more no
  have reading : readQuoted env (some '"'.toUInt8) (fuel + (start.length + 2)) .null value
      (p.facing ('<'.toUInt8 :: mark :: (start ++ behind)) passed) =
        (do putBack env mark; readQuoted env (some '"'.toUInt8) (fuel + (start.length + 1)) .null value : ParserM (Value × Bytes)) q := by
    rw [← Nat.add_assoc, readQuoted, bind_run isGood_facing, if_neg Bool.false_ne_true, bind_run get_facing, if_neg (by decide),
      if_neg (by decide), if_pos rfl, bind_run peek_facing, if_pos isMark, bind_run get_facing, bind_run looked]
    rfl
  rw [reading]
  rcases result with rfl | ⟨-, stopped⟩
  · refine Or.inl ?_
    have plain : ∀ c ∈ mark :: start.map tolower, inert c = true := by
      refine List.forall_mem_cons.mpr ⟨?_, fun c mem => ?_⟩
      · obtain rfl | rfl := isMark_iff.mp isMark <;> decide
      · obtain rfl | rfl := wdStart_lower (start ++ behind) c (by rwa [first]) <;> decide
    have length : start.length + 1 = (mark :: start.map tolower).length := by simp
    rw [bind_run putBack_facing, length, ← List.cons_append]
    exact readQuoted_inert value _ _ plain more
  · obtain ⟨q', back, stopped⟩ := putBack_stopped env mark stopped
    refine Or.inr ⟨q', ?_, stopped⟩
    rw [bind_run back, ← Nat.add_assoc, readQuoted, bind_run (isGood_ended stopped.good), if_pos rfl]
    rfl

theorem readQuoted_value (env : Environment) (p : TemplateParser) (rest value passed : Bytes) {text : Bytes} (quotable : Quotable text) (enough : text.length < fuel) :
    ∃ left q, readQuoted env (some '"'.toUInt8) fuel .null value (p.facing (text ++ '"'.toUInt8 :: rest) passed) =
        some ((.null, value ++ left), q) ∧ 0 ∉ left ∧ (p.Reaches rest q ∨ p.Stopped q) ∧
      (Kept text → left = text ∧ p.Reaches rest q) ∧ (¬ Kept text → Loses text left) := by
  induction whole : text.length using Nat.strongRecOn generalizing text value passed fuel with
  | ind size ih =>
    obtain ⟨fuel, rfl⟩ := Nat.exists_eq_succ_of_ne_zero (Nat.ne_of_gt (Nat.zero_lt_of_lt enough))
    cases text with
    | nil =>
      refine ⟨[], _, by rw [List.append_nil]; exact readQuoted_end, by simp, Or.inl reaches_facing, fun _ => ⟨rfl, reaches_facing⟩, ?_⟩
      intro lost
      exact absurd (by simp [Kept, ascii]) lost
    | cons c text =>
      have nonzero : c ≠ 0 := fun zero => quotable.plain (by simp [zero])
      by_cases opening : c = '<'.toUInt8 ∧ isMark text.head? = true
      · obtain ⟨rfl, marked⟩ := opening
        obtain ⟨mark, tail, rfl⟩ : ∃ mark tail, text = mark :: tail := by
          cases text with
          | nil => cases marked
          | cons mark tail => exact ⟨mark, tail, rfl⟩
        obtain ⟨behind, split⟩ := wdStart_prefix tail
        have lost : ¬ Kept ('<'.toUInt8 :: mark :: tail) := fun kept => (kept_cons.mp kept).1 ⟨rfl, marked⟩
        have whole' : wdStart tail ++ (behind ++ '"'.toUInt8 :: rest) = tail ++ '"'.toUInt8 :: rest := by
          rw [← List.append_assoc, split]
        have first : wdStart (wdStart tail ++ (behind ++ '"'.toUInt8 :: rest)) = wdStart tail := by rw [whole', wdStart_quote]
        have no : emptyOrWd (wdStart tail ++ (behind ++ '"'.toUInt8 :: rest)) = false := by
          rw [whole', emptyOrWd_quote]
          exact quotable.scriptless mark tail marked List.suffix_rfl
        have lengths : (wdStart tail).length + behind.length = tail.length := by rw [← List.length_append, split]
        obtain ⟨more, rfl⟩ : ∃ more, fuel = more + ((wdStart tail).length + 1) :=
          Nat.exists_eq_add_of_le' (by simp at enough; omega)
        rw [List.cons_append, List.cons_append, ← whole']
        obtain ⟨passed', run⟩ | ⟨q, run, stopped⟩ := readQuoted_opening env p more value passed
          marked first no (by simp)
        · have behindFits : Quotable behind := quotable.tail.tail.suffix ⟨wdStart tail, split⟩
          obtain ⟨left, q, run', plain, stands, -, -⟩ := ih behind.length (by rw [← whole]; simp; omega)
            (value ++ mark :: (wdStart tail).map tolower) passed' behindFits (by simp at enough; omega : behind.length < more) rfl
          have markPlain : mark ≠ 0 := fun zero => quotable.plain (by simp [zero])
          have lettersPlain : 0 ∉ (wdStart tail).map tolower := fun zero => by
            obtain zero | zero := wdStart_lower tail 0 zero <;> cases zero
          refine ⟨mark :: (wdStart tail).map tolower ++ left, q, ?_, ?_, stands, fun kept => absurd kept lost, fun _ => ?_⟩
          · refine run.trans (run'.trans ?_)
            rw [List.append_assoc]
          · simp only [List.mem_append, List.mem_cons, not_or]
            exact ⟨⟨Ne.symm markPlain, lettersPlain⟩, plain⟩
          · refine ⟨[], _, _, rfl, rfl, ?_⟩
            have other : mark ≠ '<'.toUInt8 := by obtain rfl | rfl := isMark_iff.mp marked <;> decide
            simpa using other
        · exact ⟨[], q, by rw [List.append_nil]; exact run, by simp, Or.inr stopped, fun kept => absurd kept lost,
            fun _ => ⟨[], _, [], rfl, rfl, by simp⟩⟩
      · obtain ⟨d, behind, split, noBracket, noMark⟩ : ∃ d behind, text ++ '"'.toUInt8 :: rest = d :: behind ∧
            ¬ (c = '['.toUInt8 ∧ d = '['.toUInt8) ∧ ¬ (c = '<'.toUInt8 ∧ isMark (some d) = true) := by
          cases text with
          | nil => exact ⟨_, _, rfl, fun both => absurd both.2 (by decide), fun both => absurd both.2 (by decide)⟩
          | cons d text =>
            refine ⟨_, _, rfl, ?_, opening⟩
            rintro ⟨rfl, rfl⟩
            exact quotable.macroless ⟨[], text, rfl⟩
        have inside : c ≠ '"'.toUInt8 := fun quote => quotable.unquoted (by simp [quote])
        obtain ⟨left, q, run, plain, stands, kept, lost⟩ := ih text.length (by rw [← whole]; simp)
          (value ++ [c]) (c :: passed) quotable.tail (Nat.lt_of_succ_lt_succ enough) rfl
        refine ⟨c :: left, q, ?_, by simp [Ne.symm nonzero, plain], stands, fun whole => ?_, fun part => ?_⟩
        · rw [List.cons_append, split, readQuoted_char inside noBracket noMark, ← split, run]
          simp
        · obtain ⟨same, reaches⟩ := kept (kept_cons.mp whole).2
          exact ⟨by rw [same], reaches⟩
        · exact (lost fun kept => part (kept_cons.mpr ⟨opening, kept⟩)).cons c

/-! ### Comments -/

variable {comment : Bytes}

theorem gsr_facing : gsr comment (p.facing (c :: rest) passed) = some ((some c, comment ++ [c]), p.facing rest (c :: passed)) := rfl

theorem gsrWhile_facing {belongs : UInt8 → Bool} (p : TemplateParser) (together comment rest passed : Bytes) {run : Bytes} (inside : ∀ d ∈ run, belongs d = true) (outside : belongs c = false)
    (enough : run.length < fuel) : ∃ passed', gsrWhile belongs fuel together comment (p.facing (run ++ c :: rest) passed) =
      some ((some c, together ++ run, comment ++ run ++ [c]), p.facing rest passed') := by
  induction run generalizing together comment passed fuel with
  | nil =>
    obtain ⟨fuel, rfl⟩ := Nat.exists_eq_succ_of_ne_zero (Nat.ne_of_gt enough)
    refine ⟨c :: passed, ?_⟩
    rw [List.nil_append, gsrWhile, bind_run gsr_facing, if_neg (by simpa [toChar] using outside)]
    simp
    rfl
  | cons d run ih =>
    obtain ⟨fuel, rfl⟩ := Nat.exists_eq_succ_of_ne_zero (Nat.ne_of_gt (Nat.zero_lt_of_lt enough))
    obtain ⟨passed', result⟩ := ih (together ++ [d]) (comment ++ [d]) (d :: passed)
      (fun e mem => inside e (List.mem_cons_of_mem _ mem)) (Nat.lt_of_succ_lt_succ enough)
    refine ⟨passed', ?_⟩
    rw [List.cons_append, gsrWhile, bind_run gsr_facing, if_pos (by simpa [toChar] using inside d List.mem_cons_self)]
    refine result.trans ?_
    simp

theorem gsrDashes_facing (p : TemplateParser) (n : Nat) (comment rest passed : Bytes) (other : c ≠ '-'.toUInt8) (enough : n < fuel) : ∃ passed',
    (do let read ← gsr comment; gsrDashes fuel read : ParserM (Option UInt8 × Bytes))
        (p.facing (List.replicate n '-'.toUInt8 ++ c :: rest) passed) =
      some ((some c, comment ++ List.replicate n '-'.toUInt8 ++ [c]), p.facing rest passed') := by
  induction n generalizing comment passed fuel with
  | zero =>
    obtain ⟨fuel, rfl⟩ := Nat.exists_eq_succ_of_ne_zero (Nat.ne_of_gt enough)
    refine ⟨c :: passed, ?_⟩
    rw [List.replicate_zero, List.nil_append, bind_run gsr_facing, gsrDashes, if_neg (by simpa using other)]
    simp
    rfl
  | succ n ih =>
    obtain ⟨fuel, rfl⟩ := Nat.exists_eq_succ_of_ne_zero (Nat.ne_of_gt (Nat.zero_lt_of_lt enough))
    obtain ⟨passed', result⟩ := ih (comment ++ ['-'.toUInt8]) ('-'.toUInt8 :: passed) (Nat.lt_of_succ_lt_succ enough)
    refine ⟨passed', ?_⟩
    rw [List.replicate_succ, List.cons_append, bind_run gsr_facing, gsrDashes, if_pos rfl]
    refine result.trans ?_
    simp

theorem exists_dashes (text : Bytes) : ∃ n tail, text = List.replicate n '-'.toUInt8 ++ tail ∧ tail.head? ≠ some '-'.toUInt8 := by
  induction text with
  | nil => exact ⟨0, [], rfl, by simp⟩
  | cons c text ih =>
    by_cases here : c = '-'.toUInt8
    · obtain ⟨n, tail, rfl, other⟩ := ih
      exact ⟨n + 1, tail, by rw [here, List.replicate_succ, List.cons_append], other⟩
    · exact ⟨0, c :: text, rfl, by simpa using here⟩

theorem dash_alive : ¬ (some '-'.toUInt8 = none ∨ some '-'.toUInt8 = some 0) := by decide

theorem gsrComment_other (nonzero : c ≠ 0) (other : c ≠ '-'.toUInt8) {d : UInt8} :
    gsrComment (fuel + 1) (some c, comment) (p.facing (d :: rest) passed) =
      gsrComment fuel (some d, comment ++ [d]) (p.facing rest (d :: passed)) := by
  have alive : ¬ (some c = none ∨ some c = some 0) := by simpa using nonzero
  rw [gsrComment, if_neg alive, if_neg (by simpa using other), bind_run gsr_facing]

theorem gsrComment_single (other : c ≠ '-'.toUInt8) {d : UInt8} :
    gsrComment (fuel + 1) (some '-'.toUInt8, comment) (p.facing (c :: d :: rest) passed) =
      gsrComment fuel (some d, comment ++ [c, d]) (p.facing rest (d :: c :: passed)) := by
  rw [gsrComment, if_neg dash_alive, if_pos rfl, bind_run gsr_facing, if_neg (by simpa using other), bind_run gsr_facing]
  simp

theorem gsrComment_run (p : TemplateParser) (comment rest passed : Bytes) {n : Nat} (other : c ≠ '-'.toUInt8) (enough : n ≤ fuel) : ∃ passed',
    gsrComment (fuel + 1) (some '-'.toUInt8, comment) (p.facing (List.replicate (n + 1) '-'.toUInt8 ++ c :: rest) passed) =
      if c = '>'.toUInt8 then some (comment ++ List.replicate (n + 1) '-'.toUInt8 ++ [c], p.facing rest passed')
      else (do let read ← gsr (comment ++ List.replicate (n + 1) '-'.toUInt8 ++ [c]); gsrComment fuel read : ParserM Bytes)
        (p.facing rest passed') := by
  obtain ⟨passed', dashes⟩ := gsrDashes_facing p n (comment ++ ['-'.toUInt8]) rest
    ('-'.toUInt8 :: passed) other (Nat.lt_succ_of_le enough)
  refine ⟨passed', ?_⟩
  have texts : comment ++ ['-'.toUInt8] ++ List.replicate n '-'.toUInt8 ++ [c] = comment ++ List.replicate (n + 1) '-'.toUInt8 ++ [c] := by
    simp [List.replicate_succ]
  rw [List.replicate_succ, List.cons_append, gsrComment, if_neg dash_alive, if_pos rfl, bind_run gsr_facing, if_pos rfl, ← bind_assoc,
    bind_run dashes, texts]
  by_cases close : c = '>'.toUInt8
  · rw [if_pos close, if_pos (by rw [close])]
    rfl
  · rw [if_neg close, if_neg (by simpa using close)]
    rfl

theorem gsrComment_body (p : TemplateParser) (comment rest passed : Bytes) {body behind : Bytes} (plain : 0 ∉ body) (unclosed : ¬ ascii "-->" <:+: body) (enough : body.length < fuel)
    (split : body ++ ascii "-->" = c :: behind) : ∃ passed',
    gsrComment fuel (some c, comment) (p.facing (behind ++ rest) passed) = some (comment ++ behind, p.facing rest passed') := by
  induction whole : body.length using Nat.strongRecOn generalizing body behind c comment passed fuel with
  | ind size ih =>
    obtain ⟨fuel, rfl⟩ := Nat.exists_eq_succ_of_ne_zero (Nat.ne_of_gt (Nat.zero_lt_of_lt enough))
    obtain ⟨n, tail, rfl, other⟩ := exists_dashes body
    cases tail with
    | nil =>
      -- The end closes the run.
      have text : List.replicate n '-'.toUInt8 ++ [] ++ ascii "-->" = '-'.toUInt8 :: (List.replicate (n + 1) '-'.toUInt8 ++ ['>'.toUInt8]) := by
        rw [List.append_nil, ← List.cons_append, ← List.replicate_succ, ← List.replicate_append_replicate (n := n) (m := 2), List.append_assoc]
        rfl
      obtain ⟨rfl, rfl⟩ := List.cons.inj (text.symm.trans split)
      obtain ⟨passed', run⟩ := gsrComment_run p comment rest passed (by decide : '>'.toUInt8 ≠ '-'.toUInt8)
        (by simpa using Nat.le_of_lt_succ enough : n ≤ fuel)
      exact ⟨passed', by rw [List.append_assoc, List.singleton_append, run, if_pos rfl, ← List.append_assoc]⟩
    | cons d tail =>
      have other : d ≠ '-'.toUInt8 := by simpa using other
      have plainTail : 0 ∉ tail := fun zero => plain (by simp [zero])
      have nonzero : d ≠ 0 := fun zero => plain (by simp [zero])
      have unclosedTail : ¬ ascii "-->" <:+: tail := fun found =>
        unclosed (found.trans ((List.suffix_cons d tail).trans (List.suffix_append _ _)).isInfix)
      have shorter : n + tail.length < fuel := by
        simp only [List.length_append, List.length_replicate, List.length_cons] at enough
        omega
      obtain ⟨e, onward, next⟩ : ∃ e onward, tail ++ ascii "-->" = e :: onward := List.exists_cons_of_ne_nil (by simp [ascii])
      have smaller : tail.length < size := by
        rw [← whole]
        simp
        omega
      rcases n with _ | _ | n
      · have text : List.replicate 0 '-'.toUInt8 ++ d :: tail ++ ascii "-->" = d :: e :: onward := congrArg (d :: ·) next
        obtain ⟨rfl, rfl⟩ := List.cons.inj (text.symm.trans split)
        obtain ⟨passed', run⟩ := ih tail.length smaller (comment ++ [e]) (e :: passed) plainTail unclosedTail
          (by omega : tail.length < fuel) next rfl
        refine ⟨passed', ?_⟩
        rw [List.cons_append, gsrComment_other nonzero other, run]
        simp
      · have text : List.replicate 1 '-'.toUInt8 ++ d :: tail ++ ascii "-->" = '-'.toUInt8 :: d :: e :: onward :=
          congrArg (fun text => '-'.toUInt8 :: d :: text) next
        obtain ⟨rfl, rfl⟩ := List.cons.inj (text.symm.trans split)
        obtain ⟨passed', run⟩ := ih tail.length smaller (comment ++ [d, e]) (e :: d :: passed) plainTail unclosedTail
          (by omega : tail.length < fuel) next rfl
        refine ⟨passed', ?_⟩
        rw [List.cons_append, List.cons_append, gsrComment_single other, run]
        simp
      · have close : d ≠ '>'.toUInt8 := by
          rintro rfl
          refine unclosed ⟨List.replicate n '-'.toUInt8, tail, ?_⟩
          rw [← List.replicate_append_replicate (n := n) (m := 2), List.append_assoc, List.append_assoc]
          rfl
        have text : List.replicate (n + 2) '-'.toUInt8 ++ d :: tail ++ ascii "-->" =
            '-'.toUInt8 :: (List.replicate (n + 1) '-'.toUInt8 ++ d :: e :: onward) := by
          rw [List.append_assoc, List.cons_append, next, List.replicate_succ, List.cons_append]
        obtain ⟨rfl, rfl⟩ := List.cons.inj (text.symm.trans split)
        obtain ⟨passed', run⟩ := gsrComment_run p comment (e :: onward ++ rest) passed other (by omega : n ≤ fuel)
        obtain ⟨passed'', run'⟩ := ih tail.length smaller (comment ++ List.replicate (n + 1) '-'.toUInt8 ++ [d] ++ [e]) (e :: passed')
          plainTail unclosedTail (by omega : tail.length < fuel) next rfl
        refine ⟨passed'', ?_⟩
        rw [List.append_assoc, List.cons_append, run, if_neg close, List.cons_append, bind_run gsr_facing, run']
        simp

theorem run_then_end {belongs : UInt8 → Bool} (dash : belongs '-'.toUInt8 = false) (text : Bytes) : ∃ c behind,
    text.dropWhile belongs ++ ascii "-->" = c :: behind ∧ belongs c = false ∧
      text ++ ascii "-->" = text.takeWhile belongs ++ c :: behind := by
  obtain ⟨c, behind, next⟩ : ∃ c behind, text.dropWhile belongs ++ ascii "-->" = c :: behind := List.exists_cons_of_ne_nil (by simp [ascii])
  refine ⟨c, behind, next, ?_, by rw [← next, ← List.append_assoc, List.takeWhile_append_dropWhile]⟩
  cases left : text.dropWhile belongs with
  | nil =>
    rw [left] at next
    exact (List.cons.inj next).1 ▸ dash
  | cons d tail =>
    rw [left] at next
    obtain ⟨rfl, -⟩ := List.cons.inj next
    simpa [left] using List.head_dropWhile_not belongs (l := text) (by simp [left])

theorem oldStyleBody_facing (env : Environment) (p : TemplateParser) (comment rest passed : Bytes) {body : Bytes} (plain : 0 ∉ body)
    (unclosed : ¬ ascii "-->" <:+: body) (noMacro : macroOf body ≠ ascii "wd") (enough : body.length < fuel) : ∃ passed',
    oldStyleBody env fuel comment (p.facing (body ++ ascii "-->" ++ rest) passed) =
      some (literal (comment ++ (body ++ ascii "-->")), p.facing rest passed') := by
  obtain ⟨c, behind, next, visible, split⟩ := run_then_end (by decide : isspace '-'.toUInt8 = false) body
  have spaces : ∀ d ∈ body.takeWhile isspace, isspace d = true := fun d mem => List.mem_takeWhile_imp mem
  have few : (body.takeWhile isspace).length ≤ body.length := (List.takeWhile_prefix _).length_le
  obtain ⟨passed', run⟩ := gsrWhile_facing p [] comment (behind ++ rest) passed spaces visible (by omega : _ < fuel)
  have inner : body.dropWhile isspace <:+ body := List.dropWhile_suffix _
  rw [split, List.append_assoc, List.cons_append, oldStyleBody, bind_run run]
  by_cases hash : c = '#'.toUInt8
  · subst hash
    obtain ⟨text, opened⟩ : ∃ text, body.dropWhile isspace = '#'.toUInt8 :: text := by
      cases left : body.dropWhile isspace with
      | nil =>
        rw [left] at next
        exact absurd (List.cons.inj next).1 (by decide)
      | cons d tail =>
        rw [left] at next
        exact ⟨tail, by rw [(List.cons.inj next).1]⟩
    have named : macroOf body = text.takeWhile isalnum := by
      rw [macroOf, opened]
      exact if_pos rfl
    have textInner : text <:+ body := (List.suffix_cons _ _).trans (opened ▸ inner)
    obtain ⟨d, onward, next', outside, split'⟩ := run_then_end (by decide : isalnum '-'.toUInt8 = false) text
    have behindText : behind = text.takeWhile isalnum ++ d :: onward := by
      rw [opened] at next
      exact (List.cons.inj next).2.symm.trans split'
    have there : behind ++ rest = text.takeWhile isalnum ++ d :: (onward ++ rest) := by
      rw [behindText, List.append_assoc, List.cons_append]
    have letters : ∀ e ∈ text.takeWhile isalnum, isalnum e = true := fun e mem => List.mem_takeWhile_imp mem
    have few' : (text.takeWhile isalnum).length ≤ body.length := (List.takeWhile_prefix _).length_le.trans textInner.length_le
    have rest' : text.dropWhile isalnum <:+ body := (List.dropWhile_suffix _).trans textInner
    obtain ⟨passed₁, run₁⟩ := gsrWhile_facing p [] (comment ++ body.takeWhile isspace ++ ['#'.toUInt8]) (onward ++ rest) passed' letters outside
      (by omega : _ < fuel)
    obtain ⟨passed₂, run₂⟩ := gsrComment_body p (comment ++ body.takeWhile isspace ++ ['#'.toUInt8] ++ text.takeWhile isalnum ++ [d]) rest
      passed₁ (fun zero => plain (rest'.subset zero)) (fun found => unclosed (found.trans rest'.isInfix))
      (rest'.length_le.trans_lt enough) next'
    refine ⟨passed₂, ?_⟩
    rw [gsrMacro, if_pos rfl, there, bind_run run₁, List.nil_append, if_neg (named ▸ noMacro), bind_run run₂, behindText]
    simp
    rfl
  · obtain ⟨passed₁, run₁⟩ := gsrComment_body p (comment ++ body.takeWhile isspace ++ [c]) rest passed'
      (fun zero => plain (inner.subset zero)) (fun found => unclosed (found.trans inner.isInfix))
      (inner.length_le.trans_lt enough) next
    refine ⟨passed₁, ?_⟩
    have none : gsrMacro fuel (some c, [] ++ body.takeWhile isspace, comment ++ body.takeWhile isspace ++ [c]) =
        pure (some c, [], comment ++ body.takeWhile isspace ++ [c]) := if_neg (by simpa using hash)
    have different : ([] : Bytes) ≠ ascii "wd" := by decide
    rw [none, pure_bind, if_neg different, bind_run run₁]
    simp
    rfl

theorem oldStyleComment_facing (env : Environment) (p : TemplateParser) (rest passed : Bytes) {body : Bytes} (plain : 0 ∉ body)
    (unclosed : ¬ ascii "-->" <:+: body) (noMacro : macroOf body ≠ ascii "wd") (enough : body.length < fuel) : ∃ passed',
    oldStyleComment env fuel (p.facing (ascii "!--" ++ body ++ ascii "-->" ++ rest) passed) =
      some (literal (ascii "<!--" ++ body ++ ascii "-->"), p.facing rest passed') := by
  obtain ⟨passed', run⟩ := oldStyleBody_facing env p (ascii "<!--") rest ('-'.toUInt8 :: '-'.toUInt8 :: '!'.toUInt8 :: passed) plain unclosed
    noMacro enough
  refine ⟨passed', ?_⟩
  have opening : ascii "!--" ++ body ++ ascii "-->" ++ rest = '!'.toUInt8 :: '-'.toUInt8 :: '-'.toUInt8 :: (body ++ ascii "-->" ++ rest) := by
    have bang : ascii "!--" = ['!'.toUInt8, '-'.toUInt8, '-'.toUInt8] := rfl
    simp [bang]
  rw [opening, oldStyleComment, bind_run gsr_facing, if_pos rfl, bind_run gsr_facing, if_pos rfl, bind_run gsr_facing, if_pos rfl,
    List.append_assoc (ascii "<!--"), ← run]
  rfl

end TemplateParser

end Coast.Renderer
