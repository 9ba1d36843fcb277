import Coast.Regex.Layout
import Mathlib.Data.List.GetD

/-!
# What a bracket expression denotes

A bracket expression as it is meant, next to the set that `characterClass` makes of its text. The code
leaves a character out when the second one behind it is a `-`.
-/

namespace Coast.Regex

open Scan

/-! ### Bracket expressions -/

/-- A character, a range, or one of the escapes `\s`, `\w` and `\d`. -/
inductive ClassItem where
  | single (char : UInt8)
  | range (first last : UInt8)
  | escape (letter : UInt8)
  deriving DecidableEq

namespace ClassItem

def text : ClassItem → Bytes
  | single char => [char]
  | range first last => [first, '-'.toUInt8, last]
  | escape letter => ['\\'.toUInt8, letter]

def denotes : ClassItem → REBitSet
  | single char => fun c => c == char
  | range first last => fun c => first ≤ c && c ≤ last
  | escape letter => escapedSet letter

def entered (behind : Bytes) : ClassItem → REBitSet
  | single char => fun c => c == char && decide (behind.getD 1 0 ≠ '-'.toUInt8)
  | range first last => (range first last).denotes
  | escape letter => (escape letter).denotes

/-- A `]` stands first only, a `-` that is not in the middle of a range first or last. -/
def Allowed (opening closing : Bool) : ClassItem → Prop
  | single char => char ≠ '^'.toUInt8 ∧ char ≠ '\\'.toUInt8 ∧ (char = ']'.toUInt8 → opening = true) ∧
      (char = '-'.toUInt8 → opening = true ∨ closing = true)
  | range first last => first < last ∧ (first ≠ '^'.toUInt8 ∧ first ≠ '\\'.toUInt8 ∧
      (first = ']'.toUInt8 → opening = true) ∧ (first = '-'.toUInt8 → opening = true)) ∧
      last ≠ ']'.toUInt8 ∧ last ≠ '^'.toUInt8 ∧ last ≠ '\\'.toUInt8
  | escape letter => letter ∈ ascii "swd"

instance (opening closing : Bool) : (item : ClassItem) → Decidable (item.Allowed opening closing)
  | single _ => inferInstanceAs (Decidable (_ ∧ _))
  | range _ _ => inferInstanceAs (Decidable (_ ∧ _))
  | escape _ => inferInstanceAs (Decidable (_ ∈ _))

def passes : ClassItem → Nat
  | range _ _ => 3
  | _ => 1

theorem passes_le (item : ClassItem) : item.passes ≤ item.text.length := by
  cases item <;> simp [passes, text]

end ClassItem

def itemsText (items : List ClassItem) : Bytes := items.flatMap ClassItem.text

theorem itemsText_cons (item : ClassItem) (items : List ClassItem) : itemsText (item :: items) = item.text ++ itemsText items :=
  List.flatMap_cons ..

def enteredAll (behind : Bytes) : List ClassItem → REBitSet
  | [] => fun _ => false
  | item :: items => fun c => item.entered (itemsText items ++ behind) c || enteredAll behind items c

def AllAllowed (opening : Bool) : List ClassItem → Prop
  | [] => True
  | item :: items => item.Allowed opening items.isEmpty ∧ AllAllowed false items

instance AllAllowed.decidable : (opening : Bool) → (items : List ClassItem) → Decidable (AllAllowed opening items)
  | _, [] => inferInstanceAs (Decidable True)
  | opening, item :: items =>
    have := AllAllowed.decidable false items
    inferInstanceAs (Decidable (item.Allowed opening items.isEmpty ∧ AllAllowed false items))

structure ClassExpr where
  negated : Bool
  items : List ClassItem

namespace ClassExpr

def sign (e : ClassExpr) : Bytes := if e.negated then ['^'.toUInt8] else []

def text (e : ClassExpr) : Bytes := '['.toUInt8 :: (e.sign ++ itemsText e.items ++ [']'.toUInt8])

def denotes (e : ClassExpr) : REBitSet := fun c => e.items.any (fun item => item.denotes c) ^^ e.negated

/-- The text stands for the expression; a `:` at the start would make it a POSIX class. -/
structure Accepted (e : ClassExpr) : Prop where
  nonempty : e.items ≠ []
  allowed : AllAllowed true e.items
  plain : e.negated = false → (itemsText e.items).head? ≠ some ':'.toUInt8

/-- Each character that is listed is in a range or an escape as well, or stands somewhere where the second
character behind it is not a `-`, be it behind the bracket. -/
def Listed (e : ClassExpr) (after : Bytes) : Prop :=
  ∀ char, .single char ∈ e.items →
    (∃ item ∈ e.items, (∀ c, item ≠ .single c) ∧ item.denotes char = true) ∨
      ∃ front back, e.items = front ++ .single char :: back ∧
        (itemsText back ++ ']'.toUInt8 :: after).getD 1 0 ≠ '-'.toUInt8

end ClassExpr

/-! ### One pass through the loop -/

section Pattern

variable {pattern : Bytes} {idxFirst : Nat} {s : ClassState} {c : Scanner}

theorem patternAt_append (before rest : Bytes) (k : Nat) :
    patternAt (before ++ rest) (before.length + k) = rest.getD k 0 := by
  rw [patternAt, List.getD_append_right _ _ _ _ (Nat.le_add_right _ _), Nat.add_sub_cancel_left]

theorem simpleChar_idle (idle : s.definingRange = false) (char : UInt8) :
    simpleChar pattern s char c = some (some { s with
      range := fun b => s.range b || (b == char && decide (patternAt pattern (c.patternIdx + 1) ≠ '-'.toUInt8))
      last := char }, c) := by
  rw [simpleChar, idle, if_neg (by decide), current_bind]
  split
  · rename_i other
    simp only [decide_eq_true other, Bool.and_true]
    rfl
  · rename_i dash
    simp only [decide_eq_false dash, Bool.and_false, Bool.or_false]
    rfl

theorem simpleChar_range (defining : s.definingRange = true) {char : UInt8} (less : s.rangeStart < char) :
    simpleChar pattern s char c = some (some { s with
      range := fun b => s.range b || (s.rangeStart ≤ b && b ≤ char)
      last := 255
      definingRange := false }, c) := by
  rw [simpleChar, defining, if_pos rfl, if_neg (UInt8.not_le.mpr less)]
  rfl

theorem classStep_literal (idxFirst : Nat) (inside : c.patternIdx < pattern.length) {ch : UInt8} (here : patternAt pattern c.patternIdx = ch)
    (caret : ch ≠ '^'.toUInt8) (slash : ch ≠ '\\'.toUInt8)
    (close : ch = ']'.toUInt8 → c.patternIdx = idxFirst ∨
      (c.patternIdx = idxFirst + 1 ∧ patternAt pattern idxFirst = '^'.toUInt8))
    (dash : ch = '-'.toUInt8 → s.definingRange = true ∨ s.last = 255) :
    classStep pattern idxFirst s c =
      (simpleChar pattern s ch >>= fun s => pure (some s)) { c with patternIdx := c.patternIdx + 1 } := by
  rw [classStep, atEnd_bind, decide_eq_false (by omega), if_neg (by decide), current_bind, peek_bind, here]
  by_cases closes : ch = ']'.toUInt8
  · rw [if_pos closes, if_pos (close closes), advance_bind]
  · rw [if_neg closes, if_neg caret, if_neg slash]
    by_cases isDash : ch = '-'.toUInt8
    · rw [if_pos isDash, if_pos (dash isDash), advance_bind]
    · rw [if_neg isDash, advance_bind]

theorem classLoop_step {s' : ClassState} {d : Scanner} (step : classStep pattern idxFirst s c = some (some (some s'), d))
    (fuel : Nat) : classLoop pattern idxFirst (fuel + 1) s c = classLoop pattern idxFirst fuel s' d := by
  rw [classLoop, bind_of_ok step]

theorem classLoop_end {d : Scanner} (step : classStep pattern idxFirst s c = some (some none, d)) (fuel : Nat) :
    classLoop pattern idxFirst (fuel + 1) s c = some (some s, d) := by
  rw [classLoop, bind_of_ok step]
  rfl

/-! ### Items -/

structure Between (pattern : Bytes) (idxFirst : Nat) (opening : Bool) (s : ClassState) (c : Scanner) : Prop where
  idle : s.definingRange = false
  opens : opening = true → s.last = 255 ∧ (c.patternIdx = idxFirst ∨
    (c.patternIdx = idxFirst + 1 ∧ patternAt pattern idxFirst = '^'.toUInt8))

def Reads (pattern : Bytes) (idxFirst : Nat) (item : ClassItem) (behind : Bytes) (s : ClassState) (c : Scanner) : Prop :=
  ∃ s', s'.«include» = s.«include» ∧ s'.definingRange = false ∧ s'.range = (fun b => s.range b || item.entered behind b) ∧
    ∀ fuel, classLoop pattern idxFirst (fuel + item.passes) s c =
      classLoop pattern idxFirst fuel s' { c with patternIdx := c.patternIdx + item.text.length }

variable {before behind : Bytes} {opening closing : Bool}

theorem reads_literal {char : UInt8} (allowed : (ClassItem.single char).Allowed opening closing)
    (between : Between (before ++ char :: behind) idxFirst opening s c) (place : c.patternIdx = before.length)
    (dash : char = '-'.toUInt8 → s.last = 255) : Reads (before ++ char :: behind) idxFirst (.single char) behind s c := by
  obtain ⟨caret, slash, close, -⟩ := allowed
  have here : patternAt (before ++ char :: behind) c.patternIdx = char := place ▸ patternAt_append before _ 0
  have second : patternAt (before ++ char :: behind) (c.patternIdx + 1 + 1) = behind.getD 1 0 :=
    place ▸ patternAt_append before _ 2
  have step := classStep_literal idxFirst (s := s) (c := c)
    (by rw [place, List.length_append, List.length_cons]; omega) here caret slash
    (fun closes => (between.opens (close closes)).2) fun isDash => .inr (dash isDash)
  rw [bind_of_ok (simpleChar_idle between.idle char)] at step
  refine ⟨_, ?_, ?_, ?_, fun fuel => classLoop_step step fuel⟩
  · rfl
  · exact between.idle
  · simp only [ClassItem.entered, second]

theorem reads_dash {after : Bytes} (idle : s.definingRange = false) (place : c.patternIdx = before.length) (last : s.last ≠ 255) :
    Reads (before ++ '-'.toUInt8 :: ']'.toUInt8 :: after) idxFirst (.single '-'.toUInt8) (']'.toUInt8 :: after) s c := by
  have here : patternAt (before ++ '-'.toUInt8 :: ']'.toUInt8 :: after) c.patternIdx = '-'.toUInt8 :=
    place ▸ patternAt_append before _ 0
  have close : patternAt (before ++ '-'.toUInt8 :: ']'.toUInt8 :: after) (c.patternIdx + 1) = ']'.toUInt8 :=
    place ▸ patternAt_append before _ 1
  have second : patternAt (before ++ '-'.toUInt8 :: ']'.toUInt8 :: after) (c.patternIdx + 1 + 1) =
      (']'.toUInt8 :: after).getD 1 0 := place ▸ patternAt_append before _ 2
  have length : c.patternIdx + 1 < (before ++ '-'.toUInt8 :: ']'.toUInt8 :: after).length := by
    rw [place, List.length_append, List.length_cons, List.length_cons]
    omega
  have step : classStep (before ++ '-'.toUInt8 :: ']'.toUInt8 :: after) idxFirst s c =
      (simpleChar (before ++ '-'.toUInt8 :: ']'.toUInt8 :: after) { s with definingRange := false, rangeStart := s.last }
        '-'.toUInt8 >>= fun s => pure (some s)) { c with patternIdx := c.patternIdx + 1 } := by
    rw [classStep, atEnd_bind, decide_eq_false (by omega), if_neg (by decide), current_bind, peek_bind, here, if_neg (by decide),
      if_neg (by decide), if_neg (by decide), if_pos rfl, if_neg (by simp [idle, last]), if_pos length, advance_bind, peek_bind,
      close, if_pos rfl]
  rw [bind_of_ok (simpleChar_idle rfl _)] at step
  refine ⟨_, ?_, ?_, ?_, fun fuel => classLoop_step step fuel⟩
  · rfl
  · rfl
  · simp only [ClassItem.entered, second]

theorem reads_range {first last : UInt8} (allowed : (ClassItem.range first last).Allowed opening closing)
    (between : Between (before ++ first :: '-'.toUInt8 :: last :: behind) idxFirst opening s c)
    (place : c.patternIdx = before.length) :
    Reads (before ++ first :: '-'.toUInt8 :: last :: behind) idxFirst (.range first last) behind s c := by
  obtain ⟨less, ⟨caret, slash, close, dash⟩, close', caret', slash'⟩ := allowed
  obtain ⟨pattern, isPattern⟩ : ∃ pattern, before ++ first :: '-'.toUInt8 :: last :: behind = pattern := ⟨_, rfl⟩
  have at0 : patternAt pattern c.patternIdx = first := isPattern ▸ place ▸ patternAt_append before _ 0
  have at1 : patternAt pattern (c.patternIdx + 1) = '-'.toUInt8 := isPattern ▸ place ▸ patternAt_append before _ 1
  have at2 : patternAt pattern (c.patternIdx + 1 + 1) = last := isPattern ▸ place ▸ patternAt_append before _ 2
  have length : c.patternIdx + 2 < pattern.length := by
    rw [← isPattern, place, List.length_append, List.length_cons, List.length_cons, List.length_cons]
    omega
  rw [isPattern] at between ⊢
  have valid : first ≠ 255 := by
    rintro rfl
    exact absurd (UInt8.lt_iff_toNat_lt.mp less) (Nat.not_lt.mpr (Nat.le_of_lt_succ last.toNat_lt))
  -- The start of the range, read as a character of its own.
  have start := classStep_literal idxFirst (s := s) (by omega) at0 caret slash
    (fun closes => (between.opens (close closes)).2) fun isDash => .inr (between.opens (dash isDash)).1
  rw [bind_of_ok (simpleChar_idle between.idle first)] at start
  obtain ⟨s₁, start, sign, idle, isLast, range⟩ : ∃ s₁ : ClassState, classStep pattern idxFirst s c =
        some (some (some s₁), { c with patternIdx := c.patternIdx + 1 }) ∧ s₁.«include» = s.«include» ∧
      s₁.definingRange = false ∧ s₁.last = first ∧
      s₁.range = fun b => s.range b || (b == first && decide (last ≠ '-'.toUInt8)) :=
    ⟨_, start, rfl, between.idle, rfl, by rw [← at2]⟩
  have middle : classStep pattern idxFirst s₁ { c with patternIdx := c.patternIdx + 1 } =
      some (some (some { s₁ with definingRange := true, rangeStart := first }), { c with patternIdx := c.patternIdx + 1 + 1 }) := by
    rw [classStep, atEnd_bind, decide_eq_false (by dsimp only; omega), if_neg (by decide), current_bind, peek_bind, at1,
      if_neg (by decide), if_neg (by decide), if_neg (by decide), if_pos rfl, if_neg (by simp [idle, isLast, valid]),
      if_pos (by dsimp only; omega), advance_bind, peek_bind, at2, if_neg close', isLast]
    rfl
  have finish := classStep_literal idxFirst (s := { s₁ with definingRange := true, rangeStart := first })
    (c := { c with patternIdx := c.patternIdx + 1 + 1 }) (by dsimp only; omega) at2 caret' slash'
    (fun closes => absurd closes close') fun _ => .inl rfl
  rw [bind_of_ok (simpleChar_range rfl less)] at finish
  refine ⟨_, ?_, ?_, ?_, fun fuel => (classLoop_step start (fuel + 2)).trans
    ((classLoop_step middle (fuel + 1)).trans (classLoop_step finish fuel))⟩
  · exact sign
  · rfl
  funext b
  -- The start may have been left out, but it is in the range.
  have within : (b == first && decide (last ≠ '-'.toUInt8)) = true → (first ≤ b && b ≤ last) = true := by
    rw [Bool.and_eq_true, beq_iff_eq]
    rintro ⟨rfl, -⟩
    simp [UInt8.le_of_lt less]
  simp only [ClassItem.entered, ClassItem.denotes, range]
  cases one : (b == first && decide (last ≠ '-'.toUInt8)) with
  | false => rw [Bool.or_false]
  | true => rw [within one, Bool.or_true, Bool.or_true]

theorem reads_escape {letter : UInt8} (allowed : (ClassItem.escape letter).Allowed opening closing)
    (idle : s.definingRange = false) (place : c.patternIdx = before.length) :
    Reads (before ++ '\\'.toUInt8 :: letter :: behind) idxFirst (.escape letter) behind s c := by
  obtain ⟨pattern, isPattern⟩ : ∃ pattern, before ++ '\\'.toUInt8 :: letter :: behind = pattern := ⟨_, rfl⟩
  have at0 : patternAt pattern c.patternIdx = '\\'.toUInt8 := isPattern ▸ place ▸ patternAt_append before _ 0
  have at1 : patternAt pattern (c.patternIdx + 1) = letter := isPattern ▸ place ▸ patternAt_append before _ 1
  have length : c.patternIdx + 1 < pattern.length := by
    rw [← isPattern, place, List.length_append, List.length_cons, List.length_cons]
    omega
  rw [isPattern]
  have isLetter : letter = 's'.toUInt8 ∨ letter = 'w'.toUInt8 ∨ letter = 'd'.toUInt8 := by
    have member : letter ∈ ['s'.toUInt8, 'w'.toUInt8, 'd'.toUInt8] := allowed
    simpa using member
  have escaped : escape pattern c = some (some .cls, { c with patternIdx := c.patternIdx + 2 }) := by
    rw [escape, current_bind, if_neg (by omega), advance_bind, at1]
    rcases isLetter with rfl | rfl | rfl <;> rfl
  have step : classStep pattern idxFirst s c = (classEscape pattern s >>= fun s => pure (some s)) { c with patternIdx := c.patternIdx + 2 } := by
    rw [classStep, atEnd_bind, decide_eq_false (by omega), if_neg (by decide), current_bind, peek_bind, at0, if_neg (by decide),
      if_neg (by decide), if_pos rfl, bind_of_ok escaped]
  have entered : classEscape pattern s { c with patternIdx := c.patternIdx + 2 } =
      some (some { s with range := fun b => s.range b || escapedSet letter b, last := 255 }, { c with patternIdx := c.patternIdx + 2 }) := by
    rw [classEscape, idle, if_neg (by decide), current_bind]
    dsimp only
    rw [show c.patternIdx + 2 - 1 = c.patternIdx + 1 by omega, at1]
    rcases isLetter with rfl | rfl | rfl <;> rfl
  rw [bind_of_ok entered] at step
  refine ⟨_, ?_, ?_, ?_, fun fuel => classLoop_step step fuel⟩
  · rfl
  · exact idle
  · rfl

theorem reads_item {item : ClassItem} {items : List ClassItem} {after : Bytes} (allowed : item.Allowed opening items.isEmpty)
    (between : Between (before ++ (item.text ++ (itemsText items ++ ']'.toUInt8 :: after))) idxFirst opening s c)
    (place : c.patternIdx = before.length) :
    Reads (before ++ (item.text ++ (itemsText items ++ ']'.toUInt8 :: after))) idxFirst item (itemsText items ++ ']'.toUInt8 :: after) s c := by
  cases item with
  | single char =>
    by_cases last : s.last = 255
    · exact reads_literal allowed between place fun _ => last
    · by_cases dash : char = '-'.toUInt8
      · have final : items = [] := by
          rcases allowed.2.2.2 dash with opens | final
          · exact absurd (between.opens opens).1 last
          · exact List.isEmpty_iff.mp final
        subst dash final
        exact reads_dash between.idle place last
      · exact reads_literal allowed between place fun isDash => absurd isDash dash
  | range first last => exact reads_range allowed between place
  | escape letter => exact reads_escape allowed between.idle place

theorem classLoop_items {items : List ClassItem} {after : Bytes} (allowed : AllAllowed opening items)
    (between : Between (before ++ (itemsText items ++ ']'.toUInt8 :: after)) idxFirst opening s c)
    (place : c.patternIdx = before.length) :
    ∃ s', s'.«include» = s.«include» ∧ s'.range = (fun b => s.range b || enteredAll (']'.toUInt8 :: after) items b) ∧
      ∀ fuel, classLoop (before ++ (itemsText items ++ ']'.toUInt8 :: after)) idxFirst
          (fuel + (items.map ClassItem.passes).sum) s c =
        classLoop (before ++ (itemsText items ++ ']'.toUInt8 :: after)) idxFirst fuel s'
          { c with patternIdx := c.patternIdx + (itemsText items).length } := by
  induction items generalizing opening before s c with
  | nil => exact ⟨s, rfl, by simp only [enteredAll, Bool.or_false], fun fuel => rfl⟩
  | cons item items ih =>
    obtain ⟨here, later⟩ := allowed
    have text : before ++ (itemsText (item :: items) ++ ']'.toUInt8 :: after) =
        before ++ (item.text ++ (itemsText items ++ ']'.toUInt8 :: after)) := by
      rw [itemsText_cons, List.append_assoc]
    have shifted : before ++ (item.text ++ (itemsText items ++ ']'.toUInt8 :: after)) =
        before ++ item.text ++ (itemsText items ++ ']'.toUInt8 :: after) := (List.append_assoc ..).symm
    rw [text] at between ⊢
    obtain ⟨s₁, sign, idle, range, read⟩ := reads_item here between place
    rw [shifted] at read ⊢
    have between' : Between (before ++ item.text ++ (itemsText items ++ ']'.toUInt8 :: after)) idxFirst false s₁
        { c with patternIdx := c.patternIdx + item.text.length } := ⟨idle, fun opens => Bool.noConfusion opens⟩
    obtain ⟨s₂, sign', range', read'⟩ := ih later between' (by dsimp only; rw [place, List.length_append])
    refine ⟨s₂, sign'.trans sign, ?_, fun fuel => ?_⟩
    · rw [range', range]
      funext b
      rw [enteredAll, Bool.or_assoc]
    · rw [List.map_cons, List.sum_cons, Nat.add_comm item.passes, ← Nat.add_assoc, read, read', itemsText_cons,
        List.length_append]
      simp only [Nat.add_assoc]

theorem itemsText_head {items : List ClassItem} (allowed : AllAllowed opening items) (some : items ≠ []) (rest : Bytes) :
    ∃ char text, itemsText items ++ rest = char :: text ∧ char ≠ '^'.toUInt8 := by
  obtain _ | ⟨item, items⟩ := items
  · exact absurd rfl some
  rw [itemsText_cons]
  obtain ⟨here, -⟩ := allowed
  cases item with
  | single char => exact ⟨char, _, rfl, here.1⟩
  | range first last => exact ⟨first, _, rfl, here.2.1.1⟩
  | escape letter => exact ⟨'\\'.toUInt8, _, rfl, by decide⟩

theorem itemsText_pos {items : List ClassItem} (some : items ≠ []) : 0 < (itemsText items).length := by
  obtain _ | ⟨item, items⟩ := items
  · exact absurd rfl some
  rw [itemsText_cons, List.length_append]
  cases item <;> exact Nat.add_pos_left (Nat.succ_pos _) _

theorem passes_sum_le (items : List ClassItem) : (items.map ClassItem.passes).sum ≤ (itemsText items).length := by
  induction items with
  | nil => exact Nat.le_refl _
  | cons item items ih =>
    rw [List.map_cons, List.sum_cons, itemsText_cons, List.length_append]
    exact Nat.add_le_add item.passes_le ih

theorem classStep_close (inside : c.patternIdx < pattern.length) (here : patternAt pattern c.patternIdx = ']'.toUInt8)
    (later : c.patternIdx ≠ idxFirst) (caret : c.patternIdx = idxFirst + 1 → patternAt pattern idxFirst ≠ '^'.toUInt8) :
    classStep pattern idxFirst s c = some (some none, c) := by
  rw [classStep, atEnd_bind, decide_eq_false (by omega), if_neg (by decide), current_bind, peek_bind, here, if_pos rfl,
    if_neg (by rintro (first | ⟨second, sign⟩); exacts [later first, caret second sign])]
  rfl

theorem classStep_caret (inside : c.patternIdx < pattern.length) (here : patternAt pattern c.patternIdx = '^'.toUInt8)
    (first : c.patternIdx = idxFirst) :
    classStep pattern idxFirst s c =
      some (some (some { s with «include» := !s.«include» }), { c with patternIdx := c.patternIdx + 1 }) := by
  rw [classStep, atEnd_bind, decide_eq_false (by omega), if_neg (by decide), current_bind, peek_bind, here,
    if_neg (by decide), if_pos rfl, if_pos first, advance_bind]
  rfl

theorem classLoop_rest {e : ClassExpr} {after : Bytes} (accepted : e.Accepted)
    (between : Between (before ++ (itemsText e.items ++ ']'.toUInt8 :: after)) idxFirst true s c)
    (place : c.patternIdx = before.length) {fuel : Nat} (enough : (itemsText e.items).length < fuel) :
    ∃ s', s'.«include» = s.«include» ∧ s'.range = (fun b => s.range b || enteredAll (']'.toUInt8 :: after) e.items b) ∧
      classLoop (before ++ (itemsText e.items ++ ']'.toUInt8 :: after)) idxFirst fuel s c =
        some (some s', { c with patternIdx := c.patternIdx + (itemsText e.items).length }) := by
  obtain ⟨s', sign, range, read⟩ := classLoop_items accepted.allowed between place
  obtain ⟨pattern, isPattern⟩ : ∃ pattern, before ++ (itemsText e.items ++ ']'.toUInt8 :: after) = pattern := ⟨_, rfl⟩
  have positive := itemsText_pos accepted.nonempty
  have length : c.patternIdx + (itemsText e.items).length < pattern.length := by
    rw [← isPattern, place, List.length_append, List.length_append, List.length_cons]
    omega
  have close : patternAt pattern (c.patternIdx + (itemsText e.items).length) = ']'.toUInt8 := by
    rw [← isPattern, place, patternAt_append, List.getD_append_right _ _ _ _ (Nat.le_refl _), Nat.sub_self]
    rfl
  have head : patternAt pattern c.patternIdx ≠ '^'.toUInt8 := by
    obtain ⟨char, text, begins, other⟩ := itemsText_head accepted.allowed accepted.nonempty (']'.toUInt8 :: after)
    rw [← isPattern, place, begins]
    exact (patternAt_append before (char :: text) 0) ▸ other
  rw [isPattern] at between read ⊢
  have passes := passes_sum_le e.items
  obtain ⟨left, isFuel⟩ : ∃ left, fuel = left + 1 + (e.items.map ClassItem.passes).sum :=
    ⟨fuel - 1 - (e.items.map ClassItem.passes).sum, by omega⟩
  refine ⟨s', sign, range, ?_⟩
  rw [isFuel, read]
  have opens := (between.opens rfl).2
  refine classLoop_end (classStep_close length close ?_ ?_) left
  · dsimp only
    omega
  · dsimp only
    rintro second
    rcases opens with first | first
    · exact first ▸ head
    · omega

theorem classSet_expr {e : ClassExpr} {after : Bytes} (accepted : e.Accepted) (place : c.patternIdx = before.length)
    {fuel : Nat} (enough : (itemsText e.items).length + 1 < fuel) :
    classSet (before ++ (e.sign ++ (itemsText e.items ++ ']'.toUInt8 :: after))) fuel c =
      some (some fun b => enteredAll (']'.toUInt8 :: after) e.items b ^^ e.negated,
        { c with patternIdx := c.patternIdx + e.sign.length + (itemsText e.items).length + 1 }) := by
  have inside : ∀ extra : Bytes, (before ++ extra ++ (itemsText e.items ++ ']'.toUInt8 :: after)).length =
      before.length + extra.length + ((itemsText e.items).length + (after.length + 1)) := fun extra => by
    simp only [List.length_append, List.length_cons]
  cases sign : e.negated with
  | false =>
    have noSign : e.sign = [] := by rw [ClassExpr.sign, sign]; rfl
    have between : Between (before ++ (itemsText e.items ++ ']'.toUInt8 :: after)) c.patternIdx true .start c :=
      ⟨rfl, fun _ => ⟨rfl, .inl rfl⟩⟩
    obtain ⟨s', sign', range, loop⟩ := classLoop_rest accepted between place (Nat.lt_of_succ_lt enough)
    rw [noSign, List.nil_append, classSet, current_bind, bind_of_ok loop, classEnd, atEnd_bind,
      decide_eq_false (by dsimp only; rw [← List.append_nil before, inside, place, List.length_nil]; omega), if_neg (by decide),
      advance_bind, sign', range]
    simp only [ClassState.start, if_true, Bool.false_or, Bool.xor_false]
    rfl
  | true =>
    have isSign : e.sign = ['^'.toUInt8] := by rw [ClassExpr.sign, sign]; rfl
    have shifted : before ++ ('^'.toUInt8 :: (itemsText e.items ++ ']'.toUInt8 :: after)) =
        before ++ ['^'.toUInt8] ++ (itemsText e.items ++ ']'.toUInt8 :: after) := by
      rw [List.append_assoc, List.singleton_append]
    have caret : patternAt (before ++ ('^'.toUInt8 :: (itemsText e.items ++ ']'.toUInt8 :: after))) c.patternIdx = '^'.toUInt8 :=
      place ▸ patternAt_append before _ 0
    obtain ⟨left, rfl⟩ : ∃ left, fuel = left + 1 := ⟨fuel - 1, by omega⟩
    rw [isSign, List.singleton_append]
    rw [shifted] at caret ⊢
    have begins := classStep_caret (s := .start) (by rw [inside, place]; simp; omega) caret rfl
    have between : Between (before ++ ['^'.toUInt8] ++ (itemsText e.items ++ ']'.toUInt8 :: after)) c.patternIdx true
        { ClassState.start with «include» := false } { c with patternIdx := c.patternIdx + 1 } :=
      ⟨rfl, fun _ => ⟨rfl, .inr ⟨rfl, caret⟩⟩⟩
    obtain ⟨s', sign', range, loop⟩ := classLoop_rest accepted between (by rw [List.length_append, place]; rfl)
      (Nat.lt_of_succ_lt_succ enough)
    rw [classSet, current_bind, bind_of_ok ((classLoop_step begins left).trans loop), classEnd, atEnd_bind,
      decide_eq_false (by dsimp only; rw [inside, place, List.length_singleton]; omega), if_neg (by decide), advance_bind, sign', range]
    simp only [ClassState.start, Bool.false_or, Bool.xor_true, Bool.false_eq_true, if_false]
    rfl

end Pattern

/-! ### The set and the expression -/

theorem ClassItem.denotes_of_entered {item : ClassItem} {behind : Bytes} {b : UInt8} (entered : item.entered behind b = true) :
    item.denotes b = true := by
  cases item with
  | single char => exact (Bool.and_eq_true_iff.mp entered).1
  | range first last => exact entered
  | escape letter => exact entered

theorem enteredAll_iff {behind : Bytes} {items : List ClassItem} {b : UInt8} :
    enteredAll behind items b = true ↔
      ∃ front item back, items = front ++ item :: back ∧ item.entered (itemsText back ++ behind) b = true := by
  induction items with
  | nil => simp [enteredAll]
  | cons item items ih =>
    rw [enteredAll, Bool.or_eq_true, ih]
    constructor
    · rintro (here | ⟨front, item', back, rfl, there⟩)
      · exact ⟨[], item, items, rfl, here⟩
      · exact ⟨item :: front, item', back, rfl, there⟩
    · rintro ⟨front, item', back, split, entered⟩
      obtain _ | ⟨first, front⟩ := front
      · obtain ⟨rfl, rfl⟩ := List.cons.inj split
        exact .inl entered
      · obtain ⟨rfl, rfl⟩ := List.cons.inj split
        exact .inr ⟨front, item', back, rfl, entered⟩

/-- What the code enters is what is meant just when each character that is listed gets in. -/
theorem ClassExpr.listed_iff (e : ClassExpr) (after : Bytes) :
    (∀ b, (enteredAll (']'.toUInt8 :: after) e.items b ^^ e.negated) = e.denotes b) ↔ e.Listed after := by
  constructor
  · intro same char listed
    have denoted : e.items.any (fun item => item.denotes char) = true :=
      List.any_eq_true.mpr ⟨_, listed, beq_self_eq_true char⟩
    rw [← Bool.xor_left_inj.mp (same char)] at denoted
    obtain ⟨front, item, back, split, entered⟩ := enteredAll_iff.mp denoted
    cases item with
    | single char' =>
      obtain ⟨isChar, other⟩ := Bool.and_eq_true_iff.mp entered
      obtain rfl := beq_iff_eq.mp isChar
      exact .inr ⟨front, back, split, of_decide_eq_true other⟩
    | range first last => exact .inl ⟨.range first last, by simp [split], by rintro _ ⟨⟩, entered⟩
    | escape letter => exact .inl ⟨.escape letter, by simp [split], by rintro _ ⟨⟩, entered⟩
  · intro listed b
    refine congrArg (· ^^ e.negated) (Bool.eq_iff_iff.mpr ⟨fun entered => ?_, fun denoted => ?_⟩)
    · obtain ⟨front, item, back, split, entered⟩ := enteredAll_iff.mp entered
      exact List.any_eq_true.mpr ⟨item, by simp [split], ClassItem.denotes_of_entered entered⟩
    · obtain ⟨item, member, denoted⟩ := List.any_eq_true.mp denoted
      -- A range or an escape is entered wherever it stands.
      have whole : ∀ item ∈ e.items, (∀ c, item ≠ .single c) → item.denotes b = true →
          enteredAll (']'.toUInt8 :: after) e.items b = true := by
        intro item member other denoted
        obtain ⟨front, back, split⟩ := List.append_of_mem member
        refine enteredAll_iff.mpr ⟨front, item, back, split, ?_⟩
        cases item with
        | single c => exact absurd rfl (other c)
        | range first last => exact denoted
        | escape letter => exact denoted
      cases item with
      | single char =>
        obtain rfl := beq_iff_eq.mp denoted
        rcases listed b member with ⟨item', member', other, denoted'⟩ | ⟨front, back, split, second⟩
        · exact whole item' member' other denoted'
        · exact enteredAll_iff.mpr ⟨front, _, back, split,
            Bool.and_eq_true_iff.mpr ⟨beq_self_eq_true b, decide_eq_true second⟩⟩
      | range first last => exact whole _ member (by rintro _ ⟨⟩) denoted
      | escape letter => exact whole _ member (by rintro _ ⟨⟩) denoted

theorem ClassExpr.Accepted.begins {e : ClassExpr} (accepted : e.Accepted) (after : Bytes) :
    ∃ char text, e.sign ++ (itemsText e.items ++ ']'.toUInt8 :: after) = char :: text ∧ char ≠ ':'.toUInt8 := by
  cases sign : e.negated with
  | true => exact ⟨'^'.toUInt8, _, by rw [ClassExpr.sign, sign]; rfl, by decide⟩
  | false =>
    obtain ⟨char, text, begins⟩ := List.exists_cons_of_length_pos (itemsText_pos accepted.nonempty)
    refine ⟨char, text ++ ']'.toUInt8 :: after, by rw [ClassExpr.sign, sign, begins]; rfl, ?_⟩
    rintro rfl
    exact accepted.plain sign (by rw [begins]; rfl)

theorem characterClass_expr {e : ClassExpr} (accepted : e.Accepted) (before after : Bytes) (p : Program) (c : Scanner)
    (place : c.patternIdx = before.length) {fuel : Nat} (enough : e.text.length ≤ fuel) :
    (characterClass (before ++ e.text ++ after) fuel).run p c =
      some (some (p.length, p ++ [⟨.opAnyof fun b => enteredAll (']'.toUInt8 :: after) e.items b ^^ e.negated, 0⟩]),
        { c with patternIdx := before.length + e.text.length }) := by
  have isPattern : before ++ e.text ++ after =
      before ++ ['['.toUInt8] ++ (e.sign ++ (itemsText e.items ++ ']'.toUInt8 :: after)) := by
    simp [ClassExpr.text]
  have size : e.text.length = e.sign.length + (itemsText e.items).length + 2 := by
    simp only [ClassExpr.text, List.length_cons, List.length_append, List.length_nil]
  have set : classSet (before ++ ['['.toUInt8] ++ (e.sign ++ (itemsText e.items ++ ']'.toUInt8 :: after))) fuel
      { c with patternIdx := c.patternIdx + 1 } = some (some fun b => enteredAll (']'.toUInt8 :: after) e.items b ^^ e.negated,
        { c with patternIdx := c.patternIdx + 1 + e.sign.length + (itemsText e.items).length + 1 }) :=
    classSet_expr accepted (by rw [List.length_append, place]; rfl) (by omega)
  obtain ⟨char, text, begins, noColon⟩ := accepted.begins after
  have head : patternAt (before ++ ['['.toUInt8] ++ (e.sign ++ (itemsText e.items ++ ']'.toUInt8 :: after))) (c.patternIdx + 1) =
      char := by
    rw [begins, List.append_assoc, place]
    exact patternAt_append before _ 1
  have inside : ¬(before ++ ['['.toUInt8] ++ (e.sign ++ (itemsText e.items ++ ']'.toUInt8 :: after))).length ≤ c.patternIdx + 1 := by
    rw [begins, List.length_append, List.length_append, List.length_cons, List.length_cons, List.length_nil, place]
    omega
  have finish : before.length + 1 + e.sign.length + (itemsText e.items).length + 1 = before.length + e.text.length := by omega
  have read : parseClass (before ++ ['['.toUInt8] ++ (e.sign ++ (itemsText e.items ++ ']'.toUInt8 :: after))) fuel c =
      some (some fun b => enteredAll (']'.toUInt8 :: after) e.items b ^^ e.negated,
        { c with patternIdx := before.length + e.text.length }) := by
    rw [parseClass, advance_bind, atEnd_bind, decide_eq_false inside, if_neg (by decide), peek_bind, head, if_neg noColon,
      parseClassSet_eq, set, place, finish]
  rw [isPattern, characterClass_run, map_eq_pure_bind, bind_of_ok read]
  rfl

/-- The set that `characterClass` compiles is the one that the expression denotes just when each character
that is listed gets in. -/
theorem characterClass_denotes_iff {e : ClassExpr} (accepted : e.Accepted) (before after : Bytes) (p : Program) (c : Scanner)
    (place : c.patternIdx = before.length) {fuel : Nat} (enough : e.text.length ≤ fuel) :
    ∃ set, (characterClass (before ++ e.text ++ after) fuel).run p c =
        some (some (p.length, p ++ [⟨.opAnyof set, 0⟩]), { c with patternIdx := before.length + e.text.length }) ∧
      ((∀ b, set b = e.denotes b) ↔ e.Listed after) :=
  ⟨_, characterClass_expr accepted before after p c place enough, e.listed_iff after⟩

theorem characterClass_denotes_iff_five : ∃ set,
    (characterClass (ascii "x[^ab-d\\s]") 9).run [] ⟨1, 0, 0, []⟩ = some (some (0, [⟨.opAnyof set, 0⟩]), ⟨10, 0, 0, []⟩) ∧
      ((∀ b, set b = (ClassExpr.mk true [.single 97, .range 98 100, .escape 115]).denotes b) ↔
        (ClassExpr.mk true [.single 97, .range 98 100, .escape 115]).Listed []) :=
  characterClass_denotes_iff (e := ⟨true, [.single 97, .range 98 100, .escape 115]⟩)
    ⟨by decide, by decide, by decide⟩ (ascii "x") [] [] ⟨1, 0, 0, []⟩ (by decide) (by decide)

/-- The set of `[a]` is empty in front of a `-`. -/
theorem characterClass_misses : ¬∀ (e : ClassExpr), e.Accepted → ∀ (before after : Bytes) (p : Program) (c : Scanner),
    c.patternIdx = before.length → ∀ fuel, e.text.length ≤ fuel →
      ∃ set, (characterClass (before ++ e.text ++ after) fuel).run p c =
          some (some (p.length, p ++ [⟨.opAnyof set, 0⟩]), { c with patternIdx := before.length + e.text.length }) ∧
        ∀ b, set b = e.denotes b := by
  intro always
  have accepted : (ClassExpr.mk false [.single 97]).Accepted := ⟨by decide, by decide, by decide⟩
  obtain ⟨set, run, same⟩ := always ⟨false, [.single 97]⟩ accepted [] (ascii "-") [] ⟨0, 0, 0, []⟩ rfl 3 (by decide)
  rw [characterClass_expr accepted [] (ascii "-") [] ⟨0, 0, 0, []⟩ rfl (by decide)] at run
  simp only [Option.some.injEq, Prod.mk.injEq, List.nil_append, List.cons.injEq, Node.mk.injEq, Op.opAnyof.injEq, and_true,
    true_and] at run
  have missed := same 97
  rw [← run] at missed
  exact absurd missed (by decide)

end Coast.Regex
