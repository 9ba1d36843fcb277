import Coast.Regex.Program
import Mathlib.Data.List.Forall2

/-!
# Letter case

Two matchers that differ only in the case of letters in their atoms and in the text, run side by side:
under `MATCH_ICASE` they return the same at every node.
-/

namespace Coast.Regex

/-! ### Texts that differ in the case of letters -/

def SameFold (s t : Bytes) : Prop := s.map tolower = t.map tolower

theorem SameFold.refl (s : Bytes) : SameFold s s := rfl

theorem sameFold_cons {a b : UInt8} {s t : Bytes} : SameFold (a :: s) (b :: t) ↔ tolower a = tolower b ∧ SameFold s t := by
  unfold SameFold
  rw [List.map_cons, List.map_cons, List.cons.injEq]

namespace SameFold

variable {s t : Bytes}

theorem length (same : SameFold s t) : s.length = t.length := by
  have lengths := congrArg List.length same
  rwa [List.length_map, List.length_map] at lengths

theorem drop (same : SameFold s t) (n : Nat) : SameFold (s.drop n) (t.drop n) := by
  unfold SameFold at same ⊢
  rw [List.map_drop, List.map_drop, same]

theorem take (same : SameFold s t) (n : Nat) : SameFold (s.take n) (t.take n) := by
  unfold SameFold at same ⊢
  rw [List.map_take, List.map_take, same]

theorem append {s' t' : Bytes} (same : SameFold s t) (same' : SameFold s' t') : SameFold (s ++ s') (t ++ t') := by
  unfold SameFold at same same' ⊢
  rw [List.map_append, List.map_append, same, same']

theorem subString (same : SameFold s t) (start length : Nat) : SameFold (subString s start length) (subString t start length) :=
  (same.drop start).take length

theorem getD (same : SameFold s t) (i : Nat) : tolower (s.getD i 0) = tolower (t.getD i 0) := by
  have elements := congrArg (fun text => text.getD i (tolower 0)) same
  simpa only [List.getD_eq_getElem?_getD, List.getElem?_map, Option.getD_map] using elements

end SameFold

theorem upper_bounds {a : UInt8} (upper : isupper a = true) : 65 ≤ a.toNat ∧ a.toNat ≤ 90 := by
  unfold isupper at upper
  rw [Bool.and_eq_true, decide_eq_true_eq, decide_eq_true_eq, UInt8.le_iff_toNat_le, UInt8.le_iff_toNat_le] at upper
  exact upper

theorem islower_iff {a : UInt8} : islower a = true ↔ 97 ≤ a.toNat ∧ a.toNat ≤ 122 := by
  unfold islower
  rw [Bool.and_eq_true, decide_eq_true_eq, decide_eq_true_eq, UInt8.le_iff_toNat_le, UInt8.le_iff_toNat_le]
  rfl

theorem islower_folded {a : UInt8} (upper : isupper a = true) : islower (a + 32) = true := by
  have bounds := upper_bounds upper
  rw [islower_iff, UInt8.toNat_add]
  change 97 ≤ (a.toNat + 32) % 256 ∧ (a.toNat + 32) % 256 ≤ 122
  omega

theorem tolower_eq_iff {c : UInt8} (a : UInt8) (other : isupper c = false) (small : islower c = false) : tolower a = c ↔ a = c := by
  unfold tolower
  constructor
  · intro is
    split at is
    · rename_i upper
      rw [← is, islower_folded upper] at small
      cases small
    · exact is
  · rintro rfl
    rw [if_neg (by rw [other]; decide)]

theorem isalnum_tolower (a : UInt8) : isalnum (tolower a) = isalnum a := by
  unfold tolower
  split
  · rename_i upper
    unfold isalnum
    rw [upper, islower_folded upper, Bool.or_true, Bool.or_true, Bool.true_or]
  · rfl

theorem eq_of_tolower {c : UInt8} (other : isupper c = false) (small : islower c = false) {a b : UInt8}
    (same : tolower a = tolower b) : a = c ↔ b = c := by
  rw [← tolower_eq_iff a other small, same, tolower_eq_iff b other small]

theorem isalnum_of_tolower {a b : UInt8} (same : tolower a = tolower b) : isalnum a = isalnum b := by
  rw [← isalnum_tolower a, same, isalnum_tolower]

theorem SameFold.cstr {s t : Bytes} (same : SameFold s t) : SameFold (cstr s) (cstr t) := by
  induction s generalizing t with
  | nil =>
    cases t with
    | nil => rfl
    | cons b t => cases same
  | cons a s ih =>
    cases t with
    | nil => cases same
    | cons b t =>
      obtain ⟨first, rest⟩ := sameFold_cons.mp same
      have ends : a = 0 ↔ b = 0 := eq_of_tolower (by decide) (by decide) first
      unfold Regex.cstr
      rw [List.takeWhile_cons, List.takeWhile_cons]
      by_cases zero : a = 0
      · rw [if_neg (by simp [zero]), if_neg (by simp [ends.mp zero])]
        rfl
      · have other : b ≠ 0 := fun h => zero (ends.mpr h)
        rw [if_pos (by simp [zero]), if_pos (by simp [other])]
        exact sameFold_cons.mpr ⟨first, ih rest⟩

theorem caselessEq_congr {s s' t t' : Bytes} (first : SameFold s s') (second : SameFold t t') :
    caselessEq s t = caselessEq s' t' := by
  unfold caselessEq
  rw [show (cstr s).map tolower = (cstr s').map tolower from first.cstr,
    show (cstr t).map tolower = (cstr t').map tolower from second.cstr]

/-! ### Programs and matchers that differ in the case of letters -/

inductive Op.Twin : Op → Op → Prop
  | same (op : Op) : Twin op op
  | atom {s t : Bytes} : SameFold s t → Twin (.opAtom s) (.opAtom t)

theorem Op.Twin.isBranch {op op' : Op} (twin : op.Twin op') : op.isBranch = op'.isBranch := by
  cases twin with
  | same | atom => rfl

structure Node.Twin (n n' : Node) : Prop where
  op : n.op.Twin n'.op
  next : n.next = n'.next

namespace Matcher

structure Twin (m m' : Matcher) : Prop where
  program : List.Forall₂ Node.Twin m.program m'.program
  flags : m.flags = m'.flags
  icase : m.flags.icase = true
  search : SameFold m.search m'.search

section Twin

variable {m m' : Matcher} (twin : m.Twin m')

include twin

theorem Twin.length : m.program.length = m'.program.length := twin.program.length_eq

theorem Twin.icase' : m'.flags.icase = true := twin.flags ▸ twin.icase

theorem Twin.nodeAt (node : Int) : (m.program.nodeAt node).Twin (m'.program.nodeAt node) := by
  unfold Program.nodeAt
  have programs := twin.program
  generalize m.program = p, m'.program = p', node.toNat = i at programs
  induction programs generalizing i with
  | nil => exact ⟨.same _, rfl⟩
  | cons first _ ih =>
    cases i with
    | zero => exact first
    | succ i => exact ih i

theorem Twin.backref (k idx : Nat) (c : Captures) : m.matchBackref k idx c = m'.matchBackref k idx c := by
  unfold matchBackref
  rw [twin.search.length, twin.icase, twin.icase']
  split
  · rename_i s e _ _
    rw [caselessEq_congr (twin.search.subString idx (e - s)) (twin.search.subString s (e - s))]
    rfl
  · rfl

theorem Twin.atom {s t : Bytes} (same : SameFold s t) (idx : Nat) : m.matchAtom s idx = m'.matchAtom t idx := by
  unfold matchAtom
  dsimp only
  rw [twin.search.length, twin.icase, twin.icase', same.cstr.length,
    caselessEq_congr same.cstr (twin.search.subString idx (cstr t).length)]
  rfl

theorem Twin.simple {op op' : Op} (ops : op.Twin op') (idx : Nat) (c : Captures) :
    m.matchSimple op idx c = m'.matchSimple op' idx c := by
  have newline : ∀ i, m.search.getD i 0 = 10 ↔ m'.search.getD i 0 = 10 := fun i =>
    eq_of_tolower (by decide) (by decide) (twin.search.getD i)
  cases ops with
  | atom same => exact twin.atom same idx
  | same =>
    cases op with
    | opBackref k => exact twin.backref k idx c
    | opAtom text => exact twin.atom (.refl text) idx
    | opBol =>
      simp only [matchSimple, twin.flags, ne_eq, newline]
    | opEol =>
      simp only [matchSimple, twin.flags, twin.search.length, ne_eq, newline]
    | opAny =>
      simp only [matchSimple, twin.flags, twin.search.length, newline]
    | opBow boundary =>
      have last : isalnum (if idx = 0 then 32 else m.search.getD (idx - 1) 0) =
          isalnum (if idx = 0 then 32 else m'.search.getD (idx - 1) 0) := by
        split
        · rfl
        · exact isalnum_of_tolower (twin.search.getD _)
      have next : isalnum (if m'.search.length ≤ idx then 32 else m.search.getD idx 0) =
          isalnum (if m'.search.length ≤ idx then 32 else m'.search.getD idx 0) := by
        split
        · rfl
        · exact isalnum_of_tolower (twin.search.getD _)
      simp only [matchSimple, twin.search.length, last, next]
    | opAnyof set =>
      simp only [matchSimple, twin.search.length, twin.icase, twin.icase', if_true, twin.search.getD idx]
    | _ => rfl

/-! ### The engine -/

theorem Twin.branchLoop {operand operand' : Int → Captures → Result} (same : ∀ node c, operand node c = operand' node c) (n : Nat)
    (node : Int) (c : Captures) : m.branchLoop operand n node c = m'.branchLoop operand' n node c := by
  induction n generalizing node c with
  | zero => rfl
  | succ n ih =>
    rw [Matcher.branchLoop, Matcher.branchLoop, same, (twin.nodeAt node).next]
    dsimp only
    rw [show (m.program.nodeAt (node + (m'.program.nodeAt node).next)).op.isBranch =
        (m'.program.nodeAt (node + (m'.program.nodeAt node).next)).op.isBranch from (twin.nodeAt _).op.isBranch]
    split
    · split
      · exact ih _ _
      · rfl
    · rfl

theorem Twin.matchNodes (fuel : Nat) (node lastNode : Int) (idx : Nat) (c : Captures) :
    m.matchNodes fuel node lastNode idx c = m'.matchNodes fuel node lastNode idx c := by
  induction fuel generalizing node lastNode idx c with
  | zero => rfl
  | succ fuel ih =>
    have same : m.matchNodes fuel = m'.matchNodes fuel := by
      funext node lastNode idx c
      exact ih node lastNode idx c
    have here := twin.nodeAt node
    have branches : (m.program.nodeAt (node + short (m'.program.nodeAt node).next)).op.isBranch =
        (m'.program.nodeAt (node + short (m'.program.nodeAt node).next)).op.isBranch := (twin.nodeAt _).op.isBranch
    rw [Matcher.matchNodes, Matcher.matchNodes, same, twin.length]
    dsimp only
    rw [here.next, branches]
    split
    · rfl
    · have ops := here.op
      generalize (m.program.nodeAt node).op = op, (m'.program.nodeAt node).op = op' at ops
      cases ops with
      | atom texts =>
        dsimp only
        rw [twin.simple (.atom texts) idx c]
      | same =>
        cases op with
        | opBranch =>
          dsimp only
          rw [twin.branchLoop (fun _ _ => rfl) fuel node c]
        | opReluctantMaybe | opReluctantPlus | opReluctantStar | opOpen | opClose | opEnd | hole => rfl
        | _ =>
          dsimp only
          rw [twin.simple (.same _) idx c]

theorem Twin.matchAt (fuel : Nat) (i : Int) : m.matchAt fuel i = m'.matchAt fuel i := by
  unfold Matcher.matchAt
  rw [twin.matchNodes, twin.length]

theorem Twin.searchFrom {test test' : Int → Bool} (tests : ∀ i, test i = test' i) (fuel count : Nat) (i : Int) :
    m.searchFrom test fuel count i = m'.searchFrom test' fuel count i := by
  induction count generalizing i with
  | zero => rfl
  | succ count ih =>
    rw [Matcher.searchFrom, Matcher.searchFrom, tests, twin.matchAt, ih]

theorem Twin.containedIn {fPrefix fPrefix' : Bytes} (prefixes : SameFold fPrefix fPrefix') (fuel : Nat) (i : Int) :
    m.containedIn fPrefix fuel i = m'.containedIn fPrefix' fuel i := by
  have tests : ∀ j, m.prefixMatches fPrefix j = m'.prefixMatches fPrefix' j := by
    intro j
    unfold prefixMatches
    rw [twin.icase, twin.icase', if_pos rfl, if_pos rfl, prefixes.length]
    exact caselessEq_congr prefixes (twin.search.subString _ _)
  have empty : ∀ {α β : Type} {s : List α} {t : List β}, s.length = t.length → s.isEmpty = t.isEmpty := by
    intro α β s t lengths
    cases s with
    | nil => rw [List.length_eq_zero_iff.mp lengths.symm]; rfl
    | cons =>
      cases t with
      | nil => cases lengths
      | cons => rfl
  unfold Matcher.containedIn
  rw [empty twin.length, empty prefixes.length, twin.search.length, prefixes.length, twin.searchFrom (fun _ => rfl), twin.searchFrom tests]

end Twin

end Matcher

end Coast.Regex
