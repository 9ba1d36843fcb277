import Coast.Anything.NamedSlots

/-!
# Merging a value into another

`AnyUtils::AnyMerge` adds the slots of one value to another in place. Arrays are merged slot by slot;
an unnamed array goes into the unnamed array of the master that has most in common with it.
-/

namespace Coast

structure Conversions (S : Type) where
  asString : S → Bytes
  asCharPtr : S → Bytes
  contains : S → Bytes → Bool

def plainConversions : Conversions Bytes := ⟨id, id, fun text k => text == k⟩

namespace Any

variable {S A : Type} (conv : Conversions S) (mark : A)

def asString : Any S A → Bytes
  | null => []
  | simple s => conv.asString s
  | array _ _ => ascii "AnyArrayImpl"

def asCharPtr : Any S A → Bytes
  | null => []
  | simple s => conv.asCharPtr s
  | array _ _ => ascii "AnyArrayImpl"

def contains (k : Bytes) : Any S A → Bool
  | null => false
  | simple s => conv.contains s k
  | array _ slots => slots.any fun slot => slot.2.asCharPtr conv == k

def isArray : Any S A → Bool
  | array _ _ => true
  | _ => false

/-- `DeepClone`, with the mark of the new arrays. -/
def deepClone : Any S A → Any S A
  | null => null
  | simple s => simple s
  | array _ slots => array mark (deepCloneSlots slots)
where
  deepCloneSlots : List (Option Bytes × Any S A) → List (Option Bytes × Any S A)
    | [] => []
    | (name, value) :: slots => (name, deepClone value) :: deepCloneSlots slots

/-- `anyMasterIdx`: where the master has an array without a name. -/
def masterIndices : Any S A → List Nat
  | array _ slots => (List.range slots.length).filter fun m => slots[m]?.any fun slot => slot.1.isNone && slot.2.isArray
  | _ => []

/-- Which unnamed array of the master the slot `i` goes to, given the matches of each. -/
def winner (anyMatches : List (Nat × Nat)) (i : Nat) : Nat :=
  let best := anyMatches.foldr (fun (lIdx, lMatch) (lMaxIdx, lMaxVal, lSameCount) =>
    if lMaxVal < (lMatch : Int) then (lIdx, (lMatch : Int), 1)
    else if (lMatch : Int) = lMaxVal then (lIdx, lMaxVal, lSameCount + 1)
    else (lMaxIdx, lMaxVal, lSameCount)) (0, -1, 1)
  if 1 < best.2.2 ∧ (anyMatches.lookup i).map (fun lMatch => (lMatch : Int)) = some best.2.1 then i else best.1

mutual

/-- `DoAnyMerge`: the number of hits and the master. A test leaves the master as it is. -/
def doAnyMerge (bOverwriteSlots bTest : Bool) : Any S A → Any S A → Nat × Any S A
  | array _ slots, anyMaster => mergeSlots bOverwriteSlots bTest anyMaster.masterIndices 0 slots (0, anyMaster)
  | null, anyMaster =>
    if anyMaster.isNull ∨ anyMaster.asString conv = [] then (1, anyMaster)
    else (0, if !bTest && bOverwriteSlots then null else anyMaster)
  | simple s, anyMaster =>
    if anyMaster.asString conv = conv.asString s then (1, anyMaster)
    else (0, if !bTest && bOverwriteSlots then simple s else anyMaster)

def mergeSlots (bOverwriteSlots bTest : Bool) (anyMasterIdx : List Nat) (i : Nat) :
    List (Option Bytes × Any S A) → Nat × Any S A → Nat × Any S A
  | [], r => r
  | (name, value) :: slots, (lHitCount, anyMaster) =>
    let strInputSlotname := name.getD []
    let r :=
      if value.isArray = false then
        if strInputSlotname ≠ [] then
          if anyMaster.isDefined strInputSlotname = false ∨ bOverwriteSlots then
            (lHitCount, if bTest then anyMaster else anyMaster.withName mark strInputSlotname fun _ => value.deepClone mark)
          else (lHitCount, anyMaster)
        else if anyMaster.contains conv (value.asString conv) then (lHitCount + 1, anyMaster)
        else (lHitCount, if bTest then anyMaster else append mark (value.deepClone mark) anyMaster)
      else if strInputSlotname = [] then
        if anyMasterIdx ≠ [] then
          let anyMatches := anyMasterIdx.map fun m => (m, (doAnyMerge bOverwriteSlots true value (anyMaster.child m)).1)
          let lMaxIdx := winner anyMatches i
          (lHitCount, if bTest then anyMaster
            else anyMaster.modifyChild lMaxIdx fun m => (doAnyMerge bOverwriteSlots bTest value m).2)
        else (lHitCount, if bTest then anyMaster else append mark (value.deepClone mark) anyMaster)
      else
        if anyMaster.isDefined strInputSlotname then
          let merged := doAnyMerge bOverwriteSlots bTest value (anyMaster.named strInputSlotname)
          (lHitCount + merged.1, anyMaster.withName mark strInputSlotname fun _ => merged.2)
        else (lHitCount, if bTest then anyMaster else anyMaster.withName mark strInputSlotname fun _ => value.deepClone mark)
    mergeSlots bOverwriteSlots bTest anyMasterIdx (i + 1) slots r

end

def anyMerge (anyMaster roaToMerge : Any S A) (bOverwriteSlots : Bool) : Any S A :=
  (doAnyMerge conv mark bOverwriteSlots false roaToMerge anyMaster).2

/-! ### One pass -/

theorem induct {p : Any S A → Prop} (leaf : ∀ v : Any S A, v.isArray = false → p v)
    (array : ∀ m slots, (∀ slot ∈ slots, p slot.2) → p (array m slots)) : ∀ v, p v
  | .array m slots => array m slots fun slot _mem => induct leaf array slot.2
  | .null => leaf _ rfl
  | .simple _ => leaf _ rfl
termination_by v => sizeOf v
decreasing_by
  have smaller := List.sizeOf_lt_of_mem _mem
  cases slot
  simp only [Prod.mk.sizeOf_spec, Any.array.sizeOf_spec] at smaller ⊢
  omega

def mergeSlot (bOverwriteSlots bTest : Bool) (anyMasterIdx : List Nat) (i : Nat) (slot : Option Bytes × Any S A)
    (r : Nat × Any S A) : Nat × Any S A :=
  mergeSlots conv mark bOverwriteSlots bTest anyMasterIdx i [slot] r

theorem mergeSlots_cons (bOverwriteSlots bTest : Bool) (anyMasterIdx : List Nat) (i : Nat) (slot : Option Bytes × Any S A)
    (slots : List (Option Bytes × Any S A)) (r : Nat × Any S A) :
    mergeSlots conv mark bOverwriteSlots bTest anyMasterIdx i (slot :: slots) r =
      mergeSlots conv mark bOverwriteSlots bTest anyMasterIdx (i + 1) slots
        (mergeSlot conv mark bOverwriteSlots bTest anyMasterIdx i slot r) := by
  obtain ⟨name, value⟩ := slot
  obtain ⟨lHitCount, anyMaster⟩ := r
  rw [mergeSlot, mergeSlots, mergeSlots, mergeSlots]

def target (bOverwriteSlots : Bool) (anyMasterIdx : List Nat) (i : Nat) (value anyMaster : Any S A) : Nat :=
  winner (anyMasterIdx.map fun m => (m, (doAnyMerge conv mark bOverwriteSlots true value (anyMaster.child m)).1)) i

theorem best_highest (tested : List (Nat × Nat)) {best : Nat × Int × Nat}
    (isBest : tested.foldr (fun (lIdx, lMatch) (lMaxIdx, lMaxVal, lSameCount) =>
      if lMaxVal < (lMatch : Int) then (lIdx, (lMatch : Int), 1)
      else if (lMatch : Int) = lMaxVal then (lIdx, lMaxVal, lSameCount + 1)
      else (lMaxIdx, lMaxVal, lSameCount)) (0, -1, 1) = best) :
    (∀ p ∈ tested, (p.2 : Int) ≤ best.2.1) ∧
      ((tested = [] ∧ best.2.1 = -1) ∨ ∃ p ∈ tested, p.1 = best.1 ∧ (p.2 : Int) = best.2.1) := by
  induction tested generalizing best with
  | nil => exact ⟨List.forall_mem_nil _, .inl ⟨rfl, isBest ▸ rfl⟩⟩
  | cons entry tested ih =>
    obtain ⟨lIdx, lMatch⟩ := entry
    rw [List.foldr_cons] at isBest
    obtain ⟨bound, found⟩ := ih rfl
    generalize tested.foldr _ _ = before at isBest bound found
    obtain ⟨lMaxIdx, lMaxVal, lSameCount⟩ := before
    dsimp only at isBest bound found
    split at isBest
    · rename_i higher
      subst isBest
      refine ⟨fun p mem => ?_, .inr ⟨_, List.mem_cons_self, rfl, rfl⟩⟩
      rcases List.mem_cons.mp mem with rfl | mem
      · exact le_rfl
      · exact (bound p mem).trans higher.le
    · rename_i higher
      have bounded : ∀ p ∈ (lIdx, lMatch) :: tested, (p.2 : Int) ≤ lMaxVal := by
        intro p mem
        rcases List.mem_cons.mp mem with rfl | mem
        · exact Int.not_lt.mp higher
        · exact bound p mem
      split at isBest
      · rename_i equal
        subst isBest
        exact ⟨bounded, .inr ⟨_, List.mem_cons_self, rfl, equal⟩⟩
      · subst isBest
        refine ⟨bounded, .inr ?_⟩
        rcases found with ⟨-, none⟩ | ⟨p, mem, same⟩
        · exact absurd (by rw [none]; omega) higher
        · exact ⟨p, List.mem_cons_of_mem _ mem, same⟩

theorem winner_highest {anyMasterIdx : List Nat} (hits : Nat → Nat) (i : Nat) (arrays : anyMasterIdx ≠ []) : winner (anyMasterIdx.map fun m => (m, hits m)) i ∈ anyMasterIdx ∧
    ∀ m ∈ anyMasterIdx, hits m ≤ hits (winner (anyMasterIdx.map fun m => (m, hits m)) i) := by
  obtain ⟨bound, found⟩ := best_highest (anyMasterIdx.map fun m => (m, hits m)) rfl
  rw [List.map_eq_nil_iff] at found
  obtain ⟨p, mem, first, highest⟩ := found.resolve_left fun both => arrays both.1
  obtain ⟨j, inside, rfl⟩ := List.mem_map.mp mem
  dsimp only at first highest
  have bounds : ∀ m ∈ anyMasterIdx, hits m ≤ hits j := by
    intro m mem
    have atMost := bound _ (List.mem_map_of_mem mem)
    rw [← highest] at atMost
    exact Int.ofNat_le.mp atMost
  rw [winner]
  split
  · rename_i same
    cases here : (anyMasterIdx.map fun m => (m, hits m)).lookup i with
    | none =>
      rw [here] at same
      cases same.2
    | some lMatch =>
      rw [here] at same
      have equal : (lMatch : Int) = hits j := (Option.some.inj same.2).trans highest.symm
      obtain ⟨front, back, parts, -⟩ := List.lookup_eq_some_iff.mp here
      have tested : (i, lMatch) ∈ anyMasterIdx.map fun m => (m, hits m) := by simp [parts]
      obtain ⟨i', inside', pair⟩ := List.mem_map.mp tested
      obtain ⟨rfl, rfl⟩ := Prod.mk.inj pair
      exact ⟨inside', fun m mem => (bounds m mem).trans_eq (Int.ofNat_inj.mp equal).symm⟩
  · rw [← first]
    exact ⟨inside, bounds⟩

theorem target_mem (bOverwriteSlots : Bool) {anyMasterIdx : List Nat} (arrays : anyMasterIdx ≠ []) (i : Nat) (value anyMaster : Any S A) :
    target conv mark bOverwriteSlots anyMasterIdx i value anyMaster ∈ anyMasterIdx :=
  (winner_highest (fun m => (doAnyMerge conv mark bOverwriteSlots true value (anyMaster.child m)).1) i arrays).1

theorem mergeSlot_cases (bOverwriteSlots bTest : Bool) (anyMasterIdx : List Nat) (i : Nat) (name : Option Bytes) (value : Any S A)
    (r : Nat × Any S A) :
    (mergeSlot conv mark bOverwriteSlots bTest anyMasterIdx i (name, value) r).2 =
      if value.isArray = false then
        if name.getD [] ≠ [] then
          if bTest = false ∧ (r.2.isDefined (name.getD []) = false ∨ bOverwriteSlots) then
            r.2.withName mark (name.getD []) fun _ => value.deepClone mark
          else r.2
        else if bTest = false ∧ r.2.contains conv (value.asString conv) = false then append mark (value.deepClone mark) r.2
        else r.2
      else if name.getD [] = [] then
        if bTest then r.2
        else if anyMasterIdx ≠ [] then
          r.2.modifyChild (target conv mark bOverwriteSlots anyMasterIdx i value r.2) fun m =>
            (doAnyMerge conv mark bOverwriteSlots bTest value m).2
        else append mark (value.deepClone mark) r.2
      else if r.2.isDefined (name.getD []) then
        r.2.withName mark (name.getD []) fun _ =>
          (doAnyMerge conv mark bOverwriteSlots bTest value (r.2.named (name.getD []))).2
      else if bTest then r.2 else r.2.withName mark (name.getD []) fun _ => value.deepClone mark := by
  obtain ⟨lHitCount, anyMaster⟩ := r
  rw [mergeSlot, mergeSlots, mergeSlots]
  by_cases leaf : value.isArray = false
  · rw [if_pos leaf, if_pos leaf]
    by_cases named : name.getD [] ≠ []
    · rw [if_pos named, if_pos named]
      by_cases written : anyMaster.isDefined (name.getD []) = false ∨ bOverwriteSlots = true
      · rw [if_pos written]
        cases bTest <;> simp [written]
      · rw [if_neg written, if_neg fun both => written both.2]
    · rw [if_neg named, if_neg named]
      cases bTest <;> cases anyMaster.contains conv (value.asString conv) <;> rfl
  · rw [if_neg leaf, if_neg leaf]
    by_cases unnamed : name.getD [] = []
    · rw [if_pos unnamed, if_pos unnamed]
      by_cases arrays : anyMasterIdx ≠ []
      · rw [if_pos arrays]
        cases bTest
        · exact (if_pos arrays).symm
        · rfl
      · rw [if_neg arrays]
        cases bTest
        · exact (if_neg arrays).symm
        · rfl
    · rw [if_neg unnamed, if_neg unnamed]
      by_cases defined : anyMaster.isDefined (name.getD []) = true
      · rw [if_pos defined, if_pos defined]
      · rw [if_neg defined, if_neg defined]

/-! ### The array stays the same -/

def Extends (c c' : Any S A) : Prop :=
  ∀ m slots, c = array m slots → ∃ slots', c' = array m slots' ∧ slots.map Prod.fst <+: slots'.map Prod.fst

theorem Extends.refl (c : Any S A) : Extends c c := fun _ slots shape => ⟨slots, shape, List.prefix_rfl⟩

theorem Extends.trans {a b c : Any S A} (first : Extends a b) (second : Extends b c) : Extends a c := by
  intro m slots shape
  obtain ⟨slots', shape', more⟩ := first m slots shape
  obtain ⟨slots'', shape'', more'⟩ := second m slots' shape'
  exact ⟨slots'', shape'', more.trans more'⟩

section Extends

variable {mark} {c : Any S A}

theorem map_fst_modify (slots : List (Option Bytes × Any S A)) (i : Nat) (f : Any S A → Any S A) :
    (slots.modify i fun slot => (slot.1, f slot.2)).map Prod.fst = slots.map Prod.fst := by
  refine List.ext_getElem? fun j => ?_
  rw [List.getElem?_map, List.getElem?_modify, List.getElem?_map]
  cases slots[j]? with
  | none => rfl
  | some slot =>
    rw [Option.map_eq_map, Option.map_some, Option.map_some, Option.map_some]
    split <;> rfl

theorem map_fst_change (k : Bytes) (f : Any S A → Any S A) (slots : List (Option Bytes × Any S A)) :
    slots.map Prod.fst <+: (change k f slots).map Prod.fst := by
  rw [change_eq]
  cases slots.findIdx? fun slot => slot.1 = some k with
  | some i => exact (map_fst_modify slots i f) ▸ List.prefix_rfl
  | none => exact List.map_append ▸ List.prefix_append _ _

theorem extends_modifyChild (i : Nat) (f : Any S A → Any S A) : Extends c (c.modifyChild i f) := by
  rintro m slots rfl
  exact ⟨_, rfl, (map_fst_modify slots i f).symm ▸ List.prefix_rfl⟩

theorem extends_withName (k : Bytes) (f : Any S A → Any S A) : Extends c (c.withName mark k f) := by
  rintro m slots rfl
  by_cases unnamed : k = []
  · rw [unnamed, withName_array_nil]
    exact ⟨_, rfl, List.map_append ▸ List.prefix_append _ _⟩
  · rw [withName_array unnamed]
    exact ⟨_, rfl, map_fst_change k f slots⟩

theorem append_array {m : A} {slots : List (Option Bytes × Any S A)} (value : Any S A) : append mark value (array m slots) = array m (slots ++ [(none, value)]) := by
  have one : slots.length + 1 - slots.length = 1 := by omega
  rw [append, getSize, atIndex_array, one]
  exact congrArg (array m) (modify_last none fun _ => value)

theorem append_expand (mark : A) (value c : Any S A) : append mark value c = append mark value (c.expand mark) := by
  cases c with
  | null => rfl
  | simple s => rfl
  | array m slots => rfl

theorem extends_append (value : Any S A) : Extends c (append mark value c) := by
  rintro m slots rfl
  rw [append_array]
  exact ⟨_, rfl, List.map_append ▸ List.prefix_append _ _⟩

variable (mark)

theorem extends_mergeSlot (bOverwriteSlots bTest : Bool) (anyMasterIdx : List Nat) (i : Nat) (slot : Option Bytes × Any S A)
    (r : Nat × Any S A) : Extends r.2 (mergeSlot conv mark bOverwriteSlots bTest anyMasterIdx i slot r).2 := by
  obtain ⟨name, value⟩ := slot
  rw [mergeSlot_cases]
  split
  · split
    · split
      · exact extends_withName _ _
      · exact .refl _
    · split
      · exact extends_append _
      · exact .refl _
  · split
    · split
      · exact .refl _
      · split
        · exact extends_modifyChild _ _
        · exact extends_append _
    · split
      · exact extends_withName _ _
      · split
        · exact .refl _
        · exact extends_withName _ _

theorem extends_mergeSlots (bOverwriteSlots bTest : Bool) (anyMasterIdx : List Nat) (i : Nat) (slots : List (Option Bytes × Any S A))
    (r : Nat × Any S A) : Extends r.2 (mergeSlots conv mark bOverwriteSlots bTest anyMasterIdx i slots r).2 := by
  induction slots generalizing i r with
  | nil =>
    rw [mergeSlots]
    exact .refl _
  | cons slot slots ih =>
    rw [mergeSlots_cons]
    exact (extends_mergeSlot conv mark _ _ _ _ _ _).trans (ih _ _)

end Extends

def IsArray (m : A) (c : Any S A) : Prop := ∃ slots, c = array m slots

theorem isArray_anyMerge {m : A} {c : Any S A} (array : IsArray m c) (more : Any S A) (isArray : more.isArray = true)
    (bOverwriteSlots : Bool) : IsArray m (c.anyMerge conv mark more bOverwriteSlots) := by
  cases more with
  | null => cases isArray
  | simple s => cases isArray
  | array m' slots =>
    obtain ⟨before, shape⟩ := array
    rw [anyMerge, doAnyMerge]
    obtain ⟨after, shape', -⟩ := extends_mergeSlots conv mark bOverwriteSlots false c.masterIndices 0 slots (0, c) m before shape
    exact ⟨after, shape'⟩

end Any

end Coast
