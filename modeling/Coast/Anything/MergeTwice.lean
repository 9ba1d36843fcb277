import Coast.Anything.MergeFrames

/-!
# Merging twice

The first merge leaves each slot of the tree in a state in which a second pass over it changes nothing, as long as no
later pass undoes that.
-/

namespace Coast.Any

variable {S A : Type}

/-! ### Trees that can be merged again -/

/-- The pass over the second slot does not undo the first one's: no name twice, no two unnamed arrays, and an unnamed
simple value not in front of a named slot. -/
def Apart (a b : Option Bytes × Any S A) : Prop :=
  (∀ k, a.1 = some k → b.1 ≠ some k) ∧ ¬(a.1 = none ∧ a.2.isArray = true ∧ b.1 = none ∧ b.2.isArray = true) ∧
    ¬(a.1 = none ∧ a.2.isArray = false ∧ b.1 ≠ none)

mutual

def Repeatable : Any S A → Prop
  | null => False
  | simple _ => True
  | array _ slots => slots.Pairwise Apart ∧ RepeatableSlots slots

def RepeatableSlots : List (Option Bytes × Any S A) → Prop
  | [] => True
  | (name, value) :: slots => name ≠ some [] ∧ Repeatable value ∧ RepeatableSlots slots

def Fits : Any S A → Any S A → Prop
  | array _ slots, c => FitsSlots slots c
  | _, _ => True

def FitsSlots : List (Option Bytes × Any S A) → Any S A → Prop
  | [], _ => True
  | (some k, value) :: slots, c => Fits value (c.named k) ∧ FitsSlots slots c
  | (none, value) :: slots, c =>
    (if value.isArray then ∀ j ∈ c.masterIndices, Fits value (c.child j) else ∀ s, c ≠ simple s) ∧ FitsSlots slots c

end

theorem repeatableSlots_iff {slots : List (Option Bytes × Any S A)} :
    RepeatableSlots slots ↔ ∀ slot ∈ slots, slot.1 ≠ some [] ∧ Repeatable slot.2 := by
  induction slots with
  | nil => simp [RepeatableSlots]
  | cons slot slots ih =>
    obtain ⟨name, value⟩ := slot
    rw [RepeatableSlots, ih, List.forall_mem_cons, and_assoc]

section Run

variable {conv : Conversions S} {mark : A} {bOverwriteSlots : Bool} {slot slot' : Option Bytes × Any S A}
  {slots : List (Option Bytes × Any S A)} {value c c' : Any S A} {i n : Nat}

theorem Passed.frame (passed : Passed conv mark bOverwriteSlots i slot c) (frame : Frame conv slot' c c') (apart : Apart slot slot') :
    Passed conv mark bOverwriteSlots i slot c' := by
  obtain ⟨name, value⟩ := slot
  obtain ⟨names, arrays, order⟩ := apart
  cases name with
  | some k =>
    have other := names k rfl
    simpa only [Passed, frame.defined k other, frame.named k other] using passed
  | none =>
    cases sort : value.isArray with
    | true =>
      have same := frame.arrays fun both => arrays ⟨rfl, sort, both⟩
      simp only [Passed, sort, if_true] at passed ⊢
      rw [target_of_arraysOf same, masterIndices_of_arraysOf same,
        child_of_arraysOf same (target_mem conv mark bOverwriteSlots passed.1 i value c)]
      exact passed
    | false =>
      have unnamed : slot'.1 = none := by_contra fun named => order ⟨rfl, sort, named⟩
      simp only [Passed, sort, Bool.false_eq_true, if_false] at passed ⊢
      exact ⟨frame.kept passed.1, frame.contains unnamed passed.1 _ passed.2⟩

theorem FitsSlots.frame (fits : FitsSlots slots c) (frame : Frame conv slot c c') (apart : ∀ slot' ∈ slots, Apart slot slot') :
    FitsSlots slots c' := by
  induction slots with
  | nil => rw [FitsSlots]; trivial
  | cons slot' slots ih =>
    obtain ⟨name, value⟩ := slot'
    obtain ⟨names, arrays, order⟩ := apart _ List.mem_cons_self
    have rest : ∀ slot' ∈ slots, Apart slot slot' := fun slot' mem => apart slot' (List.mem_cons_of_mem _ mem)
    cases name with
    | some k =>
      rw [FitsSlots] at fits ⊢
      have other : slot.1 ≠ some k := fun own => names k own rfl
      rw [frame.named k other]
      exact ⟨fits.1, ih fits.2 rest⟩
    | none =>
      rw [FitsSlots] at fits ⊢
      refine ⟨?_, ih fits.2 rest⟩
      cases sort : value.isArray with
      | true =>
        have same := frame.arrays fun both => arrays ⟨both.1, both.2, rfl, sort⟩
        rw [if_pos rfl, masterIndices_of_arraysOf same]
        intro j mem
        rw [child_of_arraysOf same mem]
        exact (if_pos sort ▸ fits.1) j mem
      | false =>
        rw [if_neg Bool.false_ne_true]
        intro s here
        rw [sort, if_neg Bool.false_ne_true] at fits
        exact fits.1 s (frame.simple s here)

theorem find?_of_apart (apart : slots.Pairwise Apart) {j : Nat} {k : Bytes} (at_j : slots[j]? = some (some k, value)) :
    slots.find? (fun slot => slot.1 = some k) = some (some k, value) := by
  obtain ⟨inside, here⟩ := List.getElem?_eq_some_iff.mp at_j
  refine List.find?_eq_some_iff_getElem.mpr ⟨decide_eq_true rfl, j, inside, here, fun i before => ?_⟩
  have names := (List.pairwise_iff_getElem.mp apart i j (by omega) inside before).1 k
  rw [here] at names
  simpa using fun own => names own rfl

theorem array_once (apart : slots.Pairwise Apart) {i j : Nat} {a b : Any S A} (at_i : slots[i]? = some (none, a))
    (isArray : a.isArray = true) (at_j : slots[j]? = some (none, b)) (isArray' : b.isArray = true) : ¬i < j := by
  intro before
  obtain ⟨inside, here⟩ := List.getElem?_eq_some_iff.mp at_i
  obtain ⟨inside', there⟩ := List.getElem?_eq_some_iff.mp at_j
  have arrays := (List.pairwise_iff_getElem.mp apart i j inside inside' before).2.1
  rw [here, there] at arrays
  exact arrays ⟨rfl, isArray, rfl, isArray'⟩

theorem contains_simple (texts : ∀ s, conv.asCharPtr s = conv.asString s) (repeatable : Repeatable value) (leaf : value.isArray = false) :
    ((value.deepClone mark).asCharPtr conv == value.asString conv) = true := by
  cases value with
  | null => exact repeatable.elim
  | simple s => exact beq_iff_eq.mpr (texts s)
  | array m slots => cases leaf

theorem settled_deepClone (texts : ∀ s, conv.asCharPtr s = conv.asString s) (value : Any S A) (repeatable : Repeatable value)
    (isArray : value.isArray = true) : Settled conv mark bOverwriteSlots value (value.deepClone mark) := by
  induction value using induct with
  | leaf v leaf => exact absurd isArray (by simp [leaf])
  | array m slots ih =>
    rw [Repeatable, repeatableSlots_iff] at repeatable
    obtain ⟨apart, each⟩ := repeatable
    rw [deepClone, deepCloneSlots_eq]
    refine settled_of_passed (fun slot mem => (each slot mem).1) fun j slot at_j => ?_
    have mem := List.mem_of_getElem? at_j
    obtain ⟨plain, below⟩ := each slot mem
    have settled := ih slot mem below
    obtain ⟨name, value⟩ := slot
    have at_j' : (slots.map fun slot => (slot.1, slot.2.deepClone mark))[j]? = some (name, value.deepClone mark) := by
      rw [List.getElem?_map, at_j]
      rfl
    cases name with
    | some k =>
      have isNamed : k ≠ [] := fun empty => plain (congrArg some empty)
      have found : (slots.map fun slot => (slot.1, slot.2.deepClone mark)).find? (fun slot => slot.1 = some k) =
          some (some k, value.deepClone mark) := by
        rw [List.find?_map]
        exact congrArg (Option.map _) (find?_of_apart apart at_j)
      refine ⟨by rw [isDefined_array isNamed, found]; rfl, ?_⟩
      rw [named_array, if_neg isNamed, found]
      split
      · rename_i isArray
        exact settled isArray
      · exact fun _ => rfl
    | none =>
      cases sort : value.isArray with
      | false =>
        simp only [Passed, sort, Bool.false_eq_true, if_false]
        refine ⟨rfl, ?_⟩
        rw [contains, List.any_eq_true]
        exact ⟨_, List.mem_of_getElem? at_j', contains_simple texts below sort⟩
      | true =>
        simp only [Passed, sort, if_true]
        have inside : j < slots.length := (List.getElem?_eq_some_iff.mp at_j).1
        have found : j ∈ (array mark (slots.map fun slot => (slot.1, slot.2.deepClone mark))).masterIndices := by
          refine List.mem_filter.mpr ⟨List.mem_range.mpr (by rwa [List.length_map]), ?_⟩
          rw [at_j']
          simp [isArray_deepClone, sort]
        have only : ∀ i ∈ (array mark (slots.map fun slot => (slot.1, slot.2.deepClone mark))).masterIndices, i = j := by
          intro i other
          obtain ⟨slot, mapped, both⟩ := (Option.any_eq_true _ _).mp (List.mem_filter.mp other).2
          rw [List.getElem?_map] at mapped
          obtain ⟨⟨name, value'⟩, at_i, rfl⟩ := Option.map_eq_some_iff.mp mapped
          obtain ⟨unnamed, sort'⟩ := Bool.and_eq_true_iff.mp both
          obtain rfl := Option.isNone_iff_eq_none.mp unnamed
          rw [isArray_deepClone] at sort'
          have before := array_once apart at_i sort' at_j sort
          have after := array_once apart at_j sort at_i sort'
          omega
        have arrays := List.ne_nil_of_mem found
        refine ⟨arrays, ?_⟩
        rw [only _ (target_mem conv mark bOverwriteSlots arrays j value _), child, at_j']
        exact settled sort

theorem isArray_append (value c : Any S A) : (append mark value c).isArray = true := by
  obtain ⟨m, slots, shape⟩ := expand_array mark c
  rw [append_expand, shape, append_array]
  rfl

theorem contains_append_self {k : Bytes} (same : (value.asCharPtr conv == k) = true) (c : Any S A) :
    (append mark value c).contains conv k = true := by
  obtain ⟨m, slots, shape⟩ := expand_array mark c
  rw [append_expand, shape, append_array, contains, List.any_append]
  simp [same]

theorem target_modifyChild (arrays : c.masterIndices ≠ [])
    (settled : Settled conv mark bOverwriteSlots value
      (doAnyMerge conv mark bOverwriteSlots false value (c.child (target conv mark bOverwriteSlots c.masterIndices i value c))).2)
    (isArray : value.isArray = true) : Passed conv mark bOverwriteSlots i (none, value)
      (c.modifyChild (target conv mark bOverwriteSlots c.masterIndices i value c) fun m => (doAnyMerge conv mark bOverwriteSlots false value m).2) := by
  have mem := target_mem conv mark bOverwriteSlots arrays i value c
  have into := masterIndices_arrays c _ mem
  generalize wins : target conv mark bOverwriteSlots c.masterIndices i value c = w at settled mem into
  cases c with
  | null => cases mem
  | simple s => cases mem
  | array m slots =>
    have inside := lt_of_mem_masterIndices mem
    have here := child_modifyChild_self (m := m) (f := fun m => (doAnyMerge conv mark bOverwriteSlots false value m).2) inside
    have indices : ((array m slots).modifyChild w fun m => (doAnyMerge conv mark bOverwriteSlots false value m).2).masterIndices =
        (array m slots).masterIndices := by
      apply masterIndices_modifyChild
      intro slot at_w _
      have old : (array m slots).child w = slot.2 := by rw [child, at_w]; rfl
      rw [old] at into
      rw [into, isArray_doAnyMerge isArray into]
    have again : target conv mark bOverwriteSlots (array m slots).masterIndices i value
        ((array m slots).modifyChild w fun m => (doAnyMerge conv mark bOverwriteSlots false value m).2) = w := by
      refine winner_again arrays wins (fun j _ => doAnyMerge_hits_le value _) ?_ fun j _ other => ?_
      · rw [here, settled true]
      · rw [child_modifyChild_ne other]
    simp only [Passed, isArray, if_true]
    rw [indices, again, here]
    exact ⟨arrays, settled⟩

theorem passed_mergeSlot (texts : ∀ s, conv.asCharPtr s = conv.asString s) (plain : slot.1 ≠ some []) (repeatable : Repeatable slot.2)
    (merged : slot.2.isArray = true → ∀ c, Fits slot.2 c →
      Settled conv mark bOverwriteSlots slot.2 (doAnyMerge conv mark bOverwriteSlots false slot.2 c).2)
    (fits : FitsSlots [slot] c) :
    Passed conv mark bOverwriteSlots i slot (mergeSlot conv mark bOverwriteSlots false c.masterIndices i slot (n, c)).2 := by
  obtain ⟨name, value⟩ := slot
  dsimp only at plain repeatable merged
  cases name with
  | some k =>
    have isNamed : k ≠ [] := fun empty => plain (congrArg some empty)
    rw [FitsSlots] at fits
    cases sort : value.isArray with
    | false =>
      rw [mergeSlot_named_leaf isNamed sort]
      simp only [Passed, sort, Bool.false_eq_true, if_false]
      split
      · refine ⟨isDefined_withName_self isNamed _ c, fun _ => ?_⟩
        rw [named_withName, if_pos ⟨rfl, isNamed⟩]
      · rename_i skipped
        rw [not_or, Bool.not_eq_false] at skipped
        exact ⟨skipped.1, fun overwrite => absurd overwrite skipped.2⟩
    | true =>
      rw [mergeSlot_named_array isNamed sort]
      simp only [Passed, sort, if_true]
      refine ⟨isDefined_withName_self isNamed _ c, ?_⟩
      rw [named_withName, if_pos ⟨rfl, isNamed⟩]
      split
      · exact merged sort _ fits.1
      · exact settled_deepClone texts value repeatable sort
  | none =>
    rw [FitsSlots] at fits
    cases sort : value.isArray with
    | false =>
      rw [sort, if_neg Bool.false_ne_true] at fits
      rw [mergeSlot_leaf sort]
      simp only [Passed, sort, Bool.false_eq_true, if_false]
      split
      · rename_i found
        refine ⟨?_, found⟩
        cases c with
        | null => cases found
        | simple s => exact absurd rfl (fits.1 s)
        | array m slots => rfl
      · exact ⟨isArray_append _ c, contains_append_self (contains_simple texts repeatable sort) c⟩
    | true =>
      rw [if_pos sort] at fits
      rw [mergeSlot_array sort]
      split
      · rename_i none
        obtain ⟨m, slots, shape⟩ := expand_array mark c
        have indices : (array m slots).masterIndices = [] := by
          rw [← shape, masterIndices_of_arraysOf (arraysOf_expand mark c), none]
        have last : (array m (slots ++ [(Option.none, value.deepClone mark)])).masterIndices = [slots.length] := by
          rw [masterIndices_append, indices]
          simp [isArray_deepClone, sort]
        rw [append_expand, shape, append_array]
        simp only [Passed, sort, if_true]
        have arrays : (array m (slots ++ [(Option.none, value.deepClone mark)])).masterIndices ≠ [] := by simp [last]
        have only := target_mem conv mark bOverwriteSlots arrays i value (array m (slots ++ [(Option.none, value.deepClone mark)]))
        rw [last, List.mem_singleton, ← last] at only
        rw [only, child_append_last]
        exact ⟨arrays, settled_deepClone texts value repeatable sort⟩
      · rename_i arrays
        exact target_modifyChild arrays (merged sort _ (fits.1 _ (target_mem conv mark bOverwriteSlots arrays i value c))) sort

theorem fitsSlots_head (fits : FitsSlots (slot :: slots) c) : FitsSlots [slot] c ∧ FitsSlots slots c := by
  obtain ⟨name, value⟩ := slot
  cases name with
  | none =>
    rw [FitsSlots] at fits
    rw [FitsSlots, FitsSlots]
    exact ⟨⟨fits.1, trivial⟩, fits.2⟩
  | some k =>
    rw [FitsSlots] at fits
    rw [FitsSlots, FitsSlots]
    exact ⟨⟨fits.1, trivial⟩, fits.2⟩

theorem mergeSlot_indices (plain : slot.1 ≠ some []) {anyMasterIdx : List Nat}
    (same : anyMasterIdx = c.masterIndices ∨ ¬(slot.1 = none ∧ slot.2.isArray = true)) :
    (mergeSlot conv mark bOverwriteSlots false anyMasterIdx i slot (n, c)).2 =
      (mergeSlot conv mark bOverwriteSlots false c.masterIndices i slot (n, c)).2 := by
  rcases same with rfl | other
  · rfl
  · obtain ⟨name, value⟩ := slot
    cases sort : value.isArray with
    | false =>
      cases name with
      | none => rw [mergeSlot_leaf sort, mergeSlot_leaf sort]
      | some k =>
        have isNamed : k ≠ [] := fun empty => plain (congrArg some empty)
        rw [mergeSlot_named_leaf isNamed sort, mergeSlot_named_leaf isNamed sort]
    | true =>
      cases name with
      | none => exact absurd ⟨rfl, sort⟩ other
      | some k =>
        have isNamed : k ≠ [] := fun empty => plain (congrArg some empty)
        rw [mergeSlot_named_array isNamed sort, mergeSlot_named_array isNamed sort]

theorem passed_mergeSlots (texts : ∀ s, conv.asCharPtr s = conv.asString s) {anyMasterIdx : List Nat}
    {before : List (Option Bytes × Any S A)} (apart : (before ++ slots).Pairwise Apart)
    (each : ∀ slot ∈ slots, slot.1 ≠ some [] ∧ Repeatable slot.2)
    (merged : ∀ slot ∈ slots, slot.2.isArray = true → ∀ c, Fits slot.2 c →
      Settled conv mark bOverwriteSlots slot.2 (doAnyMerge conv mark bOverwriteSlots false slot.2 c).2)
    (fits : FitsSlots slots c) (indices : anyMasterIdx = c.masterIndices ∨ ∀ slot ∈ slots, ¬(slot.1 = none ∧ slot.2.isArray = true))
    (passed : ∀ j slot, before[j]? = some slot → Passed conv mark bOverwriteSlots j slot c) (n : Nat) :
    ∀ j slot, (before ++ slots)[j]? = some slot → Passed conv mark bOverwriteSlots j slot
      (mergeSlots conv mark bOverwriteSlots false anyMasterIdx before.length slots (n, c)).2 := by
  induction slots generalizing before n c with
  | nil =>
    rw [List.append_nil, mergeSlots]
    exact passed
  | cons slot slots ih =>
    obtain ⟨plain, repeatable⟩ := each slot List.mem_cons_self
    obtain ⟨first, rest⟩ := fitsSlots_head fits
    have behind : ∀ slot' ∈ slots, Apart slot slot' := (List.pairwise_cons.mp (List.pairwise_append.mp apart).2.1).1
    have pass : (mergeSlot conv mark bOverwriteSlots false anyMasterIdx before.length slot (n, c)).2 =
        (mergeSlot conv mark bOverwriteSlots false c.masterIndices before.length slot (n, c)).2 :=
      mergeSlot_indices plain (indices.imp_right fun none => none slot List.mem_cons_self)
    have frame : Frame conv slot c (mergeSlot conv mark bOverwriteSlots false anyMasterIdx before.length slot (n, c)).2 :=
      pass ▸ frame_mergeSlot plain
    have here : Passed conv mark bOverwriteSlots before.length slot
        (mergeSlot conv mark bOverwriteSlots false anyMasterIdx before.length slot (n, c)).2 :=
      pass ▸ passed_mergeSlot texts plain repeatable (merged slot List.mem_cons_self) first
    rw [mergeSlots_cons]
    generalize mergeSlot conv mark bOverwriteSlots false anyMasterIdx before.length slot (n, c) = r at frame here ⊢
    obtain ⟨n', c'⟩ := r
    have split : before ++ slot :: slots = (before ++ [slot]) ++ slots := by simp
    have next : (before ++ [slot]).length = before.length + 1 := by simp
    rw [split] at apart ⊢
    rw [← next]
    refine ih apart (fun slot mem => each slot (List.mem_cons_of_mem _ mem)) (fun slot mem => merged slot (List.mem_cons_of_mem _ mem))
      (rest.frame frame behind) ?_ ?_ n'
    · by_cases array : slot.1 = none ∧ slot.2.isArray = true
      · exact .inr fun slot' mem both => (behind slot' mem).2.1 ⟨array.1, array.2, both⟩
      · exact indices.imp (fun same => same.trans (masterIndices_of_arraysOf (frame.arrays array)).symm)
          fun none slot' mem => none slot' (List.mem_cons_of_mem _ mem)
    · intro j slot' at_j
      rcases Nat.lt_or_ge j before.length with old | last
      · rw [List.getElem?_append_left old] at at_j
        exact (passed j slot' at_j).frame frame
          ((List.pairwise_append.mp (List.pairwise_append.mp apart).1).2.2 slot' (List.mem_of_getElem? at_j) slot List.mem_cons_self)
      · rw [List.getElem?_append_right last] at at_j
        obtain rfl := List.mem_singleton.mp (List.mem_of_getElem? at_j)
        have place := (List.getElem?_eq_some_iff.mp at_j).1
        obtain rfl : j = before.length := by
          rw [List.length_singleton] at place
          omega
        exact here

theorem settled_doAnyMerge (texts : ∀ s, conv.asCharPtr s = conv.asString s) (value : Any S A) (repeatable : Repeatable value)
    (isArray : value.isArray = true) (c : Any S A) (fits : Fits value c) :
    Settled conv mark bOverwriteSlots value (doAnyMerge conv mark bOverwriteSlots false value c).2 := by
  induction value using induct generalizing c with
  | leaf v leaf => exact absurd isArray (by simp [leaf])
  | array m slots ih =>
    rw [Repeatable, repeatableSlots_iff] at repeatable
    obtain ⟨apart, each⟩ := repeatable
    rw [Fits] at fits
    rw [doAnyMerge]
    have merged : ∀ slot ∈ slots, slot.2.isArray = true → ∀ c, Fits slot.2 c →
        Settled conv mark bOverwriteSlots slot.2 (doAnyMerge conv mark bOverwriteSlots false slot.2 c).2 := fun slot mem isArray c fits =>
      ih slot mem (each slot mem).2 isArray c fits
    have none : ∀ j slot, ([] : List (Option Bytes × Any S A))[j]? = some slot → Passed conv mark bOverwriteSlots j slot c := by simp
    apply settled_of_passed fun slot mem => (each slot mem).1
    exact passed_mergeSlots texts apart each merged fits (.inl rfl) none 0

theorem doAnyMerge_simple (s : S) (c : Any S A) : (doAnyMerge conv mark bOverwriteSlots false (simple s) c).2 =
    if bOverwriteSlots = true ∧ c.asString conv ≠ conv.asString s then simple s else c := by
  rw [doAnyMerge]
  by_cases same : c.asString conv = conv.asString s
  · simp [same]
  · cases bOverwriteSlots <;> simp [same]

end Run

end Coast.Any
