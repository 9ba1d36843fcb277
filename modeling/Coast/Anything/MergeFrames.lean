import Coast.Anything.MergeHits

/-!
# What the passes of a merge leave alone

The pass over a named slot changes the value with that name. The pass over an unnamed one appends, or changes one of
the master's unnamed arrays.
-/

namespace Coast.Any

variable {S A : Type}

def arraysOf (c : Any S A) : List (Nat × Any S A) := c.masterIndices.map fun m => (m, c.child m)

structure Frame (conv : Conversions S) (slot : Option Bytes × Any S A) (c c' : Any S A) : Prop where
  defined : ∀ k, slot.1 ≠ some k → c'.isDefined k = c.isDefined k
  named : ∀ k, slot.1 ≠ some k → c'.named k = c.named k
  arrays : ¬(slot.1 = none ∧ slot.2.isArray = true) → c'.arraysOf = c.arraysOf
  contains : slot.1 = none → c.isArray = true → ∀ k, c.contains conv k = true → c'.contains conv k = true
  kept : c.isArray = true → c'.isArray = true
  simple : ∀ s, c' = simple s → c = simple s

section Frames

variable {conv : Conversions S} {mark : A} {slot : Option Bytes × Any S A} {slots : List (Option Bytes × Any S A)} {m : A}
  {value c c' : Any S A} {f : Any S A → Any S A} {i j : Nat} {k : Bytes}

theorem arraysOf_congr (indices : c'.masterIndices = c.masterIndices) (same : ∀ j ∈ c.masterIndices, c'.child j = c.child j) :
    c'.arraysOf = c.arraysOf := by
  rw [arraysOf, arraysOf, indices]
  exact List.map_congr_left fun j mem => by rw [same j mem]

theorem masterIndices_of_arraysOf (same : c'.arraysOf = c.arraysOf) : c'.masterIndices = c.masterIndices := by
  have indices : ∀ c : Any S A, c.arraysOf.map Prod.fst = c.masterIndices := by
    intro c
    rw [arraysOf, List.map_map]
    exact List.map_id _
  rw [← indices, same, indices]

theorem child_of_arraysOf (same : c'.arraysOf = c.arraysOf) (mem : j ∈ c.masterIndices) : c'.child j = c.child j := by
  have pair : (j, c.child j) ∈ c'.arraysOf := same ▸ List.mem_map_of_mem mem
  obtain ⟨j', -, here⟩ := List.mem_map.mp pair
  obtain ⟨rfl, here⟩ := Prod.mk.inj here
  exact here

theorem target_of_arraysOf (same : c'.arraysOf = c.arraysOf) (bOverwriteSlots : Bool) (value : Any S A) :
    target conv mark bOverwriteSlots c'.masterIndices i value c' = target conv mark bOverwriteSlots c.masterIndices i value c := by
  have through : ∀ c : Any S A, target conv mark bOverwriteSlots c.masterIndices i value c =
      winner (c.arraysOf.map fun p => (p.1, (doAnyMerge conv mark bOverwriteSlots true value p.2).1)) i := by
    intro c
    rw [arraysOf, List.map_map]
    rfl
  rw [through, through, same]

theorem masterIndices_append : (array m (slots ++ [slot])).masterIndices =
    (array m slots).masterIndices ++ if slot.1.isNone && slot.2.isArray then [slots.length] else [] := by
  rw [masterIndices, masterIndices, List.length_append, List.length_singleton, List.range_succ, List.filter_append]
  congr 1
  · refine List.filter_congr fun j mem => ?_
    rw [List.getElem?_append_left (List.mem_range.mp mem)]
  · simp [List.filter_cons]

theorem lt_of_mem_masterIndices (mem : j ∈ (array m slots).masterIndices) : j < slots.length :=
  List.mem_range.mp (List.mem_filter.mp mem).1

theorem arraysOf_append (other : ¬(slot.1 = none ∧ slot.2.isArray = true)) : (array m (slots ++ [slot])).arraysOf = (array m slots).arraysOf := by
  have none : (slot.1.isNone && slot.2.isArray) = false := by
    rw [← Bool.not_eq_true, Bool.and_eq_true, Option.isNone_iff_eq_none]
    exact other
  apply arraysOf_congr
  · rw [masterIndices_append, none, if_neg Bool.false_ne_true, List.append_nil]
  · intro j mem
    exact child_append_left _ (lt_of_mem_masterIndices mem)

theorem masterIndices_modifyChild (kept : ∀ slot, slots[i]? = some slot → slot.1 = none → (f slot.2).isArray = slot.2.isArray) :
    ((array m slots).modifyChild i f).masterIndices = (array m slots).masterIndices := by
  rw [modifyChild, masterIndices, masterIndices, List.length_modify]
  refine List.filter_congr fun j _ => ?_
  rw [List.getElem?_modify]
  by_cases here : i = j
  · subst here
    cases at_i : slots[i]? with
    | none => rfl
    | some slot =>
      obtain ⟨name, value⟩ := slot
      cases name with
      | none => simp [kept _ at_i rfl]
      | some k => simp
  · simp [here]

theorem arraysOf_expand (mark : A) (c : Any S A) : (c.expand mark).arraysOf = c.arraysOf := by
  cases c with
  | null => rfl
  | simple s => rfl
  | array m slots => rfl

theorem Frame.refl (slot : Option Bytes × Any S A) (c : Any S A) : Frame conv slot c c where
  defined _ _ := rfl
  named _ _ := rfl
  arrays _ := rfl
  contains _ _ _ here := here
  kept here := here
  simple _ here := here

theorem isArray_withName (k : Bytes) (f : Any S A → Any S A) (c : Any S A) : (c.withName mark k f).isArray = true := by
  obtain ⟨m, slots, shape⟩ := expand_array mark c
  rw [withName_expand, shape]
  have grown : Extends (array m slots) ((array m slots).withName mark k f) := extends_withName k f
  obtain ⟨slots', same, -⟩ := grown m slots rfl
  rw [same]
  rfl

theorem ne_simple (array : c.isArray = true) (s : S) : c ≠ simple s := by
  rintro rfl
  cases array

theorem frame_withName (isNamed : k ≠ []) (value : Any S A) (f : Any S A → Any S A) (c : Any S A) :
    Frame conv (some k, value) c (c.withName mark k f) where
  defined k' other := isDefined_withName k k' f c (fun same => other (congrArg some same.symm)) isNamed
  named k' other := by
    rw [named_withName, if_neg fun both => other (congrArg some both.1.symm)]
  arrays _ := by
    obtain ⟨m, slots, shape⟩ := expand_array mark c
    rw [withName_expand, ← arraysOf_expand mark c, shape, withName_array isNamed, change_eq]
    cases found : slots.findIdx? fun slot => slot.1 = some k with
    | none =>
      apply arraysOf_append
      rintro ⟨⟨⟩, -⟩
    | some i =>
      obtain ⟨inside, own, -⟩ := List.findIdx?_eq_some_iff_getElem.mp found
      have own : slots[i].1 = some k := of_decide_eq_true own
      apply arraysOf_congr
      · apply masterIndices_modifyChild
        intro slot at_i unnamed
        rw [List.getElem?_eq_getElem inside] at at_i
        rw [← Option.some.inj at_i, own] at unnamed
        cases unnamed
      · intro j mem
        apply child_modifyChild_ne
        rintro rfl
        have unnamed := (List.mem_filter.mp mem).2
        rw [List.getElem?_eq_getElem inside] at unnamed
        simp [own] at unnamed
  contains unnamed := by cases unnamed
  kept _ := isArray_withName k f c
  simple s here := absurd here (ne_simple (isArray_withName k f c) s)

theorem contains_append (here : c.contains conv k = true) (isArray : c.isArray = true) : (append mark value c).contains conv k = true := by
  cases c with
  | null => cases isArray
  | simple s => cases isArray
  | array m slots =>
    rw [append_array, contains, List.any_append]
    rw [contains] at here
    simp [here]

theorem frame_append (sort : value.isArray = slot.2.isArray) (unnamed : slot.1 = none) (c : Any S A) :
    Frame conv slot c (append mark value c) where
  defined k _ := by
    obtain ⟨m, slots, shape⟩ := expand_array mark c
    rw [append_expand, ← isDefined_expand mark c, shape, append_array]
    by_cases empty : k = []
    · rw [empty]
      rfl
    · rw [isDefined_array empty, isDefined_array empty, List.find?_append]
      simp
  named k _ := by
    obtain ⟨m, slots, shape⟩ := expand_array mark c
    rw [append_expand, ← named_expand mark k c, shape, append_array, named_array, named_array, List.find?_append]
    simp
  arrays other := by
    obtain ⟨m, slots, shape⟩ := expand_array mark c
    rw [append_expand, ← arraysOf_expand mark c, shape, append_array]
    apply arraysOf_append
    rw [sort]
    exact fun both => other ⟨unnamed, both.2⟩
  contains _ isArray k here := contains_append here isArray
  kept isArray := by
    cases c with
    | null => cases isArray
    | simple s => cases isArray
    | array m slots =>
      rw [append_array]
      rfl
  simple s same := by
    obtain ⟨m, slots, shape⟩ := expand_array mark c
    rw [append_expand, shape, append_array] at same
    cases same

theorem asCharPtr_isArray (isArray : c.isArray = true) : c.asCharPtr conv = ascii "AnyArrayImpl" := by
  cases c with
  | null => cases isArray
  | simple s => cases isArray
  | array m slots => rfl

theorem frame_modifyChild (sort : slot.1 = none ∧ slot.2.isArray = true) (mem : i ∈ c.masterIndices)
    (isArray : (f (c.child i)).isArray = true) : Frame conv slot c (c.modifyChild i f) := by
  cases c with
  | null => cases mem
  | simple s => cases mem
  | array m slots =>
    obtain ⟨⟨name, old⟩, at_i, both⟩ := (Option.any_eq_true _ _).mp (List.mem_filter.mp mem).2
    obtain ⟨unnamed, oldArray⟩ := Bool.and_eq_true_iff.mp both
    obtain rfl := Option.isNone_iff_eq_none.mp unnamed
    have here : (array m slots).child i = old := by rw [child, at_i]; rfl
    rw [here] at isArray
    exact {
      defined k _ := by rw [isDefined, isDefined, findIndex_modifyChild]
      named k _ := by
        rw [Any.named, Any.named, findIndex_modifyChild]
        cases found : (array m slots).findIndex k with
        | none => rfl
        | some j =>
          have isNamed : k ≠ [] := by
            rintro rfl
            cases found
          rw [findIndex_array isNamed] at found
          obtain ⟨inside, own, -⟩ := List.findIdx?_eq_some_iff_getElem.mp found
          apply child_modifyChild_ne (m := m)
          rintro rfl
          rw [List.getElem?_eq_getElem inside] at at_i
          rw [Option.some.inj at_i] at own
          simp at own
      arrays other := absurd sort other
      contains _ _ k found := by
        rw [Any.contains, List.any_eq_true] at found
        obtain ⟨slot', mem', same⟩ := found
        obtain ⟨j, at_j⟩ := List.mem_iff_getElem?.mp mem'
        rw [modifyChild, Any.contains, List.any_eq_true]
        by_cases own : i = j
        · subst own
          obtain rfl := Option.some.inj (at_i.symm.trans at_j)
          refine ⟨(none, f old), List.mem_of_getElem? (i := i) (by rw [List.getElem?_modify, at_i]; simp), ?_⟩
          rw [asCharPtr_isArray isArray]
          rw [asCharPtr_isArray oldArray] at same
          exact same
        · exact ⟨slot', List.mem_of_getElem? (i := j) (by rw [List.getElem?_modify, at_j]; simp [own]), same⟩
      kept _ := rfl
      simple s same := by cases same }

/-! ### A pass -/

variable {bOverwriteSlots : Bool} {n : Nat}

theorem isArray_doAnyMerge (isArray : value.isArray = true) (into : c.isArray = true) :
    (doAnyMerge conv mark bOverwriteSlots false value c).2.isArray = true := by
  cases c with
  | null => cases into
  | simple s => cases into
  | array m slots =>
    obtain ⟨slots', same⟩ := isArray_anyMerge conv mark ⟨slots, rfl⟩ value isArray bOverwriteSlots
    rw [anyMerge] at same
    rw [same]
    rfl

theorem isArray_deepClone (value : Any S A) : (value.deepClone mark).isArray = value.isArray := by
  cases value with
  | null => rfl
  | simple s => rfl
  | array m slots => rfl

theorem mergeSlot_leaf (leaf : value.isArray = false) (anyMasterIdx : List Nat) :
    (mergeSlot conv mark bOverwriteSlots false anyMasterIdx i (none, value) (n, c)).2 =
      if c.contains conv (value.asString conv) then c else append mark (value.deepClone mark) c := by
  rw [mergeSlot_cases]
  cases c.contains conv (value.asString conv) <;> simp [leaf]

theorem mergeSlot_array (isArray : value.isArray = true) (anyMasterIdx : List Nat) :
    (mergeSlot conv mark bOverwriteSlots false anyMasterIdx i (none, value) (n, c)).2 =
      if anyMasterIdx = [] then append mark (value.deepClone mark) c
      else c.modifyChild (target conv mark bOverwriteSlots anyMasterIdx i value c) fun m => (doAnyMerge conv mark bOverwriteSlots false value m).2 := by
  rw [mergeSlot_cases]
  by_cases none : anyMasterIdx = [] <;> simp [isArray, none]

theorem mergeSlot_named_leaf (isNamed : k ≠ []) (leaf : value.isArray = false) (anyMasterIdx : List Nat) :
    (mergeSlot conv mark bOverwriteSlots false anyMasterIdx i (some k, value) (n, c)).2 =
      if c.isDefined k = false ∨ bOverwriteSlots = true then c.withName mark k fun _ => value.deepClone mark else c := by
  rw [mergeSlot_cases]
  simp [leaf, isNamed]

theorem mergeSlot_named_array (isNamed : k ≠ []) (isArray : value.isArray = true) (anyMasterIdx : List Nat) :
    (mergeSlot conv mark bOverwriteSlots false anyMasterIdx i (some k, value) (n, c)).2 = c.withName mark k fun _ =>
      if c.isDefined k then (doAnyMerge conv mark bOverwriteSlots false value (c.named k)).2 else value.deepClone mark := by
  rw [mergeSlot_cases]
  cases defined : c.isDefined k <;> simp [isArray, isNamed, defined]

theorem frame_mergeSlot (plain : slot.1 ≠ some []) : Frame conv slot c
    (mergeSlot conv mark bOverwriteSlots false c.masterIndices i slot (n, c)).2 := by
  obtain ⟨name, value⟩ := slot
  cases name with
  | none =>
    cases sort : value.isArray with
    | false =>
      rw [mergeSlot_leaf sort]
      split
      · exact .refl _ c
      · exact frame_append (isArray_deepClone value) rfl c
    | true =>
      rw [mergeSlot_array sort]
      split
      · exact frame_append (isArray_deepClone value) rfl c
      · rename_i arrays
        have mem := target_mem conv mark bOverwriteSlots arrays i value c
        exact frame_modifyChild ⟨rfl, sort⟩ mem (isArray_doAnyMerge sort (masterIndices_arrays c _ mem))
  | some k =>
    have isNamed : k ≠ [] := fun empty => plain (congrArg some empty)
    cases sort : value.isArray with
    | false =>
      rw [mergeSlot_named_leaf isNamed sort]
      split
      · exact frame_withName isNamed value _ c
      · exact .refl _ c
    | true =>
      rw [mergeSlot_named_array isNamed sort]
      exact frame_withName isNamed value _ c

end Frames

end Coast.Any
