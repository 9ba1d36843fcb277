import Coast.Anything.ArrayBijection
import Coast.Anything.ArrayRefinement

/-!
# The order of a sorted array

A sort shows the pairs of name and value in order, equal ones where they stood, and the key table finds
each of them at its new position.
-/

namespace Coast.Anything

open AnyArrayImpl LinearProbing

variable {V : Type}

/-! ### Comparisons -/

theorem stringCompare_total (s t : Bytes) : stringCompare s t ≤ 0 ∨ stringCompare t s ≤ 0 := by
  induction s, t using stringCompare.induct with
  | case1 => exact .inl (Int.le_refl 0)
  | case2 => exact .inl (by rw [stringCompare]; decide)
  | case3 => exact .inr (by rw [stringCompare]; decide)
  | case4 c s d t less => exact .inl (by rw [stringCompare, if_pos less]; decide)
  | case5 c s d t _ less => exact .inr (by rw [stringCompare, if_pos less]; decide)
  | case6 c s d t up down ih =>
    rw [stringCompare, if_neg up, if_neg down, stringCompare, if_neg down, if_neg up]
    exact ih

theorem stringCompare_cons_le {c d : UInt8} {s t : Bytes} :
    stringCompare (c :: s) (d :: t) ≤ 0 ↔ c < d ∨ (c = d ∧ stringCompare s t ≤ 0) := by
  rw [stringCompare]
  split
  · rename_i less
    exact ⟨fun _ => .inl less, fun _ => by decide⟩
  · rename_i up
    split
    · rename_i down
      refine ⟨fun le => absurd le (by decide), ?_⟩
      rintro (less | ⟨rfl, -⟩)
      · exact absurd less up
      · exact absurd down up
    · rename_i down
      have same : c = d := UInt8.le_antisymm (UInt8.not_lt.mp down) (UInt8.not_lt.mp up)
      exact ⟨fun le => .inr ⟨same, le⟩, fun either => (either.resolve_left up).2⟩

theorem stringCompare_trans {s t u : Bytes} (first : stringCompare s t ≤ 0) (second : stringCompare t u ≤ 0) :
    stringCompare s u ≤ 0 := by
  induction t generalizing s u with
  | nil =>
    cases s with
    | nil => exact second
    | cons c s => exact absurd first (by rw [stringCompare]; decide)
  | cons d t ih =>
    cases u with
    | nil => exact absurd second (by rw [stringCompare]; decide)
    | cons e u =>
      cases s with
      | nil => rw [stringCompare]; decide
      | cons c s =>
        rw [stringCompare_cons_le] at first second ⊢
        rcases first with less | ⟨rfl, first⟩
        · rcases second with less' | ⟨rfl, -⟩
          · exact .inl (UInt8.lt_trans less less')
          · exact .inl less
        · rcases second with less' | ⟨rfl, second⟩
          · exact .inl less'
          · exact .inr ⟨rfl, ih first second⟩

theorem stringCompare_swap (s t : Bytes) : - stringCompare s t ≤ 0 ↔ stringCompare t s ≤ 0 := by
  induction s, t using stringCompare.induct with
  | case1 => exact Iff.rfl
  | case2 d t =>
    have forth : stringCompare [] (d :: t) = -1 := by rw [stringCompare]
    have back : stringCompare (d :: t) [] = 1 := by rw [stringCompare]
    omega
  | case3 c s =>
    have forth : stringCompare (c :: s) [] = 1 := by rw [stringCompare]
    have back : stringCompare [] (c :: s) = -1 := by rw [stringCompare]
    omega
  | case4 c s d t less =>
    have forth : stringCompare (c :: s) (d :: t) = -1 := by rw [stringCompare, if_pos less]
    have back : stringCompare (d :: t) (c :: s) = 1 := by rw [stringCompare, if_neg (UInt8.lt_asymm less), if_pos less]
    omega
  | case5 c s d t up less =>
    have forth : stringCompare (c :: s) (d :: t) = 1 := by rw [stringCompare, if_neg up, if_pos less]
    have back : stringCompare (d :: t) (c :: s) = -1 := by rw [stringCompare, if_pos less]
    omega
  | case6 c s d t up down ih =>
    rw [stringCompare, if_neg up, if_neg down, stringCompare, if_neg down, if_neg up]
    exact ih

/-- `SortByKey`, `SortReverseByKey` and `SortByAnyComparer`. -/
inductive Sorting (V : Type) where
  | byKey
  | reverseByKey
  | byAnyComparer (compare : V → V → Int)

namespace Sorting

def apply [Inhabited V] : Sorting V → AnyArrayImpl V → Exec (AnyArrayImpl V)
  | byKey, a => a.sortByKey
  | reverseByKey, a => a.sortReverseByKey
  | byAnyComparer compare, a => a.sortByAnyComparer compare

def compare : Sorting V → Option Bytes × V → Option Bytes × V → Int
  | byKey, p, q => stringCompare (p.1.getD []) (q.1.getD [])
  | reverseByKey, p, q => - stringCompare (p.1.getD []) (q.1.getD [])
  | byAnyComparer compare, p, q => compare p.2 q.2

def le (s : Sorting V) (p q : Option Bytes × V) : Bool := decide (s.compare p q ≤ 0)

def Preorder : Sorting V → Prop
  | byAnyComparer compare => (∀ v w, compare v w ≤ 0 ∨ compare w v ≤ 0) ∧
      ∀ u v w, compare u v ≤ 0 → compare v w ≤ 0 → compare u w ≤ 0
  | _ => True

theorem le_total {s : Sorting V} (preorder : s.Preorder) (p q : Option Bytes × V) : (s.le p q || s.le q p) = true := by
  rw [Bool.or_eq_true, le, le, decide_eq_true_eq, decide_eq_true_eq]
  cases s with
  | byKey => exact stringCompare_total ..
  | reverseByKey =>
    rw [compare, compare, stringCompare_swap, stringCompare_swap]
    exact stringCompare_total ..
  | byAnyComparer compare => exact preorder.1 ..

theorem le_trans {s : Sorting V} (preorder : s.Preorder) (p q r : Option Bytes × V) (first : s.le p q = true)
    (second : s.le q r = true) : s.le p r = true := by
  rw [le, decide_eq_true_eq] at first second ⊢
  cases s with
  | byKey => exact stringCompare_trans first second
  | reverseByKey =>
    rw [compare, stringCompare_swap] at first second ⊢
    exact stringCompare_trans second first
  | byAnyComparer compare => exact preorder.2 _ _ _ first second

end Sorting

/-! ### Rows -/

variable [Inhabited V] {a : AnyArrayImpl V}

namespace AnyArrayImpl

def row (assoc : AnyKeyAssoc V) : Option Bytes × V :=
  (if assoc.fKey.length > 0 then some assoc.fKey else none, assoc.fValue)

omit [Inhabited V] in
theorem row_name (assoc : AnyKeyAssoc V) : (row assoc).1.getD [] = assoc.fKey := by
  rw [row]
  split
  · rfl
  · rename_i short
    exact (List.length_eq_zero_iff.mp (by omega)).symm

omit [Inhabited V] in
theorem row_named {assoc : AnyKeyAssoc V} {k : Bytes} : (row assoc).1 = some k ↔ assoc.fKey = k ∧ k ≠ [] := by
  rw [row]
  split
  · rename_i long
    rw [Option.some.injEq]
    exact ⟨fun same => ⟨same, same ▸ List.ne_nil_of_length_pos long⟩, And.left⟩
  · rename_i short
    refine ⟨fun none => absurd none.symm (Option.some_ne_none k), ?_⟩
    rintro ⟨rfl, named⟩
    exact absurd (List.length_eq_zero_iff.mp (by omega)) named

theorem Shape.observe_eq (shape : a.Shape) : a.observe = .ok (((List.range a.fSize).map a.assocOf).map row) := by
  rw [observe, mapM_ok (g := fun i => row (a.assocOf i)) _ fun i member => ?_, List.map_map]
  · rfl
  · have inside := List.mem_range.mp member
    rw [slotName_ok shape inside, atSlotConst_ok shape inside]
    rfl

/-! ### Sorted cells -/

omit [Inhabited V] in
theorem Shape.cells_eq (shape : a.Shape) : (List.range a.fSize).map a.cellOf = a.fInd.fIndexTable.take a.fSize := by
  have taken : (a.fInd.fIndexTable.take a.fSize).length = a.fSize := by
    rw [← shape.ind_size]
    exact shape.ind.take_length
  refine List.ext_getElem (by rw [List.length_map, List.length_range, taken]) fun i h _ => ?_
  have inside : i < a.fSize := by simpa using h
  have short : i < (a.fInd.fIndexTable.take a.fInd.fSize).length := by
    rw [shape.ind_size, taken]
    exact inside
  have cell := shape.getD_view inside
  rw [AnyIndTable.view, List.getD_append _ _ _ _ short, List.getD_eq_getElem _ _ short] at cell
  rw [List.getElem_map, List.getElem_range, ← cell]
  simp only [shape.ind_size]

omit [Inhabited V] in
theorem sorted_cells (wf : a.Wf) (le : Nat → Nat → Bool) :
    (List.range a.fSize).map (a.sorted le).cellOf = ((List.range a.fSize).map a.cellOf).mergeSort le := by
  have wf' := wf_withIndex wf (List.mergeSort_perm (a.fInd.fIndexTable.take a.fSize) le)
  have count : ((a.fInd.fIndexTable.take a.fSize).mergeSort le).length = a.fSize := by
    rw [List.length_mergeSort, ← wf.toShape.ind_size]
    exact wf.toShape.ind.take_length
  refine (Shape.cells_eq wf'.toShape).trans ?_
  rw [wf.toShape.cells_eq]
  exact List.take_left' count

omit [Inhabited V] in
theorem sorted_cellOf_ge (wf : a.Wf) (le : Nat → Nat → Bool) {i : Nat} (outside : a.fSize ≤ i) :
    (a.sorted le).cellOf i = a.cellOf i := by
  have count : ((a.fInd.fIndexTable.take a.fSize).mergeSort le).length = a.fSize := by
    rw [List.length_mergeSort, ← wf.toShape.ind_size]
    exact wf.toShape.ind.take_length
  have size := wf.toShape.ind_size
  have view : (a.sorted le).fInd.view =
      (a.fInd.fIndexTable.take a.fSize).mergeSort le ++ a.fInd.fEmptyTable.drop a.fInd.fSize := by
    show (_ ++ a.fInd.fIndexTable.drop a.fSize).take a.fInd.fSize ++ _ = _
    rw [List.take_append_of_le_length (by omega), List.take_of_length_le (by omega)]
    rfl
  have taken := wf.toShape.ind.take_length
  rw [cellOf, view, List.getD_append_right _ _ _ _ (by omega), cellOf, AnyIndTable.view,
    List.getD_append_right _ _ _ _ (by omega), count, taken, size]

theorem assocs_sorted (wf : a.Wf) {le : Nat → Nat → Bool} {order : AnyKeyAssoc V → AnyKeyAssoc V → Bool}
    (same : ∀ l r, le l r = order (a.assocAt l) (a.assocAt r)) :
    (List.range a.fSize).map (a.sorted le).assocOf = ((List.range a.fSize).map a.assocOf).mergeSort order := by
  have after : (List.range a.fSize).map (a.sorted le).assocOf = ((List.range a.fSize).map (a.sorted le).cellOf).map a.assocAt := by
    rw [List.map_map]
    rfl
  have before : (List.range a.fSize).map a.assocOf = ((List.range a.fSize).map a.cellOf).map a.assocAt := by
    rw [List.map_map]
    rfl
  rw [after, before, sorted_cells wf, List.map_mergeSort fun l _ r _ => same l r]

/-! ### Names -/

theorem distinct_iff : a.Distinct ↔ (∀ assoc ∈ (List.range a.fSize).map a.assocOf, 0 ∉ assoc.fKey) ∧
    (((List.range a.fSize).map a.assocOf).filterMap fun assoc => (row assoc).1).Nodup := by
  rw [List.filterMap_map, List.Nodup, List.pairwise_filterMap, List.pairwise_iff_getElem]
  simp only [List.getElem_range, List.length_range, List.forall_mem_map, List.mem_range, Function.comp_apply]
  constructor
  · intro distinct
    refine ⟨distinct.plain, fun i j hi hj less k hk l hl same => ?_⟩
    obtain ⟨hi', named⟩ := row_named.mp hk
    have again := distinct.apart i hi j hj (hi' ▸ named) (by rw [hi', (row_named.mp hl).1, same])
    omega
  · rintro ⟨plain, apart⟩
    refine ⟨plain, fun i hi j hj named same => ?_⟩
    rcases Nat.lt_trichotomy i j with less | rfl | less
    · exact absurd rfl (apart i j hi hj less _ (row_named.mpr ⟨rfl, named⟩) _ (row_named.mpr ⟨same.symm, named⟩))
    · rfl
    · exact absurd rfl (apart j i hj hi less _ (row_named.mpr ⟨same.symm, named⟩) _ (row_named.mpr ⟨rfl, named⟩))

theorem findIndex_rows (wf : a.Wf) (distinct : a.Distinct) (keyed : a.fKeys = none → ∀ i < a.fSize, (a.assocOf i).fKey = [])
    (table : ∀ t ∈ a.fKeys, t.Indexed (fun l => (a.assocOf l).fKey) ∧
      ∀ l, l ∈ contents t.fHashTable ↔ l < a.fSize ∧ (a.assocOf l).fKey ≠ []) {k : Bytes} (plain : 0 ∉ k) :
    a.findIndex k = .ok ((((List.range a.fSize).map a.assocOf).map row).findIdx? fun r => r.1 = some k) := by
  have here : ∀ i (h : i < (((List.range a.fSize).map a.assocOf).map row).length),
      (((List.range a.fSize).map a.assocOf).map row)[i].1 = some k ↔ (a.assocOf i).fKey = k ∧ k ≠ [] := by
    intro i h
    rw [List.getElem_map, List.getElem_map, List.getElem_range]
    exact row_named
  have length : (((List.range a.fSize).map a.assocOf).map row).length = a.fSize := by
    rw [List.length_map, List.length_map, List.length_range]
  have absent : (∀ i < a.fSize, ¬((a.assocOf i).fKey = k ∧ k ≠ [])) →
      (((List.range a.fSize).map a.assocOf).map row).findIdx? (fun r => r.1 = some k) = none := by
    intro no
    rw [List.findIdx?_eq_none_iff]
    intro r member
    obtain ⟨i, h, rfl⟩ := List.getElem_of_mem member
    rw [decide_eq_false_iff_not, here i h]
    exact no i (length ▸ h)
  rw [findIndex]
  cases keys : a.fKeys with
  | none =>
    rw [absent fun i inside found => found.2 (found.1 ▸ keyed keys i inside)]
    rfl
  | some t =>
    obtain ⟨indexed, members⟩ := table t keys
    have lookup := keyAt_iff wf.toShape (wf.keys t keys) indexed plain
    rcases keyAt_ok wf.toShape (wf.keys t keys) k with missed | ⟨slot, inside, found⟩
    · refine missed.trans (congrArg Except.ok (absent fun i below own => ?_).symm)
      rw [(lookup i).mpr ⟨(members i).mpr ⟨below, own.1 ▸ own.2⟩, own.1⟩] at missed
      cases missed
    · refine found.trans (congrArg Except.ok ?_)
      obtain ⟨member, own⟩ := (lookup slot).mp found
      have named : k ≠ [] := own ▸ ((members slot).mp member).2
      refine (List.findIdx?_eq_some_iff_getElem.mpr ⟨length.symm ▸ inside, ?_, fun j earlier => ?_⟩).symm
      · rw [decide_eq_true_eq, here]
        exact ⟨own, named⟩
      · intro hit
        rw [decide_eq_true_eq, here] at hit
        have again := distinct.apart j (by omega) slot inside (hit.1 ▸ named) (hit.1.trans own.symm)
        omega

structure Tabled (a : AnyArrayImpl V) : Prop extends Wf a where
  plain : ∀ i, 0 ∉ (a.assocOf i).fKey
  unnamed : a.fKeys = none → ∀ i, (a.assocOf i).fKey = []

theorem assocOf_new (i : Nat) : (new : AnyArrayImpl V).assocOf i = blank := by
  rw [assocOf, assocAt, new, List.getD_eq_getElem?_getD, List.getElem?_replicate]
  split <;> rfl

theorem tabled_new : (new : AnyArrayImpl V).Tabled := by
  refine ⟨wf_new, fun i => ?_, fun _ i => ?_⟩
  · rw [assocOf_new]
    exact List.not_mem_nil
  · rw [assocOf_new]
    rfl

variable {a' : AnyArrayImpl V}

theorem Tabled.of_keys (tabled : a.Tabled) (wf : a'.Wf) (keys : a'.fKeys = none → a.fKeys = none)
    (from_ : ∀ i, ∃ j, (a'.assocOf i).fKey = (a.assocOf j).fKey) : a'.Tabled := by
  refine ⟨wf, fun i => ?_, fun none i => ?_⟩
  · obtain ⟨j, same⟩ := from_ i
    rw [same]
    exact tabled.plain j
  · obtain ⟨j, same⟩ := from_ i
    rw [same]
    exact tabled.unnamed (keys none) j

theorem Tabled.modifyCell (tabled : a.Tabled) {pos : Nat} (inside : pos < a.fCapacity) (v : Option V) :
    (a.modifyCell pos (AnyKeyAssoc.put v)).Tabled := by
  refine tabled.of_keys (tabled.toWf.modifyCell _ _) id fun i => ⟨i, ?_⟩
  refine (congrArg AnyKeyAssoc.fKey (tabled.toShape.assocAt_modifyCell inside _ (a.cellOf i))).trans ?_
  split
  · rename_i here
    rw [← here]
    rfl
  · rfl

theorem Tabled.atSlot (tabled : a.Tabled) (slot : Nat) (v : Option V)
    (done : (Edit.atSlot slot v : Edit (Option Bytes) V).apply id a = .ok a') : a'.Tabled := by
  obtain ⟨b, reached, wf, _, keys, assocs, _⟩ := atSlot_effect id tabled.toWf slot v
  obtain rfl := Except.ok.inj (reached.symm.trans done)
  refine tabled.of_keys wf (fun none => keys ▸ none) fun i => ⟨i, ?_⟩
  rw [assocs]
  split <;> rfl

theorem Tabled.atKey (tabled : a.Tabled) {key : Option Bytes} (plain : 0 ∉ key.getD []) (v : Option V)
    (done : (Action.edit (.atKey key v)).applyStray a = .ok a') : a'.Tabled := by
  rcases findIndex_ok tabled.toWf (key.getD []) with absent | ⟨slot, below, found⟩
  · by_cases room : a.fSize < a.fCapacity
    · obtain ⟨b, t, reached, wf, _, assocs, _, keys, _⟩ := atKey_new_effect tabled.toWf (show a.findIndex ((id key).getD []) = _ from absent) room v
      have stray := Action.applyStray_eq (x := .edit (.atKey key v)) reached
      obtain rfl := Except.ok.inj (stray.symm.trans done)
      refine ⟨wf, fun i => ?_, fun none => absurd (keys.symm.trans none) (Option.some_ne_none t)⟩
      rw [assocs]
      split
      · exact plain
      · exact tabled.plain i
    · have size := tabled.toShape.size_le
      obtain ⟨b, reached, wf, cells, assocs, keys, larger⟩ := atKeyStray_full tabled.toWf absent (by omega)
      have inside : a.cellOf a.fSize < b.fCapacity := cells ▸ wf.toShape.cellOf_lt larger
      rw [Action.applyStray, reached] at done
      obtain rfl := Except.ok.inj ((put_eq wf.toShape inside v).symm.trans done)
      refine Tabled.modifyCell ⟨wf, fun i => ?_, fun none => absurd none keys⟩ inside v
      rw [assocs]
      exact tabled.plain i
  · obtain ⟨reached, inside⟩ := atKey_old_effect tabled.toWf (show a.findIndex ((id key).getD []) = _ from found) v
    have stray := Action.applyStray_eq (x := .edit (.atKey key v)) reached
    obtain rfl := Except.ok.inj (stray.symm.trans done)
    exact tabled.modifyCell (Nat.lt_of_lt_of_le inside tabled.toShape.size_le) v

theorem Tabled.remove (tabled : a.Tabled) {slot : Nat} (done : a.remove slot = .ok a') : a'.Tabled := by
  by_cases inside : slot < a.fSize
  · obtain ⟨b, removed, wf, _, keys, assocs⟩ := remove_effect tabled.toWf inside
    obtain rfl := Except.ok.inj (removed.symm.trans done)
    refine tabled.of_keys wf (fun none => Option.map_eq_none_iff.mp (keys.symm.trans none)) fun i => ?_
    rw [assocs]
    split
    · exact ⟨slot, rfl⟩
    · unfold removedAt
      split
      · exact ⟨i, rfl⟩
      · split
        · exact ⟨i + 1, rfl⟩
        · exact ⟨i, rfl⟩
  · rw [remove_of_ge inside] at done
    exact Except.ok.inj done ▸ tabled

theorem Tabled.insertReserve (tabled : a.Tabled) {pos size : Nat} (inside : pos ≤ a.fSize) (some : 0 < a.fSize + size)
    (done : a.insertReserve pos size = .ok a') : a'.Tabled := by
  obtain ⟨b, reserved, wf, _, keys, assocs⟩ := insertReserve_effect tabled.toWf inside some
  obtain rfl := Except.ok.inj (reserved.symm.trans done)
  refine tabled.of_keys wf (fun none => Option.map_eq_none_iff.mp (keys.symm.trans none)) fun i => ?_
  rw [assocs]
  unfold insertedAt
  split
  · exact ⟨i, rfl⟩
  · split
    · exact ⟨a.fSize + (i - pos), rfl⟩
    · split
      · exact ⟨i - size, rfl⟩
      · exact ⟨i, rfl⟩

/-! ### Sorts -/

theorem assocOf_sorted (wf : a.Wf) (le : Nat → Nat → Bool) (i : Nat) : ∃ j, (a.sorted le).assocOf i = a.assocOf j := by
  by_cases inside : i < a.fSize
  · have member : (a.sorted le).cellOf i ∈ (List.range a.fSize).map (a.sorted le).cellOf :=
      List.mem_map_of_mem (List.mem_range.mpr inside)
    rw [sorted_cells wf, List.mem_mergeSort, List.mem_map] at member
    obtain ⟨j, _, same⟩ := member
    exact ⟨j, congrArg a.assocAt same.symm⟩
  · exact ⟨i, congrArg a.assocAt (sorted_cellOf_ge wf le (by omega))⟩

end AnyArrayImpl

namespace Sorting

open AnyArrayImpl

theorem apply_eq (s : Sorting V) (shape : a.Shape) :
    ∃ cmp : IntCompare V, s.apply a = a.sortBy cmp ∧ cmp.Reads a fun l r => s.le (row (a.assocAt l)) (row (a.assocAt r)) := by
  cases s with
  | byKey =>
    refine ⟨keyCompare, rfl, ?_⟩
    simp only [le, compare, row_name]
    exact keyCompare_reads shape
  | reverseByKey =>
    refine ⟨reverseKeyCompare, rfl, ?_⟩
    simp only [le, compare, row_name]
    exact reverseKeyCompare_reads shape
  | byAnyComparer compare => exact ⟨valueCompare compare, rfl, valueCompare_reads shape compare⟩

theorem apply_spec (s : Sorting V) (tabled : a.Tabled) : ∃ a', s.apply a = .ok a' ∧ a'.Tabled ∧
    a'.observe = .ok ((((List.range a.fSize).map a.assocOf).map row).mergeSort s.le) ∧
    (a.Distinct → ∀ k, 0 ∉ k → a'.findIndex k =
      .ok (((((List.range a.fSize).map a.assocOf).map row).mergeSort s.le).findIdx? fun r => r.1 = some k)) := by
  obtain ⟨cmp, same, reads⟩ := s.apply_eq tabled.toShape
  obtain ⟨keys, sorted, wf, unkeyed, found⟩ := sortBy_eq tabled.toWf reads
  have arranged : (List.range a.fSize).map (a.sorted fun l r => s.le (row (a.assocAt l)) (row (a.assocAt r))).assocOf =
      ((List.range a.fSize).map a.assocOf).mergeSort fun p q => s.le (row p) (row q) :=
    assocs_sorted tabled.toWf fun _ _ => rfl
  have rows := List.map_mergeSort (f := row) (s := s.le) (l := (List.range a.fSize).map a.assocOf)
    (r := fun p q => s.le (row p) (row q)) fun _ _ _ _ => rfl
  have origin := assocOf_sorted tabled.toWf fun l r => s.le (row (a.assocAt l)) (row (a.assocAt r))
  refine ⟨_, same.trans sorted, tabled.of_keys wf unkeyed.mp fun i => ?_, ?_, fun distinct k plain => ?_⟩
  · obtain ⟨j, from_⟩ := origin i
    exact ⟨j, congrArg AnyKeyAssoc.fKey from_⟩
  · refine wf.toShape.observe_eq.trans (congrArg Except.ok ?_)
    exact (congrArg (List.map row) arranged).trans rows
  · have distinct' : (a.sorted fun l r => s.le (row (a.assocAt l)) (row (a.assocAt r))).Distinct := by
      rw [distinct_iff] at distinct ⊢
      have perm := List.mergeSort_perm ((List.range a.fSize).map a.assocOf) fun p q => s.le (row p) (row q)
      rw [← arranged] at perm
      exact ⟨fun assoc member => distinct.1 assoc (perm.mem_iff.mp member), (perm.filterMap _).nodup_iff.mpr distinct.2⟩
    refine (findIndex_rows wf ⟨distinct'.plain, distinct'.apart⟩ (fun none i _ => ?_) (found distinct') plain).trans ?_
    · obtain ⟨j, from_⟩ := origin i
      exact (congrArg AnyKeyAssoc.fKey from_).trans (tabled.unnamed (unkeyed.mp none) j)
    · rw [← rows, ← arranged]
      rfl

end Sorting

/-! ### Whole runs -/

def Action.CStrings : Action V → Prop
  | .edit (.atKey key _) => 0 ∉ key.getD []
  | _ => True

namespace AnyArrayImpl

theorem Tabled.apply (tabled : a.Tabled) {x : Action V} (reserves : x.Reserves a) (strings : x.CStrings)
    (done : x.applyStray a = .ok a') : a'.Tabled := by
  have sort : ∀ s : Sorting V, s.apply a = .ok a' → a'.Tabled := by
    intro s sorted
    obtain ⟨b, done, tabled', _⟩ := s.apply_spec tabled
    exact Except.ok.inj (done.symm.trans sorted) ▸ tabled'
  cases x with
  | sortByKey => exact sort .byKey done
  | sortReverseByKey => exact sort .reverseByKey done
  | sortByAnyComparer compare => exact sort (.byAnyComparer compare) done
  | edit e =>
    cases e with
    | atSlot slot v => exact tabled.atSlot slot v done
    | append v => exact tabled.atSlot a.fSize (some v) done
    | atKey key v => exact tabled.atKey strings v done
    | remove slot => exact tabled.remove done
    | removeKey key =>
      rcases removeKey_eq tabled.toWf (key.getD []) with ⟨_, same⟩ | ⟨slot, _, _, removal⟩
      · exact Except.ok.inj (same.symm.trans done) ▸ tabled
      · exact tabled.remove (removal.symm.trans done)
    | insertReserve pos size => exact tabled.insertReserve reserves.1 (by have := reserves.2; omega) done

/-- Every array that can be built is sorted stably, and looked up afterwards as it stands. -/
theorem sort_stable (acts : List (Action V))
    (meets : Runs.Meets Action.applyStray (fun x a => x.Reserves a ∧ x.CStrings) acts new)
    (built : Runs.run Action.applyStray acts new = .ok a) {rows : List (Option Bytes × V)} (seen : a.observe = .ok rows)
    (distinct : (rows.filterMap Prod.fst).Nodup) (s : Sorting V) (preorder : s.Preorder) :
    ∃ a' rows', s.apply a = .ok a' ∧ a'.observe = .ok rows' ∧ StableSort.Sorts s.le rows rows' ∧
      ∀ k, 0 ∉ k → a'.findIndex k = .ok (rows'.findIdx? fun row => row.1 = some k) := by
  have tabled : a.Tabled :=
    Runs.run_ok_keeps (fun x b b' tabled holds done => tabled.apply holds.1 holds.2 done) tabled_new meets built
  obtain rfl := Except.ok.inj (tabled.toShape.observe_eq.symm.trans seen)
  obtain ⟨a', sorted, _, shown, found⟩ := s.apply_spec tabled
  refine ⟨a', _, sorted, shown, StableSort.mergeSort_sorts (Sorting.le_trans preorder) (Sorting.le_total preorder) _,
    found (distinct_iff.mpr ⟨fun assoc member => ?_, ?_⟩)⟩
  · obtain ⟨i, _, rfl⟩ := List.mem_map.mp member
    exact tabled.plain i
  · rw [List.filterMap_map] at distinct
    exact distinct

theorem sort_stable_three :
    let acts : List (Action Int) :=
      [.edit (.atKey (some (ascii "b")) (some 2)), .edit (.append 2), .edit (.atKey (some (ascii "a")) (some 1))]
    ∃ a rows, Runs.run Action.applyStray acts new = .ok a ∧ a.observe = .ok rows ∧
      rows = [(some (ascii "b"), 2), (none, 2), (some (ascii "a"), 1)] ∧
      ∃ a' rows', (Sorting.byAnyComparer fun v w => v - w).apply a = .ok a' ∧ a'.observe = .ok rows' ∧
        StableSort.Sorts (Sorting.byAnyComparer fun v w => v - w).le rows rows' ∧
        ∀ k, 0 ∉ k → a'.findIndex k = .ok (rows'.findIdx? fun row => row.1 = some k) := by
  intro acts
  have known : (Runs.run Action.applyStray acts new).toOption.bind (fun a => a.observe.toOption) =
      some [(some (ascii "b"), 2), (none, 2), (some (ascii "a"), 1)] := by decide +kernel
  have meets : Runs.Meets Action.applyStray (fun x a => x.Reserves a ∧ x.CStrings) acts new :=
    ⟨⟨trivial, (by decide : 0 ∉ ascii "b")⟩, fun _ _ => ⟨⟨trivial, trivial⟩, fun _ _ =>
      ⟨⟨trivial, (by decide : 0 ∉ ascii "a")⟩, fun _ _ => trivial⟩⟩⟩
  cases built : Runs.run Action.applyStray acts new with
  | error e =>
    rw [built] at known
    cases known
  | ok a =>
    rw [built] at known
    cases seen : a.observe with
    | error e =>
      rw [Except.toOption, Option.bind_some, seen] at known
      cases known
    | ok rows =>
      rw [Except.toOption, Option.bind_some, seen] at known
      obtain rfl := Option.some.inj known
      refine ⟨a, _, rfl, seen, rfl, sort_stable acts meets built seen (by decide) (.byAnyComparer fun v w => v - w) ⟨?_, ?_⟩⟩
      · intro v w
        dsimp only
        omega
      · intro u v w first second
        dsimp only at first second ⊢
        omega

end AnyArrayImpl

end Coast.Anything
