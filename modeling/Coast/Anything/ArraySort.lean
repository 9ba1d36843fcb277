import Coast.Anything.ArraySteps
import Coast.Lib.StableSort

/-!
# Sorting

The merge sort reorders the index table in place, whatever the comparison says, and the key table is
filled again afterwards.
-/

namespace Coast.Anything

open LinearProbing

namespace AnyArrayImpl

variable {V : Type} {a : AnyArrayImpl V}

def withIndex (a : AnyArrayImpl V) (table : List Nat) : AnyArrayImpl V :=
  { a with fInd := { a.fInd with fIndexTable := table } }

theorem setIndex_withIndex {table : List Nat} {i : Nat} (inside : i < a.fInd.fSize) (idx : Nat) :
    (a.withIndex table).setIndex i idx = a.withIndex (table.set i idx) := by
  unfold setIndex withIndex AnyIndTable.setIndex
  rw [if_pos (by exact inside)]

theorem intAt_withIndex {table : List Nat} {i : Nat} (size : a.fInd.fSize ≤ a.fInd.fCapacity)
    (inside : i < a.fInd.fSize) : (a.withIndex table).intAt i = table.getD i 0 := by
  have cap : ¬ i ≥ (a.withIndex table).fInd.fCapacity := by
    show ¬ i ≥ a.fInd.fCapacity
    omega
  have old : ¬ i ≥ (a.withIndex table).fInd.fSize := by
    show ¬ i ≥ a.fInd.fSize
    omega
  simp only [intAt, AnyIndTable.atSlot, if_neg cap, if_neg old]
  rfl

def IntCompare.Reads (cmp : IntCompare V) (a : AnyArrayImpl V) (le : Nat → Nat → Bool) : Prop :=
  ∀ (table : List Nat) (l r : Nat), l < a.fCapacity → r < a.fCapacity →
    ∃ order, cmp (a.withIndex table) l r = .ok order ∧ decide (order ≤ 0) = le l r

theorem getD_middle {pre post : List Nat} {x n : Nat} (at_ : n = pre.length) : (pre ++ x :: post).getD n 0 = x := by
  subst at_
  rw [List.getD_append_right _ _ _ _ (Nat.le_refl _), Nat.sub_self]
  rfl

theorem set_middle {pre post : List Nat} {x y n : Nat} (at_ : n = pre.length) :
    (pre ++ x :: post).set n y = pre ++ y :: post := by
  subst at_
  rw [List.set_append_right _ _ (Nat.le_refl _), Nat.sub_self]
  rfl

theorem mergeLoop_spec {cmp : IntCompare V} {le : Nat → Nat → Bool} (reads : cmp.Reads a le)
    (size : a.fInd.fSize ≤ a.fInd.fCapacity) (post low : List Nat) :
    ∀ (pre gap seg : List Nat), gap.length = low.length → pre.length + gap.length + seg.length ≤ a.fInd.fSize →
      (∀ p ∈ low ++ seg, p < a.fCapacity) →
      mergeLoop cmp (a.withIndex (pre ++ gap ++ seg ++ post)) pre.length (pre.length + gap.length) low seg.length =
        .ok (a.withIndex (pre ++ low.merge seg le ++ post)) := by
  induction low with
  | nil =>
    intro pre gap seg same _ _
    rw [List.length_eq_zero_iff.mp same, mergeLoop, List.append_nil, List.nil_merge]
    rfl
  | cons l low ihLow =>
    -- Taking the next index from the lower half.
    have takeLow : ∀ (pre : List Nat) (g : Nat) (gap seg : List Nat), gap.length = low.length →
        pre.length + (gap.length + 1) + seg.length ≤ a.fInd.fSize → (∀ p ∈ l :: low ++ seg, p < a.fCapacity) →
        mergeLoop cmp ((a.withIndex (pre ++ g :: gap ++ seg ++ post)).setIndex pre.length l) (pre.length + 1)
          (pre.length + (gap.length + 1)) low seg.length = .ok (a.withIndex (pre ++ l :: low.merge seg le ++ post)) := by
      intro pre g gap seg short fits bound
      have run := ihLow (pre ++ [l]) gap seg short (by simp; omega)
        (fun p member => bound p (List.mem_cons_of_mem _ member))
      rw [setIndex_withIndex (by omega), List.append_assoc, List.append_assoc, List.cons_append, set_middle rfl,
        show pre.length + (gap.length + 1) = pre.length + 1 + gap.length by omega]
      simpa using run
    intro pre gap seg
    induction seg generalizing pre gap with
    | nil =>
      intro same fits bound
      obtain ⟨g, gap, rfl⟩ : ∃ g rest, gap = g :: rest := List.exists_cons_of_length_eq_add_one same
      have run := takeLow pre g gap [] (by simpa using same) fits bound
      rw [List.merge_right] at run
      rw [List.length_nil, mergeLoop, List.merge_right]
      exact run
    | cons s seg ihSeg =>
      intro same fits bound
      obtain ⟨g, gap, rfl⟩ : ∃ g rest, gap = g :: rest := List.exists_cons_of_length_eq_add_one same
      have short : gap.length = low.length := by simpa using same
      simp only [List.length_cons] at fits
      have head : (a.withIndex (pre ++ g :: gap ++ s :: seg ++ post)).intAt (pre.length + (gap.length + 1)) = s := by
        rw [intAt_withIndex size (by omega), List.append_assoc, List.cons_append, getD_middle (by simp)]
      obtain ⟨order, compared, isLe⟩ := reads (pre ++ g :: gap ++ s :: seg ++ post) l s
        (bound l (by simp)) (bound s (by simp))
      rw [List.length_cons, List.length_cons, mergeLoop, head, List.cons_merge_cons, ← isLe]
      simp only [compared, bind, Except.bind, decide_eq_true_eq]
      split
      · exact takeLow pre g gap (s :: seg) short (by simpa using fits) bound
      · -- Taking it from the upper half: the cell it came from joins the gap.
        have run := ihSeg (pre ++ [s]) (gap ++ [s]) (by simpa using short) (by simp; omega)
          (fun p member => bound p (by simp at member ⊢; tauto))
        rw [setIndex_withIndex (by omega), List.append_assoc, List.append_assoc, List.cons_append, set_middle rfl,
          show pre.length + (gap.length + 1) + 1 = pre.length + 1 + (gap.length + 1) by omega]
        simpa using run

omit V in
theorem map_getD_range' (pre seg post : List Nat) :
    (List.range' pre.length seg.length).map (fun i => (pre ++ seg ++ post).getD i 0) = seg := by
  induction seg generalizing pre with
  | nil => rfl
  | cons s seg ih =>
    rw [List.length_cons, List.range'_succ, List.map_cons, List.append_assoc, List.cons_append, getD_middle rfl]
    have rest := ih (pre ++ [s])
    simp only [List.length_append, List.length_singleton, List.append_assoc, List.cons_append,
      List.nil_append] at rest
    rw [rest]

theorem mergeByComparer_spec {cmp : IntCompare V} {le : Nat → Nat → Bool} (reads : cmp.Reads a le)
    (size : a.fInd.fSize ≤ a.fInd.fCapacity) (pre lower upper post : List Nat)
    (some : lower ≠ [])
    (fits : pre.length + lower.length + upper.length ≤ a.fInd.fSize) (bound : ∀ p ∈ lower ++ upper, p < a.fCapacity) :
    (a.withIndex (pre ++ lower ++ upper ++ post)).mergeByComparer pre.length
        (pre.length + lower.length + upper.length - 1) (pre.length + lower.length - 1) cmp =
      .ok (a.withIndex (pre ++ lower.merge upper le ++ post)) := by
  have pos := List.length_pos_iff.mpr some
  unfold mergeByComparer
  split
  · rename_i nothing
    have none : upper = [] := by
      rw [← List.length_eq_zero_iff]
      omega
    subst none
    rw [List.append_nil, List.merge_right]
    rfl
  · have copied : (List.range' pre.length (pre.length + lower.length - 1 - pre.length + 1)).map
        (a.withIndex (pre ++ lower ++ upper ++ post)).intAt = lower := by
      rw [show pre.length + lower.length - 1 - pre.length + 1 = lower.length by omega]
      refine Eq.trans (List.map_congr_left fun i member => ?_) (map_getD_range' pre lower (upper ++ post))
      rw [List.mem_range'_1] at member
      rw [intAt_withIndex size (by omega), List.append_assoc]
    have run := mergeLoop_spec reads size post lower pre lower upper rfl fits bound
    rw [copied, show pre.length + lower.length - 1 + 1 = pre.length + lower.length by omega,
      show pre.length + lower.length + upper.length - 1 - (pre.length + lower.length - 1) = upper.length by omega]
    exact run

theorem mergeSortByComparer_spec {cmp : IntCompare V} {le : Nat → Nat → Bool} (reads : cmp.Reads a le)
    (size : a.fInd.fSize ≤ a.fInd.fCapacity) (n : Nat) :
    ∀ (pre seg post : List Nat), seg.length = n + 1 → pre.length + seg.length ≤ a.fInd.fSize →
      (∀ p ∈ seg, p < a.fCapacity) →
      mergeSortByComparer cmp (a.withIndex (pre ++ seg ++ post)) pre.length (pre.length + n) =
        .ok (a.withIndex (pre ++ seg.mergeSort le ++ post)) := by
  induction n using Nat.strong_induction_on with
  | h n ih =>
    intro pre seg post length fits bound
    rw [mergeSortByComparer]
    split
    · rename_i narrow
      obtain ⟨p, rfl⟩ : ∃ p, seg = [p] := List.length_eq_one_iff.mp (by omega)
      rw [List.mergeSort_singleton]
      rfl
    · rename_i wide
      obtain ⟨k, hk⟩ : ∃ k, (pre.length + (pre.length + n)) / 2 = pre.length + k := ⟨n / 2, by omega⟩
      have small : k < n := by omega
      rw [StableSort.mergeSort_halves (by omega), show (seg.length + 1) / 2 = k + 1 by omega]
      obtain ⟨lower, isLower⟩ : ∃ lower, seg.take (k + 1) = lower := ⟨_, rfl⟩
      obtain ⟨upper, isUpper⟩ : ∃ upper, seg.drop (k + 1) = upper := ⟨_, rfl⟩
      have parts : seg = lower ++ upper := by rw [← isLower, ← isUpper, List.take_append_drop]
      have half : lower.length = k + 1 := by rw [← isLower, List.length_take]; omega
      rw [isLower, isUpper, parts]
      rw [parts] at bound
      rw [parts, List.length_append] at length fits
      have run := ih k small pre lower (upper ++ post) half (by omega)
        (fun p member => bound p (List.mem_append_left _ member))
      have half' : (lower.mergeSort le).length = k + 1 := by rw [List.length_mergeSort, half]
      have run' := ih (n - k - 1) (by omega) (pre ++ lower.mergeSort le) upper post (by omega)
        (by rw [List.length_append]; omega) (fun p member => bound p (List.mem_append_right _ member))
      have count : (upper.mergeSort le).length = n - k := by rw [List.length_mergeSort]; omega
      have run'' := mergeByComparer_spec reads size pre (lower.mergeSort le) (upper.mergeSort le) post
        (List.ne_nil_of_length_eq_add_one half') (by omega) (fun p member => bound p (by
          simpa only [List.mem_append, List.mem_mergeSort] using member))
      rw [List.length_append, half', show pre.length + (k + 1) + (n - k - 1) = pre.length + n by omega] at run'
      rw [half', count, show pre.length + (k + 1) + (n - k) - 1 = pre.length + n by omega,
        show pre.length + (k + 1) - 1 = pre.length + k by omega] at run''
      simp only [List.append_assoc] at run run' run'' ⊢
      simp only [hk, run, run', run'', bind, Except.bind, show pre.length + k + 1 = pre.length + (k + 1) by omega]

theorem wf_withIndex (wf : a.Wf) {sorted : List Nat} (perm : sorted.Perm (a.fInd.fIndexTable.take a.fSize)) :
    (a.withIndex (sorted ++ a.fInd.fIndexTable.drop a.fSize)).Wf := by
  have shape := wf.toShape
  have count : sorted.length = a.fInd.fSize := by
    rw [perm.length_eq, ← shape.ind_size, shape.ind.take_length]
  obtain ⟨mark, le, settled⟩ := shape.settled
  have view : (a.withIndex (sorted ++ a.fInd.fIndexTable.drop a.fSize)).fInd.view =
      sorted ++ a.fInd.fEmptyTable.drop a.fInd.fSize := by
    show (sorted ++ a.fInd.fIndexTable.drop a.fSize).take a.fInd.fSize ++ _ = _
    rw [List.take_append_of_le_length (by omega), List.take_of_length_le (by omega)]
    rfl
  rw [← shape.ind_size] at perm
  refine ⟨⟨?_, shape.ind_size, ⟨mark, le, ?_⟩, shape.capacity, shape.capacity_pos, shape.contents⟩, wf.keys⟩
  · refine AnyIndTable.wf_of_shuffle shape.ind rfl ?_ shape.ind.empty_length shape.ind.size_le ?_
    · show (sorted ++ a.fInd.fIndexTable.drop a.fSize).length = _
      have := shape.ind.size_le
      have := shape.ind_size
      rw [List.length_append, List.length_drop, shape.ind.index_length]
      omega
    · rw [view]
      exact perm.append_right _
  · refine settled.of_drop rfl rfl ?_
    rw [view, List.drop_append, List.drop_of_length_le (by omega), count, Nat.sub_self, shape.ind.view_drop]
    rfl

def sorted (le : Nat → Nat → Bool) (a : AnyArrayImpl V) : AnyArrayImpl V :=
  a.withIndex ((a.fInd.fIndexTable.take a.fSize).mergeSort le ++ a.fInd.fIndexTable.drop a.fSize)

theorem sortIndices_eq (wf : a.Wf) {cmp : IntCompare V} {le : Nat → Nat → Bool} (reads : cmp.Reads a le) :
    a.sortIndices cmp = .ok (a.sorted le) := by
  have shape := wf.toShape
  unfold sortIndices sorted
  split
  · rename_i none
    rw [none, List.take_zero, List.mergeSort_nil]
    rfl
  · rename_i some
    have taken : (a.fInd.fIndexTable.take a.fSize).length = a.fSize := by
      rw [← shape.ind_size]
      exact shape.ind.take_length
    have bound : ∀ p ∈ a.fInd.fIndexTable.take a.fSize, p < a.fCapacity := by
      intro p member
      rw [← shape.ind_size, ← shape.ind.view_take] at member
      obtain ⟨i, inside, rfl⟩ := List.mem_take_iff_getElem.mp member
      have below : i < a.fSize := by rw [← shape.ind_size]; omega
      have := shape.cellOf_lt below
      rwa [← shape.getD_view below, List.getD_eq_getElem _ _ (by omega)] at this
    have run := mergeSortByComparer_spec reads shape.ind.size_le (a.fSize - 1) []
      (a.fInd.fIndexTable.take a.fSize) (a.fInd.fIndexTable.drop a.fSize) (by omega)
      (by rw [taken, shape.ind_size, List.length_nil]; omega) bound
    rw [List.nil_append, List.take_append_drop, List.length_nil, Nat.zero_add] at run
    exact run

variable [Inhabited V]

structure Distinct (a : AnyArrayImpl V) : Prop where
  plain : ∀ i < a.fSize, 0 ∉ (a.assocOf i).fKey
  apart : ∀ i < a.fSize, ∀ j < a.fSize, (a.assocOf i).fKey ≠ [] → (a.assocOf i).fKey = (a.assocOf j).fKey → i = j

theorem cell_withIndex (shape : a.Shape) (table : List Nat) {pos : Nat} (inside : pos < a.fCapacity) :
    (a.withIndex table).cell pos = .ok (a.assocAt pos) := shape.cell_ok inside

theorem intKey_withIndex (shape : a.Shape) (table : List Nat) {pos : Nat} (inside : pos < a.fCapacity) :
    (a.withIndex table).intKey pos = .ok (a.assocAt pos).fKey := by
  rw [intKey, if_pos (by exact inside), cell_withIndex shape table inside]
  rfl

theorem intValue_withIndex (shape : a.Shape) (table : List Nat) {pos : Nat} (inside : pos < a.fCapacity) :
    (a.withIndex table).intValue pos = .ok (a.assocAt pos).fValue := by
  rw [intValue, if_pos (by exact inside), cell_withIndex shape table inside]
  rfl

theorem keyCompare_reads (shape : a.Shape) :
    keyCompare.Reads a fun l r => decide (stringCompare (a.assocAt l).fKey (a.assocAt r).fKey ≤ 0) := by
  intro table l r hl hr
  refine ⟨_, ?_, rfl⟩
  rw [keyCompare, intKey_withIndex shape table hl, intKey_withIndex shape table hr]
  rfl

theorem reverseKeyCompare_reads (shape : a.Shape) :
    reverseKeyCompare.Reads a fun l r => decide (- stringCompare (a.assocAt l).fKey (a.assocAt r).fKey ≤ 0) := by
  intro table l r hl hr
  refine ⟨_, ?_, rfl⟩
  rw [reverseKeyCompare, intKey_withIndex shape table hl, intKey_withIndex shape table hr]
  rfl

theorem valueCompare_reads (shape : a.Shape) (compare : V → V → Int) :
    (valueCompare compare).Reads a fun l r => decide (compare (a.assocAt l).fValue (a.assocAt r).fValue ≤ 0) := by
  intro table l r hl hr
  refine ⟨_, ?_, rfl⟩
  rw [valueCompare, intValue_withIndex shape table hl, intValue_withIndex shape table hr]
  rfl

theorem slotName_ok (shape : a.Shape) {i : Nat} (inside : i < a.fSize) :
    a.slotName i = .ok (if (a.assocOf i).fKey.length > 0 then some (a.assocOf i).fKey else none) := by
  simp only [slotName, key, if_pos inside, shape.intAt_eq, shape.cell_ok (shape.cellOf_lt inside), bind, Except.bind]
  rfl

theorem recreate_loop (shape : a.Shape) (m : Nat) :
    ∀ (i : Nat) (t : AnyKeyTable), i + m = a.fSize → t.Wf i →
      ∃ t', (List.range' i m).foldlM a.recreateEntry t = .ok t' ∧ t'.Wf a.fSize ∧
        (a.Distinct → t.Indexed (fun l => (a.assocOf l).fKey) →
          (∀ l, l ∈ contents t.fHashTable ↔ l < i ∧ (a.assocOf l).fKey ≠ []) →
          t'.Indexed (fun l => (a.assocOf l).fKey) ∧
            ∀ l, l ∈ contents t'.fHashTable ↔ l < a.fSize ∧ (a.assocOf l).fKey ≠ []) := by
  induction m with
  | zero =>
    intro i t total wf
    have last : i = a.fSize := by omega
    subst last
    exact ⟨t, rfl, wf, fun _ indexed members => ⟨indexed, members⟩⟩
  | succ m ih =>
    intro i t total wf
    obtain ⟨u, stored, uwf, keep⟩ : ∃ u, a.recreateEntry t i = .ok u ∧ u.Wf (i + 1) ∧
        (a.Distinct → t.Indexed (fun l => (a.assocOf l).fKey) →
          (∀ l, l ∈ contents t.fHashTable ↔ l < i ∧ (a.assocOf l).fKey ≠ []) →
          u.Indexed (fun l => (a.assocOf l).fKey) ∧
            ∀ l, l ∈ contents u.fHashTable ↔ l < i + 1 ∧ (a.assocOf l).fKey ≠ []) := by
      rw [recreateEntry, slotName_ok shape (by omega)]
      simp only [bind, Except.bind]
      split
      · rename_i name isName
        have named : (a.assocOf i).fKey ≠ [] ∧ (a.assocOf i).fKey = name := by
          split at isName
          · rename_i long
            exact ⟨List.ne_nil_of_length_pos long, Option.some.inj isName⟩
          · cases isName
        obtain ⟨u, stored, uwf, strong⟩ := keyAppend_spec shape wf (by omega) name
        refine ⟨u, stored, uwf, fun distinct indexed members => ?_⟩
        have fresh : ∀ l ∈ contents t.fHashTable, (a.assocOf l).fKey ≠ name := by
          intro l member same
          have below := ((members l).mp member).1
          have again := distinct.apart i (by omega) l (by omega) named.1 (by rw [same, named.2])
          omega
        obtain ⟨indexed', perm⟩ := strong _ indexed (fun _ _ => rfl) named.2
          (named.2 ▸ distinct.plain i (by omega)) fresh
        refine ⟨indexed', fun l => ?_⟩
        rw [perm.mem_iff, List.mem_cons, members l]
        constructor
        · rintro (rfl | ⟨below, own⟩)
          · exact ⟨Nat.lt_succ_self _, named.1⟩
          · exact ⟨Nat.lt_succ_of_lt below, own⟩
        · rintro ⟨below, own⟩
          rcases Nat.lt_succ_iff_lt_or_eq.mp below with earlier | rfl
          · exact .inr ⟨earlier, own⟩
          · exact .inl rfl
      · rename_i isNone
        have unnamed : (a.assocOf i).fKey = [] := by
          split at isNone
          · cases isNone
          · rename_i short
            exact List.length_eq_zero_iff.mp (by omega)
        refine ⟨t, rfl, wf.mono (Nat.le_succ i), fun _ indexed members => ⟨indexed, fun l => ?_⟩⟩
        rw [members l]
        constructor
        · exact fun ⟨below, own⟩ => ⟨Nat.lt_succ_of_lt below, own⟩
        · rintro ⟨below, own⟩
          rcases Nat.lt_succ_iff_lt_or_eq.mp below with earlier | rfl
          · exact ⟨earlier, own⟩
          · exact absurd unnamed own
    obtain ⟨t', run, wf', keep'⟩ := ih (i + 1) u (by omega) uwf
    refine ⟨t', ?_, wf', fun distinct indexed members => ?_⟩
    · rw [List.range'_succ, List.foldlM_cons, stored]
      exact run
    · obtain ⟨uindexed, umembers⟩ := keep distinct indexed members
      exact keep' distinct uindexed umembers

theorem recreateKeyTable_spec (wf : a.Wf) :
    ∃ keys, a.recreateKeyTable = .ok { a with fKeys := keys } ∧ { a with fKeys := keys }.Wf ∧ (keys = none ↔ a.fKeys = none) ∧
      (a.Distinct → ∀ t ∈ keys, t.Indexed (fun l => (a.assocOf l).fKey) ∧
        ∀ l, l ∈ contents t.fHashTable ↔ l < a.fSize ∧ (a.assocOf l).fKey ≠ []) := by
  have shape := wf.toShape
  rw [recreateKeyTable]
  cases keys : a.fKeys with
  | none =>
    refine ⟨none, ?_, ⟨⟨shape.ind, shape.ind_size, shape.settled, shape.capacity, shape.capacity_pos, shape.contents⟩, ?_⟩,
      Iff.rfl, fun _ => ?_⟩
    · dsimp only
      rw [← keys]
      rfl
    · rintro _ ⟨⟩
    · rintro _ ⟨⟩
  | some t =>
    have cleared : contents t.clear.fHashTable = [] := by simp [AnyKeyTable.clear, contents]
    obtain ⟨t', run, wf', keep⟩ := recreate_loop shape a.fSize 0 t.clear (Nat.zero_add _) (wf.keys t keys).clear
    refine ⟨some t', ?_, ⟨⟨shape.ind, shape.ind_size, shape.settled, shape.capacity,
      shape.capacity_pos, shape.contents⟩, ?_⟩, by simp, fun distinct => ?_⟩
    · dsimp only
      rw [List.range_eq_range', run]
      rfl
    · rintro _ ⟨⟩
      exact wf'
    · rintro _ ⟨⟩
      refine keep distinct ⟨located_replicate_free _ _, ?_, ?_⟩ fun l => ?_
      · rw [cleared]
        exact fun l member => absurd member List.not_mem_nil
      · rw [cleared]
        exact fun l member => absurd member List.not_mem_nil
      · rw [cleared]
        exact ⟨fun member => absurd member List.not_mem_nil, fun below => absurd below.1 (Nat.not_lt_zero l)⟩

theorem sortBy_eq (wf : a.Wf) {cmp : IntCompare V} {le : Nat → Nat → Bool} (reads : cmp.Reads a le) :
    ∃ keys, a.sortBy cmp = .ok { a.sorted le with fKeys := keys } ∧ { a.sorted le with fKeys := keys }.Wf ∧
      (keys = none ↔ a.fKeys = none) ∧
      ((a.sorted le).Distinct → ∀ t ∈ keys, t.Indexed (fun l => ((a.sorted le).assocOf l).fKey) ∧
        ∀ l, l ∈ contents t.fHashTable ↔ l < a.fSize ∧ ((a.sorted le).assocOf l).fKey ≠ []) := by
  obtain ⟨keys, recreated, wf', same, found⟩ := recreateKeyTable_spec (wf_withIndex wf (List.mergeSort_perm _ le))
  refine ⟨keys, ?_, wf', same, found⟩
  simp only [sortBy, sortIndices_eq wf reads, bind, Except.bind]
  exact recreated

theorem sortBy_spec (wf : a.Wf) {cmp : IntCompare V} {le : Nat → Nat → Bool} (reads : cmp.Reads a le) :
    ∃ a', a.sortBy cmp = .ok a' ∧ a'.Wf := by
  obtain ⟨keys, sorted, wf', _⟩ := sortBy_eq wf reads
  exact ⟨_, sorted, wf'⟩

end AnyArrayImpl

end Coast.Anything
