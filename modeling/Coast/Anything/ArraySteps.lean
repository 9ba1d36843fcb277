import Coast.Anything.ArrayKeys
import Mathlib.Data.List.Nodup

/-!
# What the operations of the array do

One lemma per operation: it succeeds, keeps the tables together, and changes the slots, their cells
and the pairs in the cells as stated. Proofs about runs use these and never unfold an operation.
-/

namespace Coast.Anything

open LinearProbing

namespace AnyIndTable

variable {t : AnyIndTable} {slot : Nat}

theorem atSlot_of_lt (wf : t.Wf) (h : slot < t.fSize) : (t.atSlot slot).1 = t := by
  have := wf.size_le
  simp only [atSlot, if_neg (show ¬ slot ≥ t.fCapacity by omega), if_neg (show ¬ slot ≥ t.fSize by omega)]

theorem atSlot_atSlot (wf : t.Wf) (slot : Nat) : (t.atSlot slot).1.atSlot slot = t.atSlot slot := by
  obtain ⟨wf', size, _, _, found⟩ := atSlot_spec wf slot
  have lt : slot < (t.atSlot slot).1.fSize := by omega
  refine Prod.ext (atSlot_of_lt wf' lt) ?_
  have again := (atSlot_spec wf' slot).2.2.2.2
  rw [again, atSlot_of_lt wf' lt, found]

end AnyIndTable

namespace AnyKeyTable

theorem updateRemoved_eq (t : AnyKeyTable) (slot : Nat) :
    (t.updateRemoved slot).fHashTable = t.fHashTable.map (renumber fun l =>
      if l = slot then none else if l > slot then some (l - 1) else some l) := by
  refine List.map_congr_left fun c _ => ?_
  cases c with
  | free => rfl
  | deleted => rfl
  | used l =>
    simp only [renumber]
    split
    · rfl
    · split <;> rfl

theorem updateInserted_eq (t : AnyKeyTable) (pos size : Nat) :
    (t.updateInserted pos size).fHashTable = t.fHashTable.map (renumber fun l =>
      if l ≥ pos then some (l + size) else some l) := by
  refine List.map_congr_left fun c _ => ?_
  cases c with
  | free => rfl
  | deleted => rfl
  | used l =>
    simp only [renumber]
    split <;> rfl

theorem Wf.renumber {t t' : AnyKeyTable} {n m : Nat} {g : Nat → Option Nat} (wf : t.Wf n)
    (cap : t'.fCapacity = t.fCapacity) (threshold : t'.fThreshold = t.fThreshold)
    (table : t'.fHashTable = t.fHashTable.map (LinearProbing.renumber g))
    (injective : ∀ l l' b, b ∈ g l → b ∈ g l' → l = l')
    (bound : ∀ l < n, ∀ b, g l = some b → b < m) : t'.Wf m := by
  have now : contents t'.fHashTable = (contents t.fHashTable).filterMap g := by rw [table, contents_renumber]
  refine ⟨?_, by rw [cap]; exact wf.capacity, by rw [threshold, cap]; exact wf.threshold, ?_, ?_, ?_⟩
  · rw [table, cap, List.length_map]
    exact wf.length
  · rw [now]
    exact wf.nodup.filterMap injective
  · rw [now]
    intro b member
    obtain ⟨l, old, new⟩ := List.mem_filterMap.mp member
    exact bound l (wf.bound l old) b new
  · rw [now, cap]
    exact Nat.lt_of_le_of_lt (List.length_filterMap_le _ _) wf.room

theorem Indexed.renumber {t t' : AnyKeyTable} {keyOf keyOf' : Nat → Bytes} {g : Nat → Option Nat}
    (indexed : t.Indexed keyOf) (cap : t'.fCapacity = t.fCapacity)
    (table : t'.fHashTable = t.fHashTable.map (LinearProbing.renumber g))
    (same : ∀ l ∈ contents t.fHashTable, ∀ b, g l = some b → keyOf' b = keyOf l) : t'.Indexed keyOf' := by
  have now : contents t'.fHashTable = (contents t.fHashTable).filterMap g := by rw [table, contents_renumber]
  have origin : ∀ b ∈ contents t'.fHashTable, ∃ l ∈ contents t.fHashTable, g l = some b ∧ keyOf' b = keyOf l := by
    rw [now]
    intro b member
    obtain ⟨l, old, new⟩ := List.mem_filterMap.mp member
    exact ⟨l, old, new, same l old b new⟩
  refine ⟨?_, ?_, ?_⟩
  · rw [table, cap]
    exact located_renumber indexed.located fun l member b new => by rw [same l member b new]
  · intro b member
    obtain ⟨l, old, _, key⟩ := origin b member
    rw [key]
    exact indexed.plain l old
  · intro b hb c hc equal
    obtain ⟨l, old, new, key⟩ := origin b hb
    obtain ⟨m, old', new', key'⟩ := origin c hc
    rw [key, key'] at equal
    have := indexed.apart l old m old' equal
    subst this
    rw [new] at new'
    exact Option.some.inj new'

theorem Wf.updateRemoved {t : AnyKeyTable} {n slot : Nat} (wf : t.Wf n) (lt : slot < n) :
    (t.updateRemoved slot).Wf (n - 1) := by
  refine wf.renumber rfl rfl (updateRemoved_eq t slot) ?_ ?_
  · intro l l' b
    grind
  · intro l hl b
    grind

theorem Wf.updateInserted {t : AnyKeyTable} {n : Nat} (wf : t.Wf n) (pos size : Nat) :
    (t.updateInserted pos size).Wf (n + size) := by
  refine wf.renumber rfl rfl (updateInserted_eq t pos size) ?_ ?_
  · intro l l' b
    grind
  · intro l hl b
    grind

end AnyKeyTable

namespace AnyArrayImpl

variable {V : Type} {a : AnyArrayImpl V}

theorem cellOf_eq {a b : AnyArrayImpl V} (same : a.fInd = b.fInd) : a.cellOf = b.cellOf := by
  funext i
  rw [cellOf, cellOf, same]

variable [Inhabited V]

/-! ### Cells -/

def modifyCell (a : AnyArrayImpl V) (pos : Nat) (f : AnyKeyAssoc V → AnyKeyAssoc V) : AnyArrayImpl V :=
  { a with fContents := a.fContents.set pos (f (a.assocAt pos)) }

theorem Shape.modifyCell (shape : a.Shape) (pos : Nat) (f : AnyKeyAssoc V → AnyKeyAssoc V) :
    (a.modifyCell pos f).Shape :=
  ⟨shape.ind, shape.ind_size, shape.settled, shape.capacity, shape.capacity_pos, by
    rw [AnyArrayImpl.modifyCell, List.length_set]; exact shape.contents⟩

theorem Wf.modifyCell (wf : a.Wf) (pos : Nat) (f : AnyKeyAssoc V → AnyKeyAssoc V) : (a.modifyCell pos f).Wf :=
  ⟨wf.toShape.modifyCell pos f, wf.keys⟩

theorem Shape.assocAt_modifyCell (shape : a.Shape) {pos : Nat} (inside : pos < a.fCapacity)
    (f : AnyKeyAssoc V → AnyKeyAssoc V) (p : Nat) :
    (a.modifyCell pos f).assocAt p = if p = pos then f (a.assocAt pos) else a.assocAt p := by
  rw [assocAt, AnyArrayImpl.modifyCell, List.getD_eq_getElem?_getD, List.getElem?_set]
  split
  · rename_i same
    rw [if_pos (by rw [shape.contents]; exact inside), if_pos same.symm]
    rfl
  · rename_i other
    rw [if_neg (Ne.symm other), assocAt, List.getD_eq_getElem?_getD]

theorem Shape.setCell_ok (shape : a.Shape) {pos : Nat} (inside : pos < a.fCapacity)
    (f : AnyKeyAssoc V → AnyKeyAssoc V) : a.setCell pos f = .ok (a.modifyCell pos f) := by
  rw [setCell, shape.cell_ok inside]
  rfl

/-! ### Access by index -/

structure SameCells (a a' : AnyArrayImpl V) : Prop where
  cellOf : ∀ i, a'.cellOf i = a.cellOf i
  assocAt : ∀ p, a'.assocAt p = a.assocAt p
  keys : a'.fKeys = a.fKeys

theorem getD_append_blank (contents : List (AnyKeyAssoc V)) (n p : Nat) :
    (contents ++ List.replicate n blank).getD p blank = contents.getD p blank := by
  by_cases inside : p < contents.length
  · rw [List.getD_append _ _ _ _ inside]
  · rw [List.getD_append_right _ _ _ _ (by omega), List.getD_eq_default contents _ (by omega)]
    by_cases new : p - contents.length < n
    · rw [List.getD_replicate _ new]
    · rw [List.getD_eq_default _ _ (by rw [List.length_replicate]; omega)]

theorem expand_ok (shape : a.Shape) {newsize : Nat} (full : a.fCapacity ≤ newsize) :
    (a.expand newsize).fCapacity = (a.expand newsize).fNumOfBufs * arrayBufSize ∧
      (a.expand newsize).fContents.length = (a.expand newsize).fCapacity ∧
      newsize ≤ (a.expand newsize).fCapacity ∧ a.fCapacity ≤ (a.expand newsize).fCapacity ∧
      (a.expand newsize).fInd = a.fInd ∧ (a.expand newsize).fKeys = a.fKeys ∧ (a.expand newsize).fSize = a.fSize ∧
      ∀ p, (a.expand newsize).assocAt p = a.assocAt p := by
  have bufs := shape.capacity
  have pos := shape.capacity_pos
  have contents := shape.contents
  have four : arrayBufSize = 4 := rfl
  obtain ⟨cap, hcap, large, enough, divides⟩ : ∃ cap, (if newsize > a.fCapacity * 2 then adjustCapacity newsize
      else adjustCapacity (a.fCapacity * 2)) = cap ∧ newsize ≤ cap ∧ a.fCapacity < cap ∧ cap = cap / 4 * 4 := by
    refine ⟨_, rfl, ?_⟩
    simp only [adjustCapacity, four]
    split <;> omega
  have more : cap / arrayBufSize > a.fNumOfBufs := by
    rw [four] at bufs ⊢
    omega
  have result : a.expand newsize = { a with
      fCapacity := cap
      fNumOfBufs := cap / arrayBufSize
      fContents := a.fContents ++ List.replicate ((cap / arrayBufSize - a.fNumOfBufs) * arrayBufSize) blank } := by
    unfold AnyArrayImpl.expand
    simp only [hcap, if_pos more]
  rw [result]
  refine ⟨divides, ?_, large, Nat.le_of_lt enough, rfl, rfl, rfl, fun p => getD_append_blank _ _ _⟩
  rw [four] at bufs more ⊢
  simp only [List.length_append, List.length_replicate, contents]
  omega

theorem resize_ok (shape : a.Shape) (newsz : Nat) :
    (a.resize newsz).fCapacity = (a.resize newsz).fNumOfBufs * arrayBufSize ∧
      (a.resize newsz).fContents.length = (a.resize newsz).fCapacity ∧
      max a.fSize newsz ≤ (a.resize newsz).fCapacity ∧ a.fCapacity ≤ (a.resize newsz).fCapacity ∧
      (a.resize newsz).fInd = a.fInd ∧ (a.resize newsz).fKeys = a.fKeys ∧
      (a.resize newsz).fSize = max a.fSize newsz ∧ ∀ p, (a.resize newsz).assocAt p = a.assocAt p := by
  have size := shape.size_le
  unfold resize
  split
  · dsimp only
    split
    · rename_i full
      -- `Expand` does not look at the size.
      have same : ({ a with fSize := newsz } : AnyArrayImpl V).expand newsz =
          { a.expand newsz with fSize := newsz } := by
        unfold AnyArrayImpl.expand
        dsimp only
        split <;> split <;> rfl
      obtain ⟨bufs, contents, large, grown, ind, keys, _, assocs⟩ := expand_ok shape full
      rw [same]
      exact ⟨bufs, contents, by dsimp only; omega, grown, ind, keys, by dsimp only; omega, assocs⟩
    · exact ⟨shape.capacity, shape.contents, by dsimp only; omega, Nat.le_refl _, rfl, rfl, by dsimp only; omega,
        fun _ => rfl⟩
  · exact ⟨shape.capacity, shape.contents, by omega, Nat.le_refl _, rfl, rfl, by omega, fun _ => rfl⟩

theorem atSlot_spec (shape : a.Shape) (slot : Nat) :
    ∃ a', a.atSlot slot = .ok (a', a.cellOf slot) ∧ a'.Shape ∧ a.SameCells a' ∧
      a'.fSize = max a.fSize (slot + 1) ∧ a.fCapacity ≤ a'.fCapacity := by
  obtain ⟨bufs, contents, large, grown, ind, keys, size, assocs⟩ := resize_ok shape (slot + 1)
  obtain ⟨wf', isize, icap, _, _⟩ := AnyIndTable.atSlot_spec shape.ind slot
  obtain ⟨mark, le, settled⟩ := shape.settled
  obtain ⟨a', ha'⟩ : ∃ a', a' = { a.resize (slot + 1) with fInd := (a.fInd.atSlot slot).1 } := ⟨_, rfl⟩
  have shape' : a'.Shape := by
    rw [ha']
    refine ⟨wf', ?_, ⟨max mark (slot + 1), ?_, AnyIndTable.settled_atSlot shape.ind settled slot⟩, bufs, ?_, contents⟩
    · show (a.fInd.atSlot slot).1.fSize = (a.resize (slot + 1)).fSize
      rw [isize, size, shape.ind_size]
    · show max mark (slot + 1) ≤ (a.resize (slot + 1)).fCapacity
      omega
    · show 0 < (a.resize (slot + 1)).fCapacity
      omega
  have cells : ∀ i, a'.cellOf i = a.cellOf i := by
    intro i
    rw [ha']
    exact getD_atSlot shape.ind slot i
  have size' : a'.fSize = max a.fSize (slot + 1) := by rw [ha']; exact size
  have inside : a.cellOf slot < a'.fCapacity := by
    rw [← cells]
    exact shape'.cellOf_lt (by omega)
  refine ⟨a', ?_, shape', ⟨cells, ?_, ?_⟩, size', ?_⟩
  · have found := shape'.cell_ok inside
    rw [ha'] at found ⊢
    simp only [atSlot, ind, shape.intAt_eq, found, bind, Except.bind]
    rfl
  · rw [ha']
    exact assocs
  · rw [ha']
    exact keys
  · rw [ha']
    exact grown

theorem atSlot_room (shape : a.Shape) {slot : Nat} (next : slot < a.fCapacity) (room : a.fSize < a.fCapacity)
    {a' : AnyArrayImpl V} {pos : Nat} (reached : a.atSlot slot = .ok (a', pos)) : a'.fSize < a'.fCapacity := by
  have resized : (a.resize (slot + 1)).fSize < (a.resize (slot + 1)).fCapacity := by
    obtain ⟨-, -, -, grown, -, -, size, -⟩ := resize_ok shape (slot + 1)
    by_cases full : a.fCapacity = slot + 1
    · have pos := shape.capacity_pos
      have doubled : (a.resize (slot + 1)).fCapacity = adjustCapacity (a.fCapacity * 2) := by
        simp only [resize, if_pos (show slot + 1 > a.fSize by omega), if_pos (show slot + 1 ≥ a.fCapacity by omega),
          AnyArrayImpl.expand, if_neg (show ¬ slot + 1 > a.fCapacity * 2 by omega)]
        split <;> rfl
      rw [doubled, size]
      simp only [adjustCapacity, show arrayBufSize = 4 from rfl]
      omega
    · omega
  simp only [AnyArrayImpl.atSlot, bind, Except.bind] at reached
  split at reached
  · cases reached
  · cases reached
    exact resized

theorem expand_fInd (a : AnyArrayImpl V) (ind : AnyIndTable) (newsize : Nat) :
    AnyArrayImpl.expand { a with fInd := ind } newsize = { a.expand newsize with fInd := ind } := by
  unfold AnyArrayImpl.expand
  dsimp only
  split <;> split <;> rfl

theorem resize_fInd (a : AnyArrayImpl V) (ind : AnyIndTable) (newsz : Nat) :
    AnyArrayImpl.resize { a with fInd := ind } newsz = { a.resize newsz with fInd := ind } := by
  unfold resize
  dsimp only
  split
  · split
    · exact expand_fInd { a with fSize := newsz } ind newsz
    · rfl
  · rfl

theorem atSlot_touched (shape : a.Shape) (slot : Nat) :
    AnyArrayImpl.atSlot { a with fInd := (a.fInd.atSlot slot).1 } slot = a.atSlot slot := by
  have ind := (resize_ok shape (slot + 1)).2.2.2.2.1
  simp only [atSlot, resize_fInd, ind, AnyIndTable.atSlot_atSlot shape.ind]

/-! ### Access by key -/

theorem findIndex_ok (wf : a.Wf) (key : Bytes) :
    a.findIndex key = .ok none ∨ ∃ slot < a.fSize, a.findIndex key = .ok (some slot) := by
  cases keys : a.fKeys with
  | none =>
    refine .inl ?_
    rw [findIndex, keys]
    rfl
  | some t =>
    rw [findIndex, keys]
    exact keyAt_ok wf.toShape (wf.keys t keys) key

omit [Inhabited V] in
theorem keysTable_wf (wf : a.Wf) : (a.fKeys.getD (AnyKeyTable.initTable AnyKeyTable.cInitCapacity)).Wf a.fSize := by
  cases keys : a.fKeys with
  | none => exact (AnyKeyTable.wf_initTable _).mono (Nat.zero_le _)
  | some t => exact wf.keys t keys

theorem keyAppend_ok (wf : a.Wf) (key : Option Bytes) :
    ∃ t', a.keyAppend (a.fKeys.getD (AnyKeyTable.initTable AnyKeyTable.cInitCapacity)) key a.fSize = .ok t' ∧
      t'.Wf (a.fSize + 1) := by
  have twf := keysTable_wf wf
  cases key with
  | none => exact ⟨_, rfl, twf.mono (Nat.le_succ _)⟩
  | some key =>
    obtain ⟨t', appended, twf', _⟩ := keyAppend_spec wf.toShape twf (Nat.le_refl _) key
    exact ⟨t', appended, twf'⟩

theorem atKey_absent (wf : a.Wf) {key : Option Bytes} (absent : a.findIndex (key.getD []) = .ok none)
    (room : a.fSize < a.fCapacity) :
    ∃ a' t', a.atKey key = .ok (a', a.cellOf a.fSize) ∧ a'.Wf ∧ a'.fSize = a.fSize + 1 ∧
      (∀ i, a'.cellOf i = a.cellOf i) ∧
      (∀ p, a'.assocAt p = if p = a.cellOf a.fSize then { a.assocAt p with fKey := key.getD [] } else a.assocAt p) ∧
      a.keyAppend (a.fKeys.getD (AnyKeyTable.initTable AnyKeyTable.cInitCapacity)) key a.fSize = .ok t' ∧
      a'.fKeys = some t' ∧ a'.fSize < a'.fCapacity := by
  obtain ⟨t', appended, twf'⟩ := keyAppend_ok wf key
  have inside := wf.toShape.cellOf_size_lt room
  -- The array with the key set, before the new element is created.
  obtain ⟨b, hb⟩ : ∃ b, b = { a.modifyCell (a.cellOf a.fSize) fun assoc => { assoc with fKey := key.getD [] } with
      fKeys := some t' } := ⟨_, rfl⟩
  have bshape : b.Shape := by
    have shape := wf.toShape.modifyCell (a.cellOf a.fSize) fun assoc => { assoc with fKey := key.getD [] }
    rw [hb]
    exact ⟨shape.ind, shape.ind_size, shape.settled, shape.capacity, shape.capacity_pos, shape.contents⟩
  have bsize : b.fSize = a.fSize := by rw [hb]; rfl
  have bcells : b.cellOf = a.cellOf := cellOf_eq (by rw [hb]; rfl)
  obtain ⟨a', reached, shape', same, size', _⟩ := atSlot_spec bshape a.fSize
  have keys' : a'.fKeys = some t' := by rw [same.keys, hb]
  have size : a'.fSize = a.fSize + 1 := by omega
  have bcap : b.fCapacity = a.fCapacity := by rw [hb]; rfl
  have spare := atSlot_room bshape (by omega) (by omega) reached
  refine ⟨a', t', ?_, ⟨shape', ?_⟩, size, ?_, ?_, appended, keys', spare⟩
  · have ind : b.fInd = a.fInd := by rw [hb]; rfl
    have stored : AnyArrayImpl.setCell { a with fKeys := some t', fInd := (a.fInd.atSlot a.fSize).1 }
        (a.fInd.atSlot a.fSize).2 (fun assoc => { assoc with fKey := key.getD [] }) =
        .ok { b with fInd := (b.fInd.atSlot b.fSize).1 } := by
      rw [setCell, wf.toShape.intAt_eq, AnyArrayImpl.cell,
        if_pos (by show _ < a.fNumOfBufs * arrayBufSize; rw [← wf.capacity]; exact inside), hb]
      rfl
    rw [bcells, ← bsize, ← atSlot_touched bshape] at reached
    rw [bsize] at reached
    simp only [atKey, createKey, absent, bind, Except.bind, appended, stored]
    rw [bsize]
    exact reached
  · intro u hu
    rw [keys'] at hu
    cases hu
    rw [size]
    exact twf'
  · intro i
    rw [same.cellOf, bcells]
  · intro p
    have changed := wf.toShape.assocAt_modifyCell inside (fun assoc => { assoc with fKey := key.getD [] }) p
    rw [same.assocAt, hb]
    refine Eq.trans changed ?_
    split
    · rename_i here
      rw [here]
    · rfl

theorem atKey_full (wf : a.Wf) {key : Option Bytes} (absent : a.findIndex (key.getD []) = .ok none)
    (full : a.fSize = a.fCapacity) : a.atKey key = .error (.contents a.fSize) := by
  obtain ⟨t', appended, _⟩ := keyAppend_ok wf key
  have outside : ¬ a.fSize < a.fNumOfBufs * arrayBufSize := by
    rw [← wf.capacity]
    omega
  simp only [atKey, createKey, absent, bind, Except.bind, appended, setCell, wf.toShape.intAt_eq,
    wf.toShape.cellOf_size_eq full, cell, if_neg outside]

theorem atKey_present (wf : a.Wf) {key : Option Bytes} {slot : Nat}
    (present : a.findIndex (key.getD []) = .ok (some slot)) : a.atKey key = .ok (a, slot) ∧ slot < a.fSize := by
  have lt : slot < a.fSize := by
    rcases findIndex_ok wf (key.getD []) with absent | ⟨i, lt, found⟩
    · rw [present] at absent
      cases absent
    · rw [present] at found
      cases found
      exact lt
  have size := wf.toShape.size_le
  refine ⟨?_, lt⟩
  cases keys : a.fKeys with
  | none =>
    rw [findIndex, keys] at present
    cases present
  | some t =>
    have same : { a with fKeys := some t } = a := by rw [← keys]
    simp only [atKey, present, bind, Except.bind, keys, Option.getD_some, same,
      wf.toShape.cell_ok (show slot < a.fCapacity by omega)]
    rfl

/-! ### Removal -/

omit [Inhabited V] in
theorem Shape.view_length_ge (shape : a.Shape) : a.fSize ≤ a.fInd.view.length := by
  rw [shape.ind.view_length, ← shape.ind_size]
  exact shape.ind.size_le

omit [Inhabited V] in
theorem Shape.getD_view (shape : a.Shape) {i : Nat} (h : i < a.fSize) : a.fInd.view.getD i 0 = a.cellOf i := by
  have lt := Nat.lt_of_lt_of_le h shape.view_length_ge
  rw [cellOf, List.getD_eq_getElem _ _ lt, List.getD_eq_getElem _ _ lt]

/-- What belongs to the slots after the removal of `slot` from an array of size `n`. -/
def removedAt {α : Type} (cells : Nat → α) (n slot i : Nat) : α :=
  if i < slot then cells i else if i + 1 < n then cells (i + 1) else if i + 1 = n then cells slot else cells i

theorem getD_irrelevant {v : List Nat} {j : Nat} (lt : j < v.length) (d e : Nat) : v[j]?.getD d = v[j]?.getD e := by
  rw [List.getElem?_eq_getElem lt]
  rfl

theorem getD_remove {v : List Nat} {n slot x : Nat} (inside : slot < n) (le : n ≤ v.length) (own : v.getD slot slot = x)
    (i : Nat) :
    (v.take slot ++ (v.drop (slot + 1)).take (n - 1 - slot) ++ (x :: v.drop n)).getD i i =
      removedAt (fun i => v.getD i i) n slot i := by
  simp only [List.getD_eq_getElem?_getD] at own ⊢
  unfold removedAt
  rw [List.append_assoc, List.getElem?_append, List.length_take, Nat.min_eq_left (by omega)]
  split
  · rw [List.getElem?_take_of_lt (by omega)]
  · rw [List.getElem?_append, List.length_take, List.length_drop, Nat.min_eq_left (by omega)]
    split
    · rw [if_pos (by omega), List.getElem?_take_of_lt (by omega), List.getElem?_drop,
        show slot + 1 + (i - slot) = i + 1 by omega]
      exact getD_irrelevant (by omega) _ _
    · rw [if_neg (by omega)]
      split
      · rw [show i - slot - (n - 1 - slot) = 0 by omega]
        exact own.symm
      · rw [show i - slot - (n - 1 - slot) = (i - n) + 1 by omega, List.getElem?_cons_succ, List.getElem?_drop,
          show n + (i - n) = i by omega]

theorem remove_spec (wf : a.Wf) {slot : Nat} (inside : slot < a.fSize) :
    ∃ a', a.remove slot = .ok a' ∧ a'.Wf ∧ a'.fSize = a.fSize - 1 ∧ a'.fCapacity = a.fCapacity ∧
      (∀ i, a'.cellOf i = removedAt a.cellOf a.fSize slot i) ∧
      (∀ p, a'.assocAt p = if p = a.cellOf slot then (a.assocAt p).assign blank else a.assocAt p) ∧
      a'.fKeys = a.fKeys.map fun t => t.updateRemoved slot := by
  have shape := wf.toShape
  have isize : slot < a.fInd.fSize := by rw [shape.ind_size]; exact inside
  have lt := shape.cellOf_lt inside
  obtain ⟨mark, le, settled⟩ := shape.settled
  have changed := shape.modifyCell (a.cellOf slot) fun assoc => assoc.assign blank
  refine ⟨{ a.modifyCell (a.cellOf slot) (fun assoc => assoc.assign blank) with
      fInd := a.fInd.remove slot
      fKeys := a.fKeys.map fun t => t.updateRemoved slot
      fSize := a.fSize - 1 }, ?_, ⟨⟨AnyIndTable.wf_remove shape.ind isize, ?_, ⟨mark, le, ?_⟩, shape.capacity,
        shape.capacity_pos, changed.contents⟩, ?_⟩, rfl, rfl, ?_, ?_, rfl⟩
  · have same : { a with fInd := (a.fInd.atSlot slot).1 } = a := by rw [AnyIndTable.atSlot_of_lt shape.ind isize]
    simp only [remove, if_pos inside, same, shape.intAt_eq, shape.setCell_ok lt, bind, Except.bind]
    rfl
  · show a.fInd.fSize - 1 = a.fSize - 1
    rw [shape.ind_size]
  · exact AnyIndTable.settled_remove shape.ind settled isize
  · intro t ht
    obtain ⟨u, hu, rfl⟩ := Option.map_eq_some_iff.mp ht
    exact (wf.keys u hu).updateRemoved inside
  · intro i
    show (a.fInd.remove slot).view.getD i i = _
    rw [AnyIndTable.view_remove shape.ind isize, shape.getD_view inside, shape.ind_size]
    exact getD_remove inside shape.view_length_ge rfl i
  · intro p
    refine (shape.assocAt_modifyCell lt (fun assoc => assoc.assign blank) p).trans ?_
    split
    · rename_i here
      rw [here]
    · rfl

/-! ### Insertion -/

/-- What belongs to the slots after `size` slots have been reserved at `pos` in an array of size `n`. -/
def insertedAt {α : Type} (cells : Nat → α) (n pos size i : Nat) : α :=
  if i < pos then cells i else if i < pos + size then cells (n + (i - pos))
  else if i < n + size then cells (i - size) else cells i

theorem getD_insert {v : List Nat} {n pos size : Nat} (inside : pos ≤ n) (le : n + size ≤ v.length) (i : Nat) :
    (v.take pos ++ (v.drop n).take size ++ (v.drop pos).take (n - pos) ++ v.drop (n + size)).getD i i =
      insertedAt (fun i => v.getD i i) n pos size i := by
  simp only [List.getD_eq_getElem?_getD]
  unfold insertedAt
  rw [List.append_assoc, List.append_assoc, List.getElem?_append, List.length_take, Nat.min_eq_left (by omega)]
  split
  · rw [List.getElem?_take_of_lt (by omega)]
  · rw [List.getElem?_append, List.length_take, List.length_drop, Nat.min_eq_left (by omega)]
    split
    · rw [if_pos (by omega), List.getElem?_take_of_lt (by omega), List.getElem?_drop]
      exact getD_irrelevant (by omega) _ _
    · rw [if_neg (by omega), List.getElem?_append, List.length_take, List.length_drop, Nat.min_eq_left (by omega)]
      split
      · rw [if_pos (by omega), List.getElem?_take_of_lt (by omega), List.getElem?_drop,
          show pos + (i - pos - size) = i - size by omega]
        exact getD_irrelevant (by omega) _ _
      · rw [if_neg (by omega), List.getElem?_drop, show n + size + (i - pos - size - (n - pos)) = i by omega]

theorem insertReserve_spec (wf : a.Wf) {pos size : Nat} (inside : pos ≤ a.fSize) (some : 0 < a.fSize + size) :
    ∃ a', a.insertReserve pos size = .ok a' ∧ a'.Wf ∧ a'.fSize = a.fSize + size ∧ a.fCapacity ≤ a'.fCapacity ∧
      (∀ i, a'.cellOf i = insertedAt a.cellOf a.fSize pos size i) ∧ (∀ p, a'.assocAt p = a.assocAt p) ∧
      a'.fKeys = a.fKeys.map fun t => t.updateInserted pos size := by
  obtain ⟨b, reached, shape, same, bsize, cap⟩ := atSlot_spec wf.toShape (a.fSize + size - 1)
  have size' : b.fSize = a.fSize + size := by omega
  have isize : b.fInd.fSize = a.fSize + size := by rw [shape.ind_size, size']
  obtain ⟨ind, reserved, ksize, kcap, kwf, view⟩ :=
    AnyIndTable.view_insertReserve (t := b.fInd) shape.ind (show pos + size ≤ b.fInd.fSize by omega)
  obtain ⟨mark, le, settled⟩ := shape.settled
  have bcells : b.cellOf = a.cellOf := funext same.cellOf
  rw [isize, show a.fSize + size - size = a.fSize by omega] at view
  have long := shape.view_length_ge
  refine ⟨{ b with fInd := ind, fKeys := b.fKeys.map fun t => t.updateInserted pos size }, ?_,
    ⟨⟨kwf, ?_, ⟨mark, le, ?_⟩, shape.capacity, shape.capacity_pos, shape.contents⟩, ?_⟩, size', cap, ?_, ?_, ?_⟩
  · rw [insertReserve, if_neg (by omega), reached]
    simp only [bind, Except.bind, reserved]
    rfl
  · show ind.fSize = b.fSize
    rw [ksize, shape.ind_size]
  · refine settled.of_drop kcap ksize ?_
    rw [view, isize, List.drop_append, List.drop_of_length_le, List.nil_append]
    · simp only [List.length_append, List.length_take, List.length_drop]
      rw [show a.fSize + size - (min pos b.fInd.view.length + min size (b.fInd.view.length - a.fSize) +
        min (a.fSize - pos) (b.fInd.view.length - pos)) = 0 by omega]
      rfl
    · simp only [List.length_append, List.length_take, List.length_drop]
      omega
  · intro t ht
    obtain ⟨u, hu, rfl⟩ := Option.map_eq_some_iff.mp ht
    show (u.updateInserted pos size).Wf b.fSize
    rw [size']
    rw [same.keys] at hu
    exact (wf.keys u hu).updateInserted pos size
  · intro i
    show ind.view.getD i i = _
    rw [view, getD_insert inside (by omega) i, ← bcells]
    rfl
  · exact same.assocAt
  · show b.fKeys.map _ = _
    rw [same.keys]

end AnyArrayImpl

end Coast.Anything
