import Coast.Anything.ArrayImpl

/-!
# What keeps the array's tables in bounds

An array is read as a memory of key/value pairs, `assocAt`, and a one-to-one map from slots to cells,
`cellOf`; both are total, with blank pairs and unused cells behind what is allocated. `Wf` bounds the
cells in use by the capacity. Lookups in the hash table are searches of `LinearProbing`.
-/

namespace Coast.Anything

open LinearProbing

theorem le_nextPrimeFrom (fuel x : Nat) : x ≤ nextPrimeFrom fuel x := by
  induction fuel generalizing x with
  | zero => exact Nat.le_refl _
  | succ fuel ih =>
    rw [nextPrimeFrom]
    split
    · exact Nat.le_refl _
    · exact Nat.le_trans (by omega) (ih (x + 2))

theorem le_ifaNextPrime (x : Nat) : x ≤ ifaNextPrime x := by
  unfold ifaNextPrime
  split
  · omega
  · refine Nat.le_trans ?_ (le_nextPrimeFrom _ _)
    split <;> omega

structure AnyKeyTable.Wf (t : AnyKeyTable) (n : Nat) : Prop where
  length : t.fHashTable.length = t.fCapacity
  capacity : AnyKeyTable.cInitCapacity ≤ t.fCapacity
  threshold : t.fThreshold = 3 * t.fCapacity / 4
  nodup : (contents t.fHashTable).Nodup
  bound : ∀ l ∈ contents t.fHashTable, l < n
  room : (contents t.fHashTable).length < t.fCapacity

namespace AnyArrayImpl

variable {V : Type}

def cellOf (a : AnyArrayImpl V) (i : Nat) : Nat := a.fInd.view.getD i i

structure Shape (a : AnyArrayImpl V) : Prop where
  ind : a.fInd.Wf
  ind_size : a.fInd.fSize = a.fSize
  settled : ∃ mark ≤ a.fCapacity, a.fInd.Settled mark
  capacity : a.fCapacity = a.fNumOfBufs * arrayBufSize
  capacity_pos : 0 < a.fCapacity
  contents : a.fContents.length = a.fCapacity

structure Wf (a : AnyArrayImpl V) : Prop extends Shape a where
  keys : ∀ t ∈ a.fKeys, t.Wf a.fSize

variable {a : AnyArrayImpl V}

theorem Shape.size_le (wf : a.Shape) : a.fSize ≤ a.fCapacity := by
  obtain ⟨mark, le, settled⟩ := wf.settled
  have := settled.size_le
  rw [wf.ind_size] at this
  omega

theorem Shape.cellOf_lt (wf : a.Shape) {i : Nat} (h : i < a.fSize) : a.cellOf i < a.fCapacity := by
  obtain ⟨mark, le, settled⟩ := wf.settled
  have size := settled.size_le
  have cap := settled.le_capacity
  rw [wf.ind_size] at size
  have lt : i < a.fInd.view.length := by rw [wf.ind.view_length]; omega
  have bound := settled.getD_lt wf.ind (show i < mark by omega)
  rw [List.getD_eq_getElem _ _ lt] at bound
  rw [cellOf, List.getD_eq_getElem _ _ lt]
  omega

theorem Shape.cellOf_size_lt (wf : a.Shape) (h : a.fSize < a.fCapacity) : a.cellOf a.fSize < a.fCapacity := by
  obtain ⟨mark, le, settled⟩ := wf.settled
  have size := settled.size_le
  have cap := settled.le_capacity
  rw [wf.ind_size] at size
  by_cases lt : a.fSize < a.fInd.fCapacity
  · have len : a.fSize < a.fInd.view.length := by rw [wf.ind.view_length]; exact lt
    rw [cellOf, List.getD_eq_getElem _ _ len, ← List.getD_eq_getElem _ 0 len]
    by_cases below : a.fSize < mark
    · have := settled.getD_lt wf.ind below
      omega
    · rw [settled.getD_eq (by omega) lt]
      exact h
  · rw [cellOf, List.getD_eq_default _ _ (by rw [wf.ind.view_length]; omega)]
    exact h

theorem Shape.cellOf_size_eq (wf : a.Shape) (h : a.fSize = a.fCapacity) : a.cellOf a.fSize = a.fSize := by
  obtain ⟨mark, le, settled⟩ := wf.settled
  have size := settled.size_le
  rw [wf.ind_size] at size
  by_cases lt : a.fSize < a.fInd.fCapacity
  · have len : a.fSize < a.fInd.view.length := by rw [wf.ind.view_length]; exact lt
    rw [cellOf, List.getD_eq_getElem _ _ len, ← List.getD_eq_getElem _ 0 len, settled.getD_eq (by omega) lt]
  · rw [cellOf, List.getD_eq_default _ _ (by rw [wf.ind.view_length]; omega)]

theorem Shape.cellOf_injective (wf : a.Shape) : Function.Injective a.cellOf := by
  have inside : ∀ i, i < a.fInd.fCapacity → a.cellOf i = a.fInd.view.getD i 0 ∧ a.cellOf i < a.fInd.fCapacity := by
    intro i hi
    have lt : i < a.fInd.view.length := by rw [wf.ind.view_length]; exact hi
    rw [cellOf, List.getD_eq_getElem _ _ lt, List.getD_eq_getElem _ _ lt]
    exact ⟨rfl, List.mem_range.mp (wf.ind.perm.mem_iff.mp (List.getElem_mem lt))⟩
  have outside : ∀ i, a.fInd.fCapacity ≤ i → a.cellOf i = i := by
    intro i hi
    exact List.getD_eq_default _ _ (by rw [wf.ind.view_length]; exact hi)
  intro i j same
  by_cases hi : i < a.fInd.fCapacity <;> by_cases hj : j < a.fInd.fCapacity
  · rw [(inside i hi).1, (inside j hj).1] at same
    exact wf.ind.getD_injective hi hj same
  · have := (inside i hi).2
    rw [same, outside j (by omega)] at this
    omega
  · have := (inside j hj).2
    rw [← same, outside i (by omega)] at this
    omega
  · rw [outside i (by omega), outside j (by omega)] at same
    exact same

theorem getD_atSlot {t : AnyIndTable} (wf : t.Wf) (slot i : Nat) :
    (t.atSlot slot).1.view.getD i i = t.view.getD i i := by
  obtain ⟨_, _, cap, view, _⟩ := AnyIndTable.atSlot_spec wf slot
  rw [view]
  by_cases lt : i < t.view.length
  · rw [List.getD_append _ _ _ _ lt]
  · rw [List.getD_append_right _ _ _ _ (by omega), wf.view_length, List.getD_eq_default t.view _ (by omega)]
    rw [wf.view_length] at lt
    by_cases inside : i - t.fCapacity < (t.atSlot slot).1.fCapacity - t.fCapacity
    · rw [List.getD_eq_getElem?_getD, List.getElem?_range' inside]
      show t.fCapacity + 1 * (i - t.fCapacity) = i
      omega
    · exact List.getD_eq_default _ _ (by rw [List.length_range']; omega)

theorem atSlot_snd {t : AnyIndTable} (wf : t.Wf) (slot : Nat) : (t.atSlot slot).2 = t.view.getD slot slot := by
  obtain ⟨wf', size, _, _, found⟩ := AnyIndTable.atSlot_spec wf slot
  have lt : slot < (t.atSlot slot).1.view.length := by
    rw [wf'.view_length]
    have := wf'.size_le
    omega
  rw [found, ← getD_atSlot wf slot slot, List.getD_eq_getElem _ _ lt, List.getD_eq_getElem _ _ lt]

theorem Shape.intAt_eq (wf : a.Shape) (i : Nat) : (a.fInd.atSlot i).2 = a.cellOf i := atSlot_snd wf.ind i

variable [Inhabited V]

def assocAt (a : AnyArrayImpl V) (pos : Nat) : AnyKeyAssoc V := a.fContents.getD pos blank

def assocOf (a : AnyArrayImpl V) (i : Nat) : AnyKeyAssoc V := a.assocAt (a.cellOf i)

theorem wf_new : (new : AnyArrayImpl V).Wf := by
  refine ⟨⟨AnyIndTable.wf_new (by decide), rfl, ⟨0, Nat.zero_le _, AnyIndTable.settled_new _⟩, rfl,
    Nat.zero_lt_succ _, rfl⟩, ?_⟩
  intro t h
  cases h

theorem Shape.cell_ok (wf : a.Shape) {pos : Nat} (h : pos < a.fCapacity) : a.cell pos = .ok (a.assocAt pos) := by
  rw [cell, if_pos (by rw [← wf.capacity]; exact h), assocAt]

theorem Shape.slotKey_ok (wf : a.Shape) {l : Nat} (h : l < a.fSize) : a.slotKey l = .ok (a.assocOf l).fKey := by
  rw [slotKey, wf.intAt_eq, wf.cell_ok (wf.cellOf_lt h)]
  rfl

/-! ### Lookups are searches -/

def home (cap : Nat) (key : Bytes) : Nat := ((ifaHash key).1.tmod cap).toNat

theorem home_lt {cap : Nat} (pos : 0 < cap) (key : Bytes) : home cap key < cap := by
  have nonneg := ifaHash_nonneg key 0 0
  have lt := Int.tmod_lt_of_pos (ifaHash key).1 (show (0 : Int) < cap by omega)
  have ge := Int.tmod_nonneg (cap : Int) nonneg
  unfold home
  omega

theorem hashStops_ok (wf : a.Shape) {t : AnyKeyTable} (bound : ∀ l ∈ contents t.fHashTable, l < a.fSize)
    (key : Bytes) (keylen : Int) (append : Bool) (i : Nat) :
    a.hashStops t key keylen append i =
      .ok (stops (fun l => keyMatches key keylen (a.assocOf l).fKey) append (t.fHashTable.getD i .free)) := by
  unfold hashStops
  cases hc : t.fHashTable.getD i .free with
  | free => rfl
  | deleted => rfl
  | used l =>
    have lt := bound l (mem_contents.mpr ⟨i, getElem?_of_getD_used hc⟩)
    simp only [wf.slotKey_ok lt, stops]
    rfl

theorem doHashLoop_eq (wf : a.Shape) {t : AnyKeyTable} (bound : ∀ l ∈ contents t.fHashTable, l < a.fSize)
    (key : Bytes) (keylen : Int) (append : Bool) {hash : Nat} (start : hash < t.fCapacity) :
    ∀ m k, k + m = t.fCapacity → 0 < m → a.doHashLoop t key keylen append hash m ((hash + k) % t.fCapacity) =
      .ok (((List.range' k m).map fun k => (hash + k) % t.fCapacity).find? fun i =>
        stops (fun l => keyMatches key keylen (a.assocOf l).fKey) append (t.fHashTable.getD i .free)) := by
  intro m
  induction m with
  | zero => intro k _ pos; omega
  | succ m ih =>
    intro k total _
    rw [doHashLoop, hashStops_ok wf bound, List.range'_succ, List.map_cons, List.find?_cons]
    simp only [bind, Except.bind, probe_succ (show 0 < t.fCapacity by omega)]
    cases stops (fun l => keyMatches key keylen (a.assocOf l).fKey) append
        (t.fHashTable.getD ((hash + k) % t.fCapacity) .free) with
    | true => rfl
    | false =>
      simp only [Bool.false_eq_true, if_false]
      by_cases last : m = 0
      · subst last
        rw [if_pos (by rw [show hash + (k + 1) = hash + t.fCapacity by omega, Nat.add_mod_right, Nat.mod_eq_of_lt start])]
        rfl
      · rw [if_neg, ih (k + 1) (by omega) (by omega)]
        intro back
        have same : (hash + (k + 1)) % t.fCapacity = (hash + 0) % t.fCapacity := by
          rw [back, Nat.add_zero, Nat.mod_eq_of_lt start]
        have := probe_injective (by omega) (by omega) same
        omega

theorem doHash_eq (wf : a.Shape) {t : AnyKeyTable} (length : t.fHashTable.length = t.fCapacity)
    (pos : 0 < t.fCapacity) (bound : ∀ l ∈ contents t.fHashTable, l < a.fSize) (key : Bytes) (append : Bool) :
    a.doHash t key append = .ok (search t.fHashTable
      (fun l => keyMatches key (ifaHash key).2 (a.assocOf l).fKey) append (home t.fCapacity key)) := by
  have nonneg := Int.tmod_nonneg (t.fCapacity : Int) (ifaHash_nonneg key 0 0)
  have start := home_lt pos key
  have loop := doHashLoop_eq wf bound key (ifaHash key).2 append start t.fCapacity 0 (by omega) pos
  rw [Nat.add_zero, Nat.mod_eq_of_lt start] at loop
  unfold doHash
  simp only [ne_eq, not_true_eq_false, if_false]
  rw [if_neg (by omega)]
  unfold search probe
  rw [length, List.range_eq_range']
  exact loop

end AnyArrayImpl

end Coast.Anything
