import Coast.Base.Bytes
import Mathlib.Data.List.GetD
import Mathlib.Data.List.Nodup
import Mathlib.Data.List.Perm.Basic
import Mathlib.Data.List.Range
import Mathlib.Data.List.TakeDrop

/-!
# The index table

`AnyIndTable` maps external slots to storage cells and keeps the cells that are not in use on a free
list. The assigned entries followed by the free list are one list, the `view`; every operation only
permutes it or extends it by cells that were never used.
-/

namespace Coast.Anything

inductive Fault where
  | contents (cell : Nat)
  | hashTable
  | range
  deriving DecidableEq, Repr

abbrev Exec := Except Fault

structure AnyIndTable where
  fIndexTable : List Nat
  fEmptyTable : List Nat
  fCapacity : Nat
  fSize : Nat
  deriving DecidableEq, Repr

namespace AnyIndTable

/-- The `-1` that `Clear` writes is never read: all reads are below `fSize`. -/
def initTable (t : AnyIndTable) (cap : Nat) : AnyIndTable :=
  { t with fCapacity := cap, fIndexTable := List.replicate cap 0 }

def initEmpty (t : AnyIndTable) (oldCap newCap : Nat) : AnyIndTable :=
  let sz := if oldCap < newCap then oldCap else newCap
  { t with fEmptyTable := t.fEmptyTable.take sz ++ List.range' sz (newCap - sz) }

/-- Copies the first `fSize` entries of the old table, if there is one, and takes the entries up to
`slot` from the free list. -/
def initIndices (t : AnyIndTable) (slot : Nat) (ot : Option (List Nat)) : AnyIndTable :=
  let copied := (ot.getD t.fIndexTable).take t.fSize
  { t with
    fIndexTable := copied ++ (t.fEmptyTable.drop t.fSize).take (slot + 1 - t.fSize) ++
      t.fIndexTable.drop (slot + 1)
    fSize := slot + 1 }

def expand (t : AnyIndTable) (slot : Nat) : AnyIndTable :=
  let old := t.fIndexTable
  let oldCap := t.fCapacity
  let cap := if slot ≥ t.fCapacity * 2 then slot else t.fCapacity
  let t := t.initTable (cap * 2)
  let t := t.initEmpty oldCap t.fCapacity
  t.initIndices slot (some old)

def new (initCapacity : Nat) : AnyIndTable :=
  (AnyIndTable.initTable ⟨[], [], initCapacity, 0⟩ initCapacity).initEmpty 0 initCapacity

def atSlot (t : AnyIndTable) (slot : Nat) : AnyIndTable × Nat :=
  let t := if slot ≥ t.fCapacity then t.expand slot else t
  let t := if slot ≥ t.fSize then t.initIndices slot none else t
  (t, t.fIndexTable.getD slot 0)

/-- `At(long) const`: `none` is the `-1` for a slot that does not exist. -/
def atSlotConst (t : AnyIndTable) (slot : Nat) : Option Nat :=
  if slot < t.fCapacity ∧ slot < t.fSize then some (t.fIndexTable.getD slot 0) else none

def remove (t : AnyIndTable) (slot : Nat) : AnyIndTable :=
  { t with
    fEmptyTable := t.fEmptyTable.set (t.fSize - 1) (t.fIndexTable.getD slot 0)
    fIndexTable := t.fIndexTable.take slot ++
      (t.fIndexTable.drop (slot + 1)).take (t.fSize - 1 - slot) ++ t.fIndexTable.drop (t.fSize - 1)
    fSize := t.fSize - 1 }

def setIndex (t : AnyIndTable) (slot idx : Nat) : AnyIndTable :=
  if slot < t.fSize then { t with fIndexTable := t.fIndexTable.set slot idx } else t

/-- `std::rotate(fIndexTable + pos, fIndexTable + fSize - size, fIndexTable + fSize)`, which needs
`pos` not to lie behind the middle of the range. -/
def insertReserve (t : AnyIndTable) (pos size : Nat) : Exec AnyIndTable :=
  let middle := t.fSize - size
  if pos + size ≤ t.fSize then
    .ok { t with
      fIndexTable := t.fIndexTable.take pos ++ (t.fIndexTable.drop middle).take size ++
        (t.fIndexTable.drop pos).take (middle - pos) ++ t.fIndexTable.drop t.fSize }
  else .error .range

def view (t : AnyIndTable) : List Nat := t.fIndexTable.take t.fSize ++ t.fEmptyTable.drop t.fSize

structure Wf (t : AnyIndTable) : Prop where
  capacity_pos : 0 < t.fCapacity
  index_length : t.fIndexTable.length = t.fCapacity
  empty_length : t.fEmptyTable.length = t.fCapacity
  size_le : t.fSize ≤ t.fCapacity
  perm : t.view.Perm (List.range t.fCapacity)

/-- From `mark` on, the free list holds the cells that were never used, in order. -/
structure Settled (t : AnyIndTable) (mark : Nat) : Prop where
  size_le : t.fSize ≤ mark
  le_capacity : mark ≤ t.fCapacity
  tail : t.view.drop mark = List.range' mark (t.fCapacity - mark)

variable {t : AnyIndTable} {slot pos size mark : Nat}

theorem Wf.take_length (wf : t.Wf) : (t.fIndexTable.take t.fSize).length = t.fSize := by
  rw [List.length_take, wf.index_length]
  exact Nat.min_eq_left wf.size_le

theorem Wf.view_length (wf : t.Wf) : t.view.length = t.fCapacity := by
  rw [wf.perm.length_eq, List.length_range]

theorem Wf.view_take (wf : t.Wf) : t.view.take t.fSize = t.fIndexTable.take t.fSize := by
  rw [view, List.take_append_of_le_length (by rw [wf.take_length]), List.take_take, Nat.min_self]

theorem Wf.view_drop (wf : t.Wf) : t.view.drop t.fSize = t.fEmptyTable.drop t.fSize := by
  rw [view, List.drop_append, List.drop_of_length_le (by rw [wf.take_length]), wf.take_length]
  simp

theorem Wf.getD_view (wf : t.Wf) (h : slot < t.fSize) : t.fIndexTable.getD slot 0 = t.view.getD slot 0 := by
  have lt : slot < (t.fIndexTable.take t.fSize).length := by rw [wf.take_length]; exact h
  rw [view, List.getD_eq_getElem?_getD, List.getD_eq_getElem?_getD, List.getElem?_append_left lt,
    List.getElem?_take_of_lt h]

theorem Settled.take_perm (s : t.Settled mark) (wf : t.Wf) : (t.view.take mark).Perm (List.range mark) := by
  have whole := wf.perm
  rw [← List.take_append_drop mark t.view, s.tail] at whole
  have parts : List.range t.fCapacity = List.range mark ++ List.range' mark (t.fCapacity - mark) := by
    have join := List.range'_append_1 (s := 0) (m := mark) (n := t.fCapacity - mark)
    rw [Nat.zero_add, Nat.add_sub_cancel' s.le_capacity] at join
    rw [List.range_eq_range', List.range_eq_range', join]
  rw [parts] at whole
  exact (List.perm_append_right_iff _).mp whole

theorem Settled.getD_lt (s : t.Settled mark) (wf : t.Wf) (h : slot < mark) : t.view.getD slot 0 < mark := by
  have lt : slot < t.view.length := by rw [wf.view_length]; have := s.le_capacity; omega
  have member : t.view.getD slot 0 ∈ t.view.take mark := by
    rw [List.getD_eq_getElem _ _ lt]
    exact List.mem_take_iff_getElem.mpr ⟨slot, by omega, rfl⟩
  exact List.mem_range.mp ((s.take_perm wf).mem_iff.mp member)

theorem Settled.getD_eq (s : t.Settled mark) (h : mark ≤ slot) (cap : slot < t.fCapacity) :
    t.view.getD slot 0 = slot := by
  have eq : (t.view.drop mark)[slot - mark]? = some slot := by
    rw [s.tail, List.getElem?_range' (by omega)]
    congr 1
    omega
  rw [List.getElem?_drop, show mark + (slot - mark) = slot by omega] at eq
  rw [List.getD_eq_getElem?_getD, eq]
  rfl

theorem Wf.getD_injective (wf : t.Wf) {i j : Nat} (hi : i < t.fCapacity) (hj : j < t.fCapacity)
    (same : t.view.getD i 0 = t.view.getD j 0) : i = j := by
  have nodup : t.view.Nodup := wf.perm.nodup_iff.mpr List.nodup_range
  have li : i < t.view.length := by rw [wf.view_length]; exact hi
  have lj : j < t.view.length := by rw [wf.view_length]; exact hj
  rw [List.getD_eq_getElem _ _ li, List.getD_eq_getElem _ _ lj] at same
  exact (List.Nodup.getElem_inj_iff nodup).mp same

theorem new_eq (cap : Nat) : new cap = ⟨List.replicate cap 0, List.range' 0 cap, cap, 0⟩ := by
  cases cap <;> rfl

theorem wf_new {cap : Nat} (pos : 0 < cap) : (new cap).Wf := by
  rw [new_eq]
  refine ⟨pos, by simp, by simp, Nat.zero_le _, ?_⟩
  simp [view, List.range_eq_range']

theorem settled_new (cap : Nat) : (new cap).Settled 0 := by
  rw [new_eq]
  exact ⟨Nat.le_refl _, Nat.zero_le _, by simp [view]⟩

theorem view_initIndices (empty : t.fEmptyTable.length = t.fCapacity) (ot : Option (List Nat))
    (taken : ((ot.getD t.fIndexTable).take t.fSize).length = t.fSize) (ge : t.fSize ≤ slot)
    (lt : slot < t.fCapacity) :
    (t.initIndices slot ot).view = (ot.getD t.fIndexTable).take t.fSize ++ t.fEmptyTable.drop t.fSize := by
  have moved : ((t.fEmptyTable.drop t.fSize).take (slot + 1 - t.fSize)).length = slot + 1 - t.fSize := by
    rw [List.length_take, List.length_drop, empty]
    omega
  unfold initIndices view
  dsimp only
  rw [List.take_append_of_le_length (by rw [List.length_append, taken, moved]; omega),
    List.take_of_length_le (by rw [List.length_append, taken, moved]; omega), List.append_assoc]
  congr 1
  conv_rhs => rw [← List.take_append_drop (slot + 1 - t.fSize) (t.fEmptyTable.drop t.fSize)]
  rw [List.drop_drop, show t.fSize + (slot + 1 - t.fSize) = slot + 1 by omega]

theorem initIndices_length (index : t.fIndexTable.length = t.fCapacity)
    (empty : t.fEmptyTable.length = t.fCapacity) (ot : Option (List Nat))
    (taken : ((ot.getD t.fIndexTable).take t.fSize).length = t.fSize) (ge : t.fSize ≤ slot)
    (lt : slot < t.fCapacity) : (t.initIndices slot ot).fIndexTable.length = t.fCapacity := by
  unfold initIndices
  dsimp only
  rw [List.length_append, List.length_append, taken, List.length_take, List.length_drop,
    List.length_drop, empty, index]
  omega

theorem expand_spec (wf : t.Wf) (full : slot ≥ t.fCapacity) :
    (t.atSlot slot).1.Wf ∧ (t.atSlot slot).1.fSize = max t.fSize (slot + 1) ∧
      t.fCapacity ≤ (t.atSlot slot).1.fCapacity ∧
      (t.atSlot slot).1.view =
        t.view ++ List.range' t.fCapacity ((t.atSlot slot).1.fCapacity - t.fCapacity) := by
  have size := wf.size_le
  have pos := wf.capacity_pos
  -- The table whose indices `Expand` initialises last.
  obtain ⟨cap, hcap, room, u, hu⟩ : ∃ cap, t.fCapacity ≤ cap ∧ slot < cap ∧
      ∃ u : AnyIndTable, u = ⟨List.replicate cap 0,
        t.fEmptyTable ++ List.range' t.fCapacity (cap - t.fCapacity), cap, t.fSize⟩ ∧
        t.expand slot = u.initIndices slot (some t.fIndexTable) := by
    refine ⟨(if slot ≥ t.fCapacity * 2 then slot else t.fCapacity) * 2, ?_, ?_, _, rfl, ?_⟩
    · split <;> omega
    · split <;> omega
    · have grown : t.fCapacity < (if slot ≥ t.fCapacity * 2 then slot else t.fCapacity) * 2 := by
        split <;> omega
      unfold expand initTable initEmpty
      dsimp only
      rw [if_pos grown, List.take_of_length_le (by rw [wf.empty_length])]
  obtain ⟨rfl, result⟩ := hu
  have taken : ((some t.fIndexTable).getD (List.replicate cap 0) |>.take t.fSize).length = t.fSize :=
    wf.take_length
  have empty : (t.fEmptyTable ++ List.range' t.fCapacity (cap - t.fCapacity)).length = cap := by
    rw [List.length_append, wf.empty_length, List.length_range']
    omega
  have view := view_initIndices (t := ⟨List.replicate cap 0, _, cap, t.fSize⟩) empty
    (some t.fIndexTable) taken (by dsimp only; omega) room
  have reached : (t.atSlot slot).1 = t.expand slot := by
    have done : ¬ slot ≥ (t.expand slot).fSize := by
      rw [result]
      show ¬ slot ≥ slot + 1
      omega
    simp only [atSlot, if_pos full, if_neg done]
  have whole : (t.atSlot slot).1.view = t.view ++ List.range' t.fCapacity (cap - t.fCapacity) := by
    rw [reached, result, view, List.drop_append_of_le_length (by rw [wf.empty_length]; exact size),
      ← List.append_assoc]
    rfl
  rw [reached, result] at whole ⊢
  refine ⟨⟨by show 0 < cap; omega, ?_, empty, by show slot + 1 ≤ cap; omega, ?_⟩, ?_, hcap, whole⟩
  · exact initIndices_length (t := ⟨List.replicate cap 0, _, cap, t.fSize⟩) (by simp) empty
      (some t.fIndexTable) taken (by dsimp only; omega) room
  · rw [whole]
    have join := List.range'_append_1 (s := 0) (m := t.fCapacity) (n := cap - t.fCapacity)
    rw [Nat.zero_add, Nat.add_sub_cancel' hcap] at join
    show (t.view ++ _).Perm (List.range cap)
    rw [List.range_eq_range', ← join, ← List.range_eq_range']
    exact wf.perm.append_right _
  · show slot + 1 = max t.fSize (slot + 1)
    omega

theorem atSlot_spec (wf : t.Wf) (slot : Nat) :
    (t.atSlot slot).1.Wf ∧ (t.atSlot slot).1.fSize = max t.fSize (slot + 1) ∧
      t.fCapacity ≤ (t.atSlot slot).1.fCapacity ∧
      (t.atSlot slot).1.view =
        t.view ++ List.range' t.fCapacity ((t.atSlot slot).1.fCapacity - t.fCapacity) ∧
      (t.atSlot slot).2 = (t.atSlot slot).1.view.getD slot 0 := by
  suffices h : (t.atSlot slot).1.Wf ∧ (t.atSlot slot).1.fSize = max t.fSize (slot + 1) ∧
      t.fCapacity ≤ (t.atSlot slot).1.fCapacity ∧
      (t.atSlot slot).1.view =
        t.view ++ List.range' t.fCapacity ((t.atSlot slot).1.fCapacity - t.fCapacity) by
    obtain ⟨wf', size, cap, view⟩ := h
    exact ⟨wf', size, cap, view, wf'.getD_view (by rw [size]; omega)⟩
  by_cases full : slot ≥ t.fCapacity
  · exact expand_spec wf full
  · by_cases fresh : slot ≥ t.fSize
    · have view := view_initIndices wf.empty_length none wf.take_length fresh (by omega)
      have result : (t.atSlot slot).1 = t.initIndices slot none := by
        simp only [atSlot, if_neg full, if_pos fresh]
      rw [result, view]
      refine ⟨⟨wf.capacity_pos, initIndices_length wf.index_length wf.empty_length none wf.take_length fresh (by omega),
        wf.empty_length, by show slot + 1 ≤ t.fCapacity; omega, ?_⟩, ?_, Nat.le_refl _, ?_⟩
      · rw [view]
        exact wf.perm
      · show slot + 1 = max t.fSize (slot + 1)
        omega
      · rw [show (t.initIndices slot none).fCapacity = t.fCapacity from rfl, Nat.sub_self]
        simp [AnyIndTable.view]
    · have result : (t.atSlot slot).1 = t := by
        simp only [atSlot, if_neg full, if_neg fresh]
      rw [result]
      exact ⟨wf, by omega, Nat.le_refl _, by simp⟩

theorem settled_atSlot (wf : t.Wf) (s : t.Settled mark) (slot : Nat) :
    (t.atSlot slot).1.Settled (max mark (slot + 1)) := by
  obtain ⟨wf', size, cap, view, _⟩ := atSlot_spec wf slot
  have stay : (t.atSlot slot).1.view.drop mark =
      List.range' mark ((t.atSlot slot).1.fCapacity - mark) := by
    have le := s.le_capacity
    rw [view, List.drop_append_of_le_length (by rw [wf.view_length]; exact le), s.tail]
    have join := List.range'_append_1 (s := mark) (m := t.fCapacity - mark)
      (n := (t.atSlot slot).1.fCapacity - t.fCapacity)
    rw [show mark + (t.fCapacity - mark) = t.fCapacity by omega,
      show t.fCapacity - mark + ((t.atSlot slot).1.fCapacity - t.fCapacity) =
        (t.atSlot slot).1.fCapacity - mark by omega] at join
    exact join
  have bound := wf'.size_le
  have le := s.size_le
  have cap' := s.le_capacity
  refine ⟨by rw [size]; omega, by omega, ?_⟩
  have tail := congrArg (List.drop (max mark (slot + 1) - mark)) stay
  rw [List.drop_drop, show mark + (max mark (slot + 1) - mark) = max mark (slot + 1) by omega,
    List.drop_range', show mark + (max mark (slot + 1) - mark) * 1 = max mark (slot + 1) by omega] at tail
  rw [tail]
  congr 1
  omega

theorem wf_of_shuffle {t' : AnyIndTable} (wf : t.Wf) (cap : t'.fCapacity = t.fCapacity)
    (index : t'.fIndexTable.length = t.fCapacity) (empty : t'.fEmptyTable.length = t.fCapacity)
    (size : t'.fSize ≤ t.fCapacity) (perm : t'.view.Perm t.view) : t'.Wf :=
  ⟨by rw [cap]; exact wf.capacity_pos, by rw [cap]; exact index, by rw [cap]; exact empty, by rw [cap]; exact size, by
    rw [cap]; exact perm.trans wf.perm⟩

theorem view_remove (wf : t.Wf) (h : slot < t.fSize) :
    (t.remove slot).view = t.view.take slot ++ (t.view.drop (slot + 1)).take (t.fSize - 1 - slot) ++
      (t.view.getD slot 0 :: t.view.drop t.fSize) := by
  have size := wf.size_le
  have taken := wf.take_length
  rw [← wf.getD_view h]
  have index : (t.remove slot).fIndexTable.take (t.remove slot).fSize =
      t.fIndexTable.take slot ++ (t.fIndexTable.drop (slot + 1)).take (t.fSize - 1 - slot) := by
    unfold remove
    dsimp only
    rw [List.take_append_of_le_length, List.take_of_length_le]
    · simp only [List.length_append, List.length_take, List.length_drop, wf.index_length]
      omega
    · simp only [List.length_append, List.length_take, List.length_drop, wf.index_length]
      omega
  have empty : (t.remove slot).fEmptyTable.drop (t.remove slot).fSize =
      t.fIndexTable.getD slot 0 :: t.fEmptyTable.drop t.fSize := by
    unfold remove
    dsimp only
    have last : t.fSize - 1 < (t.fEmptyTable.set (t.fSize - 1) (t.fIndexTable.getD slot 0)).length := by
      rw [List.length_set, wf.empty_length]
      omega
    rw [List.drop_eq_getElem_cons last, List.getElem_set_self, show t.fSize - 1 + 1 = t.fSize by omega,
      List.drop_set_of_lt (by omega)]
  have front : t.view.take slot = t.fIndexTable.take slot := by
    have := congrArg (List.take slot) wf.view_take
    rwa [List.take_take, List.take_take, Nat.min_eq_left (by omega)] at this
  have middle : (t.view.drop (slot + 1)).take (t.fSize - 1 - slot) =
      (t.fIndexTable.drop (slot + 1)).take (t.fSize - 1 - slot) := by
    have := congrArg (List.drop (slot + 1)) wf.view_take
    rwa [List.drop_take, List.drop_take, show t.fSize - (slot + 1) = t.fSize - 1 - slot by omega] at this
  rw [view, index, empty, wf.view_drop, front, middle]

theorem remove_perm (wf : t.Wf) (h : slot < t.fSize) : (t.remove slot).view.Perm t.view := by
  have lt : slot < t.view.length := by rw [wf.view_length]; have := wf.size_le; omega
  have split : t.view = t.view.take slot ++ (t.view.getD slot 0 ::
      ((t.view.drop (slot + 1)).take (t.fSize - 1 - slot) ++ t.view.drop t.fSize)) := by
    conv_lhs => rw [← List.take_append_drop slot t.view, List.drop_eq_getElem_cons lt,
      ← List.take_append_drop (t.fSize - 1 - slot) (t.view.drop (slot + 1)), List.drop_drop,
      show slot + 1 + (t.fSize - 1 - slot) = t.fSize by omega]
    rw [List.getD_eq_getElem _ _ lt]
  rw [view_remove wf h, List.append_assoc]
  conv_rhs => rw [split]
  exact List.Perm.append_left _ List.perm_middle

theorem wf_remove (wf : t.Wf) (h : slot < t.fSize) : (t.remove slot).Wf := by
  have size := wf.size_le
  refine wf_of_shuffle wf rfl ?_ ?_ (by show t.fSize - 1 ≤ _; omega) (remove_perm wf h)
  · simp only [remove, List.length_append, List.length_take, List.length_drop, wf.index_length]
    omega
  · simp only [remove, List.length_set, wf.empty_length]

theorem settled_remove (wf : t.Wf) (s : t.Settled mark) (h : slot < t.fSize) :
    (t.remove slot).Settled mark := by
  have size := wf.size_le
  have le := s.size_le
  refine ⟨by show t.fSize - 1 ≤ mark; omega, s.le_capacity, ?_⟩
  have front : (t.view.take slot ++ (t.view.drop (slot + 1)).take (t.fSize - 1 - slot)).length = t.fSize - 1 := by
    simp only [List.length_append, List.length_take, List.length_drop, wf.view_length]
    omega
  rw [view_remove wf h, List.drop_append, List.drop_of_length_le (by rw [front]; omega), front, List.nil_append,
    show mark - (t.fSize - 1) = (mark - t.fSize) + 1 by omega, List.drop_succ_cons, List.drop_drop,
    show t.fSize + (mark - t.fSize) = mark by omega]
  exact s.tail

theorem view_insertReserve (wf : t.Wf) (fits : pos + size ≤ t.fSize) :
    ∃ t', t.insertReserve pos size = .ok t' ∧ t'.fSize = t.fSize ∧ t'.fCapacity = t.fCapacity ∧
      t'.Wf ∧ t'.view = t.view.take pos ++ (t.view.drop (t.fSize - size)).take size ++
        (t.view.drop pos).take (t.fSize - size - pos) ++ t.view.drop t.fSize := by
  have le := wf.size_le
  have front : t.view.take pos = t.fIndexTable.take pos := by
    have := congrArg (List.take pos) wf.view_take
    rwa [List.take_take, List.take_take, Nat.min_eq_left (by omega)] at this
  have reserved : (t.view.drop (t.fSize - size)).take size = (t.fIndexTable.drop (t.fSize - size)).take size := by
    have := congrArg (List.drop (t.fSize - size)) wf.view_take
    rwa [List.drop_take, List.drop_take, show t.fSize - (t.fSize - size) = size by omega] at this
  have moved : (t.view.drop pos).take (t.fSize - size - pos) = (t.fIndexTable.drop pos).take (t.fSize - size - pos) := by
    have := congrArg (fun l => (List.drop pos l).take (t.fSize - size - pos)) wf.view_take
    simp only [List.drop_take, List.take_take, Nat.min_eq_left (show t.fSize - size - pos ≤ t.fSize - pos by omega)] at this
    exact this
  obtain ⟨t', ht'⟩ : ∃ t' : AnyIndTable, t' = { t with
      fIndexTable := t.fIndexTable.take pos ++ (t.fIndexTable.drop (t.fSize - size)).take size ++
        (t.fIndexTable.drop pos).take (t.fSize - size - pos) ++ t.fIndexTable.drop t.fSize } := ⟨_, rfl⟩
  have prefixed : (t.fIndexTable.take pos ++ (t.fIndexTable.drop (t.fSize - size)).take size ++
      (t.fIndexTable.drop pos).take (t.fSize - size - pos)).length = t.fSize := by
    simp only [List.length_append, List.length_take, List.length_drop, wf.index_length]
    omega
  have view : t'.view = t.view.take pos ++ (t.view.drop (t.fSize - size)).take size ++
      (t.view.drop pos).take (t.fSize - size - pos) ++ t.view.drop t.fSize := by
    rw [front, reserved, moved, wf.view_drop, ht', AnyIndTable.view]
    dsimp only
    rw [List.take_append_of_le_length (by rw [prefixed]), List.take_of_length_le (by rw [prefixed])]
  refine ⟨t', by rw [insertReserve, if_pos fits, ht'], by rw [ht'], by rw [ht'], ?_, view⟩
  refine wf_of_shuffle wf (by rw [ht']) ?_ (by rw [ht']; exact wf.empty_length) (by rw [ht']; exact le) ?_
  · rw [ht']
    dsimp only
    rw [List.length_append, prefixed, List.length_drop, wf.index_length]
    omega
  · have split : t.view = t.view.take pos ++ ((t.view.drop pos).take (t.fSize - size - pos) ++
        ((t.view.drop (t.fSize - size)).take size ++ t.view.drop t.fSize)) := by
      conv_lhs => rw [← List.take_append_drop pos t.view,
        ← List.take_append_drop (t.fSize - size - pos) (t.view.drop pos), List.drop_drop,
        show pos + (t.fSize - size - pos) = t.fSize - size by omega,
        ← List.take_append_drop size (t.view.drop (t.fSize - size)), List.drop_drop,
        show t.fSize - size + size = t.fSize by omega]
    rw [view]
    conv_rhs => rw [split]
    simp only [List.append_assoc]
    refine List.Perm.append_left _ ?_
    rw [← List.append_assoc, ← List.append_assoc]
    exact List.Perm.append_right _ List.perm_append_comm

theorem Settled.of_drop {t' : AnyIndTable} (s : t.Settled mark) (cap : t'.fCapacity = t.fCapacity)
    (size : t'.fSize = t.fSize) (tail : t'.view.drop t.fSize = t.view.drop t.fSize) : t'.Settled mark := by
  have le := s.size_le
  refine ⟨by rw [size]; exact le, by rw [cap]; exact s.le_capacity, ?_⟩
  have := congrArg (List.drop (mark - t.fSize)) tail
  rw [List.drop_drop, List.drop_drop, show t.fSize + (mark - t.fSize) = mark by omega, s.tail] at this
  rw [this, cap]

end AnyIndTable

end Coast.Anything
