import Coast.Anything.ArrayOrder

/-!
# The assertions of the index table

For each function the assertions that its code makes, with those of the functions that it calls. All of them
hold in every run but those of `AnyIndTable::InsertReserve`, which ask for more room than it uses.
-/

namespace Coast.Anything

open AnyArrayImpl

namespace AnyIndTable

variable {t : AnyIndTable}

def InitIndicesAsserts (t : AnyIndTable) (slot : Nat) : Prop := t.fSize ≤ slot

/-- `InitTable` and `InitEmpty` leave the size alone. -/
def ExpandAsserts (t : AnyIndTable) (slot : Nat) : Prop := slot ≥ t.fCapacity ∧ t.InitIndicesAsserts slot

/-- `At(long)`. -/
def AtAsserts (t : AnyIndTable) (slot : Int) : Prop :=
  slot ≥ 0 ∧
    (slot.toNat ≥ t.fCapacity → t.ExpandAsserts slot.toNat) ∧
    (slot.toNat ≥ (if slot.toNat ≥ t.fCapacity then t.expand slot.toNat else t).fSize →
      (if slot.toNat ≥ t.fCapacity then t.expand slot.toNat else t).InitIndicesAsserts slot.toNat) ∧
    slot < (t.atSlot slot.toNat).1.fSize

def AllAtAssert : AnyIndTable → List Int → Prop
  | _, [] => True
  | t, slot :: slots => t.AtAsserts slot ∧ AllAtAssert (t.atSlot slot.toNat).1 slots

def RemoveAsserts (t : AnyIndTable) (slot : Int) : Prop := slot ≥ 0 ∧ slot < t.fSize

def SetIndexAsserts (t : AnyIndTable) (slot : Int) : Prop := slot ≥ 0 ∧ slot < t.fSize

def InsertReserveAsserts (t : AnyIndTable) (pos size : Nat) : Prop :=
  t.fSize + pos ≤ t.fCapacity ∧ t.fSize + size ≤ t.fCapacity

theorem atSlot_room (t : AnyIndTable) (slot : Nat) : slot < (t.atSlot slot).1.fSize := by
  have made : ∀ u : AnyIndTable, slot < (if slot ≥ u.fSize then u.initIndices slot none else u).fSize := by
    intro u
    split
    · exact Nat.lt_succ_self slot
    · omega
  exact made _

theorem atAsserts (size : t.fSize ≤ t.fCapacity) (slot : Nat) : t.AtAsserts slot := by
  refine ⟨Int.natCast_nonneg slot, fun full => ⟨full, Nat.le_trans size full⟩, fun fresh => fresh, ?_⟩
  have room := t.atSlot_room slot
  rw [Int.toNat_natCast]
  omega

theorem Wf.allAtAssert (wf : t.Wf) (slots : List Nat) : t.AllAtAssert (slots.map fun slot => (slot : Int)) := by
  induction slots generalizing t with
  | nil => trivial
  | cons slot slots ih => exact ⟨atAsserts wf.size_le slot, ih (atSlot_spec wf slot).1⟩

def grownCapacity (cap slot : Nat) : Nat := if slot < cap then cap else if slot ≥ cap * 2 then slot * 2 else cap * 2

theorem atSlot_fCapacity (t : AnyIndTable) (slot : Nat) : (t.atSlot slot).1.fCapacity = grownCapacity t.fCapacity slot := by
  have kept : ∀ u : AnyIndTable, (if slot ≥ u.fSize then u.initIndices slot none else u).fCapacity = u.fCapacity := by
    intro u
    split <;> rfl
  refine (kept _).trans ?_
  unfold grownCapacity
  by_cases full : slot ≥ t.fCapacity
  · rw [if_pos full, if_neg (by omega)]
    show (if slot ≥ t.fCapacity * 2 then slot else t.fCapacity) * 2 = _
    split <;> rfl
  · rw [if_neg full, if_pos (by omega)]

end AnyIndTable

variable {V : Type}

namespace AnyArrayImpl

/-! ### The merge sort -/

/-- From the heads of the two loops of `MergeByComparer` on; `low` and `count` are what is left of the copied lower half and
of the slots up to `hi`. -/
def MergeLoopAsserts (comparer : IntCompare V) (hi : Nat) (a : AnyArrayImpl V) (i j : Nat) : List Nat → Nat → Prop
  -- `k == sz`, and neither loop goes on.
  | [], _ => i = j
  | l :: low, 0 =>
    if i < j then j > hi ∧ a.fInd.SetIndexAsserts i ∧ MergeLoopAsserts comparer hi (a.setIndex i l) (i + 1) j low 0
    -- Both loops are left with `k < sz`.
    else False
  | l :: low, count + 1 =>
    i < j ∧ a.fInd.AtAsserts j ∧ ∀ order, comparer a l (a.intAt j) = .ok order →
      if order ≤ 0 then
        a.fInd.SetIndexAsserts i ∧ MergeLoopAsserts comparer hi (a.setIndex i l) (i + 1) j low (count + 1)
      else
        a.fInd.AtAsserts j ∧ a.fInd.SetIndexAsserts i ∧
          MergeLoopAsserts comparer hi (a.setIndex i (a.intAt j)) (i + 1) (j + 1) (l :: low) count
  termination_by low count => low.length + count

def MergeByComparerAsserts (a : AnyArrayImpl V) (lo hi m : Nat) (comparer : IntCompare V) : Prop :=
  if hi < m + 1 ∨ lo > m then True
  else
    (∀ i ∈ List.range' lo (m - lo + 1), a.fInd.AtAsserts i) ∧
      ((List.range' lo (m - lo + 1)).map a.intAt).length = m - lo + 1 ∧ lo + (m - lo + 1) > m ∧
      MergeLoopAsserts comparer hi a lo (m + 1) ((List.range' lo (m - lo + 1)).map a.intAt) (hi - m)

def MergeSortAsserts (comparer : IntCompare V) (a : AnyArrayImpl V) (low high : Nat) : Prop :=
  if low ≥ high then True
  else
    let middle := (low + high) / 2
    MergeSortAsserts comparer a low middle ∧ ∀ b, mergeSortByComparer comparer a low middle = .ok b →
      MergeSortAsserts comparer b (middle + 1) high ∧ ∀ c, mergeSortByComparer comparer b (middle + 1) high = .ok c →
        c.MergeByComparerAsserts low high middle comparer
  termination_by high - low

structure SameRoom (a b : AnyArrayImpl V) : Prop where
  size : b.fInd.fSize = a.fInd.fSize
  capacity : b.fInd.fCapacity = a.fInd.fCapacity

variable {a b c : AnyArrayImpl V} {comparer : IntCompare V}

theorem SameRoom.trans (first : SameRoom a b) (second : SameRoom b c) : SameRoom a c :=
  ⟨second.size.trans first.size, second.capacity.trans first.capacity⟩

theorem sameRoom_setIndex (a : AnyArrayImpl V) (i idx : Nat) : SameRoom a (a.setIndex i idx) := by
  unfold setIndex AnyIndTable.setIndex
  split <;> exact ⟨rfl, rfl⟩

theorem mergeLoop_room {i j count : Nat} {low : List Nat} (done : mergeLoop comparer a i j low count = .ok b) :
    SameRoom a b := by
  fun_induction mergeLoop comparer a i j low count with
  | case1 a i j count =>
    cases done
    exact ⟨rfl, rfl⟩
  | case2 a i j l low ih => exact (sameRoom_setIndex a i l).trans (ih done)
  | case3 a i j l low count ihLow ihHigh =>
    simp only [bind, Except.bind] at done
    split at done
    · cases done
    · split at done
      · exact (sameRoom_setIndex a i l).trans (ihLow done)
      · exact (sameRoom_setIndex a i _).trans (ihHigh done)

theorem mergeByComparer_room {lo hi m : Nat} (done : a.mergeByComparer lo hi m comparer = .ok b) : SameRoom a b := by
  unfold mergeByComparer at done
  split at done
  · cases done
    exact ⟨rfl, rfl⟩
  · exact mergeLoop_room done

theorem mergeSortByComparer_room {low high : Nat} (done : mergeSortByComparer comparer a low high = .ok b) : SameRoom a b := by
  fun_induction mergeSortByComparer comparer a low high generalizing b with
  | case1 a low high narrow =>
    cases done
    exact ⟨rfl, rfl⟩
  | case2 a low high wide middle ihLow =>
    rename_i ihHigh
    simp only [bind, Except.bind] at done
    split at done
    · cases done
    · rename_i first
      split at done
      · cases done
      · rename_i second
        exact ((ihLow first).trans (ihHigh _ second)).trans (mergeByComparer_room done)

theorem mergeLoopAsserts {hi i j count : Nat} {low : List Nat} (size : a.fInd.fSize ≤ a.fInd.fCapacity)
    (ahead : i + low.length = j) (left : j + count = hi + 1) (inside : hi < a.fInd.fSize) :
    MergeLoopAsserts comparer hi a i j low count := by
  fun_induction MergeLoopAsserts comparer hi a i j low count with
  | case1 a i j count => simpa using ahead
  | case2 a i j l low more ih =>
    have room := sameRoom_setIndex a i l
    rw [List.length_cons] at ahead
    exact ⟨by omega, ⟨by omega, by omega⟩, ih (by rw [room.size, room.capacity]; exact size) (by omega) left
      (by rw [room.size]; exact inside)⟩
  | case3 a i j l low stopped =>
    rw [List.length_cons] at ahead
    omega
  | case4 a i j l low count ihLow ihHigh =>
    rw [List.length_cons] at ahead
    have written : a.fInd.SetIndexAsserts i := ⟨by omega, by omega⟩
    have read := AnyIndTable.atAsserts size j
    refine ⟨by omega, read, fun order _ => ?_⟩
    split
    · have room := sameRoom_setIndex a i l
      exact ⟨written, ihLow (by rw [room.size, room.capacity]; exact size) (by omega) left (by rw [room.size]; exact inside)⟩
    · have room := sameRoom_setIndex a i (a.intAt j)
      exact ⟨read, written, ihHigh (by rw [room.size, room.capacity]; exact size) (by rw [List.length_cons]; omega) (by omega)
        (by rw [room.size]; exact inside)⟩

theorem mergeByComparerAsserts {lo hi m : Nat} (size : a.fInd.fSize ≤ a.fInd.fCapacity) (inside : hi < a.fInd.fSize) :
    a.MergeByComparerAsserts lo hi m comparer := by
  unfold MergeByComparerAsserts
  split
  · trivial
  · refine ⟨fun i _ => AnyIndTable.atAsserts size i, by rw [List.length_map, List.length_range'], by omega, ?_⟩
    exact mergeLoopAsserts size (by rw [List.length_map, List.length_range']; omega) (by omega) inside

theorem mergeSortAsserts {low high : Nat} (size : a.fInd.fSize ≤ a.fInd.fCapacity) (inside : high < a.fInd.fSize) :
    MergeSortAsserts comparer a low high := by
  fun_induction MergeSortAsserts comparer a low high with
  | case1 => trivial
  | case2 a low high wide middle ihLow ihHigh =>
    refine ⟨ihLow size (by omega), fun b first => ?_⟩
    have room := mergeSortByComparer_room first
    have size' : b.fInd.fSize ≤ b.fInd.fCapacity := by
      rw [room.size, room.capacity]
      exact size
    refine ⟨ihHigh b size' (by rw [room.size]; exact inside), fun c second => ?_⟩
    have room' := mergeSortByComparer_room second
    exact mergeByComparerAsserts (by rw [room'.size, room'.capacity]; exact size') (by rw [room'.size, room.size]; exact inside)

end AnyArrayImpl

/-! ### Actions -/

namespace AnyArrayImpl

/-- `IntAt` for slots from 0 on, in any order. -/
def AccessAsserts (a : AnyArrayImpl V) : Prop := ∀ slots : List Nat, a.fInd.AllAtAssert (slots.map fun slot => (slot : Int))

def RemoveAsserts (a : AnyArrayImpl V) (slot : Nat) : Prop :=
  slot < a.fSize → a.fInd.AtAsserts slot ∧ (a.fInd.atSlot slot).1.RemoveAsserts slot

/-- `InsertReserve`, and the accesses to the new slots. -/
def InsertReserveAsserts (a : AnyArrayImpl V) (pos size : Nat) : Prop :=
  a.fInd.AtAsserts ((a.fSize : Int) + size - 1) ∧ (a.fInd.atSlot (a.fSize + size - 1)).1.InsertReserveAsserts pos size ∧
    ∀ ind, (a.fInd.atSlot (a.fSize + size - 1)).1.insertReserve pos size = .ok ind → ∀ slots : List Nat,
      ind.AllAtAssert (slots.map fun slot => (slot : Int))

/-- `MergeSortByComparer(0, GetSize() - 1, comparer)` and `RecreateKeyTable`. -/
def SortAsserts (a : AnyArrayImpl V) (comparer : IntCompare V) : Prop :=
  (a.fSize ≠ 0 → MergeSortAsserts comparer a 0 (a.fSize - 1)) ∧ ∀ b, a.sortIndices comparer = .ok b → b.AccessAsserts

end AnyArrayImpl

variable [Inhabited V] {a : AnyArrayImpl V}

def Action.Asserts : Action V → AnyArrayImpl V → Prop
  | .edit (.remove slot), a => a.RemoveAsserts slot
  | .edit (.removeKey key), a =>
    a.AccessAsserts ∧ ∀ slot, a.findIndex (key.getD []) = .ok (some slot) → a.RemoveAsserts slot
  | .edit (.insertReserve pos size), a => a.InsertReserveAsserts pos size
  | .edit _, a => a.AccessAsserts
  | .sortByKey, a => a.SortAsserts keyCompare
  | .sortReverseByKey, a => a.SortAsserts reverseKeyCompare
  | .sortByAnyComparer compare, a => a.SortAsserts (valueCompare compare)

/-- `do_insert` reserves slots in front of an element, at least one; behind the last one it appends. -/
def Action.Inserts : Action V → AnyArrayImpl V → Prop
  | .edit (.insertReserve pos size), a => pos < a.fSize ∧ 1 ≤ size
  | _, _ => True

def Action.Fits : Action V → AnyArrayImpl V → Prop
  | .edit (.insertReserve pos size), a =>
    a.fSize + size + pos ≤ AnyIndTable.grownCapacity a.fInd.fCapacity (a.fSize + size - 1) ∧
      a.fSize + size + size ≤ AnyIndTable.grownCapacity a.fInd.fCapacity (a.fSize + size - 1)
  | _, _ => True

namespace AnyArrayImpl

omit [Inhabited V] in
theorem Shape.accessAsserts (shape : a.Shape) : a.AccessAsserts := fun slots => shape.ind.allAtAssert slots

omit [Inhabited V] in
theorem Shape.removeAsserts (shape : a.Shape) (slot : Nat) : a.RemoveAsserts slot := by
  intro inside
  refine ⟨AnyIndTable.atAsserts shape.ind.size_le slot, Int.natCast_nonneg slot, ?_⟩
  have room := a.fInd.atSlot_room slot
  omega

omit [Inhabited V] in
theorem Wf.sortAsserts (wf : a.Wf) {cmp : IntCompare V} {le : Nat → Nat → Bool} (reads : cmp.Reads a le) : a.SortAsserts cmp := by
  refine ⟨fun some => ?_, fun b sorted => ?_⟩
  · exact mergeSortAsserts wf.ind.size_le (by rw [wf.ind_size]; omega)
  · rw [sortIndices_eq wf reads] at sorted
    cases sorted
    exact (wf_withIndex wf (List.mergeSort_perm _ le)).toShape.accessAsserts

omit [Inhabited V] in
theorem Wf.insertReserveAsserts_iff (wf : a.Wf) {pos size : Nat} (inside : pos < a.fSize) (some : 1 ≤ size) :
    a.InsertReserveAsserts pos size ↔ (Action.edit (.insertReserve pos size)).Fits a := by
  obtain ⟨twf, grown, _⟩ := AnyIndTable.atSlot_spec wf.ind (a.fSize + size - 1)
  have capacity := AnyIndTable.atSlot_fCapacity a.fInd (a.fSize + size - 1)
  have count : (a.fInd.atSlot (a.fSize + size - 1)).1.fSize = a.fSize + size := by
    rw [grown, wf.ind_size]
    omega
  have asserts : (a.fInd.atSlot (a.fSize + size - 1)).1.InsertReserveAsserts pos size ↔
      (Action.edit (.insertReserve pos size)).Fits a := by
    rw [AnyIndTable.InsertReserveAsserts, capacity, count]
    exact Iff.rfl
  refine ⟨fun holds => asserts.mp holds.2.1, fun fits => ⟨?_, asserts.mpr fits, fun ind reserved slots => ?_⟩⟩
  · rw [show (a.fSize : Int) + size - 1 = ((a.fSize + size - 1 : Nat) : Int) by omega]
    exact AnyIndTable.atAsserts wf.ind.size_le _
  · obtain ⟨t', reserved', _, _, kwf, _⟩ := AnyIndTable.view_insertReserve twf (show pos + size ≤ _ by rw [count]; omega)
    obtain rfl := Except.ok.inj (reserved'.symm.trans reserved)
    exact kwf.allAtAssert slots

end AnyArrayImpl

theorem Action.asserts_iff_fits (wf : a.Wf) {x : Action V} (inserts : x.Inserts a) : x.Asserts a ↔ x.Fits a := by
  have shape := wf.toShape
  cases x with
  | sortByKey => exact iff_of_true (wf.sortAsserts (keyCompare_reads shape)) trivial
  | sortReverseByKey => exact iff_of_true (wf.sortAsserts (reverseKeyCompare_reads shape)) trivial
  | sortByAnyComparer compare => exact iff_of_true (wf.sortAsserts (valueCompare_reads shape compare)) trivial
  | edit e =>
    cases e with
    | atSlot slot v => exact iff_of_true shape.accessAsserts trivial
    | append v => exact iff_of_true shape.accessAsserts trivial
    | atKey key v => exact iff_of_true shape.accessAsserts trivial
    | remove slot => exact iff_of_true (shape.removeAsserts slot) trivial
    | removeKey key => exact iff_of_true ⟨shape.accessAsserts, fun slot _ => shape.removeAsserts slot⟩ trivial
    | insertReserve pos size => exact wf.insertReserveAsserts_iff inserts.1 inserts.2

/-- A run meets all assertions exactly when each insertion in front of an element leaves room in the index table for as many
slots again, and for as many as there are in front of it. -/
theorem asserts_hold_iff (acts : List (Action V)) (inserts : Runs.Meets Action.applyStray Action.Inserts acts new) :
    Runs.Meets Action.applyStray Action.Asserts acts new ↔ Runs.Meets Action.applyStray Action.Fits acts new := by
  refine Runs.meets_congr (fun x a a' wf holds done => ?_) (fun x a wf holds => Action.asserts_iff_fits wf holds) acts wf_new inserts
  have contract : x.InContract a := by
    cases x with
    | edit e =>
      cases e with
      | insertReserve pos size => exact ⟨Nat.le_of_lt holds.1, by have := holds.2; omega⟩
      | _ => trivial
    | _ => trivial
  obtain ⟨b, reached, wf'⟩ := Action.applyStray_ok wf contract
  exact Except.ok.inj (reached.symm.trans done) ▸ wf'

theorem asserts_hold_iff_front :
    let acts : List (Action Nat) := [.edit (.append 1), .edit (.insertReserve 0 1), .sortByKey, .edit (.remove 0)]
    Runs.Meets Action.applyStray Action.Inserts acts new ∧
      (Runs.Meets Action.applyStray Action.Asserts acts new ↔ Runs.Meets Action.applyStray Action.Fits acts new) := by
  intro acts
  have one : ∀ a', Action.applyStray (.edit (.append 1)) (new : AnyArrayImpl Nat) = .ok a' → a'.fSize = 1 := by
    intro a' done
    cases done
    rfl
  have inserts : Runs.Meets Action.applyStray Action.Inserts acts new :=
    ⟨trivial, fun a' done => ⟨⟨by rw [one a' done]; decide, Nat.le_refl 1⟩, fun _ _ => ⟨trivial, fun _ _ => ⟨trivial, fun _ _ => trivial⟩⟩⟩⟩
  exact ⟨inserts, asserts_hold_iff acts inserts⟩

/-- Three elements and a table for four: after room has been made for a fourth in front, no fifth would fit. Five elements and a
table for eight: three are in front of the new one. -/
theorem insert_asserts_too_much :
    (∃ a : AnyArrayImpl Nat, Runs.run Action.applyStray (List.replicate 3 (.edit (.append 1))) new = .ok a ∧
      (Action.edit (.insertReserve 0 1)).Inserts a ∧ ¬ (Action.edit (.insertReserve 0 1)).Asserts a) ∧
    ∃ a : AnyArrayImpl Nat, Runs.run Action.applyStray (List.replicate 5 (.edit (.append 1))) new = .ok a ∧
      (Action.edit (.insertReserve 3 1)).Inserts a ∧ ¬ (Action.edit (.insertReserve 3 1)).Asserts a := by
  refine ⟨⟨_, rfl, ⟨by decide, by decide⟩, fun asserts => ?_⟩, ⟨_, rfl, ⟨by decide, by decide⟩, fun asserts => ?_⟩⟩
  · exact absurd asserts.2.1.2 (by decide)
  · exact absurd asserts.2.1.1 (by decide)

end Coast.Anything
