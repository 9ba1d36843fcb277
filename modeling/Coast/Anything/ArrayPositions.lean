import Coast.Anything.ArrayOrder

/-!
# Slots and cells

As long as nothing has moved a slot, its number is that of its cell. `FindIndex(long)` and the reference that
`At(const char *) const` returns are right only then. `At(long) const` is right for the slots of the array.
-/

namespace Coast.Anything

open LinearProbing AnyArrayImpl

variable {V : Type} [Inhabited V] {a a' : AnyArrayImpl V}

/-! ### `FindIndex(long)` -/

namespace AnyArrayImpl

/-- `IsDefined(long)`. -/
def isDefinedLong (a : AnyArrayImpl V) (lIdx : Int) : Bool := decide (a.findIndexLong lIdx ≥ 0)

/-- `resolveToAnyLevel` for a key that is a number: the array, since `operator[]` makes what it does not find, and the
element; the default value is the null `Anything`. -/
def resolveToAnyLevel (a : AnyArrayImpl V) (key : Int) : Exec (AnyArrayImpl V × V) :=
  let lIdx := a.findIndexLong key
  if lIdx = -1 then return (a, default)
  else do
    let (a, pos) ← a.atSlot lIdx.toNat
    let assoc ← a.cell pos
    return (a, assoc.fValue)

structure PositionsFound (a : AnyArrayImpl V) : Prop where
  findIndex : ∀ i : Int, a.findIndexLong i = if 0 ≤ i ∧ i < a.fSize then i else -1
  isDefined : ∀ i : Int, a.isDefinedLong i = true ↔ 0 ≤ i ∧ i < a.fSize
  resolves : ∀ i : Int, a.resolveToAnyLevel i =
    .ok (a, if 0 ≤ i ∧ i < a.fSize then (a.assocOf i.toNat).fValue else default)

omit [Inhabited V] in
theorem Shape.findIndexLong_eq (shape : a.Shape) (i : Int) :
    a.findIndexLong i = if 0 ≤ i ∧ i < a.fSize then (a.cellOf i.toNat : Int) else -1 := by
  unfold findIndexLong
  by_cases negative : i < 0
  · rw [if_pos negative, if_neg (by omega)]
  · have size := shape.ind_size
    have cap := shape.ind.size_le
    rw [if_neg negative, AnyIndTable.atSlotConst]
    by_cases inside : i.toNat < a.fSize
    · rw [if_pos ⟨by omega, by omega⟩, if_pos ⟨by omega, by omega⟩, shape.ind.getD_view (by omega), shape.getD_view inside]
    · rw [if_neg (by omega), if_neg (by omega)]

theorem Shape.atSlot_inside (shape : a.Shape) {i : Nat} (inside : i < a.fSize) : a.atSlot i = .ok (a, a.cellOf i) := by
  have same : { a with fInd := (a.fInd.atSlot i).1 } = a := by
    rw [AnyIndTable.atSlot_of_lt shape.ind (by rw [shape.ind_size]; exact inside)]
  simp only [AnyArrayImpl.atSlot, resize, if_neg (show ¬ i + 1 > a.fSize by omega), same, shape.intAt_eq,
    shape.cell_ok (shape.cellOf_lt inside), bind, Except.bind]
  rfl

theorem positionsFound_of_id (shape : a.Shape) (own : ∀ i, a.cellOf i = i) : a.PositionsFound := by
  have found : ∀ i : Int, a.findIndexLong i = if 0 ≤ i ∧ i < a.fSize then i else -1 := by
    intro i
    rw [shape.findIndexLong_eq, own]
    split
    · omega
    · rfl
  refine ⟨found, fun i => ?_, fun i => ?_⟩
  · rw [isDefinedLong, decide_eq_true_eq, found]
    split <;> omega
  · unfold resolveToAnyLevel
    dsimp only
    rw [found]
    by_cases inside : 0 ≤ i ∧ i < a.fSize
    · have below : i.toNat < a.fSize := by omega
      simp only [if_pos inside, if_neg (show ¬ i = -1 by omega), shape.atSlot_inside below,
        shape.cell_ok (shape.cellOf_lt below), bind, Except.bind]
      rfl
    · simp only [if_neg inside, if_true]
      rfl

theorem PositionsFound.cellOf (found : a.PositionsFound) (shape : a.Shape) {i : Nat} (inside : i < a.fSize) : a.cellOf i = i := by
  have here := found.findIndex i
  rw [shape.findIndexLong_eq, if_pos ⟨by omega, by omega⟩, if_pos ⟨by omega, by omega⟩, Int.toNat_natCast] at here
  omega

end AnyArrayImpl

/-! ### Which steps leave the slots in place -/

def Sorting.InOrder (s : Sorting V) (a : AnyArrayImpl V) : Prop :=
  (List.range a.fSize).mergeSort (fun l r => s.le (row (a.assocOf l)) (row (a.assocOf r))) = List.range a.fSize

/-- Nothing but the last slot is removed, slots are reserved only behind it, and sorts have nothing to do. -/
def Action.LeavesInPlace : Action V → AnyArrayImpl V → Prop
  | .edit (.remove slot), a => a.fSize ≤ slot + 1
  | .edit (.removeKey key), a => ∀ slot, a.findIndex (key.getD []) = .ok (some slot) → a.fSize ≤ slot + 1
  | .edit (.insertReserve pos _), a => a.fSize ≤ pos
  | .edit _, _ => True
  | .sortByKey, a => Sorting.byKey.InOrder a
  | .sortReverseByKey, a => Sorting.reverseByKey.InOrder a
  | .sortByAnyComparer compare, a => (Sorting.byAnyComparer compare).InOrder a

structure InPlace (a : AnyArrayImpl V) : Prop extends Wf a where
  own : ∀ i, a.cellOf i = i

theorem inPlace_new : InPlace (new : AnyArrayImpl V) := by
  refine ⟨wf_new, fun i => ?_⟩
  have table : (new : AnyArrayImpl V).fInd.view = List.range 4 := rfl
  rw [cellOf, table]
  by_cases inside : i < 4
  · rw [List.getD_eq_getElem _ _ (by rwa [List.length_range]), List.getElem_range]
  · exact List.getD_eq_default _ _ (by rw [List.length_range]; omega)

omit [Inhabited V] in
theorem InPlace.of_cells (inPlace : InPlace a) (wf : a'.Wf) (cells : ∀ i, a'.cellOf i = a.cellOf i) : InPlace a' :=
  ⟨wf, fun i => (cells i).trans (inPlace.own i)⟩

theorem InPlace.atKey (inPlace : InPlace a) {key : Option Bytes} {v : Option V}
    (done : (Action.edit (.atKey key v)).applyStray a = .ok a') : InPlace a' := by
  have wf := inPlace.toWf
  rcases findIndex_ok wf (key.getD []) with absent | ⟨slot, below, found⟩
  · by_cases room : a.fSize < a.fCapacity
    · obtain ⟨b, t, reached, bwf, _, _, _, _, _, cells⟩ := atKey_new_effect wf (show a.findIndex ((id key).getD []) = _ from absent) room v
      have stray := Action.applyStray_eq (show (Action.edit (.atKey key v)).apply a = .ok b from reached)
      obtain rfl := Except.ok.inj (stray.symm.trans done)
      exact inPlace.of_cells bwf cells
    · have size := wf.toShape.size_le
      obtain ⟨b, reached, bwf, cells, _, _, larger⟩ := atKeyStray_full wf absent (by omega)
      have inside : a.cellOf a.fSize < b.fCapacity := cells ▸ bwf.toShape.cellOf_lt larger
      rw [Action.applyStray, reached] at done
      obtain rfl := Except.ok.inj ((put_eq bwf.toShape inside v).symm.trans done)
      exact inPlace.of_cells (bwf.modifyCell _ _) fun i => congrFun cells i
  · obtain ⟨reached, inside⟩ := atKey_old_effect wf (show a.findIndex ((id key).getD []) = _ from found) v
    have stray := Action.applyStray_eq (show (Action.edit (.atKey key v)).apply a = .ok _ from reached)
    obtain rfl := Except.ok.inj (stray.symm.trans done)
    exact inPlace.of_cells (wf.modifyCell _ _) fun _ => rfl

theorem InPlace.remove_iff (inPlace : InPlace a) (slot : Nat) : ∃ a', a.remove slot = .ok a' ∧
    (a.fSize ≤ slot + 1 → InPlace a') ∧ (¬ a.fSize ≤ slot + 1 → ¬ a'.PositionsFound) := by
  by_cases inside : slot < a.fSize
  · obtain ⟨a', removed, wf, size, _, cells, _⟩ := remove_spec inPlace.toWf inside
    refine ⟨a', removed, fun last => ⟨wf, fun i => ?_⟩, fun between found => ?_⟩
    · rw [cells]
      unfold removedAt
      simp only [inPlace.own]
      split
      · rfl
      · rw [if_neg (by omega)]
        split <;> omega
    · have moved := found.cellOf wf.toShape (show slot < a'.fSize by omega)
      rw [cells, removedAt, if_neg (by omega), if_pos (by omega), inPlace.own] at moved
      omega
  · exact ⟨a, remove_of_ge inside, fun _ => inPlace, fun between => absurd (by omega) between⟩

theorem InPlace.insertReserve_iff (inPlace : InPlace a) {pos size : Nat} (inside : pos ≤ a.fSize) (some : 1 ≤ size) :
    ∃ a', a.insertReserve pos size = .ok a' ∧ (a.fSize ≤ pos → InPlace a') ∧ (¬ a.fSize ≤ pos → ¬ a'.PositionsFound) := by
  obtain ⟨a', reserved, wf, grown, _, cells, _⟩ := insertReserve_spec inPlace.toWf inside (show 0 < a.fSize + size by omega)
  refine ⟨a', reserved, fun behind => ⟨wf, fun i => ?_⟩, fun before found => ?_⟩
  · rw [cells]
    unfold insertedAt
    simp only [inPlace.own]
    split
    · rfl
    · split
      · omega
      · rw [if_neg (by omega)]
  · have moved := found.cellOf wf.toShape (show pos < a'.fSize by omega)
    rw [cells, insertedAt, if_neg (by omega), if_pos (by omega), inPlace.own] at moved
    omega

theorem map_range_eq_iff {n : Nat} {f : Nat → Nat} : (List.range n).map f = List.range n ↔ ∀ i < n, f i = i := by
  constructor
  · intro same i inside
    have here := congrArg (fun l => l[i]?) same
    simpa [inside] using here
  · intro fixed
    conv_rhs => rw [← List.map_id (List.range n)]
    exact List.map_congr_left fun i member => fixed i (List.mem_range.mp member)

theorem InPlace.sort_iff (inPlace : InPlace a) (s : Sorting V) :
    ∃ a', s.apply a = .ok a' ∧ (s.InOrder a → InPlace a') ∧ (¬ s.InOrder a → ¬ a'.PositionsFound) := by
  obtain ⟨cmp, same, reads⟩ := s.apply_eq inPlace.toShape
  obtain ⟨keys, sorted, wf, _⟩ := sortBy_eq inPlace.toWf reads
  have order : s.InOrder a ↔
      ∀ i < a.fSize, (a.sorted fun l r => s.le (row (a.assocAt l)) (row (a.assocAt r))).cellOf i = i := by
    have assocs : a.assocOf = a.assocAt := funext fun i => congrArg a.assocAt (inPlace.own i)
    have cells : (List.range a.fSize).map a.cellOf = List.range a.fSize := map_range_eq_iff.mpr fun i _ => inPlace.own i
    rw [← map_range_eq_iff, sorted_cells inPlace.toWf, cells, Sorting.InOrder, assocs]
  refine ⟨_, same.trans sorted, fun inOrder => ⟨wf, fun i => ?_⟩, fun moved found => moved (order.mpr fun i inside => ?_)⟩
  · by_cases inside : i < a.fSize
    · exact order.mp inOrder i inside
    · exact (sorted_cellOf_ge inPlace.toWf _ (by omega)).trans (inPlace.own i)
  · exact found.cellOf wf.toShape inside

theorem InPlace.applyStray_iff (inPlace : InPlace a) {x : Action V} (reserves : x.Reserves a) :
    ∃ a', x.applyStray a = .ok a' ∧ (x.LeavesInPlace a → InPlace a') ∧ (¬ x.LeavesInPlace a → ¬ a'.PositionsFound) := by
  cases x with
  | sortByKey => exact inPlace.sort_iff .byKey
  | sortReverseByKey => exact inPlace.sort_iff .reverseByKey
  | sortByAnyComparer compare => exact inPlace.sort_iff (.byAnyComparer compare)
  | edit e =>
    cases e with
    | atSlot slot v =>
      obtain ⟨a', done, wf, _, _, _, cells, _⟩ := atSlot_effect id inPlace.toWf slot v
      exact ⟨a', done, fun _ => inPlace.of_cells wf cells, fun moves => absurd trivial moves⟩
    | append v =>
      obtain ⟨a', done, wf, _, _, _, cells, _⟩ := atSlot_effect id inPlace.toWf a.fSize (some v)
      exact ⟨a', done, fun _ => inPlace.of_cells wf cells, fun moves => absurd trivial moves⟩
    | atKey key v =>
      obtain ⟨a', done, _⟩ := Action.applyStray_ok inPlace.toWf (show (Action.edit (.atKey key v)).InContract a from trivial)
      exact ⟨a', done, fun _ => inPlace.atKey done, fun moves => absurd trivial moves⟩
    | remove slot => exact inPlace.remove_iff slot
    | removeKey key =>
      rcases removeKey_eq inPlace.toWf (key.getD []) with ⟨absent, same⟩ | ⟨slot, inside, found, removal⟩
      · refine ⟨a, same, fun _ => inPlace, fun moves => absurd (fun slot found => ?_) moves⟩
        rw [absent] at found
        cases found
      · obtain ⟨a', removed, stays, moves⟩ := inPlace.remove_iff slot
        refine ⟨a', removal.trans removed, fun last => stays (last slot found), fun between => moves fun last => between ?_⟩
        intro slot' found'
        rw [found] at found'
        cases found'
        exact last
    | insertReserve pos size => exact inPlace.insertReserve_iff reserves.1 reserves.2

/-- All arrays that a run passes find their slots under their numbers exactly when nothing but the last slot is removed,
slots are reserved only behind it, and sorts have nothing to do. -/
theorem findIndex_positions_iff (acts : List (Action V)) (reserves : Runs.Meets Action.applyStray Action.Reserves acts new) :
    (∀ before, before <+: acts → ∀ a, Runs.run Action.applyStray before new = .ok a → a.PositionsFound) ↔
      Runs.Meets Action.applyStray Action.LeavesInPlace acts new := by
  refine Runs.always_good_iff_within (fun a inPlace => positionsFound_of_id inPlace.toShape inPlace.own) ?_ ?_ acts inPlace_new reserves
  · intro x a a' inPlace reserve leaves done
    obtain ⟨b, reached, stays, _⟩ := InPlace.applyStray_iff inPlace reserve
    obtain rfl := Except.ok.inj (reached.symm.trans done)
    exact stays leaves
  · intro x a inPlace reserve moves
    obtain ⟨b, reached, _, breaks⟩ := InPlace.applyStray_iff inPlace reserve
    exact ⟨b, reached, breaks moves⟩

theorem findIndex_positions_iff_removed :
    let acts : List (Action Nat) := [.edit (.append 1), .edit (.remove 0), .edit (.insertReserve 0 2), .sortByKey]
    Runs.Meets Action.applyStray Action.Reserves acts new ∧
      ((∀ before, before <+: acts → ∀ a, Runs.run Action.applyStray before new = .ok a → a.PositionsFound) ↔
        Runs.Meets Action.applyStray Action.LeavesInPlace acts new) := by
  intro acts
  have reserves : Runs.Meets Action.applyStray Action.Reserves acts new :=
    ⟨trivial, fun _ _ => ⟨trivial, fun _ _ => ⟨⟨Nat.zero_le _, by decide⟩, fun _ _ => ⟨trivial, fun _ _ => trivial⟩⟩⟩⟩
  exact ⟨reserves, findIndex_positions_iff acts reserves⟩

/-- After the first of three elements is gone, the index 0 is taken for 1. -/
theorem findIndex_after_remove :
    ∃ a : AnyArrayImpl Nat,
      Runs.run Action.applyStray [.edit (.append 1), .edit (.append 2), .edit (.append 3), .edit (.remove 0)] new = .ok a ∧
      a.fSize = 2 ∧ a.findIndexLong 0 = 1 ∧ a.atSlotConst 0 = .ok 2 ∧ (a.resolveToAnyLevel 0).map Prod.snd = .ok 3 ∧
      ¬ a.PositionsFound := by
  refine ⟨_, rfl, rfl, rfl, rfl, rfl, fun found => ?_⟩
  have first := found.findIndex 0
  cases first

/-! ### The accessors that are const -/

namespace AnyArrayImpl

/-- `At(long) const` returns the element or throws, and changes nothing. -/
def IndexChecked (a : AnyArrayImpl V) (i : Int) : Prop :=
  a.atLongConst i = .ok (a, if 0 ≤ i ∧ i < a.fSize then some (a.cellOf i.toNat) else none)

/-- `At(const char *) const` returns the element under the key or throws, and changes nothing. -/
def KeyChecked (a : AnyArrayImpl V) (key : Option Bytes) : Prop :=
  ∃ slot, a.findIndex (key.getD []) = .ok slot ∧ a.atKeyConst key = .ok (a, slot.map a.cellOf)

theorem Shape.atLongConst_inside (shape : a.Shape) {i : Int} (inside : 0 ≤ i ∧ i < a.fSize) :
    a.atLongConst i = .ok (a, some (a.cellOf i.toNat)) := by
  have below : i.toNat < a.fSize := by omega
  have same : { a with fInd := (a.fInd.atSlot i.toNat).1 } = a := by
    rw [AnyIndTable.atSlot_of_lt shape.ind (by rw [shape.ind_size]; exact below)]
  simp only [atLongConst, if_neg (show ¬ i < 0 by omega), same, shape.intAt_eq, shape.cell_ok (shape.cellOf_lt below), bind,
    Except.bind, if_pos (show (a.cellOf i.toNat : Int) ≥ 0 by omega)]
  rfl

theorem atLongConst_isSome {i : Int} {r : AnyArrayImpl V × Option Nat} (done : a.atLongConst i = .ok r) : r.2 ≠ none := by
  unfold atLongConst at done
  split at done
  · cases done
  · rw [if_pos (show ((a.fInd.atSlot i.toNat).2 : Int) ≥ 0 by omega)] at done
    dsimp only [bind, Except.bind] at done
    split at done
    · cases done
    · cases done
      exact Option.some_ne_none _

theorem Shape.indexChecked_iff (shape : a.Shape) (i : Int) : a.IndexChecked i ↔ 0 ≤ i ∧ i < a.fSize := by
  constructor
  · intro checked
    by_contra outside
    rw [IndexChecked, if_neg outside] at checked
    exact atLongConst_isSome checked rfl
  · intro inside
    rw [IndexChecked, if_pos inside, shape.atLongConst_inside inside]

theorem Wf.atKeyConst_ok (wf : a.Wf) (key : Option Bytes) :
    ∃ slot, a.findIndex (key.getD []) = .ok slot ∧ a.atKeyConst key = .ok (a, slot) := by
  rcases findIndex_ok wf (key.getD []) with absent | ⟨slot, below, found⟩
  · refine ⟨none, absent, ?_⟩
    simp only [atKeyConst, absent, bind, Except.bind]
    rfl
  · refine ⟨some slot, found, ?_⟩
    simp only [atKeyConst, found, wf.toShape.cell_ok (Nat.lt_of_lt_of_le below wf.toShape.size_le), bind, Except.bind]
    rfl

theorem Wf.keyChecked_iff (wf : a.Wf) (key : Option Bytes) :
    a.KeyChecked key ↔ ∀ slot, a.findIndex (key.getD []) = .ok (some slot) → a.cellOf slot = slot := by
  obtain ⟨slot, found, read⟩ := wf.atKeyConst_ok key
  constructor
  · rintro ⟨slot', found', checked⟩ i here
    rw [found] at found' here
    cases found'
    cases here
    have cells := congrArg Prod.snd (Except.ok.inj (read.symm.trans checked))
    exact (Option.some.inj cells).symm
  · intro own
    refine ⟨slot, found, read.trans ?_⟩
    cases slot with
    | none => rfl
    | some i => rw [Option.map_some, own i found]

end AnyArrayImpl

inductive Call (V : Type) where
  | action (x : Action V)
  | atLongConst (slot : Int)
  | atKeyConst (key : Option Bytes)

namespace Call

def apply : Call V → AnyArrayImpl V → Exec (AnyArrayImpl V)
  | .action x, a => x.applyStray a
  | .atLongConst slot, a => return (← a.atLongConst slot).1
  | .atKeyConst key, a => return (← a.atKeyConst key).1

def InRange : Call V → AnyArrayImpl V → Prop
  | .action x, a => x.Reserves a
  | .atLongConst slot, a => 0 ≤ slot ∧ slot < a.fSize
  | .atKeyConst _, _ => True

theorem apply_ok (wf : a.Wf) {c : Call V} (inRange : c.InRange a) : ∃ a', c.apply a = .ok a' ∧ a'.Wf := by
  cases c with
  | action x => exact Action.applyStray_ok wf inRange.inContract
  | atLongConst slot =>
    refine ⟨a, ?_, wf⟩
    rw [apply, wf.toShape.atLongConst_inside inRange]
    rfl
  | atKeyConst key =>
    obtain ⟨slot, _, read⟩ := wf.atKeyConst_ok key
    refine ⟨a, ?_, wf⟩
    rw [apply, read]
    rfl

end Call

/-- In every array that is reached without a read outside: reading by index is right in the range and nowhere else, reading
by key unless the slot of the key has another cell. -/
theorem const_reads_iff (calls : List (Call V)) (inRange : Runs.Meets Call.apply Call.InRange calls new)
    (built : Runs.run Call.apply calls new = .ok a) :
    (∀ i, a.IndexChecked i ↔ 0 ≤ i ∧ i < a.fSize) ∧
      ∀ key, a.KeyChecked key ↔ ∀ slot, a.findIndex (key.getD []) = .ok (some slot) → a.cellOf slot = slot := by
  obtain ⟨b, done, wf⟩ := Runs.run_keeps (fun _ _ wf holds => Call.apply_ok wf holds) calls wf_new inRange
  obtain rfl := Except.ok.inj (done.symm.trans built)
  exact ⟨wf.toShape.indexChecked_iff, wf.keyChecked_iff⟩

theorem const_reads_iff_removed :
    let calls : List (Call Nat) := [.action (.edit (.append 1)), .atLongConst 0, .action (.edit (.atKey (some (ascii "x")) none)),
      .action (.edit (.remove 0)), .atKeyConst (some (ascii "x"))]
    Runs.Meets Call.apply Call.InRange calls new ∧ ∃ a, Runs.run Call.apply calls new = .ok a ∧
      (∀ i, a.IndexChecked i ↔ 0 ≤ i ∧ i < a.fSize) ∧
        ∀ key, a.KeyChecked key ↔ ∀ slot, a.findIndex (key.getD []) = .ok (some slot) → a.cellOf slot = slot := by
  intro calls
  have one : ∀ a', Call.apply (.action (.edit (.append 1))) (new : AnyArrayImpl Nat) = .ok a' → a'.fSize = 1 := by
    intro a' done
    cases done
    rfl
  have inRange : Runs.Meets Call.apply Call.InRange calls new :=
    ⟨trivial, fun a' done => ⟨by rw [Call.InRange, one a' done]; decide, fun _ _ => ⟨trivial, fun _ _ => ⟨trivial, fun _ _ =>
      ⟨trivial, fun _ _ => trivial⟩⟩⟩⟩⟩
  obtain ⟨a, built, _⟩ := Runs.run_keeps (fun _ _ wf holds => Call.apply_ok wf holds) calls wf_new inRange
  exact ⟨inRange, a, built, const_reads_iff calls inRange built⟩

/-- Behind the only element the read makes room in the index table and returns a reference. After the first of two keys is
gone, the read of the other one returns the cell of the first. -/
theorem const_read_grows :
    (∃ a : AnyArrayImpl Nat, Runs.run Call.apply [.action (.edit (.append 1))] new = .ok a ∧ a.fInd.fSize = 1 ∧
      (a.atLongConst 1).map (fun r => (r.1.fInd.fSize, r.2)) = .ok (2, some 1) ∧ ¬ a.IndexChecked 1) ∧
    ∃ a : AnyArrayImpl Nat, Runs.run Call.apply [.action (.edit (.atKey (some (ascii "a")) (some 1))),
        .action (.edit (.atKey (some (ascii "b")) (some 2))), .action (.edit (.remove 0))] new = .ok a ∧
      a.findIndex (ascii "b") = .ok (some 0) ∧ (a.atKeyConst (some (ascii "b"))).map Prod.snd = .ok (some 0) ∧ a.cellOf 0 = 1 ∧
      ¬ a.KeyChecked (some (ascii "b")) := by
  refine ⟨⟨_, rfl, rfl, rfl, fun checked => ?_⟩, ⟨_, rfl, rfl, rfl, rfl, fun checked => ?_⟩⟩
  · cases checked
  · obtain ⟨slot, found, read⟩ := checked
    cases found
    cases read

end Coast.Anything
