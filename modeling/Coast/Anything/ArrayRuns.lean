import Coast.Anything.ArraySort
import Coast.Lib.Runs

/-!
# Runs of array operations

An `Edit` is an access, removal or insertion, an `Action` also a sort. A value given to an access is
assigned through the reference that it returns.
-/

namespace Coast.Anything

open LinearProbing AnyArrayImpl

inductive Edit (K V : Type) where
  | atSlot (slot : Nat) (value : Option V)
  | append (value : V)
  | atKey (key : K) (value : Option V)
  | remove (slot : Nat)
  | removeKey (key : K)
  | insertReserve (pos size : Nat)

inductive Action (V : Type) where
  | edit (e : Edit (Option Bytes) V)
  | sortByKey
  | sortReverseByKey
  | sortByAnyComparer (compare : V → V → Int)

variable {K V : Type} [Inhabited V] {text : K → Option Bytes}

def AnyArrayImpl.put (a : AnyArrayImpl V) (pos : Nat) : Option V → Exec (AnyArrayImpl V)
  | some v => a.assign pos v
  | none => return a

/-- One edit; `text` gives the key as the operations receive it, `none` for a null pointer. -/
def Edit.apply (text : K → Option Bytes) : Edit K V → AnyArrayImpl V → Exec (AnyArrayImpl V)
  | .atSlot slot v, a => do
    let (a, pos) ← a.atSlot slot
    a.put pos v
  | .append v, a => a.append v
  | .atKey key v, a => do
    let (a, pos) ← a.atKey (text key)
    a.put pos v
  | .remove slot, a => a.remove slot
  | .removeKey key, a => a.removeKey ((text key).getD [])
  | .insertReserve pos size, a => a.insertReserve pos size

def Action.apply : Action V → AnyArrayImpl V → Exec (AnyArrayImpl V)
  | .edit e, a => e.apply id a
  | .sortByKey, a => a.sortByKey
  | .sortReverseByKey, a => a.sortReverseByKey
  | .sortByAnyComparer compare, a => a.sortByAnyComparer compare

def Edit.InContract : Edit K V → AnyArrayImpl V → Prop
  | .insertReserve pos size, a => pos ≤ a.fSize ∧ 0 < a.fSize + size
  | _, _ => True

def Edit.HasRoom (text : K → Option Bytes) : Edit K V → AnyArrayImpl V → Prop
  | .atKey key _, a => a.findIndex ((text key).getD []) = .ok none → a.fSize < a.fCapacity
  | _, _ => True

def Action.InContract : Action V → AnyArrayImpl V → Prop
  | .edit e, a => e.InContract a
  | _, _ => True

def Action.HasRoom : Action V → AnyArrayImpl V → Prop
  | .edit e, a => e.HasRoom id a
  | _, _ => True

variable {a : AnyArrayImpl V}

/-! ### The effect of an edit on the pairs of the slots -/

theorem assocOf_modifyCell (shape : a.Shape) {slot : Nat} (inside : a.cellOf slot < a.fCapacity)
    (f : AnyKeyAssoc V → AnyKeyAssoc V) (i : Nat) :
    (a.modifyCell (a.cellOf slot) f).assocOf i = if i = slot then f (a.assocOf i) else a.assocOf i := by
  have changed := shape.assocAt_modifyCell inside f (a.cellOf i)
  refine Eq.trans changed ?_
  by_cases same : i = slot
  · rw [if_pos (congrArg _ same), if_pos same, same]
    rfl
  · rw [if_neg (fun cells => same (shape.cellOf_injective cells)), if_neg same]
    rfl

def AnyKeyAssoc.put (v : Option V) (assoc : AnyKeyAssoc V) : AnyKeyAssoc V := { assoc with fValue := v.getD assoc.fValue }

theorem put_eq (shape : a.Shape) {pos : Nat} (inside : pos < a.fCapacity) (v : Option V) :
    a.put pos v = .ok (a.modifyCell pos (AnyKeyAssoc.put v)) := by
  cases v with
  | some v => exact shape.setCell_ok inside _
  | none =>
    refine congrArg Except.ok ?_
    have same : a.fContents.set pos (a.fContents.getD pos blank) = a.fContents := by
      rw [List.getD_eq_getElem _ _ (by rw [shape.contents]; exact inside), List.set_getElem_self]
    show a = { a with fContents := a.fContents.set pos (a.fContents.getD pos blank) }
    rw [same]

theorem atSlot_effect (text : K → Option Bytes) (wf : a.Wf) (slot : Nat) (v : Option V) :
    ∃ a', (Edit.atSlot slot v).apply text a = .ok a' ∧ a'.Wf ∧ a'.fSize = max a.fSize (slot + 1) ∧
      a'.fKeys = a.fKeys ∧ (∀ i, a'.assocOf i = if i = slot then (a.assocOf i).put v else a.assocOf i) ∧
      (∀ i, a'.cellOf i = a.cellOf i) ∧
      (slot < a.fCapacity → a.fSize < a.fCapacity → a'.fSize < a'.fCapacity) := by
  obtain ⟨b, reached, shape, same, size, _⟩ := atSlot_spec wf.toShape slot
  have bwf : b.Wf := ⟨shape, by rw [same.keys]; exact fun t ht => (wf.keys t ht).mono (by omega)⟩
  have inside : b.cellOf slot < b.fCapacity := shape.cellOf_lt (by omega)
  have assocs : ∀ i, b.assocOf i = a.assocOf i := fun i => by rw [assocOf, same.cellOf, same.assocAt]; rfl
  have room' : slot < a.fCapacity → a.fSize < a.fCapacity → b.fSize < b.fCapacity := fun next room =>
    atSlot_room wf.toShape next room reached
  refine ⟨b.modifyCell (b.cellOf slot) (AnyKeyAssoc.put v), ?_, bwf.modifyCell _ _, size, same.keys, ?_, same.cellOf, room'⟩
  · rw [Edit.apply, reached, ← same.cellOf]
    exact put_eq shape inside v
  · intro i
    rw [assocOf_modifyCell shape inside, assocs]

theorem append_eq_atSlot (v : V) :
    (Edit.append v).apply text a = (Edit.atSlot a.fSize (some v)).apply text a := rfl

theorem atKey_new_effect (wf : a.Wf) {key : K} (absent : a.findIndex ((text key).getD []) = .ok none)
    (room : a.fSize < a.fCapacity) (v : Option V) :
    ∃ a' t', (Edit.atKey key v).apply text a = .ok a' ∧ a'.Wf ∧ a'.fSize = a.fSize + 1 ∧
      (∀ i, a'.assocOf i =
        if i = a.fSize then ⟨v.getD (a.assocOf i).fValue, (text key).getD []⟩ else a.assocOf i) ∧
      a.keyAppend (a.fKeys.getD (AnyKeyTable.initTable AnyKeyTable.cInitCapacity)) (text key) a.fSize = .ok t' ∧
      a'.fKeys = some t' ∧ a'.fSize < a'.fCapacity ∧ ∀ i, a'.cellOf i = a.cellOf i := by
  obtain ⟨b, t', reached, bwf, size, cells, assocs, appended, keys, spare⟩ := atKey_absent wf absent room
  have inside : b.cellOf a.fSize < b.fCapacity := bwf.toShape.cellOf_lt (by omega)
  refine ⟨b.modifyCell (b.cellOf a.fSize) (AnyKeyAssoc.put v), t', ?_, bwf.modifyCell _ _, size, ?_, appended, keys, spare, cells⟩
  · rw [Edit.apply, reached, ← cells]
    exact put_eq bwf.toShape inside v
  · intro i
    rw [assocOf_modifyCell bwf.toShape inside, assocOf, cells, assocs]
    by_cases new : i = a.fSize
    · rw [if_pos new, if_pos new, if_pos (congrArg _ new)]
      rfl
    · rw [if_neg new, if_neg new, if_neg (fun same => new (wf.toShape.cellOf_injective same))]
      rfl

theorem atKey_old_effect (wf : a.Wf) {key : K} {slot : Nat}
    (present : a.findIndex ((text key).getD []) = .ok (some slot)) (v : Option V) :
    (Edit.atKey key v).apply text a = .ok (a.modifyCell slot (AnyKeyAssoc.put v)) ∧ slot < a.fSize := by
  obtain ⟨found, inside⟩ := atKey_present wf present
  refine ⟨?_, inside⟩
  rw [Edit.apply, found]
  exact put_eq wf.toShape (Nat.lt_of_lt_of_le inside wf.toShape.size_le) v

theorem remove_effect (wf : a.Wf) {slot : Nat} (inside : slot < a.fSize) :
    ∃ a', a.remove slot = .ok a' ∧ a'.Wf ∧ a'.fSize = a.fSize - 1 ∧
      a'.fKeys = (a.fKeys.map fun t => t.updateRemoved slot) ∧
      ∀ i, a'.assocOf i =
        if i + 1 = a.fSize then (a.assocOf slot).assign blank else removedAt a.assocOf a.fSize slot i := by
  obtain ⟨b, removed, bwf, size, _, cells, assocs, keys⟩ := remove_spec wf inside
  refine ⟨b, removed, bwf, size, keys, ?_⟩
  intro i
  have apart : ∀ j, j ≠ slot → (if a.cellOf j = a.cellOf slot then (a.assocAt (a.cellOf j)).assign blank
      else a.assocAt (a.cellOf j)) = a.assocOf j := by
    intro j other
    rw [if_neg fun same => other (wf.toShape.cellOf_injective same)]
    rfl
  rw [assocOf, cells, assocs]
  unfold removedAt
  by_cases before : i < slot
  · simp only [if_pos before, apart i (by omega), if_neg (show ¬ i + 1 = a.fSize by omega)]
  · by_cases between : i + 1 < a.fSize
    · simp only [if_neg before, if_pos between, apart (i + 1) (by omega), if_neg (show ¬ i + 1 = a.fSize by omega)]
    · by_cases last : i + 1 = a.fSize
      · simp only [if_neg before, if_neg between, if_pos last, if_true]
        rfl
      · simp only [if_neg before, if_neg between, if_neg last, apart i (by omega)]

theorem insertReserve_effect (wf : a.Wf) {pos size : Nat} (inside : pos ≤ a.fSize) (some : 0 < a.fSize + size) :
    ∃ a', a.insertReserve pos size = .ok a' ∧ a'.Wf ∧ a'.fSize = a.fSize + size ∧
      a'.fKeys = (a.fKeys.map fun t => t.updateInserted pos size) ∧
      ∀ i, a'.assocOf i = insertedAt a.assocOf a.fSize pos size i := by
  obtain ⟨b, reserved, bwf, bsize, _, cells, assocs, keys⟩ := insertReserve_spec wf inside some
  refine ⟨b, reserved, bwf, bsize, keys, ?_⟩
  intro i
  rw [assocOf, cells, assocs]
  unfold insertedAt
  split
  · rfl
  · split
    · rfl
    · split <;> rfl

theorem removeKey_eq (wf : a.Wf) (key : Bytes) :
    (a.findIndex key = .ok none ∧ a.removeKey key = .ok a) ∨
      ∃ slot < a.fSize, a.findIndex key = .ok (some slot) ∧ a.removeKey key = a.remove slot := by
  rcases findIndex_ok wf key with absent | ⟨slot, inside, found⟩
  · refine .inl ⟨absent, ?_⟩
    rw [removeKey, absent]
    rfl
  · refine .inr ⟨slot, inside, found, ?_⟩
    rw [removeKey, found]
    rfl

theorem remove_of_ge {slot : Nat} (outside : ¬ slot < a.fSize) : a.remove slot = .ok a := by
  rw [remove, if_neg outside]
  rfl

/-! ### Staying inside the buffers -/

theorem remove_ok (wf : a.Wf) (slot : Nat) : ∃ a', a.remove slot = .ok a' ∧ a'.Wf := by
  by_cases inside : slot < a.fSize
  · obtain ⟨a', removed, wf', _⟩ := remove_effect wf inside
    exact ⟨a', removed, wf'⟩
  · exact ⟨a, remove_of_ge inside, wf⟩

theorem Edit.apply_ok (wf : a.Wf) {e : Edit K V} (contract : e.InContract a) (room : e.HasRoom text a) :
    ∃ a', e.apply text a = .ok a' ∧ a'.Wf := by
  cases e with
  | atSlot slot v =>
    obtain ⟨a', done, wf', _⟩ := atSlot_effect text wf slot v
    exact ⟨a', done, wf'⟩
  | append v =>
    obtain ⟨a', done, wf', _⟩ := atSlot_effect text wf a.fSize (some v)
    exact ⟨a', done, wf'⟩
  | atKey key v =>
    rcases findIndex_ok wf ((text key).getD []) with absent | ⟨slot, _, found⟩
    · obtain ⟨a', _, done, wf', _⟩ := atKey_new_effect wf absent (room absent) v
      exact ⟨a', done, wf'⟩
    · exact ⟨_, (atKey_old_effect wf found v).1, wf.modifyCell _ _⟩
  | remove slot => exact remove_ok wf slot
  | removeKey key =>
    rcases removeKey_eq wf ((text key).getD []) with ⟨_, same⟩ | ⟨slot, _, _, removal⟩
    · exact ⟨a, same, wf⟩
    · rw [Edit.apply, removal]
      exact remove_ok wf slot
  | insertReserve pos size =>
    obtain ⟨a', reserved, wf', _⟩ := insertReserve_effect wf contract.1 contract.2
    exact ⟨a', reserved, wf'⟩

theorem Edit.apply_overrun (wf : a.Wf) {e : Edit K V} (full : ¬ e.HasRoom text a) :
    e.apply text a = .error (.contents a.fSize) := by
  cases e with
  | atKey key v =>
    simp only [Edit.HasRoom, Classical.not_imp] at full
    have size := wf.toShape.size_le
    rw [Edit.apply, atKey_full wf full.1 (by omega)]
    rfl
  | atSlot slot v => exact (full trivial).elim
  | append v => exact (full trivial).elim
  | remove slot => exact (full trivial).elim
  | removeKey key => exact (full trivial).elim
  | insertReserve pos size => exact (full trivial).elim

theorem Action.apply_ok (wf : a.Wf) {x : Action V} (contract : x.InContract a) (room : x.HasRoom a) :
    ∃ a', x.apply a = .ok a' ∧ a'.Wf := by
  cases x with
  | edit e => exact Edit.apply_ok wf contract room
  | sortByKey => exact sortBy_spec wf (keyCompare_reads wf.toShape)
  | sortReverseByKey => exact sortBy_spec wf (reverseKeyCompare_reads wf.toShape)
  | sortByAnyComparer compare => exact sortBy_spec wf (valueCompare_reads wf.toShape compare)

/-- A run stays inside the buffers exactly when it never adds a key to a filled array. -/
theorem run_in_bounds_iff (acts : List (Action V)) (contract : Runs.Meets Action.apply Action.InContract acts new) :
    (∀ cell, Runs.run Action.apply acts new ≠ .error (.contents cell)) ↔
      Runs.Meets Action.apply Action.HasRoom acts new := by
  have runs : (∀ e, (∃ cell, e = .contents cell) → Runs.run Action.apply acts (new : AnyArrayImpl V) ≠ .error e) ↔
      Runs.Meets Action.apply Action.HasRoom acts new := by
    refine Runs.never_bad_iff (fun a : AnyArrayImpl V => a.Wf) ?_ ?_ acts wf_new contract
    · exact fun x a wf contract room => Action.apply_ok wf contract room
    · intro x a wf _ full
      cases x with
      | edit e => exact ⟨_, Edit.apply_overrun wf full, _, rfl⟩
      | sortByKey => exact (full trivial).elim
      | sortReverseByKey => exact (full trivial).elim
      | sortByAnyComparer compare => exact (full trivial).elim
  rw [← runs]
  exact ⟨fun never e ⟨cell, he⟩ => he ▸ never cell, fun never cell => never _ ⟨cell, rfl⟩⟩

theorem run_in_bounds_iff_sorted :
    let acts : List (Action Nat) := [.edit (.atKey (some (ascii "x")) (some 1)), .sortByKey, .edit (.atSlot 7 none)]
    Runs.Meets Action.apply Action.InContract acts new ∧
      ((∀ cell, Runs.run Action.apply acts new ≠ .error (.contents cell)) ↔
        Runs.Meets Action.apply Action.HasRoom acts new) := by
  intro acts
  have contract : Runs.Meets Action.apply Action.InContract acts new :=
    ⟨trivial, fun _ _ => ⟨trivial, fun _ _ => ⟨trivial, fun _ _ => trivial⟩⟩⟩
  exact ⟨contract, run_in_bounds_iff acts contract⟩

/-- Twelve slots fill the buffers, so the key that comes next is written into the cell behind them. -/
theorem run_overrun : Runs.run Action.apply [.edit (.atSlot 11 none), .edit (.atKey (some (ascii "x")) none)]
    (new : AnyArrayImpl Nat) = .error (.contents 12) := by
  rfl

end Coast.Anything
