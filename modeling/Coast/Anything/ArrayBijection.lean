import Coast.Anything.ArrayRuns

/-!
# The index table stays a bijection

The live part of `fIndexTable` and the free part of `fEmptyTable` together name every cell once. This
concerns the index table alone, so a key that goes behind the buffers of a filled array does not stop
a run here: `applyStray` lets such a write miss the array and continues.
-/

namespace Coast.Anything

open AnyArrayImpl

variable {V : Type} [Inhabited V] {a : AnyArrayImpl V}

namespace AnyArrayImpl

def createKeyStray (a : AnyArrayImpl V) (t : AnyKeyTable) (key : Option Bytes) : Exec (AnyArrayImpl V × Nat) := do
  let t ← a.keyAppend t key a.fSize
  let found := a.fInd.atSlot a.fSize
  let touched := { a with fKeys := some t, fInd := found.1 }
  -- Outside the buffers the key is written to memory that is not the array's.
  let a := match touched.setCell found.2 fun assoc => { assoc with fKey := key.getD [] } with
    | .ok a => a
    | .error _ => touched
  a.atSlot a.fSize

def atKeyStray (a : AnyArrayImpl V) (key : Option Bytes) : Exec (AnyArrayImpl V × Nat) := do
  let slot ← a.findIndex (key.getD [])
  let t := a.fKeys.getD (AnyKeyTable.initTable AnyKeyTable.cInitCapacity)
  match slot with
  | none => a.createKeyStray t key
  | some slot => do
    let a := { a with fKeys := some t }
    let _ ← a.cell slot
    return (a, slot)

structure Bijective (a : AnyArrayImpl V) : Prop where
  index : a.fInd.fIndexTable.length = a.fInd.fCapacity
  empty : a.fInd.fEmptyTable.length = a.fInd.fCapacity
  perm : (a.fInd.fIndexTable.take a.fInd.fSize ++ a.fInd.fEmptyTable.drop a.fInd.fSize).Perm
    (List.range a.fInd.fCapacity)
  size : a.fInd.fSize = a.fSize
  apart : ∀ i < a.fSize, ∀ j < a.fSize, a.intAt i = a.intAt j → i = j

omit [Inhabited V] in
theorem Wf.bijective (wf : a.Wf) : a.Bijective := by
  refine ⟨wf.ind.index_length, wf.ind.empty_length, wf.ind.perm, wf.ind_size, ?_⟩
  intro i _ j _ same
  rw [intAt, intAt, wf.toShape.intAt_eq, wf.toShape.intAt_eq] at same
  exact wf.toShape.cellOf_injective same

end AnyArrayImpl

def Action.applyStray : Action V → AnyArrayImpl V → Exec (AnyArrayImpl V)
  | .edit (.atKey key v), a => do
    let (a, pos) ← a.atKeyStray key
    a.put pos v
  | x, a => x.apply a

def Action.Reserves : Action V → AnyArrayImpl V → Prop
  | .edit (.insertReserve pos size), a => pos ≤ a.fSize ∧ 1 ≤ size
  | _, _ => True

omit [Inhabited V] in
theorem Action.Reserves.inContract {x : Action V} (reserves : x.Reserves a) : x.InContract a := by
  cases x with
  | edit e =>
    cases e with
    | insertReserve pos size => exact ⟨reserves.1, Nat.lt_of_lt_of_le reserves.2 (Nat.le_add_left _ _)⟩
    | _ => trivial
  | _ => trivial

/-! ### One step -/

theorem createKeyStray_eq {t : AnyKeyTable} {key : Option Bytes} {r : AnyArrayImpl V × Nat}
    (done : a.createKey t key = .ok r) : a.createKeyStray t key = .ok r := by
  simp only [createKey, createKeyStray, bind, Except.bind] at done ⊢
  split at done
  · cases done
  · split at done
    · cases done
    · rename_i stored
      simp only [stored]
      exact done

theorem atKeyStray_eq {key : Option Bytes} {r : AnyArrayImpl V × Nat} (done : a.atKey key = .ok r) :
    a.atKeyStray key = .ok r := by
  simp only [atKey, atKeyStray, bind, Except.bind] at done ⊢
  split at done
  · cases done
  · split at done
    · exact createKeyStray_eq done
    · exact done

theorem Action.applyStray_eq {x : Action V} {a' : AnyArrayImpl V} (done : x.apply a = .ok a') :
    x.applyStray a = .ok a' := by
  cases x with
  | edit e =>
    cases e with
    | atKey key v =>
      simp only [Action.apply, Edit.apply, Action.applyStray, bind, Except.bind, id_eq] at done ⊢
      split at done
      · cases done
      · rename_i reached
        simp only [atKeyStray_eq reached]
        exact done
    | _ => exact done
  | _ => exact done

theorem atKeyStray_full (wf : a.Wf) {key : Option Bytes} (absent : a.findIndex (key.getD []) = .ok none)
    (full : a.fSize = a.fCapacity) :
    ∃ a', a.atKeyStray key = .ok (a', a.cellOf a.fSize) ∧ a'.Wf ∧ a'.cellOf = a.cellOf ∧ a'.assocOf = a.assocOf ∧
      a'.fKeys ≠ none ∧ a.fSize < a'.fSize := by
  obtain ⟨t', appended, twf'⟩ := keyAppend_ok wf key
  obtain ⟨b, hb⟩ : ∃ b, b = { a with fKeys := some t' } := ⟨_, rfl⟩
  have bshape : b.Shape := by
    rw [hb]
    exact ⟨wf.ind, wf.ind_size, wf.settled, wf.capacity, wf.capacity_pos, wf.contents⟩
  have bsize : b.fSize = a.fSize := by rw [hb]
  have bcells : b.cellOf = a.cellOf := cellOf_eq (by rw [hb])
  obtain ⟨a', reached, shape', same, size', _⟩ := atSlot_spec bshape a.fSize
  have outside : ¬ a.fSize < a.fNumOfBufs * arrayBufSize := by
    rw [← wf.capacity]
    omega
  have cells : a'.cellOf = a.cellOf := (funext same.cellOf).trans bcells
  have assocs : a'.assocOf = a.assocOf := by
    funext i
    rw [assocOf, same.assocAt, cells, hb]
    rfl
  refine ⟨a', ?_, ⟨shape', ?_⟩, cells, assocs, ?_, by omega⟩
  · rw [bcells, ← atSlot_touched bshape] at reached
    simp only [atKeyStray, createKeyStray, absent, bind, Except.bind, appended, setCell, wf.toShape.intAt_eq,
      wf.toShape.cellOf_size_eq full, cell, if_neg outside]
    rw [hb, wf.toShape.cellOf_size_eq full] at reached
    exact reached
  · intro u hu
    rw [same.keys, hb] at hu
    cases hu
    rw [show a'.fSize = a.fSize + 1 by omega]
    exact twf'
  · rw [same.keys, hb]
    exact Option.some_ne_none t'

theorem Action.applyStray_ok (wf : a.Wf) {x : Action V} (contract : x.InContract a) :
    ∃ a', x.applyStray a = .ok a' ∧ a'.Wf := by
  by_cases room : x.HasRoom a
  · obtain ⟨a', done, wf'⟩ := Action.apply_ok wf contract room
    exact ⟨a', Action.applyStray_eq done, wf'⟩
  · match x with
    | .edit (.atKey key v) =>
      simp only [Action.HasRoom, Edit.HasRoom, id_eq, Classical.not_imp] at room
      have size := wf.toShape.size_le
      obtain ⟨b, reached, bwf, cells, _, _, larger⟩ := atKeyStray_full wf room.1 (by omega)
      refine ⟨b.modifyCell (a.cellOf a.fSize) (AnyKeyAssoc.put v), ?_, bwf.modifyCell _ _⟩
      rw [Action.applyStray, reached]
      exact put_eq bwf.toShape (cells ▸ bwf.toShape.cellOf_lt larger) v
    | .edit (.atSlot ..) | .edit (.append _) | .edit (.remove _) | .edit (.removeKey _) | .edit (.insertReserve ..)
    | .sortByKey | .sortReverseByKey | .sortByAnyComparer _ => exact (room trivial).elim

/-! ### Whole runs -/

theorem run_applyStray (acts : List (Action V)) (wf : a.Wf) (reserves : Runs.Meets Action.applyStray Action.Reserves acts a) :
    ∃ a', Runs.run Action.applyStray acts a = .ok a' ∧ a'.Wf := by
  refine Runs.run_keeps ?_ acts wf reserves
  intro x b bwf reserve
  exact Action.applyStray_ok bwf reserve.inContract

theorem run_apply_stray {acts : List (Action V)} {a' : AnyArrayImpl V} (done : Runs.run Action.apply acts a = .ok a') :
    Runs.run Action.applyStray acts a = .ok a' := by
  induction acts generalizing a with
  | nil => exact done
  | cons x xs ih =>
    rw [Runs.run] at done ⊢
    split at done
    · rename_i taken
      rw [Action.applyStray_eq taken]
      exact ih done
    · cases done

theorem index_table_bijection (acts : List (Action V)) (reserves : Runs.Meets Action.applyStray Action.Reserves acts new) :
    (∃ a, Runs.run Action.applyStray acts new = .ok a ∧ a.Bijective) ∧
      ∀ a, Runs.run Action.apply acts new = .ok a → a.Bijective := by
  obtain ⟨a, done, wf⟩ := run_applyStray acts wf_new reserves
  refine ⟨⟨a, done, wf.bijective⟩, ?_⟩
  intro b inside
  rw [run_apply_stray inside] at done
  cases done
  exact wf.bijective

theorem index_table_bijection_filled :
    let acts : List (Action Nat) := [.edit (.atSlot 11 none), .edit (.atKey (some (ascii "x")) none), .edit (.remove 3),
      .edit (.insertReserve 2 3), .sortByKey]
    Runs.Meets Action.applyStray Action.Reserves acts new ∧
      (∃ a, Runs.run Action.applyStray acts new = .ok a ∧ a.Bijective) ∧
      ∀ a, Runs.run Action.apply acts new = .ok a → a.Bijective := by
  intro acts
  have size : ∀ a, Runs.run Action.applyStray (acts.take 3) new = .ok a → a.fSize = 12 := by
    intro a done
    have known : ((Runs.run Action.applyStray (acts.take 3) new).toOption.map fun a => a.fSize) = some 12 := by
      decide +kernel
    rw [done] at known
    exact Option.some.inj known
  have reserves : Runs.Meets Action.applyStray Action.Reserves acts new := by
    refine ⟨trivial, fun a first => ⟨trivial, fun b second => ⟨trivial, fun c third => ⟨⟨?_, by decide⟩, ?_⟩⟩⟩⟩
    · have reached : Runs.run Action.applyStray (acts.take 3) new = .ok c := by
        simp only [acts, List.take, Runs.run, first, second, third]
      rw [size c reached]
      decide
    · exact fun _ _ => ⟨trivial, fun _ _ => trivial⟩
  exact ⟨reserves, index_table_bijection acts reserves⟩

end Coast.Anything
