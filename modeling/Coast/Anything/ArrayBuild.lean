import Coast.Anything.ArrayRefinement

/-!
# Arrays that are only built

A parser or a copy adds slots and assigns to slots that are there. Such edits never meet the
conditions that other runs have to watch: there is always a cell in reserve, slots stay in the cells
of their number, and the cells behind the array carry no key.
-/

namespace Coast.Anything

open AnyArrayImpl

variable {V : Type} [Inhabited V]

def Builds : Edit Key V → Entries V → Prop
  | .append _, _ => True
  | .atKey _ _, _ => True
  | .atSlot slot _, es => slot < es.length
  | _, _ => False

inductive Built : Entries V → Prop
  | empty : Built []
  | step {es : Entries V} {e : Edit Key V} (built : Built es) (builds : Builds e es) : Built (Entries.apply e es)

namespace AnyArrayImpl

variable {a : AnyArrayImpl V} {es : Entries V}

structure Straight (a : AnyArrayImpl V) (es : Entries V) : Prop extends Agrees a es where
  reserve : a.fSize < a.fCapacity
  own : ∀ i, a.cellOf i = i
  keyless : ∀ i, a.fSize ≤ i → (a.assocOf i).fKey = []

theorem straight_new : (new : AnyArrayImpl V).Straight [] := by
  have own : ∀ i, (new : AnyArrayImpl V).cellOf i = i := by
    intro i
    show ([0, 1, 2, 3] : List Nat).getD i i = i
    rcases i with _ | _ | _ | _ | i <;> rfl
  refine ⟨agrees_new, show 0 < 4 by decide, own, ?_⟩
  intro i _
  show ((List.replicate 4 AnyArrayImpl.blank).getD _ AnyArrayImpl.blank).fKey = []
  rw [List.getD_eq_getElem?_getD, List.getElem?_replicate]
  split <;> rfl

theorem Straight.clean (straight : a.Straight es) {e : Edit Key V} (builds : Builds e es) : Clean e a := by
  cases e with
  | atSlot slot v => exact fun i outside _ => straight.keyless i outside
  | append v => exact straight.keyless _ (Nat.le_refl _)
  | atKey k v => exact ⟨fun _ => straight.reserve, fun i _ => Or.inr (straight.own i)⟩
  | remove slot => cases builds
  | removeKey k => cases builds
  | insertReserve pos size => cases builds

theorem Straight.apply (straight : a.Straight es) {e : Edit Key V} (builds : Builds e es) :
    ∃ a', e.apply Key.asText a = .ok a' ∧ a'.Straight (Entries.apply e es) := by
  obtain ⟨a', done, agrees⟩ := straight.toAgrees.apply (straight.clean builds)
  refine ⟨a', done, ?_⟩
  have length := straight.length
  have atSlot : ∀ slot v, slot ≤ a.fSize → (Edit.atSlot slot v).apply Key.asText a = .ok a' →
      a'.fSize < a'.fCapacity ∧ (∀ i, a'.cellOf i = i) ∧ ∀ i, a'.fSize ≤ i → (a'.assocOf i).fKey = [] := by
    intro slot v inside done
    obtain ⟨b, done', _, size, _, assocs, cells, room⟩ := atSlot_effect Key.asText straight.toWf slot v
    obtain rfl : b = a' := Except.ok.inj (done'.symm.trans done)
    have reserve := straight.reserve
    refine ⟨room (by omega) reserve, fun i => (cells i).trans (straight.own i), ?_⟩
    intro i outside
    rw [assocs, if_neg (by omega)]
    exact straight.keyless i (by omega)
  cases e with
  | atSlot slot v =>
    obtain ⟨reserve, own, keyless⟩ := atSlot slot v (by have : slot < es.length := builds; omega) done
    exact ⟨agrees, reserve, own, keyless⟩
  | append v =>
    obtain ⟨reserve, own, keyless⟩ := atSlot a.fSize (some v) (Nat.le_refl _) done
    exact ⟨agrees, reserve, own, keyless⟩
  | atKey k v =>
    have found := straight.toNamed.findIndex_eq k
    cases h : es.position k with
    | none =>
      rw [h] at found
      obtain ⟨b, _, done', _, size, assocs, _, _, reserve, cells⟩ := atKey_new_effect straight.toWf
        (show a.findIndex ((Key.asText k).getD []) = _ from found) straight.reserve v
      obtain rfl : b = a' := Except.ok.inj (done'.symm.trans done)
      refine ⟨agrees, reserve, fun i => (cells i).trans (straight.own i), ?_⟩
      intro i outside
      rw [assocs, if_neg (by omega)]
      exact straight.keyless i (by omega)
    | some i =>
      rw [h] at found
      obtain ⟨done', inside⟩ := atKey_old_effect straight.toWf (show a.findIndex ((Key.asText k).getD []) = _ from found) v
      have same := Except.ok.inj (done'.symm.trans done)
      have below : i < a.fCapacity := Nat.lt_of_lt_of_le inside straight.toShape.size_le
      subst same
      refine ⟨agrees, straight.reserve, straight.own, ?_⟩
      intro j outside
      have kept := straight.keyless j outside
      have changed := straight.toShape.assocAt_modifyCell below (AnyKeyAssoc.put v) (a.cellOf j)
      refine Eq.trans (congrArg AnyKeyAssoc.fKey changed) ?_
      split
      · rename_i here
        rw [← here]
        exact kept
      · exact kept
  | remove slot => cases builds
  | removeKey k => cases builds
  | insertReserve pos size => cases builds

/-- The array implementation holds what was built. -/
theorem built_observe (built : Built es) :
    ∃ edits, ∃ a : AnyArrayImpl V, Runs.run (Edit.apply Key.asText) edits new = .ok a ∧ a.Straight es ∧
      a.observe = .ok (es.map fun e => (e.1.map Key.text, e.2)) := by
  induction built with
  | empty => exact ⟨[], new, rfl, straight_new, straight_new.toAgrees.observe_eq⟩
  | @step es e built builds ih =>
    obtain ⟨edits, a, reached, straight, -⟩ := ih
    obtain ⟨a', done, straight'⟩ := straight.apply builds
    exact ⟨edits ++ [e], a', (Runs.run_concat reached e).trans done, straight', straight'.toAgrees.observe_eq⟩

end AnyArrayImpl

end Coast.Anything
