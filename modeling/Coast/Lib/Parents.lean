import Mathlib.Logic.Function.Basic
import Mathlib.Logic.Relation
import Mathlib.Order.WellFounded
import Mathlib.Tactic.Common

/-!
# Parent links

Each element has at most one parent. The links are acyclic when every way up ends. A loop that goes up
from parent to parent is `climb`, with fuel.
-/

namespace Parents

variable {ι β γ : Type*}

def Up (parent : ι → Option ι) (above i : ι) : Prop := parent i = some above

def Acyclic (parent : ι → Option ι) : Prop := WellFounded (Up parent)

def Above (parent : ι → Option ι) (above i : ι) : Prop := Relation.ReflTransGen (Function.swap (Up parent)) i above

variable {parent : ι → Option ι}

theorem Acyclic.irrefl (acyclic : Acyclic parent) {i above : ι} (up : parent i = some above) : ¬ Above parent i above := by
  intro back
  have cycle : Relation.TransGen (Up parent) i i := by
    have down : Relation.ReflTransGen (Up parent) i above := Relation.reflTransGen_swap.mp back
    exact Relation.TransGen.tail' down up
  exact (WellFounded.transGen acyclic).irrefl.irrefl i cycle

section Update

variable [DecidableEq ι] {i : ι} {above : Option ι}

theorem Above.update {j : ι} (reached : Above parent i j) (above : Option ι) : Above (Function.update parent i above) i j := by
  induction reached using Relation.ReflTransGen.head_induction_on with
  | refl => exact .refl
  | @head k l up _ ih =>
    by_cases same : k = i
    · rw [same]
      exact .refl
    · refine .head ?_ ih
      show Function.update parent i above k = some l
      rwa [Function.update_of_ne same]

theorem Acyclic.update_iff (acyclic : Acyclic parent) :
    Acyclic (Function.update parent i above) ↔ ∀ p, above = some p → ¬ Above parent i p := by
  constructor
  · rintro updated p rfl below
    exact updated.irrefl (Function.update_self ..) (below.update (some p))
  · intro free
    -- above the new parent nothing has changed
    have unchanged : ∀ j, ¬ Above parent i j → Acc (Up (Function.update parent i above)) j := by
      intro j
      induction j using acyclic.induction with
      | _ j ih =>
        intro notBelow
        have other : j ≠ i := by
          rintro rfl
          exact notBelow .refl
        refine ⟨j, fun k up => ?_⟩
        have up : parent j = some k := by rwa [Up, Function.update_of_ne other] at up
        exact ih k up fun below => notBelow (.head up below)
    refine ⟨fun j => ?_⟩
    induction j using acyclic.induction with
    | _ j ih =>
      refine ⟨j, fun k up => ?_⟩
      by_cases same : j = i
      · rw [same, Up, Function.update_self] at up
        exact unchanged k (free k up)
      · rw [Up, Function.update_of_ne same] at up
        exact ih k up

end Update

/-- A loop that goes up: `visit` looks at an element and ends the loop or goes on. -/
def climb (parent : ι → Option ι) (visit : ι → γ → γ ⊕ β) (last : γ → β) : Nat → Option ι → γ → Option β
  | 0, _, _ => none
  | _ + 1, none, state => some (last state)
  | fuel + 1, some i, state =>
    match visit i state with
    | .inl next => climb parent visit last fuel (parent i) next
    | .inr result => some result

theorem Acyclic.climb_ends (acyclic : Acyclic parent) (visit : ι → γ → γ ⊕ β) (last : γ → β) (start : Option ι) (state : γ) :
    ∃ n b, ∀ fuel, n ≤ fuel → climb parent visit last fuel start state = some b := by
  have ends : ∀ i state, ∃ n b, ∀ fuel, n ≤ fuel → climb parent visit last fuel (some i) state = some b := by
    intro i
    induction i using acyclic.induction with
    | _ i ih =>
      intro state
      cases seen : visit i state with
      | inr result =>
        refine ⟨1, result, fun fuel enough => ?_⟩
        obtain ⟨fuel, rfl⟩ := Nat.exists_eq_add_of_le' enough
        rw [climb, seen]
      | inl next =>
        cases up : parent i with
        | none =>
          refine ⟨2, last next, fun fuel enough => ?_⟩
          obtain ⟨fuel, rfl⟩ := Nat.exists_eq_add_of_le' enough
          rw [climb, seen]
          dsimp only
          rw [up, climb]
        | some p =>
          obtain ⟨n, b, done⟩ := ih p up next
          refine ⟨n + 1, b, fun fuel enough => ?_⟩
          obtain ⟨fuel, rfl⟩ := Nat.exists_eq_add_of_le' (Nat.le_trans (Nat.le_add_left 1 n) enough)
          rw [climb, seen]
          dsimp only
          rw [up]
          exact done fuel (Nat.le_of_succ_le_succ enough)
  cases start with
  | some i => exact ends i state
  | none =>
    refine ⟨1, last state, fun fuel enough => ?_⟩
    obtain ⟨fuel, rfl⟩ := Nat.exists_eq_add_of_le' enough
    rw [climb]

end Parents
