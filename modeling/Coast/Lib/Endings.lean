import Mathlib.Order.UpperLower.CompleteLattice

/-!
# Programs that end

A program may run on without an end. Its states are ordered by what is left to be done: a program that ends
adds nothing, and where it takes something away depends on its result. So loops are followed by induction
on what is left.
-/

namespace Endings

universe u

variable {σ α β : Type u} [Preorder σ]

def LeadsTo (S : LowerSet σ) (m : StateT σ Option α) (T : α → LowerSet σ) : Prop :=
  ∀ s ∈ S, ∃ a, ∃ s' ∈ T a, s' ≤ s ∧ m s = some (a, s')

def Ends (S : LowerSet σ) (m : StateT σ Option α) : Prop := LeadsTo S m fun _ => S

theorem bind_run {α β σ : Type u} {m : StateT σ Option α} {f : α → StateT σ Option β} {s s' : σ} {a : α}
    (run : m s = some (a, s')) : (m >>= f) s = f a s' := by
  have both : (m >>= f) s = (m s).bind fun p => f p.1 p.2 := rfl
  rw [both, run]
  rfl

variable {S T : LowerSet σ} {m : StateT σ Option α} {U : α → LowerSet σ} {V : β → LowerSet σ} {k : α → StateT σ Option β}

theorem LeadsTo.bind (first : LeadsTo S m U) (next : ∀ a, LeadsTo (U a) (k a) V) : LeadsTo S (m >>= k) V := by
  intro s inside
  obtain ⟨a, s', here, below, run⟩ := first s inside
  obtain ⟨b, s'', there, below', run'⟩ := next a s' here
  exact ⟨b, s'', there, below'.trans below, (bind_run run).trans run'⟩

theorem LeadsTo.mono {U' : α → LowerSet σ} (first : LeadsTo T m U) (narrower : S ≤ T) (wider : ∀ a, U a ≤ U' a) : LeadsTo S m U' := by
  intro s inside
  obtain ⟨a, s', here, below, run⟩ := first s (narrower inside)
  exact ⟨a, s', wider a here, below, run⟩

theorem Ends.of_le (ends : ∀ s ∈ S, ∃ a, ∃ s' ≤ s, m s = some (a, s')) : Ends S m := by
  intro s inside
  obtain ⟨a, s', below, run⟩ := ends s inside
  exact ⟨a, s', S.lower below inside, below, run⟩

theorem Ends.at_state {s : σ} (ends : Ends S m) (inside : s ∈ S) : ∃ a, ∃ s' ≤ s, m s = some (a, s') := by
  obtain ⟨a, s', -, below, run⟩ := ends s inside
  exact ⟨a, s', below, run⟩

theorem Ends.mono (ends : Ends T m) (narrower : S ≤ T) : Ends S m := by
  exact Ends.of_le fun s inside => ends.at_state (narrower inside)

theorem LeadsTo.ends (first : LeadsTo S m U) (next : ∀ a, Ends (U a) (k a)) : Ends S (m >>= k) := by
  refine Ends.of_le fun s inside => ?_
  obtain ⟨a, s', here, below, run⟩ := first s inside
  obtain ⟨b, s'', -, below', run'⟩ := next a s' here
  exact ⟨b, s'', below'.trans below, (bind_run run).trans run'⟩

theorem Ends.bind (first : Ends S m) (next : ∀ a, Ends S (k a)) : Ends S (m >>= k) := LeadsTo.ends first next

theorem ends_pure (a : α) : Ends S (pure a : StateT σ Option α) := Ends.of_le fun s _ => ⟨a, s, le_rfl, rfl⟩

theorem leads_pure {a : α} (inside : S ≤ U a) : LeadsTo S (pure a) U := fun s here => ⟨a, s, inside here, le_rfl, rfl⟩

theorem ends_bot (nowhere : ∀ s, s ∉ S) : Ends S m := fun s inside => absurd inside (nowhere s)

end Endings
