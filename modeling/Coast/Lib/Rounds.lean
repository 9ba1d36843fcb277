import Coast.Lib.Loops
import Mathlib.Data.List.Iterate

/-!
# Rounds until nothing changes

`while (previous != current) { previous = current; current = f(previous); }`, with something that is
added up over the rounds. It ends at a fixed point of `f` if every round that changes something lowers a
measure.
-/

namespace Rounds

variable {α τ : Type*} [DecidableEq α]

def turn (f : α → α) (add : τ → α → τ) (s : α × α × τ) : (α × τ) ⊕ (α × α × τ) :=
  if s.1 = s.2.1 then .inl s.2 else .inr (s.2.1, f s.2.1, add s.2.2 s.2.1)

def Settles (f : α → α) (measure : α → Nat) : Prop := ∀ a, f a ≠ a → measure (f a) < measure a

def settle (f : α → α) (previous current : α) : Part α :=
  (Loops.loop (turn f fun sum _ => sum) (previous, current, ())).map Prod.fst

def SettledAfter (f : α → α) (a : α) (n : Nat) : Prop := f (f^[n] a) = f^[n] a ∧ ∀ k < n, f (f^[k] a) ≠ f^[k] a

variable {f : α → α} {add : τ → α → τ} {measure : α → Nat}

theorem mem_loop_of_same (a : α) (sum : τ) : (a, sum) ∈ Loops.loop (turn f add) (a, a, sum) :=
  Loops.mem_loop_of_ends (if_pos rfl)

theorem loop_of_differ {previous current : α} (differ : previous ≠ current) (sum : τ) :
    Loops.loop (turn f add) (previous, current, sum) = Loops.loop (turn f add) (current, f current, add sum current) :=
  Loops.loop_goes_on (if_neg differ)

theorem exists_settled (settles : Settles f measure) (a : α) : ∃ n, SettledAfter f a n := by
  induction lower : measure a using Nat.strongRecOn generalizing a with
  | _ bound ih =>
    by_cases same : f a = a
    · exact ⟨0, same, fun k less => absurd less (Nat.not_lt_zero k)⟩
    · obtain ⟨n, fixed, before⟩ := ih _ (lower ▸ settles a same) (f a) rfl
      refine ⟨n + 1, fixed, fun k less => ?_⟩
      cases k with
      | zero => exact same
      | succ k => exact before k (Nat.lt_of_succ_lt_succ less)

theorem mem_loop_of_settled {previous current : α} {n : Nat} (settled : SettledAfter f current n) (differ : previous ≠ current)
    (sum : τ) : (f^[n] current, (List.iterate f current (n + 1)).foldl add sum) ∈
      Loops.loop (turn f add) (previous, current, sum) := by
  obtain ⟨fixed, before⟩ := settled
  induction n generalizing previous current sum with
  | zero =>
    rw [Function.iterate_zero, id] at fixed
    rw [loop_of_differ differ, fixed]
    exact mem_loop_of_same current _
  | succ n ih =>
    rw [loop_of_differ differ]
    exact ih (Ne.symm (before 0 (Nat.succ_pos n))) _ fixed fun k less => before (k + 1) (Nat.succ_lt_succ less)

theorem mem_settle_of_settled {previous current : α} {n : Nat} (settled : SettledAfter f current n)
    (differ : previous ≠ current) : f^[n] current ∈ settle f previous current :=
  Part.mem_map Prod.fst (mem_loop_of_settled settled differ ())

theorem mem_settle_of_same (a : α) : a ∈ settle f a a := Part.mem_map Prod.fst (mem_loop_of_same a ())

end Rounds
