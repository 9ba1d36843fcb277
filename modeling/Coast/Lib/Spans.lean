import Mathlib.Algebra.BigOperators.Intervals
import Mathlib.Algebra.Order.BigOperators.Group.Finset

/-!
# Spans

Numbers are laid out in spans that follow each other, each of its own length. A number is in one span, at an offset
below its length, and is found by going from span to span.
-/

namespace Spans

variable (len : Nat → Nat)

def start (n : Nat) : Nat := ∑ i ∈ Finset.range n, len i

@[simp] theorem start_zero : start len 0 = 0 := by simp [start]

theorem start_succ (n : Nat) : start len (n + 1) = start len n + len n := Finset.sum_range_succ len n

theorem start_mono : Monotone (start len) := by
  apply monotone_nat_of_le_succ
  intro n
  rw [start_succ]
  omega

theorem start_add_mul_le {k : Nat} (least : ∀ i, k ≤ len i) (n j : Nat) : start len n + k * j ≤ start len (n + j) := by
  induction j with
  | zero => simp
  | succ j ih =>
    have next := least (n + j)
    rw [← Nat.add_assoc, start_succ, Nat.mul_succ]
    omega

def walk : Nat → Nat → Nat → Nat × Nat
  | 0, n, rest => (n, rest)
  | fuel + 1, n, rest => if len n ≤ rest then walk fuel (n + 1) (rest - len n) else (n, rest)

variable {len}

theorem end_le_start {n m : Nat} (before : n < m) : start len n + len n ≤ start len m := by
  rw [← start_succ]
  exact start_mono len before

theorem position_lt_iff {n m a b : Nat} (ha : a < len n) (hb : b < len m) :
    start len n + a < start len m + b ↔ n < m ∨ n = m ∧ a < b := by
  rcases lt_trichotomy n m with before | rfl | after
  · have apart : start len n + len n ≤ start len m := end_le_start before
    simp only [before, true_or, iff_true]
    omega
  · simp
  · have apart : start len m + len m ≤ start len n := end_le_start after
    simp only [not_lt_of_gt after, Nat.ne_of_gt after, false_and, or_self, iff_false]
    omega

theorem position_inj {n m a b : Nat} (ha : a < len n) (hb : b < len m)
    (same : start len n + a = start len m + b) : n = m ∧ a = b := by
  have forward := (position_lt_iff ha hb).not.mp (by omega)
  have backward := (position_lt_iff hb ha).not.mp (by omega)
  omega

theorem walk_position (fuel n rest : Nat) :
    start len (walk len fuel n rest).1 + (walk len fuel n rest).2 = start len n + rest := by
  fun_induction walk len fuel n rest with
  | case1 => rfl
  | case2 fuel n rest enough ih =>
    rw [ih, start_succ]
    omega
  | case3 => rfl

theorem walk_rest_lt {fuel n m rest : Nat} (inside : start len n + rest < start len m) (enough : m ≤ n + fuel) :
    (walk len fuel n rest).2 < len (walk len fuel n rest).1 := by
  fun_induction walk len fuel n rest with
  | case1 n rest =>
    have before := start_mono len enough
    simp only [Nat.add_zero] at before
    omega
  | case2 fuel n rest whole ih =>
    apply ih
    · rw [start_succ]
      omega
    · omega
  | case3 fuel n rest short => exact Nat.lt_of_not_le short

theorem walk_lt {fuel n m rest : Nat} (inside : start len n + rest < start len m) : (walk len fuel n rest).1 < m := by
  by_contra beyond
  have later := start_mono len (Nat.le_of_not_lt beyond)
  have here : start len _ + _ = start len n + rest := walk_position fuel n rest
  omega

theorem walk_eq {fuel n m rest a : Nat} (ha : a < len m) (here : start len n + rest = start len m + a) (far : m < n + fuel) :
    walk len fuel n rest = (m, a) := by
  have apart : start len m + len m ≤ start len (n + fuel) := end_le_start far
  have inside : start len n + rest < start len (n + fuel) := by omega
  have found := position_inj (walk_rest_lt inside le_rfl) ha ((walk_position fuel n rest).trans here)
  exact Prod.ext found.1 found.2

theorem exists_position {n m rest : Nat} (inside : start len n + rest < start len m) :
    ∃ k a, a < len k ∧ start len k + a = start len n + rest ∧ k < m :=
  ⟨_, _, walk_rest_lt inside (Nat.le_add_left m n), walk_position m n rest, walk_lt inside⟩

end Spans
