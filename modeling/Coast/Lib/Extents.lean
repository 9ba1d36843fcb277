import Coast.Lib.Pool
import Mathlib.Algebra.BigOperators.Group.Finset.Piecewise
import Mathlib.Algebra.Group.Pi.Basic
import Mathlib.Algebra.Order.BigOperators.Group.Finset
import Mathlib.Algebra.Order.Pi
import Mathlib.Order.Interval.Finset.Basic
import Mathlib.Data.Int.Interval

/-!
# Extents of memory

How often the bytes of a memory are taken, as a function of the address. Extents that are handed from
one owner to another, cut up or given up never raise it, and where it stays at most one the extents
share no byte.
-/

structure Extent where
  start : Int
  size : Nat
  deriving DecidableEq, Repr

namespace Extent

def stop (x : Extent) : Int := x.start + x.size

def Holds (x : Extent) (address : Int) : Prop := x.start ≤ address ∧ address < x.stop

instance (x : Extent) (address : Int) : Decidable (x.Holds address) := inferInstanceAs (Decidable (_ ∧ _))

def Apart (x y : Extent) : Prop := ∀ address, x.Holds address → ¬ y.Holds address

def count (x : Extent) (address : Int) : Nat := if x.Holds address then 1 else 0

theorem count_eq (x : Extent) (address : Int) : x.count address = if x.start ≤ address ∧ address < x.start + x.size then 1 else 0 := rfl

theorem count_of_holds {x : Extent} {address : Int} (holds : x.Holds address) : x.count address = 1 := if_pos holds

theorem holds_of_count {x : Extent} {address : Int} (counts : x.count address ≠ 0) : x.Holds address := by
  unfold count at counts
  split at counts
  · assumption
  · exact absurd rfl counts

theorem count_le_one (x : Extent) (address : Int) : x.count address ≤ 1 := by
  rw [count_eq]
  split_ifs <;> omega

theorem count_empty (start : Int) : count ⟨start, 0⟩ = 0 := by
  funext address
  refine if_neg fun holds => ?_
  unfold Holds stop at holds
  dsimp only at holds
  omega

theorem count_add (start : Int) (m n : Nat) : count ⟨start, m⟩ + count ⟨start + m, n⟩ = count ⟨start, m + n⟩ := by
  funext address
  simp only [Pi.add_apply, count_eq, Nat.cast_add]
  split_ifs <;> omega

theorem count_le_count {x y : Extent} (first : y.start ≤ x.start) (last : x.stop ≤ y.stop) : x.count ≤ y.count := by
  intro address
  unfold stop at last
  change x.count address ≤ y.count address
  rw [count_eq, count_eq]
  split_ifs <;> omega

theorem inside_of_count_le {x y : Extent} (nonempty : 0 < x.size) (le : x.count ≤ y.count) : y.start ≤ x.start ∧ x.stop ≤ y.stop := by
  have belongs : ∀ address, x.Holds address → y.Holds address := by
    intro address holds
    have counted := le address
    rw [count_of_holds holds] at counted
    exact holds_of_count (Nat.one_le_iff_ne_zero.mp counted)
  have first := belongs x.start ⟨Int.le_refl _, by unfold stop; omega⟩
  have last := belongs (x.stop - 1) ⟨by unfold stop; omega, by omega⟩
  exact ⟨first.1, by have := last.2; omega⟩

def occupied (xs : List Extent) : Int → Nat := Pool.total count xs

@[simp] theorem occupied_nil : occupied [] = 0 := rfl

@[simp] theorem occupied_cons (x : Extent) (xs : List Extent) : occupied (x :: xs) = x.count + occupied xs :=
  Pool.total_cons count x xs

@[simp] theorem occupied_append (xs ys : List Extent) : occupied (xs ++ ys) = occupied xs + occupied ys :=
  Pool.total_append count xs ys

theorem le_total {ι : Type*} {weight : ι → Int → Nat} {l : List ι} {b : ι} (mem : b ∈ l) : weight b ≤ Pool.total weight l := by
  induction l with
  | nil => cases mem
  | cons c l ih =>
    rw [Pool.total_cons]
    obtain rfl | mem := List.mem_cons.mp mem
    · exact le_self_add
    · exact le_add_left (ih mem)

theorem count_le_occupied {x : Extent} {xs : List Extent} (mem : x ∈ xs) : x.count ≤ occupied xs := le_total mem

theorem apart_of_le {x y : Extent} {all : Int → Nat} (once : ∀ address, all address ≤ 1) (both : x.count + y.count ≤ all) :
    x.Apart y := by
  intro address inX inY
  have sum : x.count address + y.count address ≤ 1 := (both address).trans (once address)
  rw [count_of_holds inX, count_of_holds inY] at sum
  omega

theorem pairwise_once {ι : Type*} {weight : ι → Int → Nat} {l : List ι} (once : ∀ address, Pool.total weight l address ≤ 1) :
    l.Pairwise fun b c => ∀ address, weight b address + weight c address ≤ 1 := by
  induction l with
  | nil => exact List.Pairwise.nil
  | cons b l ih =>
    have split : ∀ address, weight b address + Pool.total weight l address ≤ 1 := by
      intro address
      have sum := once address
      rwa [Pool.total_cons] at sum
    refine List.pairwise_cons.mpr ⟨fun c mem address => ?_, ih fun address => (Nat.le_add_left _ _).trans (split address)⟩
    exact (Nat.add_le_add_left (le_total mem address) _).trans (split address)

theorem sum_count {x : Extent} {s : Finset Int} (all : ∀ address, x.Holds address → address ∈ s) :
    ∑ address ∈ s, x.count address = x.size := by
  have held : s.filter x.Holds = Finset.Ico x.start x.stop := by
    ext address
    rw [Finset.mem_filter, Finset.mem_Ico]
    exact ⟨fun mem => mem.2, fun holds => ⟨all address holds, holds⟩⟩
  calc ∑ address ∈ s, x.count address = (s.filter x.Holds).card := (Finset.card_filter _ _).symm
    _ = x.size := by rw [held, Int.card_Ico]; unfold stop; omega

theorem total_size_le {xs : List Extent} {y : Extent} (le : occupied xs ≤ y.count) : Pool.total size xs ≤ y.size := by
  have inside : ∀ x ∈ xs, ∀ address, x.Holds address → address ∈ Finset.Ico y.start y.stop := by
    intro x mem address holds
    have counted := (count_le_occupied mem address).trans (le address)
    rw [count_of_holds holds] at counted
    exact Finset.mem_Ico.mpr (holds_of_count (Nat.one_le_iff_ne_zero.mp counted))
  have sum : ∑ address ∈ Finset.Ico y.start y.stop, occupied xs address = Pool.total size xs := by
    clear le
    induction xs with
    | nil => exact Finset.sum_const_zero
    | cons x xs ih =>
      have first := sum_count (inside x List.mem_cons_self)
      have rest := ih fun x mem => inside x (List.mem_cons_of_mem _ mem)
      simp only [occupied_cons, Pi.add_apply, Finset.sum_add_distrib, first, rest, Pool.total_cons]
  calc Pool.total size xs = ∑ address ∈ Finset.Ico y.start y.stop, occupied xs address := sum.symm
    _ ≤ ∑ address ∈ Finset.Ico y.start y.stop, y.count address := Finset.sum_le_sum fun address _ => le address
    _ = y.size := sum_count fun _ holds => Finset.mem_Ico.mpr holds

end Extent
