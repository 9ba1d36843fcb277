import Mathlib.Data.List.Basic

/-!
# Stable sorting

The merge sort of a list is the one arrangement of it that is in order and leaves equal elements where
they are.
-/

namespace StableSort

variable {α : Type} {le : α → α → Bool}

structure Sorts (le : α → α → Bool) (before after : List α) : Prop where
  perm : after.Perm before
  ordered : after.Pairwise fun x y => le x y = true
  stable : ∀ x, after.filter (fun y => le x y && le y x) = before.filter fun y => le x y && le y x

theorem mergeSort_halves {l : List α} (some : 2 ≤ l.length) :
    l.mergeSort le = ((l.take ((l.length + 1) / 2)).mergeSort le).merge ((l.drop ((l.length + 1) / 2)).mergeSort le) le := by
  match l, some with
  | x :: y :: l, _ =>
    rw [List.mergeSort, List.MergeSort.Internal.splitInTwo_fst, List.MergeSort.Internal.splitInTwo_snd]

theorem mergeSort_sorts (trans : ∀ x y z, le x y = true → le y z = true → le x z = true)
    (total : ∀ x y, (le x y || le y x) = true) (l : List α) : Sorts le l (l.mergeSort le) := by
  refine ⟨List.mergeSort_perm l le, List.pairwise_mergeSort trans total l, fun x => ?_⟩
  -- The elements equal to `x` are in order already, so they come out in the order they have.
  have equal : (l.filter fun y => le x y && le y x).Pairwise fun y z => le y z = true := by
    refine List.pairwise_of_forall_mem_list fun y hy z hz => ?_
    have back := (Bool.and_eq_true_iff.mp (List.mem_filter.mp hy).2).2
    have forth := (Bool.and_eq_true_iff.mp (List.mem_filter.mp hz).2).1
    exact trans y x z back forth
  have kept := (List.sublist_mergeSort trans total equal List.filter_sublist).filter fun y => le x y && le y x
  rw [List.filter_filter, List.filter_congr fun y _ => Bool.and_self _] at kept
  exact (kept.eq_of_length ((List.mergeSort_perm l le).filter _).length_eq.symm).symm

end StableSort
