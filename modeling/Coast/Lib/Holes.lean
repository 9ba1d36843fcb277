import Mathlib.Data.List.Basic
import Mathlib.Logic.Nontrivial.Basic
import Mathlib.Tactic.Common

/-!
# Texts with holes

A text with holes is a list of parts, each with a hole behind it, and a last part. What it becomes for
every filling determines the parts.
-/

namespace Holes

variable {α : Type}

/-- The text with `t` in every hole. -/
def fill (t : List α) (parts : List (List α)) (last : List α) : List α := parts.flatMap (fun part => part ++ t) ++ last

@[simp] theorem fill_nil (t last : List α) : fill t [] last = last := rfl

@[simp] theorem fill_cons (t part : List α) (parts : List (List α)) (last : List α) :
    fill t (part :: parts) last = part ++ (t ++ fill t parts last) := by
  simp only [fill, List.flatMap_cons, List.append_assoc]

theorem fill_grows (x : α) (last part : List α) (parts : List (List α)) (last' : List α) :
    ∃ t, last ≠ fill t (part :: parts) last' := by
  refine ⟨List.replicate (last.length + 1) x, fun same => ?_⟩
  have lengths := congrArg List.length same
  rw [fill_cons, List.length_append, List.length_append, List.length_replicate] at lengths
  omega

theorem first_length [Nontrivial α] {part part' : List α} {behind behind' : List α → List α}
    (same : ∀ t, part ++ (t ++ behind t) = part' ++ (t ++ behind' t)) : part'.length ≤ part.length := by
  by_contra longer
  obtain ⟨x, y, differ⟩ := exists_pair_ne α
  -- the element at the hole on the left is fixed on the right
  have fixed : ∀ z, part'[part.length]? = some z := by
    intro z
    have left : (part ++ ([z] ++ behind [z]))[part.length]? = some z := by
      rw [List.getElem?_append_right (Nat.le_refl _), Nat.sub_self]
      rfl
    rw [same [z], List.getElem?_append_left (show part.length < part'.length by omega)] at left
    exact left
  exact differ (Option.some.inj ((fixed x).symm.trans (fixed y)))

theorem fill_injective [Nontrivial α] {parts parts' : List (List α)} {last last' : List α}
    (same : ∀ t, fill t parts last = fill t parts' last') : parts = parts' ∧ last = last' := by
  obtain ⟨x, -⟩ := exists_pair_ne α
  induction parts generalizing parts' with
  | nil =>
    cases parts' with
    | nil => exact ⟨rfl, same []⟩
    | cons part' parts' =>
      obtain ⟨t, differs⟩ := fill_grows x last part' parts' last'
      exact absurd (same t) differs
  | cons part parts ih =>
    cases parts' with
    | nil =>
      obtain ⟨t, differs⟩ := fill_grows x last' part parts last
      exact absurd (same t).symm differs
    | cons part' parts' =>
      simp only [fill_cons] at same
      have lengths : part.length = part'.length :=
        Nat.le_antisymm (first_length fun t => (same t).symm) (first_length same)
      have firsts : part = part' := List.append_inj_left (same []) lengths
      subst firsts
      have rests : ∀ t, fill t parts last = fill t parts' last' := fun t =>
        List.append_cancel_left (List.append_cancel_left (same t))
      obtain ⟨rfl, lasts⟩ := ih rests
      exact ⟨rfl, lasts⟩

end Holes
