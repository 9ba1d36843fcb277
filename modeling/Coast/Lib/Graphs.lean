import Mathlib.Data.List.Forall2
import Mathlib.Data.Option.Basic

/-!
# Graphs in a heap

A heap has a cell for every address: a leaf, or a list of slots each of which refers to an address or
to nothing. Two graphs are isomorphic if a one-to-one relation of their addresses relates their roots
and carries every cell of one to a cell of the other.
-/

namespace Graphs

inductive Cell (S K α : Type) where
  | leaf (s : S)
  | branch (slots : List (K × Option α))

variable {S K α β : Type}

namespace Cell

def slots : Cell S K α → List (K × Option α)
  | leaf _ => []
  | branch slots => slots

def SlotsMatch (R : α → β → Prop) : List (K × Option α) → List (K × Option β) → Prop :=
  List.Forall₂ fun x y => x.1 = y.1 ∧ Option.Rel R x.2 y.2

theorem SlotsMatch.of_getElem {R : α → β → Prop} {xs : List (K × Option α)} {ys : List (K × Option β)}
    (length : xs.length = ys.length)
    (each : ∀ (i : Nat) k a, xs[i]? = some (k, a) → ∃ b, ys[i]? = some (k, b) ∧ Option.Rel R a b) : SlotsMatch R xs ys := by
  induction xs generalizing ys with
  | nil =>
    rw [List.length_nil, eq_comm, List.length_eq_zero_iff] at length
    rw [length]
    exact List.Forall₂.nil
  | cons x xs ih =>
    obtain ⟨b, first, related⟩ := each 0 x.1 x.2 rfl
    rcases ys with _ | ⟨y, ys⟩
    · cases first
    · rw [List.getElem?_cons_zero, Option.some.injEq] at first
      rw [first]
      exact List.Forall₂.cons ⟨rfl, related⟩ (ih (Nat.succ.inj length) fun i => each (i + 1))

inductive Matches (R : α → β → Prop) : Cell S K α → Cell S K β → Prop
  | leaf (s : S) : Matches R (leaf s) (leaf s)
  | branch {xs : List (K × Option α)} {ys : List (K × Option β)} (same : SlotsMatch R xs ys) : Matches R (branch xs) (branch ys)

theorem Matches.slots {R : α → β → Prop} {c : Cell S K α} {d : Cell S K β} (same : c.Matches R d) :
    SlotsMatch R c.slots d.slots := by
  cases same with
  | leaf s => exact List.Forall₂.nil
  | branch same => exact same

end Cell

abbrev Heap (S K α : Type) := α → Cell S K α

inductive Reaches (h : Heap S K α) (root : Option α) : α → Prop
  | root {a : α} (start : root = some a) : Reaches h root a
  | slot {a b : α} {k : K} (reached : Reaches h root a) (mem : (k, some b) ∈ (h a).slots) : Reaches h root b

structure Isomorphism (R : α → β → Prop) (h : Heap S K α) (root : Option α) (h' : Heap S K β) (root' : Option β) : Prop where
  root : Option.Rel R root root'
  cell : ∀ {a b}, R a b → (h a).Matches R (h' b)
  functional : ∀ {a b b'}, R a b → R a b' → b = b'
  injective : ∀ {a a' b}, R a b → R a' b → a = a'

end Graphs
