import Mathlib.Algebra.BigOperators.Group.List.Basic
import Mathlib.Algebra.Order.Group.Multiset
import Mathlib.Tactic.Common

/-!
# Pools of processes

The processes of a system that take steps in any order are a list; a step of one of them puts its next
state in its place, or takes it out of the list when it has finished. What an invariant says about all
processes together is a sum over the pool, and a step changes it by what the one process contributes.
-/

namespace Pool

variable {ι M : Type*} [AddCommMonoid M]

def replace (pool : List ι) (place : Nat) : Option ι → List ι
  | some next => pool.set place next
  | none => pool.eraseIdx place

def total (weight : ι → M) (pool : List ι) : M := (pool.map weight).sum

@[simp] theorem total_nil (weight : ι → M) : total weight [] = 0 := rfl

@[simp] theorem total_cons (weight : ι → M) (p : ι) (pool : List ι) : total weight (p :: pool) = weight p + total weight pool :=
  List.sum_cons

@[simp] theorem total_append (weight : ι → M) (pool more : List ι) :
    total weight (pool ++ more) = total weight pool + total weight more := by
  unfold total
  rw [List.map_append, List.sum_append]

theorem total_add (weight more : ι → M) (pool : List ι) : total (fun p => weight p + more p) pool = total weight pool + total more pool :=
  List.sum_map_add

theorem total_replace (weight : ι → M) {pool : List ι} {place : Nat} {p : ι} (here : pool[place]? = some p) (next : Option ι) :
    total weight (replace pool place next) + weight p = total weight pool + (next.map weight).getD 0 := by
  induction pool generalizing place with
  | nil => cases here
  | cons q pool ih =>
    cases place with
    | zero =>
      obtain rfl := Option.some.inj here
      cases next with
      | none => simp [replace, add_comm]
      | some next => simp [replace, add_comm, add_left_comm]
    | succ place =>
      have below := ih here
      cases next with
      | none =>
        simp only [replace, List.eraseIdx_cons_succ, total_cons, add_assoc] at below ⊢
        rw [below]
      | some next =>
        simp only [replace, List.set_cons_succ, total_cons, add_assoc] at below ⊢
        rw [below]

theorem le_total {weight : ι → Nat} {pool : List ι} {p : ι} (mem : p ∈ pool) : weight p ≤ total weight pool := by
  induction pool with
  | nil => cases mem
  | cons q pool ih =>
    rw [total_cons]
    obtain rfl | mem := List.mem_cons.mp mem
    · exact Nat.le_add_right _ _
    · exact Nat.le_trans (ih mem) (Nat.le_add_left _ _)

theorem exists_of_total_ne_zero {weight : ι → Nat} {pool : List ι} (some : total weight pool ≠ 0) : ∃ p ∈ pool, weight p ≠ 0 := by
  induction pool with
  | nil => exact absurd rfl some
  | cons p pool ih =>
    by_cases none : weight p = 0
    · rw [total_cons, none, Nat.zero_add] at some
      obtain ⟨q, mem, weighs⟩ := ih some
      exact ⟨q, List.mem_cons_of_mem p mem, weighs⟩
    · exact ⟨p, List.mem_cons_self, none⟩

theorem total_le_total {weight more : ι → Nat} (le : ∀ p, weight p ≤ more p) (pool : List ι) : total weight pool ≤ total more pool := by
  induction pool with
  | nil => exact Nat.le_refl _
  | cons p pool ih =>
    rw [total_cons, total_cons]
    exact Nat.add_le_add (le p) ih

theorem mem_replace {pool : List ι} {place : Nat} {next : Option ι} {p : ι} (mem : p ∈ replace pool place next) :
    p ∈ pool ∨ next = some p := by
  cases next with
  | none => exact .inl (List.mem_of_mem_eraseIdx mem)
  | some next =>
    obtain mem | rfl := List.mem_or_eq_of_mem_set mem
    · exact .inl mem
    · exact .inr rfl

theorem mem_replace_self {pool : List ι} {place : Nat} {p : ι} (here : pool[place]? = some p) (next : ι) :
    next ∈ replace pool place (some next) := by
  obtain ⟨inside, -⟩ := List.getElem?_eq_some_iff.mp here
  exact List.mem_set inside next

theorem mem_replace_of_ne {pool : List ι} {place : Nat} {p q : ι} (here : pool[place]? = some p) (mem : q ∈ pool) (other : q ≠ p)
    (next : Option ι) : q ∈ replace pool place next := by
  obtain ⟨i, inside, rfl⟩ := List.mem_iff_getElem.mp mem
  have apart : i ≠ place := by
    rintro rfl
    rw [List.getElem?_eq_getElem inside] at here
    exact other (Option.some.inj here)
  cases next with
  | none => exact List.mem_eraseIdx_iff_getElem.mpr ⟨i, inside, apart, rfl⟩
  | some next =>
    have kept : i < (pool.set place next).length := by rwa [List.length_set]
    exact List.mem_iff_getElem.mpr ⟨i, kept, List.getElem_set_ne (Ne.symm apart) kept⟩

theorem set_self {pool : List ι} {place : Nat} {p : ι} (here : pool[place]? = some p) : pool.set place p = pool := by
  obtain ⟨inside, rfl⟩ := List.getElem?_eq_some_iff.mp here
  exact List.set_getElem_self inside

theorem getElem?_set_iff {pool : List ι} {place : Nat} {p : ι} (here : pool[place]? = some p) (next : ι) {i : Nat} {q : ι} :
    (pool.set place next)[i]? = some q ↔ i = place ∧ q = next ∨ i ≠ place ∧ pool[i]? = some q := by
  obtain ⟨inside, -⟩ := List.getElem?_eq_some_iff.mp here
  by_cases same : i = place
  · subst same
    rw [List.getElem?_set_self inside, Option.some.injEq]
    exact ⟨fun eq => .inl ⟨rfl, eq.symm⟩, fun either => either.elim (fun eq => eq.2.symm) fun other => absurd rfl other.1⟩
  · rw [List.getElem?_set_ne (Ne.symm same)]
    exact ⟨fun there => .inr ⟨same, there⟩, fun either => either.elim (fun eq => absurd eq.1 same) And.right⟩

theorem mem_set_iff {pool : List ι} {place : Nat} {p : ι} (here : pool[place]? = some p) (next : ι) {q : ι} :
    q ∈ pool.set place next ↔ q = next ∨ ∃ i, i ≠ place ∧ pool[i]? = some q := by
  simp only [List.mem_iff_getElem?, getElem?_set_iff here]
  constructor
  · rintro ⟨i, ⟨-, eq⟩ | other⟩
    · exact .inl eq
    · exact .inr ⟨i, other⟩
  · rintro (eq | ⟨i, other⟩)
    · exact ⟨place, .inl ⟨rfl, eq⟩⟩
    · exact ⟨i, .inr other⟩

section Members

variable {α : Type*} {weight : ι → Multiset α} {pool : List ι} {place : Nat} {p : ι} {a : α}

theorem mem_total : a ∈ total weight pool ↔ ∃ p ∈ pool, a ∈ weight p := by
  induction pool with
  | nil => simp
  | cons p pool ih => simp [ih]

theorem mem_total_replace {next : Option ι} (mem : a ∈ total weight (replace pool place next)) :
    a ∈ total weight pool ∨ ∃ p, next = some p ∧ a ∈ weight p := by
  obtain ⟨p, here, weighed⟩ := mem_total.mp mem
  rcases mem_replace here with there | same
  · exact .inl (mem_total.mpr ⟨p, there, weighed⟩)
  · exact .inr ⟨p, same, weighed⟩

end Members

end Pool
