import Mathlib.Data.List.Basic
import Mathlib.Data.List.Induction
import Mathlib.Data.List.SplitBy
import Mathlib.Data.List.TakeWhile
import Mathlib.Tactic.Common

/-!
# Paths as segments

A rooted path is a list of segments with a separator in front of each. Walking it keeps a directory:
a plain segment is entered, the segment `here` and the empty one stay, `up` leaves the last one.
-/

namespace Segments

variable {α : Type}

/-! ### Splitting -/

section Splitting

variable (sep : α)

def rooted (segs : List (List α)) : List α := segs.flatMap fun s => sep :: s

@[simp] theorem rooted_nil : rooted sep [] = [] := rfl

@[simp] theorem rooted_cons (s : List α) (segs : List (List α)) : rooted sep (s :: segs) = sep :: (s ++ rooted sep segs) := rfl

theorem rooted_append (segs more : List (List α)) : rooted sep (segs ++ more) = rooted sep segs ++ rooted sep more :=
  List.flatMap_append

theorem cons_intercalate {segs : List (List α)} (nonempty : segs ≠ []) : sep :: [sep].intercalate segs = rooted sep segs := by
  induction segs with
  | nil => exact absurd rfl nonempty
  | cons s segs ih =>
    cases segs with
    | nil => simp
    | cons t segs => rw [List.intercalate_cons_cons, rooted_cons, ← ih (List.cons_ne_nil t segs), List.append_assoc, List.singleton_append]

variable [DecidableEq α]

theorem splitOn_append (text more : List α) : ∃ (init : List (List α)) (last first : List α) (rest : List (List α)),
    text.splitOn sep = init ++ [last] ∧ more.splitOn sep = first :: rest ∧
      (text ++ more).splitOn sep = init ++ (last ++ first) :: rest := by
  obtain ⟨first, rest, split⟩ := List.exists_cons_of_ne_nil (List.splitOn_ne_nil sep more)
  induction text with
  | nil => exact ⟨[], [], first, rest, List.splitOn_nil sep, split, split⟩
  | cons c text ih =>
    obtain ⟨init, last, first', rest', one, two, both⟩ := ih
    by_cases h : c = sep
    · subst h
      refine ⟨[] :: init, last, first', rest', ?_, two, ?_⟩
      · rw [← List.nil_append (c :: text), List.splitOn_append_cons_self, one, List.splitOn_nil]
        rfl
      · rw [List.cons_append, ← List.nil_append (c :: _), List.splitOn_append_cons_self, both, List.splitOn_nil]
        rfl
    · have other : (c == sep) = false := by simpa using h
      cases init with
      | nil =>
        refine ⟨[], c :: last, first', rest', ?_, two, ?_⟩
        · rw [List.splitOn_cons_eq_if_modifyHead, other, one]
          rfl
        · rw [List.cons_append, List.splitOn_cons_eq_if_modifyHead, other, both]
          rfl
      | cons s init =>
        refine ⟨(c :: s) :: init, last, first', rest', ?_, two, ?_⟩
        · rw [List.splitOn_cons_eq_if_modifyHead, other, one]
          rfl
        · rw [List.cons_append, List.splitOn_cons_eq_if_modifyHead, other, both]
          rfl

theorem splitOn_cons_self (text : List α) : (sep :: text).splitOn sep = [] :: text.splitOn sep := by
  rw [← List.nil_append (sep :: text), List.splitOn_append_cons_self, List.splitOn_nil]
  rfl

theorem splitOn_append_rooted {s : List α} {segs : List (List α)} (free : sep ∉ s) (frees : ∀ t ∈ segs, sep ∉ t) :
    (s ++ rooted sep segs).splitOn sep = s :: segs := by
  induction segs generalizing s with
  | nil => rw [rooted_nil, List.append_nil, List.splitOn_eq_singleton free]
  | cons t segs ih =>
    rw [rooted_cons, List.splitOn_append_cons_self_of_not_mem free,
      ih (frees t List.mem_cons_self) fun u mem => frees u (List.mem_cons_of_mem _ mem)]

theorem splitOn_rooted {segs : List (List α)} (frees : ∀ t ∈ segs, sep ∉ t) : (rooted sep segs).splitOn sep = [] :: segs :=
  splitOn_append_rooted sep List.not_mem_nil frees

theorem rooted_splitOn (text : List α) : rooted sep (text.splitOn sep) = sep :: text := by
  induction text with
  | nil => simp
  | cons c text ih =>
    by_cases h : c = sep
    · subst h
      rw [splitOn_cons_self, rooted_cons, ih]
      rfl
    · obtain ⟨first, rest, split⟩ := List.exists_cons_of_ne_nil (List.splitOn_ne_nil sep text)
      rw [split, rooted_cons, List.cons.injEq] at ih
      have other : (c == sep) = false := by simpa using h
      rw [List.splitOn_cons_eq_if_modifyHead, other, split, ← ih.2]
      rfl

theorem splitOn_free {text s : List α} (mem : s ∈ text.splitOn sep) : sep ∉ s := by
  induction text generalizing s with
  | nil => simp_all
  | cons c text ih =>
    by_cases h : c = sep
    · subst h
      rw [splitOn_cons_self, List.mem_cons] at mem
      obtain rfl | mem := mem
      · exact List.not_mem_nil
      · exact ih mem
    · obtain ⟨first, rest, split⟩ := List.exists_cons_of_ne_nil (List.splitOn_ne_nil sep text)
      have other : (c == sep) = false := by simpa using h
      rw [List.splitOn_cons_eq_if_modifyHead, other, split] at mem
      rw [split] at ih
      obtain rfl | mem := List.mem_cons.mp mem
      · have below : sep ∉ first := ih List.mem_cons_self
        simp only [List.mem_cons, not_or]
        exact ⟨Ne.symm h, below⟩
      · exact ih (List.mem_cons_of_mem _ mem)

end Splitting

theorem splitBy_append_joined {r : α → α → Bool} {a b : List α} (before : a ≠ []) (behind : b ≠ [])
    (joined : ∀ x ∈ a.getLast?, ∀ y ∈ b.head?, r x y = true) (chain : b.IsChain fun x y => r x y) :
    ∃ init last, a.splitBy r = init ++ [last] ∧ (a ++ b).splitBy r = init ++ [last ++ b] := by
  obtain ⟨init, last, shape⟩ := (List.eq_nil_or_concat (a.splitBy r)).resolve_left (List.splitBy_ne_nil.mpr before)
  rw [List.concat_eq_append] at shape
  refine ⟨init, last, shape, ?_⟩
  obtain ⟨whole, nonempty, chains, apart⟩ := List.splitBy_eq_iff.mp shape
  have some_last : last ≠ [] := by
    rintro rfl
    exact nonempty (by simp)
  rw [List.forall_mem_append, List.forall_mem_singleton] at chains
  rw [List.isChain_append] at apart
  refine List.splitBy_eq_iff.mpr ⟨by rw [whole]; simp, ?_, ?_, ?_⟩
  · rw [List.mem_append, List.mem_singleton]
    rintro (mem | none)
    · exact nonempty (List.mem_append_left _ mem)
    · exact behind (List.append_eq_nil_iff.mp none.symm).2
  · rw [List.forall_mem_append, List.forall_mem_singleton]
    refine ⟨chains.1, List.isChain_append.mpr ⟨chains.2, chain, ?_⟩⟩
    intro x isLast
    refine joined x ?_
    rw [whole, List.flatten_append, List.flatten_singleton, List.getLast?_append, Option.mem_def.mp isLast]
    rfl
  · refine List.isChain_append.mpr ⟨apart.1, List.isChain_singleton _, ?_⟩
    intro p isLast q isHead
    obtain rfl : last ++ b = q := by simpa using isHead
    obtain ⟨some_p, _, boundary⟩ := apart.2.2 p isLast last rfl
    exact ⟨some_p, by simp [some_last], by rwa [List.head_append_of_ne_nil some_last]⟩

/-! ### Walking -/

section Walking

variable [DecidableEq α] (here up : List α)

def Plain (s : List α) : Prop := s ≠ [] ∧ s ≠ here ∧ s ≠ up

instance : DecidablePred (Plain here up) := fun _ => inferInstanceAs (Decidable (_ ∧ _ ∧ _))

def visit (dir : List (List α)) (s : List α) : List (List α) :=
  if s = up then dir.dropLast else if s = here ∨ s = [] then dir else dir ++ [s]

def walk (dir segs : List (List α)) : List (List α) := segs.foldl (visit here up) dir

theorem visit_plain {dir : List (List α)} {s : List α} (plain : Plain here up s) : visit here up dir s = dir ++ [s] := by
  rw [visit, if_neg plain.2.2, if_neg (not_or.mpr ⟨plain.2.1, plain.1⟩)]

theorem walk_append (dir segs more : List (List α)) :
    walk here up dir (segs ++ more) = walk here up (walk here up dir segs) more := List.foldl_append

theorem walk_plain {dir segs : List (List α)} (plain : ∀ s ∈ segs, Plain here up s) : walk here up dir segs = dir ++ segs := by
  induction segs generalizing dir with
  | nil => exact (List.append_nil dir).symm
  | cons s segs ih =>
    have first : visit here up dir s = dir ++ [s] := visit_plain here up (plain s List.mem_cons_self)
    have rest : ∀ t ∈ segs, Plain here up t := fun t mem => plain t (List.mem_cons_of_mem s mem)
    rw [walk, List.foldl_cons, first, ← walk, ih rest, List.append_assoc, List.singleton_append]

theorem visit_keeps {P : List α → Prop} {dir : List (List α)} (all : ∀ t ∈ dir, P t) {s : List α} (enters : Plain here up s → P s) :
    ∀ t ∈ visit here up dir s, P t := by
  intro t mem
  unfold visit at mem
  split at mem
  · exact all t ((List.dropLast_sublist dir).subset mem)
  · split at mem
    · exact all t mem
    · rename_i notUp stays
      obtain mem | mem := List.mem_append.mp mem
      · exact all t mem
      · obtain rfl := List.mem_singleton.mp mem
        rw [not_or] at stays
        exact enters ⟨stays.2, stays.1, notUp⟩

theorem walk_keeps {P : List α → Prop} {dir segs : List (List α)} (all : ∀ t ∈ dir, P t)
    (enters : ∀ s ∈ segs, Plain here up s → P s) : ∀ t ∈ walk here up dir segs, P t := by
  induction segs generalizing dir with
  | nil => exact all
  | cons s segs ih =>
    exact ih (visit_keeps here up all (enters s List.mem_cons_self)) fun t mem => enters t (List.mem_cons_of_mem _ mem)

/-! A walk never makes a path longer, and one that keeps its length met plain segments only. -/

variable (sep : α)

theorem length_visit_le (dir : List (List α)) {s : List α} (h : ¬Plain here up s) :
    (rooted sep (visit here up dir s)).length ≤ (rooted sep dir).length := by
  unfold visit
  split
  · cases dir using List.reverseRecOn with
    | nil => exact Nat.le_refl _
    | append_singleton dir t =>
      rw [List.dropLast_concat, rooted_append, List.length_append]
      exact Nat.le_add_right _ _
  · rename_i notUp
    split
    · exact Nat.le_refl _
    · rename_i stays
      rw [not_or] at stays
      exact absurd ⟨stays.2, stays.1, notUp⟩ h

theorem length_walk_le (dir segs : List (List α)) :
    (rooted sep (walk here up dir segs)).length ≤ (rooted sep dir).length + (rooted sep segs).length := by
  induction segs generalizing dir with
  | nil => exact Nat.le_refl _
  | cons s segs ih =>
    have rest := ih (visit here up dir s)
    have grows : (rooted sep (s :: segs)).length = 1 + s.length + (rooted sep segs).length := by
      rw [rooted_cons, List.length_cons, List.length_append]
      omega
    change (rooted sep (walk here up (visit here up dir s) segs)).length ≤ _
    by_cases plain : Plain here up s
    · rw [visit_plain here up plain] at rest ⊢
      rw [rooted_append, List.length_append] at rest
      simp only [rooted_cons, rooted_nil, List.append_nil, List.length_cons] at rest
      omega
    · have shorter := length_visit_le here up sep dir plain
      omega

theorem walk_eq_of_length {dir segs : List (List α)}
    (kept : (rooted sep dir).length + (rooted sep segs).length ≤ (rooted sep (walk here up dir segs)).length) :
    walk here up dir segs = dir ++ segs := by
  induction segs generalizing dir with
  | nil => exact (List.append_nil dir).symm
  | cons s segs ih =>
    have grows : (rooted sep (s :: segs)).length = 1 + s.length + (rooted sep segs).length := by
      rw [rooted_cons, List.length_cons, List.length_append]
      omega
    have bound := length_walk_le here up sep (visit here up dir s) segs
    change _ ≤ (rooted sep (walk here up (visit here up dir s) segs)).length at kept
    by_cases plain : Plain here up s
    · change walk here up (visit here up dir s) segs = _
      rw [visit_plain here up plain] at kept ⊢
      rw [ih, List.append_assoc]
      · rfl
      · rw [rooted_append, List.length_append]
        simp only [rooted_cons, rooted_nil, List.append_nil, List.length_cons]
        omega
    · have shorter := length_visit_le here up sep dir plain
      omega

end Walking

end Segments
