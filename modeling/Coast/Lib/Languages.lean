import Mathlib.Computability.Language
import Mathlib.Logic.Relation

/-!
# Languages and the parts of a text

Where the words of a language stand in a text, said as a relation between positions. A language of
concatenated words is the composition of the relations, and repetition is composition with itself.
-/

namespace Languages

open Computability Relation

variable {α β : Type}

/-! ### Repetition -/

/-- The words that consist of `least` to `most` words of the language; without `most` there is no bound. -/
def powers (L : Language α) (least : Nat) (most : Option Nat) : Language α :=
  {w | ∃ n, least ≤ n ∧ (∀ k ∈ most, n ≤ k) ∧ w ∈ L ^ n}

section Repeated

variable {L : Language α} {least : Nat} {most : Option Nat} {w : List α}

theorem mem_powers : w ∈ powers L least most ↔ ∃ n, least ≤ n ∧ (∀ k ∈ most, n ≤ k) ∧ w ∈ L ^ n := Iff.rfl

theorem mem_kstar_iff : w ∈ L∗ ↔ ∃ n : Nat, w ∈ L ^ n := by
  rw [Language.kstar_eq_iSup_pow, Language.mem_iSup]

theorem mem_one_add_pow {n : Nat} : w ∈ (1 + L) ^ n ↔ ∃ k ≤ n, w ∈ L ^ k := by
  induction n generalizing w with
  | zero => simp
  | succ n ih =>
    rw [pow_succ', add_mul, one_mul, Language.mem_add, ih, Language.mem_mul]
    constructor
    · rintro (⟨k, le, mem⟩ | ⟨a, first, b, later, rfl⟩)
      · exact ⟨k, by omega, mem⟩
      · obtain ⟨k, le, mem⟩ := ih.mp later
        refine ⟨k + 1, by omega, ?_⟩
        rw [pow_succ']
        exact Language.append_mem_mul first mem
    · rintro ⟨k, le, mem⟩
      cases k with
      | zero => exact .inl ⟨0, Nat.zero_le _, mem⟩
      | succ k =>
        rw [pow_succ', Language.mem_mul] at mem
        obtain ⟨a, first, b, later, rfl⟩ := mem
        exact .inr ⟨a, first, b, ih.mpr ⟨k, by omega, later⟩, rfl⟩

theorem mem_pow_mul {M : Language α} {n : Nat} {P : Nat → Prop} (parts : ∀ v, v ∈ M ↔ ∃ k, P k ∧ v ∈ L ^ k) :
    w ∈ L ^ n * M ↔ ∃ k, P k ∧ w ∈ L ^ (n + k) := by
  simp only [Language.mem_mul, parts, pow_add]
  constructor
  · rintro ⟨a, first, b, ⟨k, holds, later⟩, rfl⟩
    exact ⟨k, holds, a, first, b, later, rfl⟩
  · rintro ⟨k, holds, a, first, b, later, rfl⟩
    exact ⟨a, first, b, ⟨k, holds, later⟩, rfl⟩

theorem powers_unbounded (L : Language α) (least : Nat) : powers L least none = L ^ least * L∗ := by
  ext w
  rw [mem_powers, mem_pow_mul (P := fun _ => True) fun v => by simp [mem_kstar_iff]]
  constructor
  · rintro ⟨n, le, -, mem⟩
    exact ⟨n - least, trivial, by rwa [Nat.add_sub_cancel' le]⟩
  · rintro ⟨k, -, mem⟩
    exact ⟨least + k, by omega, by simp, mem⟩

theorem powers_bounded (L : Language α) (least more : Nat) :
    powers L least (some (least + more)) = L ^ least * (1 + L) ^ more := by
  ext w
  rw [mem_powers, mem_pow_mul (P := (· ≤ more)) fun v => mem_one_add_pow]
  constructor
  · rintro ⟨n, le, bound, mem⟩
    have := bound _ rfl
    exact ⟨n - least, by omega, by rwa [Nat.add_sub_cancel' le]⟩
  · rintro ⟨k, le, mem⟩
    exact ⟨least + k, by omega, by simpa using le, mem⟩

theorem powers_exactly (L : Language α) (n : Nat) : powers L n (some n) = L ^ n := by
  simpa using powers_bounded L n 0

theorem nil_mem_mul {M : Language α} : [] ∈ L * M ↔ [] ∈ L ∧ [] ∈ M := by
  simp [Language.mem_mul]

theorem nil_mem_pow {n : Nat} (full : [] ∉ L) : [] ∈ L ^ n ↔ n = 0 := by
  cases n with
  | zero => simp
  | succ n =>
    rw [pow_succ', nil_mem_mul]
    exact iff_of_false (fun both => full both.1) (Nat.succ_ne_zero n)

theorem nil_mem_powers (full : [] ∉ L) : [] ∈ powers L least most ↔ least = 0 := by
  simp only [mem_powers, nil_mem_pow full]
  constructor
  · rintro ⟨n, le, -, rfl⟩
    exact Nat.le_zero.mp le
  · rintro rfl
    exact ⟨0, Nat.le_refl 0, by simp, rfl⟩

end Repeated

/-! ### Words that look alike -/

/-- The texts that are the same as `text` to the function. -/
def alike (f : α → β) (text : List α) : Language α := {w | w.map f = text.map f}

theorem mem_alike {f : α → β} {text w : List α} : w ∈ alike f text ↔ w.map f = text.map f := Iff.rfl

theorem alike_append (f : α → β) (text more : List α) : alike f (text ++ more) = alike f text * alike f more := by
  ext w
  rw [Language.mem_mul, mem_alike, List.map_append, List.map_eq_append_iff]
  constructor
  · rintro ⟨a, b, rfl, first, later⟩
    exact ⟨a, first, b, later, rfl⟩
  · rintro ⟨a, first, b, later, rfl⟩
    exact ⟨a, b, rfl, first, later⟩

theorem nil_mem_alike {f : α → β} {text : List α} : [] ∈ alike f text ↔ text = [] := by
  simp [mem_alike, eq_comm]

/-! ### Places in a text -/

def Spans (s : List α) (L : Language α) (i j : Nat) : Prop := i ≤ j ∧ j ≤ s.length ∧ (s.drop i).take (j - i) ∈ L

section Spans

variable {s : List α} {L M : Language α} {i j k : Nat}

theorem Spans.le (spans : Spans s L i j) : i ≤ j := spans.1

theorem Spans.inside (spans : Spans s L i j) : j ≤ s.length := spans.2.1

theorem Spans.word (spans : Spans s L i j) : (s.drop i).take (j - i) ∈ L := spans.2.2

theorem Spans.lt (full : [] ∉ L) (spans : Spans s L i j) : i < j := by
  refine Nat.lt_of_le_of_ne spans.le ?_
  rintro rfl
  have word := spans.word
  rw [Nat.sub_self, List.take_zero] at word
  exact full word

theorem spans_iff_starts : Spans s L i j ↔ ∃ w ∈ L, w <+: s.drop i ∧ j = i + w.length ∧ j ≤ s.length := by
  constructor
  · rintro ⟨le, inside, word⟩
    refine ⟨_, word, List.take_prefix _ _, ?_, inside⟩
    rw [List.length_take, List.length_drop]
    omega
  · rintro ⟨w, word, begins, rfl, inside⟩
    refine ⟨Nat.le_add_right _ _, inside, ?_⟩
    rwa [Nat.add_sub_cancel_left, ← List.prefix_iff_eq_take.mp begins]

theorem spans_one (inside : i ≤ s.length) : Spans s 1 i j ↔ j = i := by
  rw [spans_iff_starts]
  simp only [Language.mem_one, exists_eq_left, List.nil_prefix, List.length_nil, Nat.add_zero, true_and, and_iff_left_iff_imp]
  rintro rfl
  exact inside

theorem spans_add : Spans s (L + M) i j ↔ Spans s L i j ∨ Spans s M i j := by
  simp only [Spans, Language.mem_add, and_or_left]

theorem spans_mul : Spans s (L * M) i k ↔ ∃ j, Spans s L i j ∧ Spans s M j k := by
  constructor
  · intro spans
    obtain ⟨w, word, begins, rfl, inside⟩ := spans_iff_starts.mp spans
    obtain ⟨a, first, b, later, rfl⟩ := Language.mem_mul.mp word
    obtain ⟨rest, is⟩ := begins
    rw [List.length_append] at inside
    have behind : s.drop (i + a.length) = b ++ rest := by
      rw [← List.drop_drop, ← is, List.append_assoc, List.drop_left]
    refine ⟨i + a.length, spans_iff_starts.mpr ⟨a, first, ?_, rfl, by omega⟩, spans_iff_starts.mpr ⟨b, later, ?_, ?_, ?_⟩⟩
    · rw [← is, List.append_assoc]
      exact List.prefix_append _ _
    · rw [behind]
      exact List.prefix_append _ _
    · rw [List.length_append, Nat.add_assoc]
    · rw [List.length_append]
      exact inside
  · rintro ⟨j, first, later⟩
    have le := first.le
    refine ⟨Nat.le_trans le later.le, later.inside, ?_⟩
    have parts : k - i = (j - i) + (k - j) := by
      have := later.le
      omega
    rw [parts, List.take_add, List.drop_drop, Nat.add_sub_cancel' le]
    exact Language.append_mem_mul first.word later.word

theorem spans_kstar (inside : i ≤ s.length) : Spans s L∗ i k ↔ k = i ∨ ∃ j, Spans s L i j ∧ Spans s L∗ j k := by
  rw [← Language.one_add_self_mul_kstar_eq_kstar, spans_add, spans_one inside, spans_mul,
    Language.one_add_self_mul_kstar_eq_kstar]

/-! What is left of a text is looked at behind a word: -/

section Behind

variable {R : Nat → Prop}

theorem exists_spans_one (inside : i ≤ s.length) : (∃ j, Spans s 1 i j ∧ R j) ↔ R i := by
  simp only [spans_one inside, exists_eq_left]

theorem exists_spans_add : (∃ j, Spans s (L + M) i j ∧ R j) ↔ (∃ j, Spans s L i j ∧ R j) ∨ ∃ j, Spans s M i j ∧ R j := by
  simp only [spans_add, or_and_right, exists_or]

theorem exists_spans_mul : (∃ k, Spans s (L * M) i k ∧ R k) ↔ ∃ j, Spans s L i j ∧ ∃ k, Spans s M j k ∧ R k := by
  simp only [spans_mul]
  constructor
  · rintro ⟨k, ⟨j, first, later⟩, holds⟩
    exact ⟨j, first, k, later, holds⟩
  · rintro ⟨j, first, k, later, holds⟩
    exact ⟨k, ⟨j, first, later⟩, holds⟩

theorem exists_spans_kstar (inside : i ≤ s.length) :
    (∃ k, Spans s L∗ i k ∧ R k) ↔ R i ∨ ∃ j, Spans s L i j ∧ ∃ k, Spans s L∗ j k ∧ R k := by
  rw [← exists_spans_mul, ← exists_spans_one (R := R) inside, ← exists_spans_add, Language.one_add_self_mul_kstar_eq_kstar]

end Behind

theorem spans_alike {f : α → β} {text : List α} :
    Spans s (alike f text) i j ↔ j = i + text.length ∧ j ≤ s.length ∧ ((s.drop i).take text.length).map f = text.map f := by
  constructor
  · rintro ⟨le, inside, word⟩
    have lengths := congrArg List.length (mem_alike.mp word)
    rw [List.length_map, List.length_map, List.length_take, List.length_drop] at lengths
    obtain rfl : j = i + text.length := by omega
    rw [Nat.add_sub_cancel_left] at word
    exact ⟨rfl, inside, word⟩
  · rintro ⟨rfl, inside, same⟩
    refine ⟨Nat.le_add_right _ _, inside, ?_⟩
    rwa [Nat.add_sub_cancel_left]

end Spans

end Languages
