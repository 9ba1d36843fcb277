import Coast.Lib.Segments
import Coast.Text.Reference

/-!
# Paths that come back

The delimiter behind a name that ends in a backslash counts as a part of the name. What follows is no
level of its own then, and the path has fewer levels than it was made of.
-/

namespace Coast

namespace Level

variable {ls : List Level} {l : Level}

theorem length_ofPath (erange : Bool) (query : Bytes) :
    (ofPath erange query).1.length = (query.splitBy fun l r => !leftCharNotEscape l r).length := by
  have fold : ∀ (toks : List Bytes) (state : List Level × Bool),
      (toks.foldl (fun state tok => (state.1 ++ [(ofToken state.2 tok).1], (ofToken state.2 tok).2)) state).1.length =
        state.1.length + toks.length := by
    intro toks
    induction toks with
    | nil => simp
    | cons tok toks ih =>
      intro state
      rw [List.foldl_cons, ih, List.length_append, List.length_singleton, List.length_cons]
      omega
  exact (fold _ ([], erange)).trans (Nat.zero_add _)

theorem length_split_concat (named : ∀ l ∈ ls, Named l) (named_l : Named l) (erange : Bool) :
    (ofPath erange (pathText (ls ++ [l]))).1.length ≤ (ofPath erange (pathText ls)).1.length + 1 ∧
      ((∃ m ∈ ls.getLast?, EndsInMask m) →
        (ofPath erange (pathText (ls ++ [l]))).1.length = (ofPath erange (pathText ls)).1.length) := by
  simp only [length_ofPath, pathText_concat]
  have nonempty := tokenText_ne_nil named_l (pathText ls).isEmpty
  by_cases mask : ∃ m ∈ ls.getLast?, EndsInMask m
  · have last := (pathText_last named).mpr mask
    have before : pathText ls ≠ [] := by
      intro none
      rw [none] at last
      cases last
    obtain ⟨init, piece, split', joined⟩ := Segments.splitBy_append_joined (r := fun l r => !leftCharNotEscape l r) before nonempty
      (fun x isLast y _ => by
        obtain rfl := Option.some.inj (last.symm.trans isLast)
        simp [leftCharNotEscape])
      (chain_tokenText l _)
    rw [split', joined, List.length_append, List.length_append]
    exact ⟨Nat.le_succ _, fun _ => rfl⟩
  · refine ⟨?_, fun is => absurd is mask⟩
    by_cases before : pathText ls = []
    · rw [before, List.isEmpty_nil, List.nil_append, splitBy_tokenText named_l]
      exact Nat.le_add_left 1 _
    · rw [List.splitBy_append, splitBy_tokenText named_l, List.length_append, List.length_singleton]
      intro x isLast y isHead
      rw [List.isEmpty_eq_false_iff.mpr before] at isHead
      have other : x ≠ '\\'.toUInt8 := by
        rintro rfl
        exact mask ((pathText_last named).mp isLast)
      simp [leftCharNotEscape, other, tokenText_head l y isHead]

/-- A path has no more levels than it was made of, and fewer where a name escapes the delimiter behind it. -/
theorem length_ofPath_pathText (named : ∀ l ∈ ls, Named l) (erange : Bool) :
    (ofPath erange (pathText ls)).1.length ≤ ls.length ∧
      ((∃ l ∈ ls.dropLast, EndsInMask l) → (ofPath erange (pathText ls)).1.length < ls.length) := by
  induction ls using List.reverseRecOn with
  | nil => exact ⟨Nat.le_refl 0, fun ⟨_, mem, _⟩ => by cases mem⟩
  | append_singleton ls l ih =>
    rw [List.forall_mem_append, List.forall_mem_singleton] at named
    obtain ⟨atMost, fewer⟩ := ih named.1
    obtain ⟨adds, joins⟩ := length_split_concat named.1 named.2 erange
    rw [List.length_append, List.length_singleton, List.dropLast_concat]
    refine ⟨by omega, ?_⟩
    rintro ⟨m, mem, mask⟩
    rcases List.eq_nil_or_concat ls with rfl | ⟨init, last, rfl⟩
    · cases mem
    · rw [List.concat_eq_append, List.mem_append, List.mem_singleton] at mem
      rcases mem with earlier | rfl
      · have less := fewer ⟨m, by simpa using earlier, mask⟩
        omega
      · have same := joins ⟨m, by simp, mask⟩
        omega

/-- The levels come back from their path if and only if no name but the last level's ends in a backslash. -/
theorem ofPath_pathText_iff (named : ∀ l ∈ ls, Named l) (erange : Bool) :
    (ofPath erange (pathText ls)).1 = ls ↔ ∀ l ∈ ls.dropLast, ¬EndsInMask l := by
  constructor
  · intro same l mem mask
    have less := (length_ofPath_pathText named erange).2 ⟨l, mem, mask⟩
    rw [same] at less
    exact Nat.lt_irrefl _ less
  · intro apart
    rw [ofPath_pathText_of_apart named apart]

theorem ofPath_pathText_delimiters :
    (ofPath false (pathText [key [46, 92, 46], index 3, key [92]])).1 = [key [46, 92, 46], index 3, key [92]] :=
  (ofPath_pathText_iff (by simp [Named]) false).mpr (by simp [EndsInMask]; decide)

/-- A name that ends in a backslash, and a name behind it. -/
theorem ofPath_pathText_masked :
    (ofPath false (pathText [key [97, 92], key [98]])).1 = [key [97, 46, 98]] ∧
      (ofPath false (pathText [key [97, 92], key [98]])).1 ≠ [key [97, 92], key [98]] := by decide +kernel

end Level

end Coast
