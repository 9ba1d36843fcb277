import Coast.Base.StringEdits
import Coast.Lib.Loops
import Mathlib.Data.List.DropRight

/-!
# Trimming a run of characters

`TrimChars` looks at the string through the `operator[]` that never fails: behind the string stands a
zero, in front of it its first character once more.
-/

namespace Coast.Http

open ITOString

/-- `str[at]` on a string that is not constant. -/
def index (str : Str) (at' : Int) : Str × UInt8 :=
  (prepareIndex str (max at' 0), content (prepareIndex str (max at' 0)) 0 (max at' 0))

/-- A turn of either loop of `TrimChars`; nothing bounds the position. -/
def trimTurn (front : Bool) (c : UInt8) (s : Str × Int) : (Str × Int) ⊕ (Str × Int) :=
  let (str, found) := index s.1 s.2
  if c = found then .inr (str, if front then s.2 + 1 else s.2 - 1) else .inl (str, s.2)

def trimChars (str : Str) (front : Bool) (c : UInt8) : Part Str :=
  if front then
    (Loops.loop (trimTurn true c) (str, 0)).map fun (str, at') => if at' ≠ 0 then trimFront str at' else str
  else
    (Loops.loop (trimTurn false c) (str, length str - 1)).map fun (str, at') =>
      if at' ≠ length str - 1 then trim str (at' + 1) else str

/-- The string without the run of `c` that it begins or ends with. -/
def trimmed (bytes : Bytes) (front : Bool) (c : UInt8) : Bytes :=
  if front then bytes.dropWhile (· == c) else bytes.rdropWhile (· == c)

section Indexing

variable {s : Str} (sound : Sound s) (has : s.isSome = true) {c : UInt8}

include sound has

theorem index_within {at' : Int} (within : at' ≤ length s) : index s at' = (s, content s 0 (max at' 0)) := by
  have low := sound.length_nonneg
  have same : prepareIndex s (max at' 0) = s := by
    cases s with
    | none => cases has
    | some b =>
      obtain ⟨first, room, -, -⟩ := sound b rfl
      have cap : capacity (some b) ≠ 0 := by show b.fCapacity ≠ 0; omega
      rw [prepareIndex, if_neg cap, if_neg (by omega)]
  rw [index, same]

theorem content_end : content s 0 (length s) = 0 := by
  cases s with
  | none => cases has
  | some b =>
    rw [content_some]
    exact (sound b rfl).2.2.1

theorem trimTurn_goes_on {front : Bool} {at' : Int} (within : at' ≤ length s) (same : content s 0 (max at' 0) = c) :
    trimTurn front c (s, at') = .inr (s, if front then at' + 1 else at' - 1) := by
  simp only [trimTurn, index_within sound has within, same, if_true]

theorem trimTurn_ends {front : Bool} {at' : Int} (within : at' ≤ length s) (other : content s 0 (max at' 0) ≠ c) :
    trimTurn front c (s, at') = .inl (s, at') := by
  simp only [trimTurn, index_within sound has within, if_neg (Ne.symm other)]

theorem front_ends (nonzero : c ≠ 0) {rest : Bytes} {k : Nat} (inside : (k : Int) ≤ length s) (shape : (text s).drop k = rest) :
    (s, ((k + (rest.takeWhile (· == c)).length : Nat) : Int)) ∈ Loops.loop (trimTurn true c) (s, (k : Int)) := by
  have forward : max (k : Int) 0 = k := Int.max_eq_left (Int.natCast_nonneg k)
  induction rest generalizing k with
  | nil =>
    have last : (k : Int) = length s := by
      have total := congrArg List.length shape
      rw [List.length_drop, length_text, List.length_nil] at total
      omega
    refine Loops.mem_loop_of_ends (trimTurn_ends sound has inside ?_)
    rw [forward, last, content_end sound has]
    exact nonzero.symm
  | cons x rest ih =>
    have here : (text s)[k]? = some x := by
      rw [← Nat.add_zero k, ← List.getElem?_drop, shape]
      rfl
    have within : (k : Int) < length s := by
      obtain ⟨short, -⟩ := List.getElem?_eq_some_iff.mp here
      rw [length_text] at short
      omega
    rw [getElem?_text within, Option.some.injEq] at here
    by_cases same : x = c
    · have next : (text s).drop (k + 1) = rest := by
        rw [← List.drop_drop, shape]
        rfl
      have later := ih (by omega) next (Int.max_eq_left (Int.natCast_nonneg _))
      rw [Loops.loop_goes_on (trimTurn_goes_on sound has inside (by rw [forward, here, same]))]
      rw [List.takeWhile_cons_of_pos (by simpa using same), List.length_cons]
      rw [if_pos rfl]
      have count : k + ((rest.takeWhile (· == c)).length + 1) = k + 1 + (rest.takeWhile (· == c)).length := by omega
      rw [count]
      exact later
    · rw [List.takeWhile_cons_of_neg (by simpa using same)]
      refine Loops.mem_loop_of_ends (trimTurn_ends sound has inside ?_)
      rw [forward, here]
      exact same

theorem back_ends {k : Nat} (inside : (k : Int) ≤ length s) (other : ∃ b ∈ (text s).take k, b ≠ c) :
    (s, ((((text s).take k).rdropWhile (· == c)).length : Int) - 1) ∈ Loops.loop (trimTurn false c) (s, (k : Int) - 1) := by
  induction k with
  | zero =>
    obtain ⟨b, mem, -⟩ := other
    cases mem
  | succ k ih =>
    have within : (k : Int) < length s := by omega
    have whole : (text s).take (k + 1) = (text s).take k ++ [content s 0 k] := by
      rw [List.take_add_one, getElem?_text within]
      rfl
    have here : max (((k + 1 : Nat) : Int) - 1) 0 = k := by omega
    rw [whole] at other ⊢
    by_cases same : content s 0 k = c
    · rw [List.rdropWhile_concat_pos _ _ _ (by simpa using same),
        Loops.loop_goes_on (trimTurn_goes_on sound has (by omega) (by rw [here]; exact same))]
      have next := ih (by omega) (by
        obtain ⟨b, mem, differs⟩ := other
        obtain mem | mem := List.mem_append.mp mem
        · exact ⟨b, mem, differs⟩
        · exact absurd ((List.mem_singleton.mp mem).trans same) differs)
      have step : ((k + 1 : Nat) : Int) - 1 - 1 = k - 1 := by omega
      rw [if_neg Bool.false_ne_true, step]
      exact next
    · have short : ((((text s).take k ++ [content s 0 k]).length : Nat) : Int) = (k + 1 : Nat) := by
        rw [← whole, List.length_take, length_text]
        omega
      rw [List.rdropWhile_concat_neg _ _ _ (by simpa using same), short]
      exact Loops.mem_loop_of_ends (trimTurn_ends sound has (by omega) (by rw [here]; exact same))

theorem back_never_ends (nonempty : 0 < length s) (all : ∀ b ∈ text s, b = c) (r : Str × Int) :
    r ∉ Loops.loop (trimTurn false c) (s, length s - 1) := by
  refine Loops.not_mem_loop (fun st => st.1 = s ∧ st.2 < length s) ?_ ⟨rfl, by omega⟩ r
  rintro ⟨str, at'⟩ ⟨rfl, within⟩
  have within : at' < length str := within
  obtain ⟨i, place⟩ : ∃ i : Nat, max at' 0 = i := ⟨(max at' 0).toNat, by omega⟩
  have same : content str 0 (max at' 0) = c := by
    rw [place]
    exact all _ (List.mem_of_getElem? (getElem?_text (by omega)))
  exact ⟨_, trimTurn_goes_on sound has (by omega) same, rfl, by show at' - 1 < length str; omega⟩

theorem trimChars_front (nonzero : c ≠ 0) : ∃ r ∈ trimChars s true c, text r = trimmed (text s) true c := by
  have low := sound.length_nonneg
  have ends := front_ends sound has nonzero (k := 0) low List.drop_zero
  rw [Nat.zero_add] at ends
  refine ⟨_, Part.mem_map _ ends, ?_⟩
  have parts := List.takeWhile_append_dropWhile (p := (· == c)) (l := text s)
  have short := (List.takeWhile_sublist (· == c) (l := text s)).length_le
  rw [length_text] at short
  have whole : (text s).drop ((text s).takeWhile (· == c)).length = trimmed (text s) true c :=
    (congrArg _ parts.symm).trans List.drop_left
  dsimp only
  split
  · rw [text_trimFront sound (by omega) (by omega), Int.toNat_natCast, whole]
  · rename_i none
    rw [← whole, show ((text s).takeWhile (· == c)).length = 0 by omega, List.drop_zero]

theorem trimChars_back (other : ∃ b ∈ text s, b ≠ c) : ∃ r ∈ trimChars s false c, text r = trimmed (text s) false c := by
  have low := sound.length_nonneg
  have all : (text s).take (length s).toNat = text s := List.take_of_length_le (by rw [length_text])
  have ends := back_ends sound has (k := (length s).toNat) (by omega) (by rwa [all])
  rw [all, Int.toNat_of_nonneg low] at ends
  refine ⟨_, Part.mem_map _ ends, ?_⟩
  obtain ⟨behind, parts⟩ := List.rdropWhile_prefix (· == c) (text s)
  have size := congrArg List.length parts
  rw [List.length_append, length_text] at size
  dsimp only
  split
  · rw [Int.sub_add_cancel, text_trim sound (by omega) (by omega), Int.toNat_natCast]
    exact (congrArg _ parts.symm).trans List.take_left
  · rename_i none
    have whole : behind = [] := List.eq_nil_of_length_eq_zero (by omega)
    rw [whole, List.append_nil] at parts
    exact parts.symm

end Indexing

theorem trimTurn_none (front : Bool) {c : UInt8} (nonzero : c ≠ 0) {at' : Int} (start : at' ≤ 0) :
    trimTurn front c (none, at') = .inl (some (alloc 0), at') := by
  have clamped : max at' 0 = 0 := Int.max_eq_right start
  have found : index none at' = (some (alloc 0), 0) := by
    rw [index, clamped]
    rfl
  simp only [trimTurn, found, if_neg nonzero]

theorem trimChars_none (front : Bool) {c : UInt8} (nonzero : c ≠ 0) :
    ∃ r ∈ trimChars none front c, text r = trimmed (text none) front c := by
  refine ⟨some (alloc 0), ?_, by cases front <;> rfl⟩
  have behind : length none - 1 ≤ 0 := by decide
  cases front with
  | true => exact Part.mem_map _ (Loops.mem_loop_of_ends (trimTurn_none true nonzero (Int.le_refl 0)))
  | false => exact Part.mem_map _ (Loops.mem_loop_of_ends (trimTurn_none false nonzero behind))

/-- `TrimChars` ends with the run removed, except backward on characters that are all `c`: there it never ends. -/
theorem trimChars_iff {str : Str} (sound : Sound str) {c : UInt8} (nonzero : c ≠ 0) (front : Bool) :
    (∃ r ∈ trimChars str front c, text r = trimmed (text str) front c) ↔
      front = true ∨ text str = [] ∨ ∃ b ∈ text str, b ≠ c := by
  cases str with
  | none => exact iff_of_true (trimChars_none front nonzero) (.inr (.inl rfl))
  | some b =>
    cases front with
    | true => exact iff_of_true (trimChars_front sound rfl nonzero) (.inl rfl)
    | false =>
      by_cases empty : text (some b) = []
      · refine iff_of_true ?_ (.inr (.inl empty))
        have none' : length (some b) = 0 := by
          have size := length_text (some b)
          rw [empty, List.length_nil] at size
          have low := sound.length_nonneg
          omega
        have last := content_end sound rfl
        rw [none'] at last
        have ends : trimTurn false c (some b, length (some b) - 1) = .inl (some b, length (some b) - 1) := by
          refine trimTurn_ends sound rfl (by omega) ?_
          rw [Int.max_eq_right (by omega), last]
          exact nonzero.symm
        refine ⟨_, Part.mem_map _ (Loops.mem_loop_of_ends ends), ?_⟩
        dsimp only
        rw [if_neg (not_not.mpr rfl), empty]
        rfl
      by_cases other : ∃ b' ∈ text (some b), b' ≠ c
      · exact iff_of_true (trimChars_back sound rfl other) (.inr (.inr other))
      · have all : ∀ b' ∈ text (some b), b' = c := fun b' mem => not_not.mp fun differs => other ⟨b', mem, differs⟩
        have nonempty : 0 < length (some b) := by
          have size := length_text (some b)
          have some' := List.length_pos_iff.mpr empty
          omega
        refine iff_of_false ?_ (by simp [empty, other])
        rintro ⟨r, ends, -⟩
        obtain ⟨st, ends, -⟩ := (Part.mem_map_iff _).mp ends
        exact back_never_ends sound rfl nonempty all st ends

theorem trimChars_iff_blanks : (∃ r ∈ trimChars (construct (.ofChars (some (.ofText [32, 97, 32])) (-1))) false 32,
    text r = trimmed (text (construct (.ofChars (some (.ofText [32, 97, 32])) (-1)))) false 32) ↔
      false = true ∨ text (construct (.ofChars (some (.ofText [32, 97, 32])) (-1))) = [] ∨
        ∃ b ∈ text (construct (.ofChars (some (.ofText [32, 97, 32])) (-1))), b ≠ 32 := by
  refine trimChars_iff ?_ (by decide) false
  exact construct_sound (fun _ has => by cases has) (.inr (by decide))

/-- Two blanks, trimmed from behind. -/
theorem trimChars_all_blank :
    ¬∃ r ∈ trimChars (construct (.ofChars (some (.ofText [32, 32])) (-1))) false 32,
      text r = trimmed (text (construct (.ofChars (some (.ofText [32, 32])) (-1)))) false 32 := by
  rintro ⟨r, ends, -⟩
  obtain ⟨st, ends, -⟩ := (Part.mem_map_iff _).mp ends
  have sound : Sound (construct (.ofChars (some (.ofText [32, 32])) (-1))) :=
    construct_sound (fun _ has => by cases has) (.inr (by decide))
  have blanks : text (construct (.ofChars (some (.ofText [32, 32])) (-1))) = [32, 32] := by decide
  exact back_never_ends sound (by decide) (by decide) (fun b mem => by simpa [blanks] using mem) st ends

end Coast.Http
