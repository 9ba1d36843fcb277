import Coast.Base.SystemFile

/-!
# String tokenizers

`StringTokenizer` moves a pointer along a C string, `StringTokenizer2` a position in a string of its own.
They take the same steps but stop at different places.
-/

namespace Coast

open Regex (cstr cstr_of_plain)
open Segments

/-- Some calls of `next`, one after the other: what they deliver and where they leave off. -/
inductive Delivers {α σ : Type} (next : σ → Option (α × σ)) (s : σ) : List α → σ → Prop where
  | none : Delivers next s [] s
  | more {xs : List α} {x : α} {s' s'' : σ} : Delivers next s xs s' → next s' = some (x, s'') → Delivers next s (xs ++ [x]) s''

/-- All calls of `next` until one fails. -/
def Yields {α σ : Type} (next : σ → Option (α × σ)) (s : σ) (xs : List α) : Prop := ∃ s', Delivers next s xs s' ∧ next s' = none

theorem exists_yields {α σ : Type} (next : σ → Option (α × σ)) (s : σ) (variant : σ → Nat)
    (falls : ∀ s x s', next s = some (x, s') → variant s' < variant s) : ∃ xs, Yields next s xs := by
  have later : ∀ bound xs s', variant s' < bound → Delivers next s xs s' → ∃ ys, Yields next s ys := by
    intro bound
    induction bound with
    | zero => exact fun _ _ less => absurd less (Nat.not_lt_zero _)
    | succ bound ih =>
      intro xs s' less run
      rcases step : next s' with _ | ⟨x, s''⟩
      · exact ⟨xs, s', run, step⟩
      · have lower := falls s' x s'' step
        exact ih _ s'' (by omega) (run.more step)
  exact later _ [] s (Nat.lt_succ_self _) .none

/-- `fTokEnd` counts from the start of `fString`, behind which there is a zero. -/
structure StringTokenizer where
  fString : Bytes
  fTokEnd : Nat
  fDelimiter : UInt8

namespace StringTokenizer

def new (s : Bytes) (delimiter : UInt8) : StringTokenizer := ⟨cstr s, 0, delimiter⟩

def nextToken (t : StringTokenizer) : Option (Bytes × StringTokenizer) :=
  if 0 < t.fString.length ∧ t.fTokEnd ≤ t.fString.length then
    let tokStart := t.fString.drop t.fTokEnd
    let length := (tokStart.takeWhile fun c => c != 0 && c != t.fDelimiter).length
    let token := if tokStart.getD length 0 = t.fDelimiter then tokStart.take length else cstr tokStart
    some (token, { t with fTokEnd := t.fTokEnd + length + 1 })
  else none

def getRemainder (t : StringTokenizer) (boIncludeDelim : Bool) : Bytes :=
  if boIncludeDelim then cstr (t.fString.drop (if 0 < t.fTokEnd then t.fTokEnd - 1 else t.fTokEnd))
  else if t.fString.getD t.fTokEnd 0 ≠ 0 ∧ t.fTokEnd ≤ t.fString.length then cstr (t.fString.drop t.fTokEnd)
  else []

end StringTokenizer

structure StringTokenizer2 where
  fString : Bytes
  fDelimiters : Bytes
  fPos : Nat

namespace StringTokenizer2

def new (s delimiters : Bytes) : StringTokenizer2 := ⟨cstr s, cstr delimiters, 0⟩

/-- `HasMoreTokens` from `start` on, with the end of the token. `strchr` finds the zero behind the delimiters as well. -/
def hasMoreTokens (t : StringTokenizer2) (start : Nat) : Bool × Nat :=
  let length := ((t.fString.drop start).takeWhile fun c => !(c == 0 || t.fDelimiters.contains c)).length
  (decide (start < t.fString.length), start + length)

def nextToken (t : StringTokenizer2) : Option (Bytes × StringTokenizer2) :=
  let (more, tokEnd) := t.hasMoreTokens t.fPos
  if more then some ((t.fString.drop t.fPos).take (tokEnd - t.fPos), { t with fPos := tokEnd + 1 }) else none

def getRemainder (t : StringTokenizer2) (boIncludeDelim : Bool) : Bytes :=
  if boIncludeDelim then t.fString.drop (if 0 < t.fPos then t.fPos - 1 else t.fPos)
  else if t.fPos < t.fString.length then t.fString.drop t.fPos
  else []

end StringTokenizer2

/-! ### Cutting a text at a delimiter -/

section Cutting

variable (text : Bytes) (d : UInt8)

def pending (pos : Nat) : List Bytes := if pos ≤ text.length then (text.drop pos).splitOn d else []

/-- The segments of `text` in front of `pos`. -/
structure Cut (tokens : List Bytes) (pos : Nat) : Prop where
  split : tokens ++ pending text d pos = text.splitOn d
  start : pos = 0 ↔ tokens = []
  inside : pos ≤ text.length + 1

variable {text d}

theorem Cut.begin : Cut text d [] 0 := ⟨by simp [pending], by simp, Nat.zero_le _⟩

theorem token_ends (rest : Bytes) (d : UInt8) : rest = (rest.takeWhile fun c => c != d) ∨
    ∃ more, rest = (rest.takeWhile fun c => c != d) ++ d :: more := by
  have parts := List.takeWhile_append_dropWhile (p := fun c => c != d) (l := rest)
  rcases behind : rest.dropWhile fun c => c != d with _ | ⟨c, more⟩
  · rw [behind, List.append_nil] at parts
    exact .inl parts.symm
  · have head := List.head?_dropWhile_not (fun c => c != d) rest
    rw [behind] at head
    have same : c = d := by simpa using head
    rw [behind, same] at parts
    exact .inr ⟨more, parts.symm⟩

theorem splitOn_drop {pos : Nat} (inside : pos ≤ text.length) : (text.drop pos).splitOn d =
    ((text.drop pos).takeWhile fun c => c != d) ::
      pending text d (pos + ((text.drop pos).takeWhile fun c => c != d).length + 1) := by
  have free : d ∉ (text.drop pos).takeWhile fun c => c != d := fun mem => by
    simpa using List.mem_takeWhile_imp mem
  have ends := token_ends (text.drop pos) d
  have total := List.length_drop (i := pos) (l := text)
  generalize (text.drop pos).takeWhile (fun c => c != d) = token at free ends
  obtain whole | ⟨more, parts⟩ := ends
  · rw [whole] at total
    rw [whole, List.splitOn_eq_singleton free, pending, if_neg (by omega)]
  · rw [parts, List.length_append, List.length_cons] at total
    have later : text.drop (pos + token.length + 1) = more := by
      rw [Nat.add_assoc, ← List.drop_drop, parts, List.drop_append, List.drop_eq_nil_of_le (Nat.le_succ _)]
      simp
    rw [pending, if_pos (by omega), later, parts, List.splitOn_append_cons_self_of_not_mem free]

theorem Cut.next {tokens : List Bytes} {pos : Nat} (cut : Cut text d tokens pos) (inside : pos ≤ text.length) :
    Cut text d (tokens ++ [(text.drop pos).takeWhile fun c => c != d])
      (pos + ((text.drop pos).takeWhile fun c => c != d).length + 1) := by
  refine ⟨?_, by simp, ?_⟩
  · have split := cut.split
    rw [pending, if_pos inside, splitOn_drop inside] at split
    rw [← split, List.append_assoc, List.singleton_append]
  · have short := (List.takeWhile_sublist (fun c => c != d) (l := text.drop pos)).length_le
    rw [List.length_drop] at short
    omega

theorem Cut.remainder {tokens : List Bytes} {pos : Nat} (cut : Cut text d tokens pos) :
    [d].intercalate tokens ++ text.drop (pos - 1) = text := by
  by_cases none : tokens = []
  · rw [cut.start.mpr none, none]
    rfl
  · have positive : pos ≠ 0 := fun zero => none (cut.start.mp zero)
    have inside := cut.inside
    have whole := congrArg (rooted d) cut.split
    rw [rooted_append, rooted_splitOn, ← cons_intercalate d none, List.cons_append, List.cons.injEq] at whole
    have parts := whole.2
    have last : ([d].intercalate tokens).length = pos - 1 := by
      have total := congrArg List.length parts
      rw [pending] at total
      split at total
      · rw [rooted_splitOn, List.length_append, List.length_cons, List.length_drop] at total
        omega
      · rw [rooted_nil, List.append_nil] at total
        omega
    have behind := congrArg (List.drop (pos - 1)) parts
    rw [List.drop_left' last] at behind
    rw [← behind, parts]

theorem Cut.all {tokens : List Bytes} {pos : Nat} (cut : Cut text d tokens pos) (behind : text.length < pos) :
    tokens = text.splitOn d := by
  rw [← cut.split, pending, if_neg (by omega), List.append_nil]

theorem Cut.last {tokens : List Bytes} {pos : Nat} (cut : Cut text d tokens pos) (end' : pos = text.length) :
    tokens ++ [[]] = text.splitOn d := by
  rw [← cut.split, pending, if_pos (by omega), end', List.drop_length, List.splitOn_nil]

end Cutting

/-! ### What the tokenizers deliver -/

section Tokens

variable {s : Bytes} (text : (0 : UInt8) ∉ s) (d : UInt8)

theorem takeWhile_agree {p q : UInt8 → Bool} {bytes : Bytes} (agree : ∀ c ∈ bytes, p c = q c) :
    bytes.takeWhile p = bytes.takeWhile q := by
  induction bytes with
  | nil => rfl
  | cons c bytes ih =>
    rw [List.takeWhile_cons, List.takeWhile_cons, agree c List.mem_cons_self,
      ih fun b mem => agree b (List.mem_cons_of_mem c mem)]

include text

theorem nextToken_eq {pos : Nat} : StringTokenizer.nextToken ⟨s, pos, d⟩ =
    if 0 < s.length ∧ pos ≤ s.length then
      some ((s.drop pos).takeWhile (fun c => c != d), ⟨s, pos + ((s.drop pos).takeWhile fun c => c != d).length + 1, d⟩)
    else none := by
  have plain : (0 : UInt8) ∉ s.drop pos := fun mem => text (List.mem_of_mem_drop mem)
  have same : ((s.drop pos).takeWhile fun c => c != 0 && c != d) = (s.drop pos).takeWhile fun c => c != d := by
    refine takeWhile_agree fun c mem => ?_
    have other : c ≠ 0 := fun eq => plain (eq ▸ mem)
    simp [other]
  have token : (if (s.drop pos).getD ((s.drop pos).takeWhile fun c => c != d).length 0 = d
      then (s.drop pos).take ((s.drop pos).takeWhile fun c => c != d).length else cstr (s.drop pos)) =
        (s.drop pos).takeWhile fun c => c != d := by
    split
    · exact (List.prefix_iff_eq_take.mp (List.takeWhile_prefix _)).symm
    · rename_i other
      obtain whole | ⟨more, parts⟩ := token_ends (s.drop pos) d
      · rw [cstr_of_plain plain]
        exact whole
      · refine absurd ?_ other
        generalize (s.drop pos).takeWhile (fun c => c != d) = token at parts
        rw [parts]
        simp
  simp only [StringTokenizer.nextToken, same, token]

theorem nextToken2_eq {pos : Nat} : StringTokenizer2.nextToken ⟨s, cstr [d], pos⟩ =
    if pos < s.length then
      some ((s.drop pos).takeWhile (fun c => c != d), ⟨s, cstr [d], pos + ((s.drop pos).takeWhile fun c => c != d).length + 1⟩)
    else none := by
  have plain : (0 : UInt8) ∉ s.drop pos := fun mem => text (List.mem_of_mem_drop mem)
  have same : ((s.drop pos).takeWhile fun c => !(c == 0 || (cstr [d]).contains c)) = (s.drop pos).takeWhile fun c => c != d := by
    refine takeWhile_agree fun c mem => ?_
    have other : (c == 0) = false := beq_false_of_ne fun eq => plain (eq ▸ mem)
    by_cases zero : d = 0
    · subst zero
      have none : cstr [0] = [] := rfl
      rw [none, List.contains_nil, other, bne, other]
      rfl
    · have set : cstr [d] = [d] := by simp [cstr, zero]
      rw [set, List.contains_cons, List.contains_nil, other, Bool.false_or, Bool.or_false, bne]
  have token := List.prefix_iff_eq_take.mp (List.takeWhile_prefix (fun c => c != d) (l := s.drop pos))
  simp only [StringTokenizer2.nextToken, StringTokenizer2.hasMoreTokens, same, decide_eq_true_eq, Nat.add_sub_cancel_left, ← token]

theorem delivers_cut {tokens : List Bytes} {t : StringTokenizer}
    (run : Delivers StringTokenizer.nextToken (.new s d) tokens t) : ∃ pos, t = ⟨s, pos, d⟩ ∧ Cut s d tokens pos := by
  induction run with
  | none => exact ⟨0, by rw [StringTokenizer.new, cstr_of_plain text], .begin⟩
  | more _ next ih =>
    obtain ⟨pos, rfl, cut⟩ := ih
    rw [nextToken_eq text d] at next
    split at next
    · rename_i inside
      cases next
      exact ⟨_, rfl, cut.next inside.2⟩
    · cases next

theorem delivers2_cut {tokens : List Bytes} {t : StringTokenizer2}
    (run : Delivers StringTokenizer2.nextToken (.new s [d]) tokens t) :
    ∃ pos, t = ⟨s, cstr [d], pos⟩ ∧ Cut s d tokens pos ∧ (s.length < pos → tokens.getLast? ≠ some []) := by
  induction run with
  | none => exact ⟨0, by rw [StringTokenizer2.new, cstr_of_plain text], .begin, fun behind => absurd behind (Nat.not_lt_zero _)⟩
  | more _ next ih =>
    obtain ⟨pos, rfl, cut, -⟩ := ih
    rw [nextToken2_eq text d] at next
    split at next
    · rename_i inside
      cases next
      refine ⟨_, rfl, cut.next inside.le, fun behind last => ?_⟩
      rw [List.getLast?_concat] at last
      rw [Option.some.inj last, List.length_nil] at behind
      omega
    · cases next

theorem getRemainder_eq (pos : Nat) : StringTokenizer.getRemainder ⟨s, pos, d⟩ true = s.drop (pos - 1) := by
  have plain : (0 : UInt8) ∉ s.drop (pos - 1) := fun mem => text (List.mem_of_mem_drop mem)
  have back : (if 0 < pos then pos - 1 else pos) = pos - 1 := by split <;> omega
  rw [StringTokenizer.getRemainder, if_pos rfl, back, cstr_of_plain plain]

omit text in
theorem getRemainder2_eq (pos : Nat) : StringTokenizer2.getRemainder ⟨s, cstr [d], pos⟩ true = s.drop (pos - 1) := by
  have back : (if 0 < pos then pos - 1 else pos) = pos - 1 := by split <;> omega
  rw [StringTokenizer2.getRemainder, if_pos rfl, back]

theorem yields_splitOn (nonempty : s ≠ []) : Yields StringTokenizer.nextToken (.new s d) (s.splitOn d) := by
  obtain ⟨tokens, t, run, ended⟩ := exists_yields StringTokenizer.nextToken (.new s d)
    (fun t => t.fString.length + 1 - t.fTokEnd) (by
      rintro t token t' next
      rw [StringTokenizer.nextToken] at next
      split at next
      · rename_i inside
        cases next
        dsimp only
        omega
      · cases next)
  obtain ⟨pos, rfl, cut⟩ := delivers_cut text d run
  refine ⟨_, ?_, ended⟩
  rw [nextToken_eq text d] at ended
  have some : 0 < s.length := List.length_pos_iff.mpr nonempty
  split at ended
  · cases ended
  · rw [← cut.all (by omega)]
    exact run

theorem yields2_splitOn : Yields StringTokenizer2.nextToken (.new s [d])
    (if (s.splitOn d).getLast? = some [] then (s.splitOn d).dropLast else s.splitOn d) := by
  obtain ⟨tokens, t, run, ended⟩ := exists_yields StringTokenizer2.nextToken (.new s [d])
    (fun t => t.fString.length + 1 - t.fPos) (by
      rintro t token t' next
      simp only [StringTokenizer2.nextToken, StringTokenizer2.hasMoreTokens, decide_eq_true_eq] at next
      split at next
      · rename_i inside
        cases next
        dsimp only
        omega
      · cases next)
  obtain ⟨pos, rfl, cut, last⟩ := delivers2_cut text d run
  refine ⟨_, ?_, ended⟩
  rw [nextToken2_eq text d] at ended
  split at ended
  · cases ended
  · rename_i behind
    by_cases exact' : pos = s.length
    · rw [← cut.last exact', List.getLast?_concat, if_pos rfl, List.dropLast_concat]
      exact run
    · have beyond : s.length < pos := by omega
      rw [← cut.all beyond, if_neg (last beyond)]
      exact run

/-- The tokens make up the string, all of them or some with the remainder; the second class leaves out a
last empty token. -/
theorem tokens_join (nonempty : s ≠ []) : ∃ tokens, Yields StringTokenizer.nextToken (.new s d) tokens ∧
    [d].intercalate tokens = s ∧
    Yields StringTokenizer2.nextToken (.new s [d]) (if tokens.getLast? = some [] then tokens.dropLast else tokens) ∧
    (∀ delivered t, Delivers StringTokenizer.nextToken (.new s d) delivered t →
      [d].intercalate delivered ++ t.getRemainder true = s) ∧
    ∀ delivered t, Delivers StringTokenizer2.nextToken (.new s [d]) delivered t →
      [d].intercalate delivered ++ t.getRemainder true = s := by
  refine ⟨s.splitOn d, yields_splitOn text d nonempty, List.intercalate_splitOn d, yields2_splitOn text d, ?_, ?_⟩
  · intro delivered t run
    obtain ⟨pos, rfl, cut⟩ := delivers_cut text d run
    rw [getRemainder_eq text, cut.remainder]
  · intro delivered t run
    obtain ⟨pos, rfl, cut, -⟩ := delivers2_cut text d run
    rw [getRemainder2_eq, cut.remainder]

end Tokens

theorem tokens_join_slash : ∃ tokens, Yields StringTokenizer.nextToken (.new (ascii "/a//b/") '/'.toUInt8) tokens ∧
    ['/'.toUInt8].intercalate tokens = ascii "/a//b/" ∧
    Yields StringTokenizer2.nextToken (.new (ascii "/a//b/") ['/'.toUInt8])
      (if tokens.getLast? = some [] then tokens.dropLast else tokens) ∧
    (∀ delivered t, Delivers StringTokenizer.nextToken (.new (ascii "/a//b/") '/'.toUInt8) delivered t →
      ['/'.toUInt8].intercalate delivered ++ t.getRemainder true = ascii "/a//b/") ∧
    ∀ delivered t, Delivers StringTokenizer2.nextToken (.new (ascii "/a//b/") ['/'.toUInt8]) delivered t →
      ['/'.toUInt8].intercalate delivered ++ t.getRemainder true = ascii "/a//b/" :=
  tokens_join (by decide) '/'.toUInt8 (by decide)

end Coast
