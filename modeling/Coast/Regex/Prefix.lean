import Coast.Regex.Compiler
import Mathlib.Data.List.GetD

/-!
# More fuel, and the prefix of a program

A run that has returned is not changed by more fuel. The literal that `compile` reads off the first
nodes of a program stands before every match, so a search that skips the positions without it misses
nothing.
-/

namespace Coast.Regex

namespace Matcher

variable (m : Matcher)

/-! ### Fuel -/

def Below {α : Type} (x y : Option α) : Prop := ∀ r, x = some r → y = some r

theorem Below.refl {α : Type} (x : Option α) : Below x x := fun _ h => h

theorem reluctantLoop_mono {rest rest' operand operand' : Nat → Captures → Result}
    (hrest : ∀ idx c, Below (rest idx c) (rest' idx c)) (hoperand : ∀ idx c, Below (operand idx c) (operand' idx c))
    {n n' : Nat} (le : n ≤ n') (idx : Nat) (c : Captures) :
    Below (reluctantLoop rest operand n idx c) (reluctantLoop rest' operand' n' idx c) := by
  induction n generalizing n' idx c with
  | zero => intro r h; cases h
  | succ n ih =>
    obtain ⟨k, rfl⟩ : ∃ k, n' = k + 1 := ⟨n' - 1, by omega⟩
    intro r h
    rw [reluctantLoop] at h ⊢
    cases tried : rest idx c with
    | none => rw [tried] at h; cases h
    | some t =>
      rw [hrest idx c t tried]
      rw [tried] at h
      obtain ⟨_ | e, c'⟩ := t
      · dsimp only at h ⊢
        cases passed : operand idx c' with
        | none => rw [passed] at h; cases h
        | some p =>
          rw [hoperand idx c' p passed]
          rw [passed] at h
          obtain ⟨_ | idx', c''⟩ := p
          · exact h
          · exact ih (by omega) idx' c'' r h
      · exact h

theorem branchLoop_mono {operand operand' : Int → Captures → Result}
    (hoperand : ∀ node c, Below (operand node c) (operand' node c)) {n n' : Nat} (le : n ≤ n') (node : Int)
    (c : Captures) : Below (m.branchLoop operand n node c) (m.branchLoop operand' n' node c) := by
  induction n generalizing n' node c with
  | zero => intro r h; cases h
  | succ n ih =>
    obtain ⟨k, rfl⟩ : ∃ k, n' = k + 1 := ⟨n' - 1, by omega⟩
    intro r h
    rw [branchLoop] at h ⊢
    cases tried : operand (node + 1) c with
    | none => rw [tried] at h; cases h
    | some t =>
      rw [hoperand _ c t tried]
      rw [tried] at h
      obtain ⟨_ | e, c'⟩ := t
      · dsimp only at h ⊢
        split at h
        · rename_i more
          rw [if_pos more]
          exact ih (by omega) _ c' r h
        · rename_i last
          rw [if_neg last]
          exact h
      · exact h

theorem matchNodes_succ (fuel : Nat) (node lastNode : Int) (idx : Nat) (c : Captures) :
    Below (m.matchNodes fuel node lastNode idx c) (m.matchNodes (fuel + 1) node lastNode idx c) := by
  induction fuel generalizing node lastNode idx c with
  | zero => intro r h; cases h
  | succ fuel ih =>
    intro r h
    rw [matchNodes] at h ⊢
    split at h
    · rename_i outside
      rw [if_pos outside]
      exact h
    · rename_i inside
      rw [if_neg inside]
      dsimp only at h ⊢
      have rest := ih (node + short (m.program.nodeAt node).next) m.program.length
      have operand := ih (node + 1) (node + short (m.program.nodeAt node).next)
      cases op : (m.program.nodeAt node).op with
      | opReluctantMaybe =>
        rw [op] at h
        dsimp only at h ⊢
        cases tried : m.matchNodes fuel (node + short (m.program.nodeAt node).next) m.program.length idx c with
        | none => rw [tried] at h; cases h
        | some t =>
          rw [rest idx c t tried]
          rw [tried] at h
          obtain ⟨_ | e, c'⟩ := t
          · dsimp only at h ⊢
            cases passed : m.matchNodes fuel (node + 1) (node + short (m.program.nodeAt node).next) idx c' with
            | none => rw [passed] at h; cases h
            | some p =>
              rw [operand idx c' p passed]
              rw [passed] at h
              obtain ⟨_ | idx', c''⟩ := p
              · exact h
              · exact rest idx' c'' r h
          · exact h
      | opReluctantPlus =>
        rw [op] at h
        dsimp only at h ⊢
        cases passed : m.matchNodes fuel (node + 1) (node + short (m.program.nodeAt node).next) idx c with
        | none => rw [passed] at h; cases h
        | some p =>
          rw [operand idx c p passed]
          rw [passed] at h
          obtain ⟨_ | idx', c''⟩ := p
          · exact h
          · exact reluctantLoop_mono rest operand (Nat.le_succ fuel) idx' c'' r h
      | opReluctantStar =>
        rw [op] at h
        exact reluctantLoop_mono rest operand (Nat.le_succ fuel) idx c r h
      | opOpen k =>
        rw [op] at h
        dsimp only at h ⊢
        cases tried : m.matchNodes fuel (node + short (m.program.nodeAt node).next) m.program.length idx
            (c.pushOpen k idx) with
        | none => rw [tried] at h; cases h
        | some t =>
          rw [rest idx _ t tried]
          rw [tried] at h
          exact h
      | opClose k =>
        rw [op] at h
        dsimp only at h ⊢
        cases tried : m.matchNodes fuel (node + short (m.program.nodeAt node).next) m.program.length idx
            (c.pushClose k idx) with
        | none => rw [tried] at h; cases h
        | some t =>
          rw [rest idx _ t tried]
          rw [tried] at h
          exact h
      | opBranch =>
        rw [op] at h
        dsimp only at h ⊢
        split at h
        · rename_i more
          rw [if_pos more]
          exact m.branchLoop_mono (fun node c => ih node m.program.length idx c) (Nat.le_succ fuel) node c r h
        · rename_i single
          rw [if_neg single]
          exact ih (node + 1) lastNode idx c r h
      | opEnd => rw [op] at h; exact h
      | hole => rw [op] at h; exact h
      | _ =>
        rw [op] at h
        dsimp only at h ⊢
        split at h
        · exact ih (node + short (m.program.nodeAt node).next) lastNode _ c r h
        · exact h

theorem matchNodes_mono {fuel fuel' : Nat} (le : fuel ≤ fuel') (node lastNode : Int) (idx : Nat) (c : Captures) :
    Below (m.matchNodes fuel node lastNode idx c) (m.matchNodes fuel' node lastNode idx c) := by
  induction le with
  | refl => exact Below.refl _
  | step _ ih => exact fun r h => m.matchNodes_succ _ node lastNode idx c r (ih r h)

theorem matchAt_mono {fuel fuel' : Nat} (le : fuel ≤ fuel') (i : Int) : Below (m.matchAt fuel i) (m.matchAt fuel' i) := by
  intro r h
  unfold matchAt at h ⊢
  split at h
  · rename_i outside
    rw [if_pos outside]
    exact h
  · rename_i inside
    rw [if_neg inside]
    cases run : m.matchNodes fuel 0 m.program.length i.toNat (.start i.toNat) with
    | none => rw [run] at h; cases h
    | some t =>
      rw [m.matchNodes_mono le 0 _ _ _ t run]
      rw [run] at h
      exact h

theorem searchFrom_mono (test : Int → Bool) {fuel fuel' : Nat} (le : fuel ≤ fuel') (count : Nat) (i : Int) :
    Below (m.searchFrom test fuel count i) (m.searchFrom test fuel' count i) := by
  induction count generalizing i with
  | zero => exact Below.refl _
  | succ count ih =>
    intro r h
    rw [searchFrom] at h ⊢
    split at h
    · rename_i tested
      rw [if_pos tested]
      cases tried : m.matchAt fuel i with
      | none => rw [tried] at h; cases h
      | some t =>
        rw [m.matchAt_mono le i t tried]
        rw [tried] at h
        cases t with
        | none => exact ih (i + 1) r h
        | some captures => exact h
    · rename_i untested
      rw [if_neg untested]
      exact ih (i + 1) r h

theorem containedIn_mono (fPrefix : Bytes) {fuel fuel' : Nat} (le : fuel ≤ fuel') (i : Int) :
    Below (m.containedIn fPrefix fuel i) (m.containedIn fPrefix fuel' i) := by
  unfold containedIn
  split
  · exact Below.refl _
  · split
    · exact m.searchFrom_mono _ le _ i
    · exact m.searchFrom_mono _ le _ i

theorem searchFrom_place {m : Matcher} {test : Int → Bool} {f count : Nat} {i : Int} {c : Captures}
    (found : m.searchFrom test f count i = some (some c)) :
    ∃ j, i ≤ j ∧ j < i + count ∧ test j = true ∧ m.matchAt f j = some (some c) := by
  induction count generalizing i with
  | zero => cases found
  | succ count ih =>
    rw [searchFrom] at found
    split at found
    · split at found
      · obtain ⟨j, low, high, here⟩ := ih found
        exact ⟨j, by omega, by omega, here⟩
      · exact ⟨i, Int.le_refl i, by omega, ‹_›, found⟩
    · obtain ⟨j, low, high, here⟩ := ih found
      exact ⟨j, by omega, by omega, here⟩

theorem searchFrom_skip {test : Int → Bool} {fuel : Nat} {count' count : Nat} {i : Int} (le : count' ≤ count)
    (skips : ∀ j, i ≤ j → test j = false ∨ i + count' ≤ j → m.matchAt fuel j = some none) :
    m.searchFrom test fuel count' i = m.searchFrom (fun _ => true) fuel count i := by
  induction count generalizing count' i with
  | zero =>
    obtain rfl : count' = 0 := by omega
    rfl
  | succ count ih =>
    rw [searchFrom.eq_def _ _ _ (count + 1)]
    simp only [if_true]
    cases count' with
    | zero =>
      rw [skips i (by omega) (.inr (by omega)), ← ih (Nat.zero_le count) fun j ge _ => skips j (by omega) (.inr (by omega))]
      rfl
    | succ count' =>
      have later : m.searchFrom test fuel count' (i + 1) = m.searchFrom (fun _ => true) fuel count (i + 1) := by
        refine ih (by omega) fun j ge skip => skips j (by omega) ?_
        rcases skip with untested | behind
        · exact .inl untested
        · exact .inr (by omega)
      rw [searchFrom]
      cases tested : test i with
      | true => simp only [if_true, later]
      | false =>
        rw [skips i (by omega) (.inl tested)]
        exact later

/-! ### The prefix -/

theorem strncmpEq_refl_of {n : Nat} {s t : Bytes} (plain : 0 ∉ t.take n) (le : n ≤ t.length)
    (same : strncmpEq n s t = true) : s.take n = t.take n := by
  induction n generalizing s t with
  | zero => rfl
  | succ n ih =>
    obtain ⟨c, t, rfl⟩ : ∃ c t', t = c :: t' := List.exists_cons_of_length_pos (by omega)
    rw [List.take_succ_cons, List.mem_cons, not_or] at plain
    rw [strncmpEq] at same
    cases s with
    | nil =>
      change (if 0 = c then _ else false) = true at same
      rw [if_neg plain.1] at same
      cases same
    | cons d s =>
      change (if d = c then (d == 0 || strncmpEq n s t) else false) = true at same
      by_cases equal : d = c
      · subst equal
        have nonzero : (d == 0) = false := by
          rw [beq_eq_false_iff_ne]
          exact fun zero => plain.1 zero.symm
        rw [if_pos rfl, nonzero, Bool.false_or] at same
        rw [List.take_succ_cons, List.take_succ_cons, ih plain.2 (by simpa using le) same]
      · rw [if_neg equal] at same
        cases same

theorem strncmpEq_of_take {n : Nat} {s t : Bytes} (le : n ≤ t.length) (same : s.take n = t.take n) : strncmpEq n s t = true := by
  induction n generalizing s t with
  | zero => rfl
  | succ n ih =>
    obtain ⟨c, t, rfl⟩ : ∃ c t', t = c :: t' := List.exists_cons_of_length_pos (by omega)
    cases s with
    | nil => cases same
    | cons d s =>
      rw [List.take_succ_cons, List.take_succ_cons, List.cons.injEq] at same
      rw [strncmpEq]
      simp only [List.headD_cons, same.1, if_true, List.tail_cons, ih (by simpa using le) same.2, Bool.or_true]

theorem strncmpEq_of_plain {n : Nat} {s t : Bytes} (plain : 0 ∉ t.take n) (le : n ≤ t.length) :
    strncmpEq n s t = (s.take n == t.take n) := by
  rw [Bool.eq_iff_iff, beq_iff_eq]
  exact ⟨strncmpEq_refl_of plain le, strncmpEq_of_take le⟩

theorem cstr_plain (text : Bytes) : 0 ∉ cstr text := by
  intro member
  have := List.mem_takeWhile_imp member
  simp at this

theorem prefixMatches_of_matchAtom {text : Bytes} {idx e : Nat} (matched : m.matchAtom text idx = some e) :
    m.prefixMatches (cstr text) idx = true ∧ (cstr text).length + idx ≤ m.search.length := by
  unfold matchAtom at matched
  dsimp only at matched
  split at matched
  · cases matched
  · rename_i inside
    refine ⟨?_, by omega⟩
    unfold prefixMatches
    simp only [Int.toNat_natCast]
    split at matched
    · rename_i icase
      rw [if_pos icase]
      split at matched
      · assumption
      · cases matched
    · rename_i exact'
      rw [if_neg exact']
      split at matched
      · rename_i same
        have part := strncmpEq_refl_of (by rw [List.take_length]; exact cstr_plain text) (Nat.le_refl _) same
        rw [List.take_length] at part
        rw [subString, part]
        exact beq_self_eq_true _
      · cases matched

theorem matchAt_of_prefix {text : Bytes} (atom : compiledPrefix m.program = some text) {fuel : Nat} (two : 2 ≤ fuel)
    {i : Int} (nonneg : 0 ≤ i) (fails : m.matchAtom text i.toNat = none) : m.matchAt fuel i = some none := by
  obtain ⟨f, rfl⟩ : ∃ f, fuel = f + 2 := ⟨fuel - 2, by omega⟩
  unfold compiledPrefix at atom
  split at atom
  · rename_i start
    obtain ⟨branch, finish⟩ := start
    have second : (m.program.nodeAt 1).op = .opAtom text := by
      split at atom
      · rename_i t own
        cases atom
        exact own
      · cases atom
    have long : 1 < m.program.length := by
      by_contra short
      rw [Program.nodeAt, List.getD_eq_default _ _ (by simpa using short)] at second
      cases second
    have operand : ∀ g lastNode c, (1 : Int) < lastNode → m.matchNodes (g + 1) 1 lastNode i.toNat c = some (none, c) := by
      intro g lastNode c inside
      rw [matchNodes, if_neg (by omega)]
      simp only [second, matchSimple, fails]
    have first : (m.program.nodeAt 0).op = .opBranch := by
      cases op : (m.program.nodeAt 0).op with
      | opBranch => rfl
      | _ => rw [op] at branch; cases branch
    have run : ∀ c, m.matchNodes (f + 2) 0 m.program.length i.toNat c = some (none, c) := by
      intro c
      rw [matchNodes, if_neg (by omega)]
      simp only [first, Int.zero_add]
      split
      · rw [branchLoop]
        simp only [Int.zero_add, operand f _ c (by omega : (1 : Int) < m.program.length)]
        rw [if_neg]
        rintro ⟨-, more⟩
        cases op : (m.program.nodeAt (m.program.nodeAt 0).next).op with
        | opBranch => rw [op] at finish; cases finish
        | _ => rw [op] at more; cases more
      · exact operand f _ c (by omega)
    rw [matchAt, if_neg (by omega), run]
  · cases atom

theorem containedIn_prefix {c : Compiled} (own : c.literalPrefix = compiledPrefix c.program) (flags : MatchFlags)
    (search : Bytes) {fuel : Nat} (two : 2 ≤ fuel) {i : Int} (nonneg : 0 ≤ i) :
    containedIn ⟨c.program, flags, search⟩ c.fPrefix fuel i = containedIn ⟨c.program, flags, search⟩ [] fuel i := by
  obtain ⟨m, hm⟩ : ∃ m : Matcher, m = ⟨c.program, flags, search⟩ := ⟨_, rfl⟩
  rw [← hm]
  unfold containedIn
  split
  · rfl
  · cases text : c.literalPrefix with
    | none => rw [Compiled.fPrefix, text]; rfl
    | some atom =>
      have fPrefix : c.fPrefix = cstr atom := by rw [Compiled.fPrefix, text]; rfl
      rw [fPrefix]
      split
      · rfl
      · refine m.searchFrom_skip (by omega) ?_
        intro j ge skip
        refine m.matchAt_of_prefix (by rw [hm, ← own, text]) two (by omega) ?_
        cases matched : m.matchAtom atom j.toNat with
        | none => rfl
        | some e =>
          obtain ⟨here, inside⟩ := m.prefixMatches_of_matchAtom matched
          rw [Int.toNat_of_nonneg (by omega)] at here
          rcases skip with untested | behind
          · rw [here] at untested
            cases untested
          · omega

end Matcher

open Matcher

theorem compile_literalPrefix {pattern : Bytes} {fuel : Nat} {c : Compiled} {msg : Bytes}
    (compiled : compile pattern fuel = some (some c, msg)) : c.literalPrefix = compiledPrefix c.program := by
  unfold compile at compiled
  split at compiled
  · rename_i res s run
    cases res with
    | none => cases compiled
    | some result =>
      cases compiled
      obtain ⟨_, _, -, run⟩ := Scan.bind_ok run
      obtain ⟨_, _, -, run⟩ := Scan.bind_ok run
      cases run
      rfl
  · cases compiled

/-- With the prefix and without it a search has the same result and the same registers, if it returns. -/
theorem containedIn_prefix_invisible {pattern : Bytes} {fuel : Nat} {c : Compiled} {msg : Bytes}
    (compiled : compile pattern fuel = some (some c, msg)) (flags : MatchFlags) (search : Bytes) (i : Nat)
    (r : Option Captures) :
    (∃ f, containedIn ⟨c.program, flags, search⟩ c.fPrefix f i = some r) ↔
      ∃ f, containedIn ⟨c.program, flags, search⟩ [] f i = some r := by
  have same := fun f (two : 2 ≤ f) => containedIn_prefix (compile_literalPrefix compiled) flags search two (Int.natCast_nonneg i)
  constructor
  · rintro ⟨f, done⟩
    refine ⟨max f 2, ?_⟩
    rw [← same _ (Nat.le_max_right f 2)]
    exact containedIn_mono _ _ (Nat.le_max_left f 2) i r done
  · rintro ⟨f, done⟩
    refine ⟨max f 2, ?_⟩
    rw [same _ (Nat.le_max_right f 2)]
    exact containedIn_mono _ _ (Nat.le_max_left f 2) i r done

theorem containedIn_prefix_invisible_literal :
    ∃ c, compile (ascii "ab*c") 20 = some (some c, []) ∧ c.fPrefix = ascii "a" ∧
      ∀ (flags : MatchFlags) (search : Bytes) (i : Nat) (r : Option Captures),
        (∃ f, containedIn ⟨c.program, flags, search⟩ c.fPrefix f i = some r) ↔
          ∃ f, containedIn ⟨c.program, flags, search⟩ [] f i = some r := by
  have known : (compile (ascii "ab*c") 20).bind (fun r => r.1.map fun c => (c.fPrefix, r.2)) = some (ascii "a", []) := by
    decide +kernel
  obtain ⟨⟨compiled, msg⟩, returned, literal⟩ := Option.bind_eq_some_iff.mp known
  obtain ⟨c, rfl, same⟩ := Option.map_eq_some_iff.mp literal
  obtain ⟨first, rfl⟩ := Prod.mk.inj same
  exact ⟨c, returned, first, containedIn_prefix_invisible returned⟩

end Coast.Regex
