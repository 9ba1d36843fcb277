import Coast.Regex.Branches

/-!
# The compiler reads on

Every function that returns a piece of the pattern has moved the position forwards, so that the parser
needs no more fuel than twice the length of the pattern. What is left when `compile` does not return are
the two places where the parser is stuck.
-/

namespace Coast.Regex

open Scan

/-- A value is returned only at a position at least `k` behind. -/
def Advances {α : Type} (k : Nat) (x : Scan α) : Prop :=
  ∀ c a d, x c = some (some a, d) → c.patternIdx + k ≤ d.patternIdx

namespace Advances

variable {α β : Type} {j k : Nat} {x y : Scan α} {f : α → Scan β}

theorem pure (a : α) : Advances 0 (pure a : Scan α) := by
  intro c b d done
  cases done
  exact Nat.le_refl _

theorem failure : Advances k (failure : Scan α) := by
  intro c a d done
  cases done

theorem stuck : Advances k (stuck : Scan α) := by
  intro c a d done
  cases done

theorem advance : Advances k (advance k) := by
  intro c a d done
  cases done
  exact Nat.le_refl _

theorem still (keeps : ∀ c a d, x c = some (some a, d) → d.patternIdx = c.patternIdx) : Advances 0 x := by
  intro c a d done
  rw [keeps c a d done]
  exact Nat.le_refl _

theorem mono (moves : Advances k x) (le : j ≤ k) : Advances j x := by
  intro c a d done
  have := moves c a d done
  omega

theorem bind (first : Advances j x) (rest : ∀ a, Advances k (f a)) : Advances (j + k) (x >>= f) := by
  intro c b d done
  obtain ⟨a, e, here, later⟩ := bind_ok done
  have := first c a e here
  have := rest a e b d later
  omega

theorem left (first : Advances k x) (rest : ∀ a, Advances 0 (f a)) : Advances k (x >>= f) := first.bind rest

theorem right (first : Advances 0 x) (rest : ∀ a, Advances k (f a)) : Advances k (x >>= f) :=
  (first.bind rest).mono (by omega)

theorem ite {c : Prop} [Decidable c] (yes : Advances k x) (no : Advances k y) : Advances k (if c then x else y) := by
  split
  · exact yes
  · exact no

theorem current : Advances 0 current := still fun _ _ _ done => by cases done; rfl

theorem peek {pattern : Bytes} : Advances 0 (peek pattern) := still fun _ _ _ done => by cases done; rfl

theorem atEnd {pattern : Bytes} : Advances 0 (atEnd pattern) := still fun _ _ _ done => by cases done; rfl

theorem syntaxError {s : String} : Advances 0 (syntaxError s) := still fun _ _ _ done => by cases done; rfl

theorem error {s : String} : Advances k (Regex.syntaxError s >>= fun _ => (Scan.failure : Scan α)) :=
  syntaxError.right fun _ => failure

end Advances

/-! ### Scanners -/

variable (pattern : Bytes)

theorem readNumber_advances (dflt : Int) : Advances 0 (readNumber pattern dflt) := by
  refine Advances.peek.right fun _ => .ite ?_ ?_
  · exact Advances.current.right fun _ => (Advances.advance.mono (Nat.zero_le _)).right fun _ => .pure _
  · exact Advances.syntaxError.right fun _ => .pure _

theorem bracket_advances : Advances 0 (bracket pattern) := by
  have on : ∀ {α : Type} {n : Nat} {f : Unit → Scan α}, (∀ a, Advances 0 (f a)) → Advances 0 (advance n >>= f) :=
    fun rest => (Advances.advance.mono (Nat.zero_le _)).right rest
  refine on fun _ => (readNumber_advances pattern 1).right fun _ => Advances.peek.right fun _ => .ite (on fun _ => .pure _) ?_
  refine Advances.peek.right fun _ => on fun _ => .ite .error (Advances.peek.right fun _ => .ite (on fun _ => .pure _) ?_)
  refine (readNumber_advances pattern _).right fun _ => .ite .error ?_
  exact Advances.peek.right fun _ => on fun _ => .ite .error (.pure _)

theorem hexDigits_advances (left : Nat) (val : Int) : Advances 0 (hexDigits pattern left val) := by
  induction left generalizing val with
  | zero => exact .pure _
  | succ left ih =>
    refine Advances.atEnd.right fun _ => .ite (.pure _) (Advances.peek.right fun _ => .ite ?_ ?_)
    · exact (Advances.advance.mono (Nat.zero_le 1)).right fun _ => ih _
    · exact Advances.syntaxError.right fun _ => .pure _

theorem octalDigit_advances (val : Int) : Advances 0 (octalDigit pattern val) :=
  Advances.peek.right fun _ => (Advances.advance.mono (Nat.zero_le 1)).right fun _ => .pure _

theorem escape_tests {c : UInt8} (other : isalnum c = false) : ¬(c = 'b'.toUInt8 ∨ c = 'B'.toUInt8) ∧ c ∉ ascii "wWsSdD" ∧
    c ≠ 'x'.toUInt8 ∧ c ≠ 't'.toUInt8 ∧ c ≠ 'n'.toUInt8 ∧ c ≠ 'r'.toUInt8 ∧ c ≠ 'f'.toUInt8 ∧ isodigit c = false ∧
      ¬(c = '8'.toUInt8 ∨ c = '9'.toUInt8) := by
  revert other
  exact forall_byte (by decide) c

theorem escape_other {c : Scanner} (inside : c.patternIdx + 1 < pattern.length)
    (other : isalnum (patternAt pattern (c.patternIdx + 1)) = false) :
    escape pattern c = some (some (.char (charInt (patternAt pattern (c.patternIdx + 1)))),
      { c with patternIdx := c.patternIdx + 2 }) := by
  obtain ⟨boundary, cls, hex, t, n, r, f, octal, digit⟩ := escape_tests other
  rw [escape, current_bind, if_neg (by omega), advance_bind]
  simp only [if_neg boundary, if_neg cls, if_neg hex, if_neg t, if_neg n, if_neg r, if_neg f, octal, if_neg digit]
  rfl

theorem escape_advances {c d : Scanner} {e : Escape} (done : escape pattern c = some (some e, d)) :
    c.patternIdx ≤ d.patternIdx ∧ (c.patternIdx + 1 < pattern.length → c.patternIdx + 2 ≤ d.patternIdx) ∧
      (pattern.length ≤ c.patternIdx + 1 → e = .error) := by
  rw [escape, current_bind] at done
  by_cases short : pattern.length ≤ c.patternIdx + 1
  · rw [if_pos short] at done
    cases done
    exact ⟨Nat.le_refl _, fun long => absurd short (by omega), fun _ => rfl⟩
  · rw [if_neg short] at done
    have on : c.patternIdx + 2 ≤ d.patternIdx := by
      refine Advances.left Advances.advance (fun _ => ?_) c e d done
      refine .ite (.pure _) (.ite (.pure _) (.ite (hexDigits_advances pattern _ _) ?_))
      refine .ite (.pure _) (.ite (.pure _) (.ite (.pure _) (.ite (.pure _) (.ite ?_ ?_))))
      · refine Advances.peek.right fun _ => .ite ?_ (.ite (.pure _) (.pure _))
        refine (octalDigit_advances pattern _).right fun _ => Advances.peek.right fun _ => .ite ?_ (.pure _)
        exact (octalDigit_advances pattern _).right fun _ => .pure _
      · exact .ite (.pure _) (.pure _)
    exact ⟨by omega, fun _ => on, fun within => absurd within short⟩

/-! ### Bracket expressions -/

theorem simpleChar_state {s s' : ClassState} {ch : UInt8} {c d : Scanner}
    (done : simpleChar pattern s ch c = some (some s', d)) : d = c := by
  unfold simpleChar at done
  split at done
  · split at done
    · cases done
    · cases done
      rfl
  · rw [current_bind] at done
    split at done <;> cases done <;> rfl

theorem classEscape_state {s s' : ClassState} {c d : Scanner}
    (done : classEscape pattern s c = some (some s', d)) : d = c := by
  unfold classEscape at done
  split at done
  · cases done
  · rw [current_bind] at done
    split at done
    · cases done
      rfl
    · split at done
      · cases done
        rfl
      · split at done
        · cases done
          rfl
        · cases done

/-- How much of the bracket expression is left; the `-` at the end of the pattern is looked at twice. -/
def classLeft (s : ClassState) (c : Scanner) : Nat := 2 * (pattern.length - c.patternIdx) + if s.definingRange then 0 else 1

theorem classLeft_lt {s s' : ClassState} {c d : Scanner} (inside : c.patternIdx < pattern.length)
    (on : c.patternIdx < d.patternIdx) : classLeft pattern s' d < classLeft pattern s c := by
  unfold classLeft
  split <;> split <;> omega

theorem classStep_advances {idxFirst : Nat} {s s' : ClassState} {c d : Scanner}
    (free : caretBlocks pattern idxFirst s c = some (some false, c))
    (done : classStep pattern idxFirst s c = some (some (some s'), d)) :
    c.patternIdx ≤ d.patternIdx ∧ classLeft pattern s' d < classLeft pattern s c := by
  have read : ∀ {t : ClassState} {ch : UInt8} {c' : Scanner}, c.patternIdx < c'.patternIdx → c.patternIdx < pattern.length →
      (simpleChar pattern t ch >>= fun s => pure (some s)) c' = some (some (some s'), d) →
      c.patternIdx ≤ d.patternIdx ∧ classLeft pattern s' d < classLeft pattern s c := by
    intro t ch c' on inside done
    obtain ⟨_, e, simple, last⟩ := bind_ok done
    have := simpleChar_state pattern simple
    subst this
    cases last
    exact ⟨Nat.le_of_lt on, classLeft_lt pattern inside on⟩
  have next : c.patternIdx < c.patternIdx + 1 := Nat.lt_succ_self _
  rw [classStep, atEnd_bind] at done
  by_cases inside : c.patternIdx < pattern.length
  · rw [decide_eq_false (by omega), if_neg (by simp), current_bind, peek_bind] at done
    by_cases close : patternAt pattern c.patternIdx = ']'.toUInt8
    · rw [if_pos close] at done
      split at done
      · exact read next inside done
      · cases done
    by_cases caret : patternAt pattern c.patternIdx = '^'.toUInt8
    · rw [if_neg close, if_pos caret] at done
      split at done
      · cases done
        exact ⟨Nat.le_of_lt next, classLeft_lt pattern inside next⟩
      · rename_i later
        -- Only the end of an inverted range is left, and that is an error.
        rw [caretBlocks, current_bind, decide_eq_true ⟨inside, caret, later⟩, Bool.true_and] at free
        have range := (Prod.mk.inj (Option.some.inj free)).1
        rw [Option.some.injEq, Bool.not_eq_false', Bool.and_eq_true, decide_eq_true_eq] at range
        obtain ⟨_, _, simple, -⟩ := bind_ok done
        rw [simpleChar, if_pos range.1, caret, if_pos range.2] at simple
        cases simple
    by_cases escaped : patternAt pattern c.patternIdx = '\\'.toUInt8
    · rw [if_neg close, if_neg caret, if_pos escaped] at done
      obtain ⟨e, c', esc, done⟩ := bind_ok done
      obtain ⟨-, long, short⟩ := escape_advances pattern esc
      have on : e ≠ .error → c.patternIdx < c'.patternIdx := by
        intro ok
        have := long (by by_contra less; exact ok (short (by omega)))
        omega
      cases e with
      | char value => exact read (on (by simp)) inside done
      | cls =>
        obtain ⟨_, _, cls, last⟩ := bind_ok done
        have := classEscape_state pattern cls
        subst this
        cases last
        exact ⟨Nat.le_of_lt (on (by simp)), classLeft_lt pattern inside (on (by simp))⟩
      | backref => cases done
      | complex => cases done
      | error => cases done
    by_cases dash : patternAt pattern c.patternIdx = '-'.toUInt8
    · rw [if_neg close, if_neg caret, if_neg escaped, if_pos dash] at done
      split at done
      · exact read next inside done
      · rename_i idle
        split at done
        · rw [advance_bind, peek_bind] at done
          split at done
          · exact read next inside done
          · cases done
            exact ⟨Nat.le_of_lt next, classLeft_lt pattern inside next⟩
        · cases done
          refine ⟨Nat.le_refl _, ?_⟩
          simp only [not_or, Bool.not_eq_true] at idle
          simp [classLeft, idle.1]
    · rw [if_neg close, if_neg caret, if_neg escaped, if_neg dash] at done
      exact read next inside done
  · rw [decide_eq_true (by omega), if_pos rfl] at done
    cases done

theorem caretBlocks_state {idxFirst : Nat} {s : ClassState} {c d : Scanner} {b : Bool}
    (done : caretBlocks pattern idxFirst s c = some (some b, d)) : d = c := by
  cases done
  rfl

theorem parseClassLoop_saturates (idxFirst : Nat) (f : Nat) :
    ∀ (f' : Nat) (s : ClassState) (c : Scanner), classLeft pattern s c < f → classLeft pattern s c < f' →
      parseClassLoop pattern idxFirst f s c = parseClassLoop pattern idxFirst f' s c := by
  induction f with
  | zero => exact fun _ _ _ less => absurd less (Nat.not_lt_zero _)
  | succ f ih =>
    intro f' s c enough enough'
    obtain ⟨f', rfl⟩ : ∃ g, f' = g + 1 := ⟨f' - 1, by omega⟩
    rw [parseClassLoop, parseClassLoop]
    refine bind_congr_run rfl fun b d blocks => ?_
    have := caretBlocks_state pattern blocks
    subst this
    cases b with
    | true => rfl
    | false =>
      refine bind_congr_run rfl fun r e step => ?_
      cases r with
      | none => rfl
      | some s' =>
        have := (classStep_advances pattern blocks step).2
        exact ih f' s' e (by omega) (by omega)

theorem simpleChar_advances (s : ClassState) (ch : UInt8) : Advances 0 (simpleChar pattern s ch) :=
  .still fun _ _ _ done => by rw [simpleChar_state pattern done]

theorem classStep_forward (idxFirst : Nat) (s : ClassState) : Advances 0 (classStep pattern idxFirst s) := by
  have read : ∀ t ch, Advances 0 (simpleChar pattern t ch >>= fun s => (pure (some s) : Scan (Option ClassState))) :=
    fun t ch => (simpleChar_advances pattern t ch).right fun _ => .pure _
  have on : ∀ {α : Type} {f : Unit → Scan α}, (∀ a, Advances 0 (f a)) → Advances 0 (advance 1 >>= f) :=
    fun rest => (Advances.advance.mono (Nat.zero_le _)).right rest
  refine Advances.atEnd.right fun _ => .ite (.pure _) (Advances.current.right fun _ => Advances.peek.right fun _ => ?_)
  refine .ite (.ite (on fun _ => read _ _) (.pure _)) (.ite (.ite (on fun _ => .pure _) (read _ _)) (.ite ?_ (.ite ?_ ?_)))
  · refine Advances.right (fun c e d done => (escape_advances pattern done).1) fun e => ?_
    cases e with
    | char => exact read _ _
    | cls => exact Advances.right (.still fun _ _ _ done => by rw [classEscape_state pattern done]) fun _ => .pure _
    | backref => exact .error
    | complex => exact .error
    | error => exact .error
  · refine .ite (on fun _ => read _ _) (.ite (on fun _ => Advances.peek.right fun _ => .ite (read _ _) (.pure _)) (.pure _))
  · exact on fun _ => read _ _

theorem parseClassLoop_advances (idxFirst f : Nat) (s : ClassState) : Advances 0 (parseClassLoop pattern idxFirst f s) := by
  induction f generalizing s with
  | zero => exact .stuck
  | succ f ih =>
    refine Advances.right (.still fun _ _ _ done => by rw [caretBlocks_state pattern done]) fun _ => .ite .stuck ?_
    refine (classStep_forward pattern idxFirst s).right fun r => ?_
    cases r with
    | none => exact .pure _
    | some s => exact ih s

theorem posixSet_advances : Advances 0 (posixSet pattern) := by
  refine Advances.current.right fun _ => (Advances.advance.mono (Nat.zero_le _)).right fun _ => Advances.current.right fun _ =>
    .ite ?_ .error
  split
  · exact (Advances.advance.mono (Nat.zero_le _)).right fun _ => .pure _
  · exact Advances.syntaxError.right fun _ => .error

theorem classEnd_advances (s : ClassState) : Advances 0 (classEnd pattern s) :=
  Advances.atEnd.right fun _ => .ite .error ((Advances.advance.mono (Nat.zero_le _)).right fun _ => .pure _)

theorem parseClass_advances (fuel : Nat) : Advances 1 (parseClass pattern fuel) := by
  refine Advances.advance.left fun _ => Advances.atEnd.right fun _ => .ite .error (Advances.peek.right fun _ => .ite ?_ ?_)
  · exact (Advances.advance.mono (Nat.zero_le _)).right fun _ => posixSet_advances pattern
  · refine Advances.current.right fun c => ?_
    exact (parseClassLoop_advances pattern c.patternIdx fuel .start).right fun s => classEnd_advances pattern s

theorem parseClass_saturates {f f' : Nat} {c : Scanner} (inside : c.patternIdx < pattern.length)
    (enough : 2 * (pattern.length - c.patternIdx) ≤ f) (enough' : 2 * (pattern.length - c.patternIdx) ≤ f') :
    parseClass pattern f c = parseClass pattern f' c := by
  rw [parseClass, parseClass]
  refine bind_congr_run rfl fun _ d on => ?_
  cases on
  refine bind_congr_run rfl fun b d ended => ?_
  cases ended
  split
  · rfl
  · refine bind_congr_run rfl fun ch d seen => ?_
    cases seen
    split
    · rfl
    · rw [parseClassSet, parseClassSet, current_bind, current_bind]
      refine bind_congr_run (parseClassLoop_saturates pattern _ f f' _ _ ?_ ?_) fun _ _ _ => rfl
      · simp only [classLeft, ClassState.start, Bool.false_eq_true, if_false]
        omega
      · simp only [classLeft, ClassState.start, Bool.false_eq_true, if_false]
        omega

/-! ### Atoms -/

theorem lookAhead_idx {c d : Scanner} {r : Option UInt8} (done : lookAhead pattern c = some (some r, d)) :
    d.patternIdx = c.patternIdx := by
  rw [lookAhead, current_bind] at done
  split at done
  · cases done
    rfl
  · dsimp only at done
    split at done
    · cases done
      rfl
    · obtain ⟨e, c', -, done⟩ := bind_ok done
      split at done
      · cases done
      · cases done
        rfl

theorem atomStep_advances {text : Bytes} {r : Option Bytes} {c d : Scanner}
    (done : atomStep pattern text c = some (some r, d)) :
    r = none ∧ d.patternIdx = c.patternIdx ∨
      ∃ ch, r = some (text ++ [ch]) ∧ c.patternIdx < pattern.length ∧ c.patternIdx < d.patternIdx := by
  rw [atomStep, atEnd_bind] at done
  by_cases inside : c.patternIdx < pattern.length
  · rw [decide_eq_false (by omega), if_neg (by simp)] at done
    obtain ⟨second, e, ahead, done⟩ := bind_ok done
    have same := lookAhead_idx pattern ahead
    by_cases ends : second.any isClosure = true ∧ text ≠ []
    · rw [if_pos ends] at done
      cases done
      exact .inl ⟨rfl, same⟩
    rw [if_neg ends, current_bind, peek_bind] at done
    by_cases special : patternAt pattern e.patternIdx ∈ ascii "^$.[()|"
    · rw [if_pos special] at done
      cases done
      exact .inl ⟨rfl, same⟩
    rw [if_neg special] at done
    by_cases closure : isClosure (patternAt pattern e.patternIdx) = true
    · rw [if_pos closure] at done
      split at done
      · cases done
      · cases done
        exact .inl ⟨rfl, same⟩
    rw [if_neg closure] at done
    by_cases escaped : patternAt pattern e.patternIdx = '\\'.toUInt8
    · rw [if_pos escaped] at done
      obtain ⟨esc, c', run, done⟩ := bind_ok done
      obtain ⟨-, long, short⟩ := escape_advances pattern run
      cases esc with
      | char value =>
        dsimp only at done
        split at done
        · cases done
          exact .inl ⟨rfl, same⟩
        · cases done
          have := long (by by_contra less; exact absurd (short (by omega)) (by simp))
          exact .inr ⟨_, rfl, inside, by omega⟩
      | backref | complex | cls | error =>
        cases done
        exact .inl ⟨rfl, same⟩
    · rw [if_neg escaped, advance_bind] at done
      cases done
      refine .inr ⟨_, rfl, inside, ?_⟩
      show c.patternIdx < e.patternIdx + 1
      omega
  · rw [decide_eq_true (by omega), if_pos rfl] at done
    cases done
    exact .inl ⟨rfl, rfl⟩

theorem atomLoop_advances (f : Nat) (text text' : Bytes) (c d : Scanner)
    (done : atomLoop pattern f text c = some (some text', d)) :
    c.patternIdx ≤ d.patternIdx ∧ (text' ≠ text → c.patternIdx < d.patternIdx) := by
  induction f generalizing text c with
  | zero => cases done
  | succ f ih =>
    obtain ⟨r, e, step, done⟩ := bind_ok done
    rcases atomStep_advances pattern step with ⟨rfl, same⟩ | ⟨ch, rfl, -, on⟩
    · cases done
      exact ⟨Nat.le_of_eq same.symm, fun differ => absurd rfl differ⟩
    · have := (ih _ e done).1
      exact ⟨by omega, fun _ => by omega⟩

theorem atomLoop_saturates (f : Nat) : ∀ (f' : Nat) (text : Bytes) (c : Scanner), pattern.length - c.patternIdx < f →
    pattern.length - c.patternIdx < f' → atomLoop pattern f text c = atomLoop pattern f' text c := by
  induction f with
  | zero => exact fun _ _ _ less => absurd less (Nat.not_lt_zero _)
  | succ f ih =>
    intro f' text c enough enough'
    obtain ⟨f', rfl⟩ : ∃ g, f' = g + 1 := ⟨f' - 1, by omega⟩
    rw [atomLoop, atomLoop]
    refine bind_congr_run rfl fun r d step => ?_
    rcases atomStep_advances pattern step with ⟨rfl, -⟩ | ⟨ch, rfl, inside, on⟩
    · rfl
    · exact ih f' _ d (by omega) (by omega)

theorem atomText_advances (fuel : Nat) : Advances 1 (atomText pattern fuel) := by
  intro c text d done
  obtain ⟨text', e, loop, done⟩ := bind_ok done
  split at done
  · cases done
  · rename_i some
    cases done
    exact (atomLoop_advances pattern fuel [] _ c _ loop).2 some

/-! ### Terminals and closures -/

section Expr

variable {expr expr' : Scan (Terminal × Bool)}

theorem parseTerminal_advances (moves : Advances 1 expr) (fuel : Nat) : Advances 1 (parseTerminal pattern expr fuel) := by
  intro c r d
  rw [parseTerminal, current_bind, peek_bind]
  have fork : ∀ {q : Prop} [Decidable q] {x y : Scan (Terminal × Bool)},
      (x c = some (some r, d) → c.patternIdx + 1 ≤ d.patternIdx) → (y c = some (some r, d) → c.patternIdx + 1 ≤ d.patternIdx) →
        (if q then x else y) c = some (some r, d) → c.patternIdx + 1 ≤ d.patternIdx := by
    intro q _ x y yes no done
    split at done
    · exact yes done
    · exact no done
  have node : ∀ {t : Terminal × Bool}, Advances 1 (advance 1 >>= fun _ => (pure t : Scan (Terminal × Bool))) :=
    Advances.advance.left fun _ => .pure _
  have text : Advances 1 (atomText pattern fuel >>= fun text => (pure (.simple (.opAtom text), false) : Scan (Terminal × Bool))) :=
    (atomText_advances pattern fuel).left fun _ => .pure _
  refine fork (node c r d) (fork (node c r d) (fork (node c r d) (fork ?_ (fork (moves c r d) (fork ?_ ?_)))))
  · exact ((parseClass_advances pattern fuel).left fun _ => .pure _) c r d
  · exact Advances.error c r d
  refine fork (Advances.failure c r d) (fork (Advances.error c r d) (fork (Advances.error c r d) (fork ?_ (text c r d))))
  intro done
  obtain ⟨e, c', esc, done⟩ := bind_ok done
  obtain ⟨-, long, short⟩ := escape_advances pattern esc
  have on : e ≠ .error → c.patternIdx + 1 ≤ c'.patternIdx := by
    intro ok
    have := long (by by_contra less; exact ok (short (by omega)))
    omega
  have stay : ∀ {x : Scan (Terminal × Bool)}, Advances 0 x → e ≠ .error → x c' = some (some r, d) → c.patternIdx + 1 ≤ d.patternIdx := by
    intro x still ok done
    have := still c' r d done
    have := on ok
    omega
  cases e with
  | cls => exact stay (Advances.current.right fun _ => .pure _) (by simp) done
  | complex => exact stay (Advances.current.right fun _ => .pure _) (by simp) done
  | backref => exact stay (Advances.current.right fun _ => .ite (.pure _) .error) (by simp) done
  | error => cases done
  | char => exact text { c' with patternIdx := c.patternIdx } r d done

theorem parseTerminal_saturates {f f' : Nat} {c : Scanner} (inside : c.patternIdx < pattern.length)
    (enough : 2 * (pattern.length - c.patternIdx) ≤ f) (enough' : 2 * (pattern.length - c.patternIdx) ≤ f')
    (same : expr c = expr' c) : parseTerminal pattern expr f c = parseTerminal pattern expr' f' c := by
  rw [parseTerminal, parseTerminal, current_bind, current_bind, peek_bind, peek_bind]
  have text : ∀ e : Scanner, e.patternIdx = c.patternIdx → atomText pattern f e = atomText pattern f' e := fun e at' =>
    bind_congr_run (atomLoop_saturates pattern f f' [] e (by omega) (by omega)) fun _ _ _ => rfl
  refine ite_congr_run (fun _ => rfl) fun _ => ite_congr_run (fun _ => rfl) fun _ => ite_congr_run (fun _ => rfl) fun _ => ?_
  refine ite_congr_run (fun _ => bind_congr_run (parseClass_saturates pattern inside enough enough') fun _ _ _ => rfl) fun _ => ?_
  refine ite_congr_run (fun _ => same) fun _ => ite_congr_run (fun _ => rfl) fun _ => ite_congr_run (fun _ => rfl) fun _ => ?_
  refine ite_congr_run (fun _ => rfl) fun _ => ite_congr_run (fun _ => rfl) fun _ => ite_congr_run (fun _ => ?_) fun _ => ?_
  · refine bind_congr_run rfl fun e c' esc => ?_
    cases e with
    | char =>
      refine bind_congr_run rfl fun _ d back => ?_
      cases back
      exact bind_congr_run (text _ rfl) fun _ _ _ => rfl
    | cls | complex | backref | error => rfl
  · exact bind_congr_run (text c rfl) fun _ _ _ => rfl

theorem parseRepetition_advances (x : Terminal) : Advances 0 (parseRepetition pattern x) :=
  (bracket_advances pattern).right fun _ => .ite .error (.pure _)

theorem parseMark_advances : Advances 0 (parseMark pattern) :=
  Advances.peek.right fun _ => .ite ((Advances.advance.mono (Nat.zero_le _)).right fun _ => .pure _) (.pure _)

theorem parseClosure_advances (moves : Advances 1 expr) (fuel : Nat) : Advances 1 (parseClosure pattern expr fuel) := by
  refine (parseTerminal_advances pattern moves fuel).left fun _ => Advances.atEnd.right fun _ => .ite (.pure _) ?_
  refine Advances.peek.right fun _ => .ite (.pure _) (.ite (.ite .error (parseRepetition_advances pattern _)) ?_)
  refine (Advances.advance.mono (Nat.zero_le _)).right fun _ => .ite .error ?_
  exact (parseMark_advances pattern).right fun _ => .pure _

theorem parseClosure_saturates {f f' : Nat} {c : Scanner} (inside : c.patternIdx < pattern.length)
    (enough : 2 * (pattern.length - c.patternIdx) ≤ f) (enough' : 2 * (pattern.length - c.patternIdx) ≤ f')
    (same : expr c = expr' c) : parseClosure pattern expr f c = parseClosure pattern expr' f' c :=
  bind_congr_run (parseTerminal_saturates pattern inside enough enough' same) fun _ _ _ => rfl

/-! ### Branches and expressions -/

theorem parsePieces_advances (moves : Advances 1 expr) (f : Nat) (s : Sequence) (isnullable : Bool) :
    Advances 0 (parsePieces pattern expr f s isnullable) := by
  induction f generalizing s isnullable with
  | zero => exact .stuck
  | succ f ih =>
    refine Advances.peek.right fun _ => Advances.atEnd.right fun _ => .ite (.pure _) ?_
    refine ((parseClosure_advances pattern moves f).mono (Nat.zero_le _)).right fun _ => .ite .stuck (ih _ _)

theorem parsePieces_saturates (moves : Advances 1 expr) (f : Nat) :
    ∀ (f' : Nat) (s : Sequence) (isnullable : Bool) (c : Scanner), 2 * (pattern.length - c.patternIdx) + 1 ≤ f →
      2 * (pattern.length - c.patternIdx) + 1 ≤ f' →
      (∀ e : Scanner, c.patternIdx ≤ e.patternIdx → e.patternIdx < pattern.length → expr e = expr' e) →
        parsePieces pattern expr f s isnullable c = parsePieces pattern expr' f' s isnullable c := by
  induction f with
  | zero => exact fun _ _ _ _ enough => by omega
  | succ f ih =>
    intro f' s isnullable c enough enough' same
    obtain ⟨f', rfl⟩ : ∃ g, f' = g + 1 := ⟨f' - 1, by omega⟩
    rw [parsePieces, parsePieces, peek_bind, peek_bind, atEnd_bind, atEnd_bind]
    refine ite_congr_run (fun _ => rfl) fun more => ?_
    have inside : c.patternIdx < pattern.length := by
      by_contra ended
      exact more (.inl (by simpa using ended))
    refine bind_congr_run
      (parseClosure_saturates pattern inside (by omega) (by omega) (same c (Nat.le_refl _) inside)) fun r d closure => ?_
    have on := parseClosure_advances pattern moves f c r d closure
    refine ite_congr_run (fun _ => rfl) fun _ => ?_
    exact ih f' _ _ d (by omega) (by omega) fun e behind => same e (by omega)

theorem parseAlternatives_advances (moves : Advances 1 expr) (f : Nat) (branches : List Sequence) (isnullable : Bool) :
    Advances 0 (parseAlternatives pattern expr f branches isnullable) := by
  induction f generalizing branches isnullable with
  | zero => exact .stuck
  | succ f ih =>
    refine Advances.atEnd.right fun _ => Advances.peek.right fun _ => .ite (.pure _) ?_
    refine (Advances.advance.mono (Nat.zero_le _)).right fun _ => ?_
    exact (parsePieces_advances pattern moves f _ _).right fun _ => ih _ _

theorem parseAlternatives_saturates (moves : Advances 1 expr) (f : Nat) :
    ∀ (f' : Nat) (branches : List Sequence) (isnullable : Bool) (c : Scanner),
      2 * (pattern.length - c.patternIdx) + 1 ≤ f → 2 * (pattern.length - c.patternIdx) + 1 ≤ f' →
      (∀ e : Scanner, c.patternIdx ≤ e.patternIdx → e.patternIdx < pattern.length → expr e = expr' e) →
        parseAlternatives pattern expr f branches isnullable c = parseAlternatives pattern expr' f' branches isnullable c := by
  induction f with
  | zero => exact fun _ _ _ _ enough => by omega
  | succ f ih =>
    intro f' branches isnullable c enough enough' same
    obtain ⟨f', rfl⟩ : ∃ g, f' = g + 1 := ⟨f' - 1, by omega⟩
    rw [parseAlternatives, parseAlternatives, atEnd_bind, atEnd_bind, peek_bind, peek_bind]
    refine ite_congr_run (fun _ => rfl) fun more => ?_
    have inside : c.patternIdx < pattern.length := by
      by_contra ended
      exact more (.inl (by simpa using ended))
    refine bind_congr_run rfl fun _ c' bar => ?_
    have next : c'.patternIdx = c.patternIdx + 1 := by
      cases bar
      rfl
    refine bind_congr_run
      (parsePieces_saturates pattern moves f f' _ _ c' (by omega) (by omega) fun e behind => same e (by omega)) fun r d pieces => ?_
    have on := parsePieces_advances pattern moves f _ _ c' r d pieces
    exact ih f' _ _ d (by omega) (by omega) fun e behind => same e (by omega)

theorem parseClose_advances (opened : Option Nat) : Advances 0 (parseClose pattern opened) := by
  cases opened with
  | none => exact .pure _
  | some number =>
    refine Advances.peek.right fun _ => .ite ?_ .error
    exact (Advances.advance.mono (Nat.zero_le _)).right fun _ => .still fun _ _ _ done => by cases done; rfl

theorem parseExprWith_advances (moves : Advances 1 expr) (opened : Option Nat) (f : Nat) :
    Advances 0 (parseExprWith pattern expr opened f) := by
  refine (parsePieces_advances pattern moves f _ _).right fun _ => (parseAlternatives_advances pattern moves f _ _).right fun _ => ?_
  exact (parseClose_advances pattern opened).right fun _ => .ite .stuck (.pure _)

theorem parseExprWith_saturates (moves : Advances 1 expr) {f f' : Nat} {opened : Option Nat} {c : Scanner}
    (enough : 2 * (pattern.length - c.patternIdx) + 1 ≤ f) (enough' : 2 * (pattern.length - c.patternIdx) + 1 ≤ f')
    (same : ∀ e : Scanner, c.patternIdx ≤ e.patternIdx → e.patternIdx < pattern.length → expr e = expr' e) :
    parseExprWith pattern expr opened f c = parseExprWith pattern expr' opened f' c := by
  refine bind_congr_run (parsePieces_saturates pattern moves f f' _ _ c enough enough' same) fun r d pieces => ?_
  have on := parsePieces_advances pattern moves f _ _ c r d pieces
  refine bind_congr_run
    (parseAlternatives_saturates pattern moves f f' _ _ d (by omega) (by omega) fun e behind => same e (by omega)) fun _ _ _ => rfl

end Expr

theorem parseExpr_advances (f : Nat) : Advances 1 (parseExpr pattern f) := by
  induction f with
  | zero => exact .stuck
  | succ f ih =>
    have paren : Advances 1 openParen := fun _ _ _ done => by
      cases done
      exact Nat.le_refl _
    refine paren.left fun _ => (parseExprWith_advances pattern ih _ f).right fun _ => .pure _

theorem parseExpr_saturates (f : Nat) : ∀ (f' : Nat) (c : Scanner), c.patternIdx < pattern.length →
    2 * (pattern.length - c.patternIdx) ≤ f → 2 * (pattern.length - c.patternIdx) ≤ f' →
      parseExpr pattern f c = parseExpr pattern f' c := by
  induction f with
  | zero => exact fun _ _ inside enough => by omega
  | succ f ih =>
    intro f' c inside enough enough'
    obtain ⟨f', rfl⟩ : ∃ g, f' = g + 1 := ⟨f' - 1, by omega⟩
    rw [parseExpr, parseExpr]
    refine bind_congr_run rfl fun number d paren => ?_
    have next : d.patternIdx = c.patternIdx + 1 := by
      cases paren
      rfl
    refine bind_congr_run (parseExprWith_saturates pattern (parseExpr_advances pattern f) (by omega) (by omega) ?_) fun _ _ _ => rfl
    exact fun e behind within => ih f' e within (by omega) (by omega)

/-! ### More fuel -/

def Within {α : Type} (x y : Scan α) : Prop := ∀ c r, x c = some r → y c = some r

namespace Within

variable {α β : Type} {x y x' y' : Scan α} {f g : α → Scan β}

theorem refl : Within x x := fun _ _ done => done

theorem stuck : Within (Scan.stuck : Scan α) x := fun _ _ done => by cases done

theorem bind (first : Within x y) (rest : ∀ a, Within (f a) (g a)) : Within (x >>= f) (y >>= g) := by
  intro c r done
  match run : x c with
  | none =>
    rw [bind_of_stuck run] at done
    cases done
  | some (none, d) =>
    rw [bind_of_failure run] at done
    rw [bind_of_failure (first c _ run), done]
  | some (some a, d) =>
    rw [bind_of_ok run] at done
    rw [bind_of_ok (first c _ run)]
    exact rest a d r done

theorem next (rest : ∀ a, Within (f a) (g a)) : Within (x >>= f) (x >>= g) := refl.bind rest

theorem ite {p : Prop} [Decidable p] (yes : Within x y) (no : Within x' y') :
    Within (if p then x else x') (if p then y else y') := by
  split
  · exact yes
  · exact no

end Within

theorem parseClassLoop_within (idxFirst f : Nat) (s : ClassState) :
    Within (parseClassLoop pattern idxFirst f s) (parseClassLoop pattern idxFirst (f + 1) s) := by
  induction f generalizing s with
  | zero => exact .stuck
  | succ f ih =>
    refine .next fun _ => .ite .refl (.next fun r => ?_)
    cases r with
    | none => exact .refl
    | some s => exact ih s

theorem parseClass_within (f : Nat) : Within (parseClass pattern f) (parseClass pattern (f + 1)) := by
  refine .next fun _ => .next fun _ => .ite .refl (.next fun _ => .ite .refl (.next fun _ => ?_))
  exact .bind (parseClassLoop_within pattern _ f _) fun _ => .refl

theorem atomLoop_within (f : Nat) (text : Bytes) : Within (atomLoop pattern f text) (atomLoop pattern (f + 1) text) := by
  induction f generalizing text with
  | zero => exact .stuck
  | succ f ih =>
    refine .next fun r => ?_
    cases r with
    | none => exact .refl
    | some text => exact ih text

section Expr

variable {expr expr' : Scan (Terminal × Bool)} (within : Within expr expr')

include within

theorem parseTerminal_within (f : Nat) : Within (parseTerminal pattern expr f) (parseTerminal pattern expr' (f + 1)) := by
  have text : Within (atomText pattern f >>= fun text => (pure (.simple (.opAtom text), false) : Scan (Terminal × Bool)))
      (atomText pattern (f + 1) >>= fun text => pure (.simple (.opAtom text), false)) :=
    .bind (.bind (atomLoop_within pattern f []) fun _ => .refl) fun _ => .refl
  refine .next fun _ => .next fun _ => .ite .refl (.ite .refl (.ite .refl (.ite ?_ (.ite within ?_))))
  · exact .bind (parseClass_within pattern f) fun _ => .refl
  refine .ite .refl (.ite .refl (.ite .refl (.ite .refl (.ite (.next fun e => ?_) text))))
  cases e with
  | char => exact .next fun _ => text
  | cls | complex | backref | error => exact .refl

theorem parseClosure_within (f : Nat) : Within (parseClosure pattern expr f) (parseClosure pattern expr' (f + 1)) :=
  .bind (parseTerminal_within pattern within f) fun _ => .refl

theorem parsePieces_within (f : Nat) (s : Sequence) (isnullable : Bool) :
    Within (parsePieces pattern expr f s isnullable) (parsePieces pattern expr' (f + 1) s isnullable) := by
  induction f generalizing s isnullable with
  | zero => exact .stuck
  | succ f ih =>
    refine .next fun _ => .next fun _ => .ite .refl (.bind (parseClosure_within pattern within f) fun _ => ?_)
    exact .ite .refl (ih _ _)

theorem parseAlternatives_within (f : Nat) (branches : List Sequence) (isnullable : Bool) :
    Within (parseAlternatives pattern expr f branches isnullable) (parseAlternatives pattern expr' (f + 1) branches isnullable) := by
  induction f generalizing branches isnullable with
  | zero => exact .stuck
  | succ f ih =>
    refine .next fun _ => .next fun _ => .ite .refl (.next fun _ => ?_)
    exact .bind (parsePieces_within pattern within f _ _) fun _ => ih _ _

theorem parseExprWith_within (opened : Option Nat) (f : Nat) :
    Within (parseExprWith pattern expr opened f) (parseExprWith pattern expr' opened (f + 1)) :=
  .bind (parsePieces_within pattern within f _ _) fun _ =>
    .bind (parseAlternatives_within pattern within f _ _) fun _ => .refl

end Expr

theorem parseExpr_within (f : Nat) : Within (parseExpr pattern f) (parseExpr pattern (f + 1)) := by
  induction f with
  | zero => exact .stuck
  | succ f ih => exact .next fun _ => .bind (parseExprWith_within pattern ih _ f) fun _ => .refl

theorem parse_mono {f f' : Nat} (le : f ≤ f') {r : Option Alts × Bytes} (done : parse pattern f = some r) :
    parse pattern f' = some r := by
  induction le with
  | refl => exact done
  | step _ ih =>
    rename_i f' _
    have outer : Within (parseWith pattern f') (parseWith pattern (f' + 1)) :=
      .bind (.next fun _ => parseExprWith_within pattern (parseExpr_within pattern f') none f') fun _ => .refl
    have within := outer ⟨0, 0, 0, []⟩
    unfold parse at ih ⊢
    match run : parseWith pattern f' ⟨0, 0, 0, []⟩ with
    | none =>
      rw [run] at ih
      cases ih
    | some (res, c) =>
      rw [run] at ih
      rw [within _ run]
      exact ih

theorem parse_saturates {f f' : Nat} (enough : 2 * pattern.length + 1 ≤ f) (enough' : 2 * pattern.length + 1 ≤ f') :
    parse pattern f = parse pattern f' := by
  have outer : parseWith pattern f ⟨0, 0, 0, []⟩ = parseWith pattern f' ⟨0, 0, 0, []⟩ := by
    refine bind_congr_run (bind_congr_run rfl fun _ c start => ?_) fun _ _ _ => rfl
    cases start
    refine parseExprWith_saturates pattern (parseExpr_advances pattern f) enough enough' fun e behind within => ?_
    exact parseExpr_saturates pattern f f' e within (by omega) (by omega)
  rw [parse, parse, outer]

/-- The parser gets through the pattern up to its end or to a syntax error: no bracket expression is blocked
by a `^`, and no chain of nodes is followed after a reluctant closure was connected with itself. -/
def Readable : Prop := parse pattern (2 * pattern.length + 1) ≠ none

instance : Decidable (Readable pattern) :=
  inferInstanceAs (Decidable (¬parse pattern (2 * pattern.length + 1) = none))

example : Readable (ascii "[^a](b*?c|d)") := by decide +kernel

example : ¬Readable (ascii "a*?(b)") := by decide +kernel

theorem compile_of_readable (readable : Readable pattern) : compile pattern (2 * pattern.length + 1) ≠ none := by
  rw [compile_eq, ne_eq, Option.map_eq_none_iff]
  exact readable

theorem readable_of_compile {fuel : Nat} (returns : compile pattern fuel ≠ none) : Readable pattern := by
  rw [compile_eq, ne_eq, Option.map_eq_none_iff] at returns
  obtain ⟨r, done⟩ := Option.ne_none_iff_exists'.mp returns
  have later := parse_mono pattern (Nat.le_max_left fuel (2 * pattern.length + 1)) done
  rw [Readable, parse_saturates pattern (Nat.le_refl _) (Nat.le_max_right fuel _), later]
  exact Option.some_ne_none r

/-- `compile` returns exactly on the patterns that the parser gets through. -/
theorem compile_returns_iff : (∃ fuel, compile pattern fuel ≠ none) ↔ Readable pattern := by
  constructor
  · rintro ⟨fuel, returns⟩
    exact readable_of_compile pattern returns
  · intro readable
    exact ⟨_, compile_of_readable pattern readable⟩

/-- A `^` inside a bracket expression. -/
theorem compile_caret_hangs : ¬ ∃ fuel, compile (ascii "[a^b]") fuel ≠ none := by
  rintro ⟨fuel, returns⟩
  exact absurd (readable_of_compile _ returns) (by decide +kernel)

end Coast.Regex
