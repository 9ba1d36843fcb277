import Coast.Regex.Progress
import Mathlib.Data.List.GetD
import Mathlib.Tactic.Linarith
import Mathlib.Tactic.Positivity

/-!
# What the scanners leave of the message

A part of the compiler fails after a syntax error, or reads on and leaves the message alone. There are two
exceptions: a missing number in braces is an error that is read on behind, and a backslash before a byte
above 7f, looked ahead at in an atom, fails without one.
-/

namespace Coast.Regex

open Scan

/-- What a part has left of the message in front of it; `bare` and `silent` are the excuses. -/
structure Reported {α : Type} (bare silent : Prop) (c : Scanner) (r : Option α × Scanner) : Prop where
  keeps : c.errorMsg ≠ [] → r.2.errorMsg ≠ []
  success : r.1.isSome = true → r.2.errorMsg = c.errorMsg ∨ bare
  failure : r.1 = none → r.2.errorMsg ≠ [] ∨ silent

def ReportsAt {α : Type} (bare silent : Prop) (x : Scan α) (c : Scanner) : Prop := ∀ r, x c = some r → Reported bare silent c r

def Reports {α : Type} (x : Scan α) : Prop := ∀ bare silent c, ReportsAt bare silent x c

theorem Scan.bind_some {α β : Type} {x : Scan α} {f : α → Scan β} {c : Scanner} {r : Option β × Scanner}
    (run : (x >>= f) c = some r) :
    (∃ d, x c = some (none, d) ∧ r = (none, d)) ∨ ∃ a d, x c = some (some a, d) ∧ f a d = some r := by
  obtain stuck | ⟨⟨a, d⟩, first⟩ := (x c).eq_none_or_eq_some
  · rw [bind_of_stuck stuck] at run
    cases run
  · cases a with
    | none =>
      rw [bind_of_failure first] at run
      cases run
      exact .inl ⟨d, first, rfl⟩
    | some a =>
      rw [bind_of_ok first] at run
      exact .inr ⟨a, d, first, run⟩

section Rules

variable {α β : Type} {bare silent : Prop} {c : Scanner}

theorem ReportsAt.bind {x : Scan α} {f : α → Scan β} (first : ReportsAt bare silent x c)
    (rest : ∀ a d, x c = some (some a, d) → ReportsAt bare silent (f a) d) : ReportsAt bare silent (x >>= f) c := by
  intro r run
  obtain ⟨d, failed, rfl⟩ | ⟨a, d, read, run⟩ := bind_some run
  · have here := first _ failed
    exact ⟨here.keeps, (fun is => by cases is), fun _ => here.failure rfl⟩
  · have here := first _ read
    have later := rest a d read r run
    refine ⟨fun some' => later.keeps (here.keeps some'), fun is => ?_, later.failure⟩
    rcases later.success is with same | excused
    · exact (here.success rfl).imp_left same.trans
    · exact .inr excused

theorem ReportsAt.ite {p : Prop} [Decidable p] {x y : Scan α} (yes : p → ReportsAt bare silent x c)
    (no : ¬p → ReportsAt bare silent y c) : ReportsAt bare silent (if p then x else y) c := by
  split
  · exact yes ‹_›
  · exact no ‹_›

theorem ReportsAt.peek {pattern : Bytes} {f : UInt8 → Scan α} (rest : ReportsAt bare silent (f (patternAt pattern c.patternIdx)) c) :
    ReportsAt bare silent (peek pattern >>= f) c := rest

theorem ReportsAt.atEnd {pattern : Bytes} {f : Bool → Scan α}
    (rest : ReportsAt bare silent (f (decide (pattern.length ≤ c.patternIdx))) c) : ReportsAt bare silent (atEnd pattern >>= f) c :=
  rest

namespace Reports

theorem bind {x : Scan α} {f : α → Scan β} (first : Reports x) (rest : ∀ a, Reports (f a)) : Reports (x >>= f) :=
  fun bare silent c => (first bare silent c).bind fun a d _ => rest a bare silent d

theorem ite {p : Prop} [Decidable p] {x y : Scan α} (yes : Reports x) (no : Reports y) : Reports (if p then x else y) := by
  split
  · exact yes
  · exact no

theorem still {x : Scan α} (keeps : ∀ c, ∃ a d, x c = some (some a, d) ∧ d.errorMsg = c.errorMsg) : Reports x := by
  intro bare silent c r run
  obtain ⟨a, d, read, same⟩ := keeps c
  rw [read] at run
  cases run
  exact ⟨fun some' => same ▸ some', fun _ => .inl same, (fun is => by cases is)⟩

theorem pure (a : α) : Reports (pure a : Scan α) := still fun c => ⟨a, c, rfl, rfl⟩

theorem stuck : Reports (stuck : Scan α) := fun _ _ _ _ run => by cases run

theorem current : Reports current := still fun c => ⟨c, c, rfl, rfl⟩

theorem peek {pattern : Bytes} : Reports (peek pattern) := still fun c => ⟨_, c, rfl, rfl⟩

theorem atEnd {pattern : Bytes} : Reports (atEnd pattern) := still fun c => ⟨_, c, rfl, rfl⟩

theorem advance {n : Nat} : Reports (advance n) := still fun _ => ⟨_, _, rfl, rfl⟩

end Reports

theorem syntaxError_run (s : String) (c : Scanner) :
    ∃ d, syntaxError s c = some (some (), d) ∧ d.errorMsg ≠ [] ∧ d.patternIdx = c.patternIdx := by
  refine ⟨_, rfl, ?_, rfl⟩
  simp [ascii]

def Fails {α : Type} (x : Scan α) : Prop := ∀ c, c.errorMsg ≠ [] → ∃ d, x c = some (none, d) ∧ d.errorMsg ≠ []

theorem fails_failure : Fails (failure : Scan α) := fun c some' => ⟨c, rfl, some'⟩

theorem Fails.error (s : String) {x : Scan α} (fails : Fails x) : Fails (syntaxError s >>= fun _ => x) := by
  intro c _
  obtain ⟨d, read, some', -⟩ := syntaxError_run s c
  rw [bind_of_ok read]
  exact fails d some'

theorem Fails.reports (s : String) {x : Scan α} (fails : Fails x) : Reports (syntaxError s >>= fun _ => x) := by
  intro bare silent c r run
  obtain ⟨d, read, some', -⟩ := syntaxError_run s c
  obtain ⟨d', failed, some''⟩ := fails d some'
  rw [bind_of_ok read, failed] at run
  cases run
  exact ⟨fun _ => some'', (fun is => by cases is), fun _ => .inl some''⟩

theorem Reports.error (s : String) : Reports (syntaxError s >>= fun _ => (failure : Scan α)) := fails_failure.reports s

end Rules

section Pattern

variable (pattern : Bytes)

/-! ### Escapes -/

/-- The loop over up to `left` hexadecimal digits comes to something else. -/
def BadHex : Nat → Nat → Prop
  | 0, _ => False
  | left + 1, i => i < pattern.length ∧ (isxdigit (patternAt pattern i) = false ∨ BadHex left (i + 1))

/-- The backslash at `i` begins no escape. -/
def BadEscape (i : Nat) : Prop :=
  pattern.length ≤ i + 1 ∨ patternAt pattern (i + 1) = 'x'.toUInt8 ∧ BadHex pattern 2 (i + 2)

theorem hexDigits_bad {left : Nat} {val : Int} {c : Scanner} (bad : BadHex pattern left c.patternIdx) :
    ∃ d, hexDigits pattern left val c = some (some .error, d) ∧ d.errorMsg ≠ [] := by
  induction left generalizing val c with
  | zero => exact bad.elim
  | succ left ih =>
    obtain ⟨inside, other⟩ := bad
    rw [hexDigits, atEnd_bind, decide_eq_false (by omega), if_neg (by decide), peek_bind]
    by_cases digit : isxdigit (patternAt pattern c.patternIdx) = true
    · rw [if_pos digit, advance_bind]
      exact ih (other.resolve_left fun is => Bool.false_ne_true (is.symm.trans digit))
    · obtain ⟨d, read, some', -⟩ := syntaxError_run ("Expected " ++ toString left ++ " hexadecimal digits after \\x") c
      rw [if_neg digit, bind_of_ok read]
      exact ⟨d, rfl, some'⟩

def Scanner.moved (c : Scanner) (i : Nat) : Scanner := { c with patternIdx := i }

theorem isxdigit_value {ch : UInt8} (digit : isxdigit ch = true) : digitValue ch < 16 := by
  revert digit
  exact forall_byte (by decide) ch

theorem isodigit_value {ch : UInt8} (digit : isodigit ch = true) : (0 : Int) ≤ ch.toNat - 48 ∧ (ch.toNat : Int) - 48 < 8 := by
  revert digit
  exact forall_byte (by decide) ch

theorem not_isalnum_of_high {ch : UInt8} (high : 128 ≤ ch.toNat) : isalnum ch = false := by
  revert high
  exact forall_byte (by decide) ch

theorem hexDigits_good {left : Nat} {val : Int} {c : Scanner} (good : ¬BadHex pattern left c.patternIdx) (nonneg : 0 ≤ val)
    (small : (val + 1) * 16 ^ left ≤ 256) :
    ∃ v i, hexDigits pattern left val c = some (some (.char v), c.moved i) ∧ 0 ≤ v ∧ v < 256 := by
  induction left generalizing val c with
  | zero => exact ⟨val, c.patternIdx, rfl, nonneg, by omega⟩
  | succ left ih =>
    rw [hexDigits, atEnd_bind]
    by_cases inside : c.patternIdx < pattern.length
    · rw [decide_eq_false (by omega), if_neg (by decide), peek_bind]
      by_cases digit : isxdigit (patternAt pattern c.patternIdx) = true
      · have value := isxdigit_value digit
        rw [if_pos digit, advance_bind]
        obtain ⟨v, i, run, low, high⟩ := ih (c := c.moved (c.patternIdx + 1)) (fun later => good ⟨inside, .inr later⟩)
          (by omega : 0 ≤ val * 16 + digitValue (patternAt pattern c.patternIdx)) (by
            have grows : (0 : Int) ≤ 16 ^ left := by positivity
            rw [pow_succ] at small
            nlinarith)
        exact ⟨v, i, run, low, high⟩
      · exact absurd ⟨inside, .inl (Bool.eq_false_iff.mpr digit)⟩ good
    · have pos : (1 : Int) ≤ 16 ^ (left + 1) := one_le_pow₀ (by decide)
      rw [decide_eq_true (by omega), if_pos rfl]
      exact ⟨val, c.patternIdx, rfl, nonneg, by nlinarith⟩

theorem escape_bad {c : Scanner} (bad : BadEscape pattern c.patternIdx) :
    ∃ d, escape pattern c = some (some .error, d) ∧ d.errorMsg ≠ [] := by
  rw [escape, current_bind]
  by_cases short : pattern.length ≤ c.patternIdx + 1
  · obtain ⟨d, read, some', -⟩ := syntaxError_run "Escape terminates string" c
    rw [if_pos short, bind_of_ok read]
    exact ⟨d, rfl, some'⟩
  · obtain ⟨is, hex⟩ := bad.resolve_left short
    rw [if_neg short, advance_bind]
    simp only [is]
    rw [if_neg (by decide), if_neg (by decide), if_pos trivial]
    exact hexDigits_bad pattern hex

theorem isNegative_charInt (ch : UInt8) : (Escape.char (charInt ch)).isNegative = true ↔ 128 ≤ ch.toNat := by
  have bound := ch.toNat_lt
  rw [Escape.isNegative, decide_eq_true_eq, charInt]
  split <;> omega

def PlainEscape (c : Scanner) (r : Option (Option Escape × Scanner)) : Prop :=
  ∃ e i, r = some (some e, c.moved i) ∧ e ≠ .error ∧ e.isNegative = false ∧ ∀ v, e = .char v → v < 512

theorem PlainEscape.ite {p : Prop} [Decidable p] {x y : Scan Escape} {c d : Scanner} (yes : p → PlainEscape c (x d))
    (no : ¬p → PlainEscape c (y d)) : PlainEscape c ((if p then x else y) d) := by
  split
  · exact yes ‹_›
  · exact no ‹_›

theorem plainEscape_char {v : Int} (low : 0 ≤ v) (high : v < 512) (c : Scanner) (i : Nat) :
    PlainEscape c ((pure (.char v) : Scan Escape) (c.moved i)) :=
  ⟨.char v, i, rfl, by simp, decide_eq_false (by omega), fun _ is => by cases is; exact high⟩

theorem plainEscape_special {e : Escape} (special : e = .complex ∨ e = .cls ∨ e = .backref) (c : Scanner) (i : Nat) :
    PlainEscape c ((pure e : Scan Escape) (c.moved i)) := by
  rcases special with rfl | rfl | rfl
  · exact ⟨.complex, i, rfl, by simp, rfl, by simp⟩
  · exact ⟨.cls, i, rfl, by simp, rfl, by simp⟩
  · exact ⟨.backref, i, rfl, by simp, rfl, by simp⟩

theorem octalDigit_run (val : Int) (c : Scanner) (i : Nat) : octalDigit pattern val (c.moved i) =
    some (some (val * 8 + ((patternAt pattern i).toNat - 48)), c.moved (i + 1)) := rfl

theorem octal_plain {val : Int} (low : 0 ≤ val) (high : val < 8) {c : Scanner} {i : Nat} (digit : isodigit (patternAt pattern i) = true) :
    PlainEscape c ((do
      let val ← octalDigit pattern val
      if isodigit (← peek pattern) then return .char (← octalDigit pattern val) else return .char val : Scan Escape)
        (c.moved i)) := by
  have first := isodigit_value digit
  rw [bind_of_ok (octalDigit_run pattern val c i), peek_bind]
  refine .ite (fun second => ?_) fun _ => plainEscape_char (by omega) (by omega) c (i + 1)
  have second : isodigit (patternAt pattern (i + 1)) = true := second
  have second := isodigit_value second
  rw [bind_of_ok (octalDigit_run pattern _ c (i + 1))]
  exact plainEscape_char (by omega) (by omega) c (i + 1 + 1)

theorem escape_good {c : Scanner} (good : ¬BadEscape pattern c.patternIdx) :
    ∃ e i, escape pattern c = some (some e, c.moved i) ∧ e ≠ .error ∧
      (e.isNegative = true ↔ 128 ≤ (patternAt pattern (c.patternIdx + 1)).toNat) ∧ ∀ v, e = .char v → v < 512 := by
  have inside : c.patternIdx + 1 < pattern.length := by
    by_contra short
    exact good (.inl (by omega))
  obtain ⟨ch, is⟩ : ∃ ch, ch = patternAt pattern (c.patternIdx + 1) := ⟨_, rfl⟩
  by_cases other : isalnum ch = true
  · have small : ch.toNat < 128 := by
      by_contra high
      rw [not_isalnum_of_high (Nat.le_of_not_lt high)] at other
      cases other
    have plain : PlainEscape c (escape pattern c) := by
      rw [escape, current_bind, if_neg (by omega), advance_bind, ← is]
      refine .ite (fun _ => plainEscape_special (.inl rfl) c _) fun _ => ?_
      refine .ite (fun _ => plainEscape_special (.inr (.inl rfl)) c _) fun _ => ?_
      refine .ite (fun hex => ?_) fun _ => ?_
      · have digits : ¬BadHex pattern 2 (c.patternIdx + 2) := fun bad => good (.inr ⟨by rw [← is, hex], bad⟩)
        obtain ⟨v, i, run, low, high⟩ :=
          hexDigits_good pattern (c := c.moved (c.patternIdx + 2)) digits (Int.le_refl 0) (by decide)
        exact ⟨_, i, run, by simp, decide_eq_false (by omega), fun _ is => by cases is; omega⟩
      refine .ite (fun _ => plainEscape_char (by decide) (by decide) c _) fun _ => ?_
      refine .ite (fun _ => plainEscape_char (by decide) (by decide) c _) fun _ => ?_
      refine .ite (fun _ => plainEscape_char (by decide) (by decide) c _) fun _ => ?_
      refine .ite (fun _ => plainEscape_char (by decide) (by decide) c _) fun _ => ?_
      refine .ite (fun digit => ?_) fun _ => ?_
      · obtain ⟨low, high⟩ := isodigit_value digit
        refine .ite (octal_plain pattern low high) fun _ => ?_
        exact .ite (fun _ => plainEscape_char low (by omega) c _) fun _ => plainEscape_special (.inr (.inr rfl)) c _
      · refine .ite (fun _ => plainEscape_special (.inr (.inr rfl)) c _) fun _ => ?_
        have value : charInt ch = ch.toNat := if_pos small
        exact plainEscape_char (by omega) (by omega) c _
    obtain ⟨e, i, run, noError, sign, small'⟩ := plain
    exact ⟨e, i, run, noError, iff_of_false (by rw [sign]; decide) (by rw [← is]; omega), small'⟩
  · have run := escape_other pattern inside (by rw [← is]; exact Bool.eq_false_iff.mpr other)
    have value : charInt ch < 512 := by
      have := ch.toNat_lt
      rw [charInt]
      split <;> omega
    rw [← is] at run ⊢
    exact ⟨_, _, run, by simp, isNegative_charInt ch, fun v is => by cases is; exact value⟩

theorem Reports.escape {α : Type} {f : Escape → Scan α} (good : ∀ e, e ≠ .error → Reports (f e))
    (bad : Fails (f .error)) : Reports (escape pattern >>= f) := by
  intro bare silent c r run
  by_cases begins : BadEscape pattern c.patternIdx
  · obtain ⟨d, read, some'⟩ := escape_bad pattern begins
    obtain ⟨d', failed, some''⟩ := bad d some'
    rw [bind_of_ok read, failed] at run
    cases run
    exact ⟨fun _ => some'', (fun is => by cases is), fun _ => .inl some''⟩
  · obtain ⟨e, i, read, noError, -⟩ := escape_good pattern begins
    rw [bind_of_ok read] at run
    have later := good e noError bare silent (c.moved i) r run
    exact ⟨later.keeps, later.success, later.failure⟩

/-! ### Bracket expressions -/

theorem posixSet_reports : Reports (posixSet pattern) := by
  refine Reports.current.bind fun _ => Reports.advance.bind fun _ => Reports.current.bind fun _ => .ite ?_ (.error _)
  split
  · exact Reports.advance.bind fun _ => .pure _
  · exact (fails_failure.error _).reports _

theorem simpleChar_reports (s : ClassState) (ch : UInt8) : Reports (simpleChar pattern s ch) :=
  .ite (.ite (.error _) (.pure _)) (Reports.current.bind fun _ => .ite (.pure _) (.pure _))

theorem classEscape_reports (s : ClassState) : Reports (classEscape pattern s) := by
  refine .ite (.error _) (Reports.current.bind fun _ => ?_)
  exact .ite (.pure _) (.ite (.pure _) (.ite (.pure _) (.error _)))

theorem classStep_reports (idxFirst : Nat) (s : ClassState) : Reports (classStep pattern idxFirst s) := by
  have char : ∀ t ch, Reports (simpleChar pattern t ch >>= fun s => (pure (some s) : Scan (Option ClassState))) :=
    fun t ch => (simpleChar_reports pattern t ch).bind fun _ => .pure _
  have next : ∀ t ch, Reports (advance 1 >>= fun _ => simpleChar pattern t ch >>= fun s =>
      (pure (some s) : Scan (Option ClassState))) := fun t ch => Reports.advance.bind fun _ => char t ch
  refine Reports.atEnd.bind fun _ => .ite (.pure _) (Reports.current.bind fun c => Reports.peek.bind fun ch => ?_)
  refine .ite (.ite (next _ _) (.pure _)) (.ite (.ite (Reports.advance.bind fun _ => .pure _) (char _ _)) (.ite ?_ ?_))
  · refine .escape pattern (fun e noError => ?_) (fails_failure.error _)
    cases e with
    | char value => exact char _ _
    | cls => exact (classEscape_reports pattern _).bind fun _ => .pure _
    | error => exact absurd rfl noError
    | _ => exact .error _
  · refine .ite (.ite (next _ _) (.ite ?_ (.pure _))) (next _ _)
    exact Reports.advance.bind fun _ => Reports.peek.bind fun _ => .ite (char _ _) (.pure _)

theorem parseClassLoop_reports (idxFirst fuel : Nat) (s : ClassState) : Reports (parseClassLoop pattern idxFirst fuel s) := by
  induction fuel generalizing s with
  | zero => exact .stuck
  | succ fuel ih =>
    refine (Reports.current.bind fun _ => .pure _).bind fun _ => .ite .stuck ((classStep_reports pattern idxFirst s).bind fun r => ?_)
    cases r with
    | none => exact .pure _
    | some s => exact ih s

theorem parseClass_reports (fuel : Nat) : Reports (parseClass pattern fuel) := by
  refine Reports.advance.bind fun _ => Reports.atEnd.bind fun _ => .ite (.error _) (Reports.peek.bind fun _ => .ite ?_ ?_)
  · exact Reports.advance.bind fun _ => posixSet_reports pattern
  · refine Reports.current.bind fun c => (parseClassLoop_reports pattern _ fuel _).bind fun s => ?_
    exact Reports.atEnd.bind fun _ => .ite (.error _) (Reports.advance.bind fun _ => .pure _)

/-! ### Brackets -/

theorem readNumber_digit (dflt : Int) {c : Scanner} (digit : isdigit (patternAt pattern c.patternIdx) = true) :
    ∃ n i, readNumber pattern dflt c = some (some n, c.moved i) := by
  rw [readNumber, peek_bind, if_pos digit]
  exact ⟨_, _, rfl⟩

theorem readNumber_bare (dflt : Int) {c : Scanner} (bare : isdigit (patternAt pattern c.patternIdx) = false) :
    ∃ d, readNumber pattern dflt c = some (some dflt, d) ∧ d.errorMsg ≠ [] ∧ d.patternIdx = c.patternIdx := by
  obtain ⟨d, read, some', same⟩ := syntaxError_run "Expected digit" c
  rw [readNumber, peek_bind, if_neg (by simp [bare]), bind_of_ok read]
  exact ⟨d, rfl, some', same⟩

theorem readNumber_reported (dflt : Int) {bare silent : Prop} {c : Scanner}
    (excuse : isdigit (patternAt pattern c.patternIdx) = false → bare) : ReportsAt bare silent (readNumber pattern dflt) c := by
  intro r run
  by_cases digit : isdigit (patternAt pattern c.patternIdx) = true
  · obtain ⟨n, i, read⟩ := readNumber_digit pattern dflt digit
    rw [read] at run
    cases run
    exact ⟨id, fun _ => .inl rfl, (fun is => by cases is)⟩
  · obtain ⟨d, read, some', -⟩ := readNumber_bare pattern dflt (Bool.eq_false_iff.mpr digit)
    rw [read] at run
    cases run
    exact ⟨fun _ => some', fun _ => .inr (excuse (Bool.eq_false_iff.mpr digit)), (fun is => by cases is)⟩

theorem secondNumber_reports (min : Int) {bare silent : Prop} {c : Scanner}
    (more : patternAt pattern c.patternIdx ≠ '\x7d'.toUInt8) : ReportsAt bare silent (do
      let optional := (← readNumber pattern min) - min
      if optional < 0 ∨ min < 0 then
        syntaxError "Bad range"
        failure
      else
        let close ← peek pattern
        advance 1
        if close ≠ '\x7d'.toUInt8 then
          syntaxError "Missing close brace"
          failure
        else return (min, some optional.toNat) : Scan (Int × Option Nat)) c := by
  intro r run
  by_cases digit : isdigit (patternAt pattern c.patternIdx) = true
  · obtain ⟨n, i, read⟩ := readNumber_digit pattern min digit
    rw [bind_of_ok read] at run
    have later : Reported bare silent (c.moved i) r := by
      refine Reports.ite (.error _) (Reports.peek.bind fun _ => ?_) bare silent _ r run
      exact Reports.advance.bind fun _ => .ite (.error _) (.pure _)
    exact ⟨later.keeps, later.success, later.failure⟩
  · obtain ⟨d, read, some', same⟩ := readNumber_bare pattern min (Bool.eq_false_iff.mpr digit)
    have fails : ∃ e, r = (none, e) ∧ e.errorMsg ≠ [] := by
      rw [bind_of_ok read] at run
      split at run
      · obtain ⟨e, failed, some''⟩ := fails_failure.error (α := Int × Option Nat) "Bad range" d some'
        rw [failed] at run
        cases run
        exact ⟨e, rfl, some''⟩
      · rw [peek_bind, advance_bind, same, if_pos more] at run
        obtain ⟨e, failed, some''⟩ :=
          fails_failure.error (α := Int × Option Nat) "Missing close brace" { d with patternIdx := d.patternIdx + 1 } some'
        rw [same] at failed
        rw [failed] at run
        cases run
        exact ⟨e, rfl, some''⟩
    obtain ⟨e, rfl, some''⟩ := fails
    exact ⟨fun _ => some'', (fun is => by cases is), fun _ => .inl some''⟩

theorem bracket_tail : ∃ tail : Int → Scan (Int × Option Nat), (∀ min, Reports (tail min)) ∧
    bracket pattern = (advance 1 >>= fun _ => readNumber pattern 1 >>= tail) := by
  refine ⟨_, fun min => ?_, rfl⟩
  refine Reports.peek.bind fun _ => .ite (Reports.advance.bind fun _ => .pure _) (Reports.peek.bind fun _ => ?_)
  refine Reports.advance.bind fun _ => .ite (.error _) fun bare silent c => ?_
  exact .peek (.ite (fun _ => (Reports.advance.bind fun _ => .pure _) bare silent c) fun more => secondNumber_reports pattern min more)

theorem bracket_reported {bare silent : Prop} {c : Scanner}
    (excuse : isdigit (patternAt pattern (c.patternIdx + 1)) = false → bare) : ReportsAt bare silent (bracket pattern) c := by
  obtain ⟨tail, reports, eq⟩ := bracket_tail pattern
  intro r run
  rw [eq, advance_bind] at run
  have later : Reported bare silent (c.moved (c.patternIdx + 1)) r :=
    (readNumber_reported pattern 1 excuse).bind (fun min d _ => reports min bare silent d) r run
  exact ⟨later.keeps, later.success, later.failure⟩

theorem bracket_bare {c : Scanner} (bare : isdigit (patternAt pattern (c.patternIdx + 1)) = false)
    {r : Option (Int × Option Nat) × Scanner} (run : bracket pattern c = some r) : r.2.errorMsg ≠ [] := by
  obtain ⟨tail, reports, eq⟩ := bracket_tail pattern
  obtain ⟨d, read, some', -⟩ := readNumber_bare pattern (c := c.moved (c.patternIdx + 1)) 1 bare
  have behind : (readNumber pattern 1 >>= tail) (c.moved (c.patternIdx + 1)) = some r := by
    rw [eq] at run
    exact run
  rw [bind_of_ok read] at behind
  exact (reports 1 True True d r behind).keeps some'

/-! ### Atoms -/

def High (i : Nat) : Prop :=
  i + 1 < pattern.length ∧ patternAt pattern i = '\\'.toUInt8 ∧ 128 ≤ (patternAt pattern (i + 1)).toNat

def Doomed (i : Nat) : Prop := patternAt pattern i = '\\'.toUInt8 ∧ BadEscape pattern i

theorem inside_of_patternAt {i : Nat} {ch : UInt8} (is : patternAt pattern i = ch) (nonzero : ch ≠ 0) : i < pattern.length := by
  by_contra behind
  rw [patternAt, List.getD_eq_default _ _ (by omega)] at is
  exact nonzero is.symm

theorem lookAhead_plain_run {c : Scanner} (plain : patternAt pattern c.patternIdx ≠ '\\'.toUInt8) :
    ∃ second, lookAhead pattern c = some (some second, c) := by
  rw [lookAhead, current_bind]
  by_cases last : pattern.length ≤ c.patternIdx + 1
  · rw [if_pos last]
    exact ⟨_, rfl⟩
  · rw [if_neg last, if_pos plain]
    exact ⟨_, rfl⟩

theorem lookAhead_high {c : Scanner} (high : High pattern c.patternIdx) :
    ∃ d, lookAhead pattern c = some (none, d) ∧ d.errorMsg = c.errorMsg := by
  obtain ⟨inside, backslash, byte⟩ := high
  have other := not_isalnum_of_high byte
  rw [lookAhead, current_bind, if_neg (by omega), if_neg (not_not.mpr backslash), bind_of_ok (escape_other pattern inside other),
    if_pos ((isNegative_charInt _).mpr byte)]
  exact ⟨_, rfl, rfl⟩

theorem lookAhead_doomed {c : Scanner} (inside : c.patternIdx + 1 < pattern.length) (doomed : Doomed pattern c.patternIdx) :
    ∃ second d, lookAhead pattern c = some (some second, d) ∧ d.errorMsg ≠ [] ∧ d.patternIdx = c.patternIdx := by
  obtain ⟨d, read, some'⟩ := escape_bad pattern doomed.2
  rw [lookAhead, current_bind, if_neg (by omega), if_neg (not_not.mpr doomed.1), bind_of_ok read]
  exact ⟨_, _, rfl, some', rfl⟩

theorem lookAhead_escaped_run {c : Scanner} (inside : c.patternIdx + 1 < pattern.length)
    (backslash : patternAt pattern c.patternIdx = '\\'.toUInt8) (good : ¬BadEscape pattern c.patternIdx)
    (low : ¬High pattern c.patternIdx) :
    ∃ second, lookAhead pattern c = some (some second, c) := by
  obtain ⟨e, i, read, -, sign, -⟩ := escape_good pattern good
  have nonneg : ¬e.isNegative = true := fun is => low ⟨inside, backslash, sign.mp is⟩
  rw [lookAhead, current_bind, if_neg (by omega), if_neg (not_not.mpr backslash), bind_of_ok read, if_neg nonneg]
  exact ⟨_, rfl⟩

/-- What a turn of the loop in `atom` leaves of the message. -/
structure AtomReported (c : Scanner) (r : Option (Option Bytes) × Scanner) : Prop where
  keeps : c.errorMsg ≠ [] → r.2.errorMsg ≠ []
  failure : r.1 = none → r.2.errorMsg ≠ [] ∨ High pattern c.patternIdx
  ends : r.1 = some none → r.2.patternIdx = c.patternIdx ∧ (r.2.errorMsg = c.errorMsg ∨ Doomed pattern c.patternIdx)
  goesOn : ∀ text, r.1 = some (some text) → r.2.errorMsg = c.errorMsg

theorem atomStep_escape {text : Bytes} {c d : Scanner} (same : d.patternIdx = c.patternIdx)
    (backslash : patternAt pattern c.patternIdx = '\\'.toUInt8)
    (message : d.errorMsg = c.errorMsg ∨ BadEscape pattern c.patternIdx ∧ d.errorMsg ≠ []) {f : Escape → Scan (Option Bytes)}
    (char : ∀ v, f (.char v) = if v % 65536 ≥ 65520 then change (Scanner.moved · d.patternIdx) >>= fun _ => pure none
      else pure (some (text ++ [UInt8.ofInt v])))
    (other : ∀ e, (∀ v, e ≠ .char v) → f e = change (Scanner.moved · d.patternIdx) >>= fun _ => pure none)
    {r : Option (Option Bytes) × Scanner} (run : (escape pattern >>= f) d = some r) : AtomReported pattern c r := by
  by_cases bad : BadEscape pattern c.patternIdx
  · obtain ⟨e, read, some'⟩ := escape_bad pattern (same ▸ bad)
    rw [bind_of_ok read, other .error (by simp)] at run
    cases run
    exact ⟨fun _ => some', (fun is => by cases is), fun _ => ⟨same, .inr ⟨backslash, bad⟩⟩, (fun _ is => by cases is)⟩
  · have message := message.resolve_right fun both => bad both.1
    obtain ⟨e, i, read, -⟩ := escape_good pattern (same ▸ bad)
    rw [bind_of_ok read] at run
    have back : ∀ {r : Option (Option Bytes) × Scanner}, some r = some (some none, d) → AtomReported pattern c r := by
      intro r is
      cases is
      exact ⟨fun some' => message ▸ some', (fun is => by cases is), fun _ => ⟨same, .inl message⟩, (fun _ is => by cases is)⟩
    by_cases value : ∃ v, e = .char v
    · obtain ⟨v, rfl⟩ := value
      rw [char] at run
      split at run
      · exact back run.symm
      · cases run
        exact ⟨fun some' => message ▸ some', (fun is => by cases is), (fun is => by cases is), fun _ _ => message⟩
    · rw [other e fun v is => value ⟨v, is⟩] at run
      exact back run.symm

theorem atomStep_reported {text : Bytes} {c : Scanner} {r : Option (Option Bytes) × Scanner}
    (run : atomStep pattern text c = some r) : AtomReported pattern c r := by
  have still : ∀ {r : Option (Option Bytes) × Scanner}, some (some none, c) = some r → AtomReported pattern c r := by
    intro r is
    cases is
    exact ⟨id, (fun is => by cases is), fun _ => ⟨rfl, .inl rfl⟩, (fun _ is => by cases is)⟩
  rw [atomStep, atEnd_bind] at run
  by_cases inside : c.patternIdx < pattern.length
  · rw [decide_eq_false (by omega), if_neg (by decide)] at run
    by_cases backslash : patternAt pattern c.patternIdx = '\\'.toUInt8
    · have again : ∀ {d : Scanner} {second : Option UInt8}, lookAhead pattern c = some (some second, d) →
          d.patternIdx = c.patternIdx → d.errorMsg = c.errorMsg ∨ BadEscape pattern c.patternIdx ∧ d.errorMsg ≠ [] →
            AtomReported pattern c r := by
        intro d second ahead same message
        rw [bind_of_ok ahead] at run
        split at run
        · cases run
          refine ⟨fun some' => ?_, (fun is => by cases is), fun _ => ⟨same, message.imp_right fun both => ⟨backslash, both.1⟩⟩,
            (fun _ is => by cases is)⟩
          rcases message with kept | ⟨-, some''⟩
          · exact kept ▸ some'
          · exact some''
        · rw [current_bind, peek_bind, same, backslash, if_neg (by decide), if_neg (by decide), if_pos rfl, ← same] at run
          refine atomStep_escape pattern same backslash message (fun _ => rfl) (fun e no => ?_) run
          cases e with
          | char v => exact absurd rfl (no v)
          | _ => rfl
      by_cases last : pattern.length ≤ c.patternIdx + 1
      · have ahead : lookAhead pattern c = some (some none, c) := by
          rw [lookAhead, current_bind, if_pos last]
          rfl
        exact again ahead rfl (.inl rfl)
      by_cases bad : BadEscape pattern c.patternIdx
      · obtain ⟨second, d, ahead, some', same⟩ := lookAhead_doomed pattern (by omega) ⟨backslash, bad⟩
        exact again ahead same (.inr ⟨bad, some'⟩)
      by_cases high : High pattern c.patternIdx
      · obtain ⟨d, ahead, kept⟩ := lookAhead_high pattern high
        rw [bind_of_failure ahead] at run
        cases run
        exact ⟨fun some' => kept ▸ some', fun _ => .inr high, (fun is => by cases is), (fun _ is => by cases is)⟩
      · obtain ⟨second, ahead⟩ := lookAhead_escaped_run pattern (by omega) backslash bad high
        exact again ahead rfl (.inl rfl)
    · obtain ⟨second, ahead⟩ := lookAhead_plain_run pattern backslash
      rw [bind_of_ok ahead] at run
      split at run
      · exact still run
      rw [current_bind, peek_bind] at run
      split at run
      · exact still run
      split at run
      · split at run
        · obtain ⟨d, read, some', -⟩ := syntaxError_run "Missing operand to closure" c
          rw [bind_of_ok read] at run
          cases run
          exact ⟨fun _ => some', fun _ => .inl some', (fun is => by cases is), (fun _ is => by cases is)⟩
        · exact still run
      · cases run
        exact ⟨id, (fun is => by cases is), (fun is => by cases is), fun _ _ => rfl⟩
  · rw [decide_eq_true (by omega), if_pos rfl] at run
    exact still run

theorem atomStep_first {c : Scanner} {r : Option (Option Bytes) × Scanner} (inside : c.patternIdx < pattern.length)
    (opens : patternAt pattern c.patternIdx ∉ ascii "^$.[()|")
    (char : patternAt pattern c.patternIdx = '\\'.toUInt8 → ∃ v d, escape pattern c = some (some (.char v), d))
    (run : atomStep pattern [] c = some r) : r.1 ≠ some none := by
  rw [atomStep, atEnd_bind, decide_eq_false (by omega), if_neg (by decide)] at run
  by_cases backslash : patternAt pattern c.patternIdx = '\\'.toUInt8
  · obtain ⟨v, d, read⟩ := char backslash
    have good : ¬BadEscape pattern c.patternIdx := by
      intro bad
      obtain ⟨d', read', -⟩ := escape_bad pattern bad
      rw [read] at read'
      cases read'
    have more : c.patternIdx + 1 < pattern.length := by
      by_contra short
      exact good (.inl (by omega))
    by_cases high : High pattern c.patternIdx
    · obtain ⟨d', ahead, -⟩ := lookAhead_high pattern high
      rw [bind_of_failure ahead] at run
      cases run
      simp
    · obtain ⟨second, ahead⟩ := lookAhead_escaped_run pattern more backslash good high
      obtain ⟨e, i, read', -, sign, small⟩ := escape_good pattern good
      rw [read] at read'
      cases read'
      have low : ¬v < 0 := fun is => high ⟨more, backslash, sign.mp (decide_eq_true is)⟩
      have value := small v rfl
      rw [bind_of_ok ahead, if_neg (by simp), current_bind, peek_bind, if_neg opens, backslash, if_neg (by decide), if_pos rfl,
        bind_of_ok read] at run
      dsimp only at run
      rw [if_neg (by omega)] at run
      cases run
      simp
  · obtain ⟨second, ahead⟩ := lookAhead_plain_run pattern backslash
    rw [bind_of_ok ahead, if_neg (by simp), current_bind, peek_bind, if_neg opens] at run
    split at run
    · cases run
      simp
    · cases run
      simp

end Pattern

end Coast.Regex
