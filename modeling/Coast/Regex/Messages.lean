import Coast.Regex.Reports

/-!
# Error messages and programs

The states that the reader of a pattern comes to, whatever the fuel, and what comes of the message on the way.
A run passes through all of them, so that the two exceptions decide whether `compile` yields a program
exactly when it leaves no message.
-/

namespace Coast.Regex

open Scan

section Pattern

variable (pattern : Bytes)

/-! ### Where the reader comes -/

/-- The loop in `atom` comes with the text from the state in which the atom begins. -/
inductive AtomComes (c : Scanner) : Bytes → Scanner → Prop where
  | begin : AtomComes c [] c
  | char {text text' : Bytes} {d e : Scanner} (comes : AtomComes c text d)
    (step : atomStep pattern text d = some (some (some text'), e)) : AtomComes c text' e

def Ends (c : Scanner) : Prop :=
  pattern.length ≤ c.patternIdx ∨ patternAt pattern c.patternIdx = '|'.toUInt8 ∨ patternAt pattern c.patternIdx = ')'.toUInt8

/-- The loop of `Branch` comes to the state within the open parenthesis of that number. -/
inductive Comes : Option Nat → Scanner → Prop where
  | begin : Comes none ⟨0, 1, 0, []⟩
  | piece {opened : Option Nat} {c d : Scanner} {f g : Nat} {r : Piece × Bool} (comes : Comes opened c) (more : ¬Ends pattern c)
    (read : parseClosure pattern (parseExpr pattern f) g c = some (some r, d)) : Comes opened d
  | alternative {opened : Option Nat} {c : Scanner} (comes : Comes opened c)
    (bar : patternAt pattern c.patternIdx = '|'.toUInt8) : Comes opened (c.moved (c.patternIdx + 1))
  | group {opened : Option Nat} {c : Scanner} (comes : Comes opened c) (paren : patternAt pattern c.patternIdx = '('.toUInt8) :
    Comes (some c.nofParentheses) { c with patternIdx := c.patternIdx + 1, nofParentheses := c.nofParentheses + 1 }

def BareRepetition : Prop :=
  ∃ opened c f g x d, Comes pattern opened c ∧ ¬Ends pattern c ∧
    parseTerminal pattern (parseExpr pattern f) g c = some (some (x, false), d) ∧
      patternAt pattern d.patternIdx = '\x7b'.toUInt8 ∧ isdigit (patternAt pattern (d.patternIdx + 1)) = false

def HighEscape : Prop :=
  ∃ opened c text d, Comes pattern opened c ∧ ¬Ends pattern c ∧ patternAt pattern c.patternIdx ≠ 0 ∧
    AtomComes pattern c text d ∧ High pattern d.patternIdx

def ReadToTheEnd : Prop := ∃ c, Comes pattern none c ∧ c.patternIdx = pattern.length

/-! ### What comes of a piece -/

structure PieceReported {α : Type} (c : Scanner) (r : Option α × Scanner) : Prop where
  keeps : c.errorMsg ≠ [] → r.2.errorMsg ≠ []
  success : r.1.isSome = true → r.2.errorMsg = c.errorMsg ∨ BareRepetition pattern ∨ Doomed pattern r.2.patternIdx
  failure : r.1 = none → r.2.errorMsg ≠ [] ∨ HighEscape pattern

variable {pattern}

theorem Reported.piece {α : Type} {c : Scanner} {r : Option α × Scanner}
    (reported : Reported (BareRepetition pattern) (HighEscape pattern) c r) : PieceReported pattern c r :=
  ⟨reported.keeps, fun is => (reported.success is).imp_right .inl, reported.failure⟩

theorem PieceReported.failed {α β : Type} {c d : Scanner} (reported : PieceReported pattern c ((none : Option α), d)) :
    PieceReported pattern c ((none : Option β), d) :=
  ⟨reported.keeps, (fun is => by cases is), fun _ => reported.failure rfl⟩

theorem PieceReported.returned {α β : Type} {c d : Scanner} {a : α} {b : β} (reported : PieceReported pattern c (some a, d)) :
    PieceReported pattern c (some b, d) :=
  ⟨reported.keeps, fun _ => reported.success rfl, (fun is => by cases is)⟩

theorem atomLoop_reported {c₀ : Scanner}
    (high : ∀ text d, AtomComes pattern c₀ text d → High pattern d.patternIdx → HighEscape pattern) {fuel : Nat} {text : Bytes}
    {c : Scanner} (comes : AtomComes pattern c₀ text c) {r : Option Bytes × Scanner}
    (run : atomLoop pattern fuel text c = some r) : PieceReported pattern c r := by
  induction fuel generalizing text c with
  | zero => cases run
  | succ fuel ih =>
    rw [atomLoop] at run
    obtain ⟨d, failed, rfl⟩ | ⟨a, d, read, run⟩ := bind_some run
    · have here := atomStep_reported pattern failed
      exact ⟨here.keeps, (fun is => by cases is), fun _ => (here.failure rfl).imp_right (high _ _ comes)⟩
    · have here := atomStep_reported pattern read
      cases a with
      | none =>
        cases run
        obtain ⟨same, message⟩ := here.ends rfl
        exact ⟨here.keeps, fun _ => message.imp_right fun doomed => .inr (same.symm ▸ doomed), (fun is => by cases is)⟩
      | some text' =>
        have later := ih (.char comes read) run
        have same := here.goesOn text' rfl
        exact ⟨fun some' => later.keeps (here.keeps some'), fun is => (later.success is).imp_left fun kept => kept.trans same,
          later.failure⟩

theorem atomLoop_nonempty {fuel : Nat} {text text' : Bytes} {c d : Scanner} (nonempty : text ≠ [])
    (run : atomLoop pattern fuel text c = some (some text', d)) : text' ≠ [] := by
  induction fuel generalizing text c with
  | zero => cases run
  | succ fuel ih =>
    obtain ⟨a, e, step, run⟩ := bind_ok run
    rcases atomStep_advances pattern step with ⟨rfl, -⟩ | ⟨ch, rfl, -⟩
    · cases run
      exact nonempty
    · exact ih (List.append_ne_nil_of_right_ne_nil _ (List.cons_ne_nil _ _)) run

theorem atomText_reported {fuel : Nat} {c : Scanner} {r : Option Bytes × Scanner} (inside : c.patternIdx < pattern.length)
    (opens : patternAt pattern c.patternIdx ∉ ascii "^$.[()|")
    (char : patternAt pattern c.patternIdx = '\\'.toUInt8 → ∃ v d, escape pattern c = some (some (.char v), d))
    (high : ∀ text d, AtomComes pattern c text d → High pattern d.patternIdx → HighEscape pattern)
    (run : atomText pattern fuel c = some r) : PieceReported pattern c r := by
  obtain ⟨d, failed, rfl⟩ | ⟨text, d, read, run⟩ := bind_some run
  · exact (atomLoop_reported high .begin failed).failed
  · have loop := atomLoop_reported high .begin read
    have nonempty : text ≠ [] := by
      cases fuel with
      | zero => cases read
      | succ fuel =>
        obtain ⟨a, e, step, read⟩ := bind_ok read
        rcases atomStep_advances pattern step with ⟨rfl, -⟩ | ⟨ch, rfl, -⟩
        · exact absurd rfl (atomStep_first pattern inside opens char step)
        · exact atomLoop_nonempty (List.cons_ne_nil _ _) read
    rw [if_neg nonempty] at run
    cases run
    exact loop.returned

theorem parseTerminal_doomed (expr : Scan (Terminal × Bool)) (fuel : Nat) {c : Scanner} (doomed : Doomed pattern c.patternIdx) :
    ∃ d, parseTerminal pattern expr fuel c = some (none, d) ∧ d.errorMsg ≠ [] := by
  obtain ⟨backslash, bad⟩ := doomed
  obtain ⟨d, read, some'⟩ := escape_bad pattern bad
  have run : parseTerminal pattern expr fuel c = some (none, d) := by
    rw [parseTerminal, current_bind, peek_bind, backslash]
    rw [if_neg (by decide), if_neg (by decide), if_neg (by decide), if_neg (by decide), if_neg (by decide), if_neg (by decide),
      if_neg (by decide), if_neg (by decide), if_neg (by decide), if_pos rfl, bind_of_ok read]
    rfl
  exact ⟨d, run, some'⟩

theorem parseTerminal_reported {opened : Option Nat} {expr : Scan (Terminal × Bool)} {fuel : Nat} {c : Scanner}
    (comes : Comes pattern opened c) (more : ¬Ends pattern c)
    (group : patternAt pattern c.patternIdx = '('.toUInt8 → ReportsAt (BareRepetition pattern) (HighEscape pattern) expr c)
    {r : Option (Terminal × Bool) × Scanner} (run : parseTerminal pattern expr fuel c = some r) : PieceReported pattern c r := by
  by_cases doomed : Doomed pattern c.patternIdx
  · obtain ⟨d, failed, some'⟩ := parseTerminal_doomed expr fuel doomed
    rw [failed] at run
    cases run
    exact ⟨fun _ => some', (fun is => by cases is), fun _ => .inl some'⟩
  have plain : ∀ {x : Scan (Terminal × Bool)}, Reports x → x c = some r → PieceReported pattern c r :=
    fun reports run => (reports _ _ c r run).piece
  have node : ∀ {t : Terminal × Bool}, Reports (advance 1 >>= fun _ => (pure t : Scan (Terminal × Bool))) :=
    Reports.advance.bind fun _ => .pure _
  have text : ∀ {ch : UInt8}, patternAt pattern c.patternIdx = ch → ch ≠ 0 → ch ∉ ascii "^$.[()|" →
      (ch = '\\'.toUInt8 → ∃ v d, escape pattern c = some (some (.char v), d)) →
      (atomText pattern fuel >>= fun text => (pure (.simple (.opAtom text), false) : Scan (Terminal × Bool))) c = some r →
        PieceReported pattern c r := by
    intro ch at' nonzero opens char run
    have high : ∀ text d, AtomComes pattern c text d → High pattern d.patternIdx → HighEscape pattern :=
      fun text d reached high => ⟨opened, c, text, d, comes, more, at' ▸ nonzero, reached, high⟩
    have inside := inside_of_patternAt pattern at' nonzero
    obtain ⟨d, failed, rfl⟩ | ⟨text, d, read, run⟩ := bind_some run
    · exact (atomText_reported inside (at' ▸ opens) (at' ▸ char) high failed).failed
    · have atom := atomText_reported inside (at' ▸ opens) (at' ▸ char) high read
      cases run
      exact atom.returned
  rw [parseTerminal, current_bind, peek_bind] at run
  obtain ⟨ch, at'⟩ : ∃ ch, patternAt pattern c.patternIdx = ch := ⟨_, rfl⟩
  rw [at'] at run
  by_cases eol : ch = '$'.toUInt8
  · rw [if_pos eol] at run
    exact plain node run
  by_cases bol : ch = '^'.toUInt8
  · rw [if_neg eol, if_pos bol] at run
    exact plain node run
  by_cases any : ch = '.'.toUInt8
  · rw [if_neg eol, if_neg bol, if_pos any] at run
    exact plain node run
  by_cases bracket : ch = '['.toUInt8
  · rw [if_neg eol, if_neg bol, if_neg any, if_pos bracket] at run
    exact plain ((parseClass_reports pattern fuel).bind fun _ => .pure _) run
  by_cases paren : ch = '('.toUInt8
  · rw [if_neg eol, if_neg bol, if_neg any, if_neg bracket, if_pos paren] at run
    exact (group (at'.trans paren) r run).piece
  by_cases close : ch = ')'.toUInt8
  · exact absurd (.inr (.inr (at'.trans close))) more
  by_cases bar : ch = '|'.toUInt8
  · exact absurd (.inr (.inl (at'.trans bar))) more
  rw [if_neg eol, if_neg bol, if_neg any, if_neg bracket, if_neg paren, if_neg close, if_neg bar] at run
  by_cases zero : ch = 0
  · rw [if_pos zero] at run
    exact plain (.error _) run
  have opens : ch ∉ ascii "^$.[()|" := by
    have listed : ascii "^$.[()|" = ['^'.toUInt8, '$'.toUInt8, '.'.toUInt8, '['.toUInt8, '('.toUInt8, ')'.toUInt8, '|'.toUInt8] := by
      decide
    rw [listed]
    simp only [List.mem_cons, List.not_mem_nil, not_or]
    exact ⟨bol, eol, any, bracket, paren, close, bar, not_false⟩
  rw [if_neg zero] at run
  split at run
  · exact plain (.error _) run
  by_cases backslash : ch = '\\'.toUInt8
  · obtain ⟨e, i, read, noError, -⟩ := escape_good pattern fun bad => doomed ⟨at'.trans backslash, bad⟩
    rw [if_pos backslash, bind_of_ok read] at run
    have moved : ∀ {x : Scan (Terminal × Bool)}, Reports x → x (c.moved i) = some r → PieceReported pattern c r := by
      intro x reports run
      have later := reports (BareRepetition pattern) (HighEscape pattern) _ r run
      exact Reported.piece ⟨later.keeps, later.success, later.failure⟩
    cases e with
    | cls => exact moved (Reports.current.bind fun _ => .pure _) run
    | complex => exact moved (Reports.current.bind fun _ => .pure _) run
    | backref => exact moved (Reports.current.bind fun _ => .ite (.pure _) (.error _)) run
    | error => exact absurd rfl noError
    | char v => exact text at' zero opens (fun _ => ⟨v, _, read⟩) run
  · rw [if_neg backslash] at run
    exact text at' zero opens (fun is => absurd is backslash) run

/-! ### Closures -/

variable (pattern) in
/-- The part of `closure` behind its terminal. -/
def closureMarks (r : Terminal × Bool) : Scan (Piece × Bool) := do
  if ← atEnd pattern then return (r.1.piece, r.2)
  else
    let closureType ← peek pattern
    if isClosure closureType = false then return (r.1.piece, r.2)
    else if closureType = '\x7b'.toUInt8 then
      if r.2 then
        syntaxError "Closure operand can't be nullable"
        failure
      else parseRepetition pattern r.1
    else
      advance 1
      if r.2 then
        syntaxError "Closure operand can't be nullable"
        failure
      else
        let reluctant ← parseMark pattern
        return (closureOf closureType reluctant r.1.piece, closureType ≠ '+'.toUInt8)

theorem parseClosure_eq (expr : Scan (Terminal × Bool)) (fuel : Nat) :
    parseClosure pattern expr fuel = parseTerminal pattern expr fuel >>= closureMarks pattern := rfl

theorem parseRepetition_reported {x : Terminal} {bare silent : Prop} {c : Scanner}
    (excuse : isdigit (patternAt pattern (c.patternIdx + 1)) = false → bare) :
    ReportsAt bare silent (parseRepetition pattern x) c :=
  (bracket_reported pattern excuse).bind fun _ d _ => Reports.ite (.error _) (.pure _) bare silent d

theorem closureMarks_reported {x : Terminal × Bool} {bare silent : Prop} {c : Scanner}
    (excuse : x.2 = false → patternAt pattern c.patternIdx = '\x7b'.toUInt8 →
      isdigit (patternAt pattern (c.patternIdx + 1)) = false → bare) : ReportsAt bare silent (closureMarks pattern x) c := by
  have read : ∀ {y : Scan (Piece × Bool)}, Reports y → ReportsAt bare silent y c := fun reports => reports bare silent c
  refine ReportsAt.atEnd (.ite (fun _ => read (.pure _)) fun _ => .peek (.ite (fun _ => read (.pure _)) fun _ => ?_))
  refine .ite (fun brace => ?_) fun _ => ?_
  · exact .ite (fun _ => read (.error _)) fun nullable => parseRepetition_reported (excuse (by simpa using nullable) brace)
  · refine read (Reports.advance.bind fun _ => .ite (.error _) (Reports.bind ?_ fun _ => .pure _))
    exact Reports.peek.bind fun _ => .ite (Reports.advance.bind fun _ => .pure _) (.pure _)

theorem closureMarks_bare {x : Terminal} {c : Scanner} (brace : patternAt pattern c.patternIdx = '\x7b'.toUInt8)
    (bare : isdigit (patternAt pattern (c.patternIdx + 1)) = false) {r : Option (Piece × Bool) × Scanner}
    (run : closureMarks pattern (x, false) c = some r) : r.2.errorMsg ≠ [] := by
  have inside := inside_of_patternAt pattern brace (by decide)
  rw [closureMarks, atEnd_bind, decide_eq_false (by omega), if_neg (by decide), peek_bind, brace, if_neg (by decide), if_pos rfl,
    if_neg Bool.false_ne_true, parseRepetition] at run
  obtain ⟨d, failed, rfl⟩ | ⟨a, d, read, run⟩ := bind_some run
  · exact bracket_bare pattern bare failed
  · have some' := bracket_bare pattern bare read
    exact (Reports.ite (.error _) (.pure _) True True d r run).keeps some'

theorem closureMarks_doomed {x : Terminal × Bool} {c : Scanner} (doomed : Doomed pattern c.patternIdx) :
    closureMarks pattern x c = some (some (x.1.piece, x.2), c) := by
  have inside := inside_of_patternAt pattern doomed.1 (by decide)
  rw [closureMarks, atEnd_bind, decide_eq_false (by omega), if_neg (by decide), peek_bind, doomed.1, if_pos (by decide)]
  rfl

theorem parseClosure_reported {opened : Option Nat} {f fuel : Nat} {c : Scanner}
    (comes : Comes pattern opened c) (more : ¬Ends pattern c)
    (group : patternAt pattern c.patternIdx = '('.toUInt8 →
      ReportsAt (BareRepetition pattern) (HighEscape pattern) (parseExpr pattern f) c)
    {r : Option (Piece × Bool) × Scanner} (run : parseClosure pattern (parseExpr pattern f) fuel c = some r) :
    PieceReported pattern c r := by
  obtain ⟨d, failed, rfl⟩ | ⟨x, d, read, run⟩ := bind_some (parseClosure_eq _ _ ▸ run)
  · exact (parseTerminal_reported comes more group failed).failed
  · have terminal := parseTerminal_reported comes more group read
    by_cases doomed : Doomed pattern d.patternIdx
    · rw [closureMarks_doomed doomed] at run
      cases run
      exact ⟨terminal.keeps, fun _ => .inr (.inr doomed), (fun is => by cases is)⟩
    · have excuse : x.2 = false → patternAt pattern d.patternIdx = '\x7b'.toUInt8 →
          isdigit (patternAt pattern (d.patternIdx + 1)) = false → BareRepetition pattern := by
        intro nullable brace bare
        obtain ⟨x, nullable'⟩ := x
        subst nullable
        exact ⟨opened, c, f, fuel, x, d, comes, more, read, brace, bare⟩
      have marks : Reported (BareRepetition pattern) (HighEscape pattern) d r := closureMarks_reported excuse r run
      refine ⟨fun some' => marks.keeps (terminal.keeps some'), fun is => ?_, marks.failure⟩
      rcases marks.success is with same | bare
      · rcases terminal.success rfl with same' | bare | doomed'
        · exact .inl (same.trans same')
        · exact .inr (.inl bare)
        · exact absurd doomed' doomed
      · exact .inr (.inl bare)

theorem parseClosure_doomed (expr : Scan (Terminal × Bool)) (fuel : Nat) {c : Scanner} (doomed : Doomed pattern c.patternIdx) :
    ∃ d, parseClosure pattern expr fuel c = some (none, d) ∧ d.errorMsg ≠ [] := by
  obtain ⟨d, failed, some'⟩ := parseTerminal_doomed expr fuel doomed
  exact ⟨d, bind_of_failure failed, some'⟩

/-! ### Branches and expressions -/

theorem ends_iff {c : Scanner} : (decide (pattern.length ≤ c.patternIdx) = true ∨ patternAt pattern c.patternIdx = '|'.toUInt8 ∨
    patternAt pattern c.patternIdx = ')'.toUInt8) ↔ Ends pattern c := by
  rw [decide_eq_true_eq]
  rfl

theorem parsePieces_ended {expr : Scan (Terminal × Bool)} {fuel : Nat} {s : Sequence} {b : Bool} {c : Scanner}
    (ended : Ends pattern c) : parsePieces pattern expr (fuel + 1) s b c = some (some (s, b), c) := by
  rw [parsePieces, peek_bind, atEnd_bind, if_pos (ends_iff.mpr ended)]
  rfl

theorem parsePieces_more {expr : Scan (Terminal × Bool)} {fuel : Nat} {s : Sequence} {b : Bool} {c : Scanner}
    (more : ¬Ends pattern c) : parsePieces pattern expr (fuel + 1) s b c = (parseClosure pattern expr fuel >>= fun r =>
      if s.broken then stuck else parsePieces pattern expr fuel (s.add r.1) (b && r.2)) c := by
  rw [parsePieces, peek_bind, atEnd_bind, if_neg (mt ends_iff.mp more)]

theorem parsePieces_doomed {expr : Scan (Terminal × Bool)} {fuel : Nat} {s : Sequence} {b : Bool} {c : Scanner}
    (doomed : Doomed pattern c.patternIdx) {r : Option (Sequence × Bool) × Scanner}
    (run : parsePieces pattern expr fuel s b c = some r) : r.1 = none ∧ r.2.errorMsg ≠ [] := by
  cases fuel with
  | zero => cases run
  | succ fuel =>
    have more : ¬Ends pattern c := by
      rintro (behind | bar | close)
      · exact absurd (inside_of_patternAt pattern doomed.1 (by decide)) (Nat.not_lt.mpr behind)
      · exact absurd (bar.symm.trans doomed.1) (by decide)
      · exact absurd (close.symm.trans doomed.1) (by decide)
    obtain ⟨d, failed, some'⟩ := parseClosure_doomed expr fuel doomed
    rw [parsePieces_more more, bind_of_failure failed] at run
    cases run
    exact ⟨rfl, some'⟩

theorem parsePieces_comes {opened : Option Nat} {f fuel : Nat} {s : Sequence} {b : Bool} {c d : Scanner} {r : Sequence × Bool}
    (comes : Comes pattern opened c) (run : parsePieces pattern (parseExpr pattern f) fuel s b c = some (some r, d)) :
    Comes pattern opened d := by
  induction fuel generalizing s b c with
  | zero => cases run
  | succ fuel ih =>
    by_cases more : Ends pattern c
    · rw [parsePieces_ended more] at run
      cases run
      exact comes
    · rw [parsePieces_more more] at run
      obtain ⟨x, e, read, run⟩ := bind_ok run
      split at run
      · cases run
      · exact ih (.piece comes more read) run

theorem parseAlternatives_comes {opened : Option Nat} {f fuel : Nat} {branches : List Sequence} {b : Bool} {c d : Scanner}
    {r : List Sequence × Bool} (comes : Comes pattern opened c)
    (run : parseAlternatives pattern (parseExpr pattern f) fuel branches b c = some (some r, d)) : Comes pattern opened d := by
  induction fuel generalizing branches b c with
  | zero => cases run
  | succ fuel ih =>
    rw [parseAlternatives, atEnd_bind, peek_bind] at run
    split at run
    · cases run
      exact comes
    · rename_i more
      have bar : patternAt pattern c.patternIdx = '|'.toUInt8 := by
        by_contra other
        exact more (.inr other)
      rw [advance_bind] at run
      obtain ⟨x, e, read, run⟩ := bind_ok run
      exact ih (parsePieces_comes (.alternative comes bar) read) run

theorem parseAlternatives_bar {expr : Scan (Terminal × Bool)} {fuel : Nat} {branches : List Sequence} {b : Bool} {c : Scanner}
    (bar : patternAt pattern c.patternIdx = '|'.toUInt8) : parseAlternatives pattern expr (fuel + 1) branches b c =
      (advance 1 >>= fun _ => parsePieces pattern expr fuel .empty true >>= fun r =>
        parseAlternatives pattern expr fuel (branches ++ [r.1]) (b || r.2)) c := by
  have inside := inside_of_patternAt pattern bar (by decide)
  rw [parseAlternatives, atEnd_bind, peek_bind, decide_eq_false (by omega), if_neg (by simp [bar])]

def GroupsReport (pattern : Bytes) (f : Nat) : Prop :=
  ∀ opened c, Comes pattern opened c → patternAt pattern c.patternIdx = '('.toUInt8 →
    ReportsAt (BareRepetition pattern) (HighEscape pattern) (parseExpr pattern f) c

section Groups

variable {opened : Option Nat} {f fuel : Nat} {c : Scanner} (groups : GroupsReport pattern f) (comes : Comes pattern opened c)

include groups comes

theorem parsePieces_reported (s : Sequence) (b : Bool) : ReportsAt (BareRepetition pattern) (HighEscape pattern)
    (parsePieces pattern (parseExpr pattern f) fuel s b) c := by
  induction fuel generalizing s b c with
  | zero => exact Reports.stuck _ _ c
  | succ fuel ih =>
    intro r run
    by_cases more : Ends pattern c
    · rw [parsePieces_ended more] at run
      cases run
      exact ⟨id, fun _ => .inl rfl, (fun is => by cases is)⟩
    rw [parsePieces_more more] at run
    obtain ⟨d, failed, rfl⟩ | ⟨x, d, read, run⟩ := bind_some run
    · have piece := parseClosure_reported comes more (groups opened c comes) failed
      exact ⟨piece.keeps, (fun is => by cases is), fun _ => piece.failure rfl⟩
    · have piece := parseClosure_reported comes more (groups opened c comes) read
      split at run
      · cases run
      have later := ih (.piece comes more read) _ _ r run
      refine ⟨fun some' => later.keeps (piece.keeps some'), fun is => ?_, later.failure⟩
      rcases piece.success rfl with same | bare | doomed
      · exact (later.success is).imp_left fun kept => kept.trans same
      · exact .inr bare
      · -- The next piece would have failed.
        obtain ⟨failed, -⟩ := parsePieces_doomed doomed run
        rw [failed] at is
        cases is

theorem parseAlternatives_reported (branches : List Sequence) (b : Bool) : ReportsAt (BareRepetition pattern) (HighEscape pattern)
    (parseAlternatives pattern (parseExpr pattern f) fuel branches b) c := by
  induction fuel generalizing branches b c with
  | zero => exact Reports.stuck _ _ c
  | succ fuel ih =>
    refine .atEnd (.peek (.ite (fun _ => Reports.pure _ _ _ c) fun more => ?_))
    have bar : patternAt pattern c.patternIdx = '|'.toUInt8 := by
      by_contra other
      exact more (.inr other)
    have next := Comes.alternative comes bar
    intro r run
    rw [advance_bind] at run
    have later : Reported (BareRepetition pattern) (HighEscape pattern) (c.moved (c.patternIdx + 1)) r :=
      (parsePieces_reported groups next _ _).bind (fun x d read => ih (parsePieces_comes next read) _ _) r run
    exact ⟨later.keeps, later.success, later.failure⟩

end Groups

theorem parseClose_reports (opened : Option Nat) : Reports (parseClose pattern opened) := by
  cases opened with
  | none => exact .pure _
  | some number => exact Reports.peek.bind fun _ => .ite (Reports.advance.bind fun _ => .still fun c => ⟨_, _, rfl, rfl⟩) (.error _)

theorem groups_report (f : Nat) : GroupsReport pattern f := by
  induction f with
  | zero => exact fun _ c _ _ => Reports.stuck _ _ c
  | succ f ih =>
    intro opened c comes paren r run
    have inner := Comes.group comes paren
    have later : Reported (BareRepetition pattern) (HighEscape pattern)
        { c with patternIdx := c.patternIdx + 1, nofParentheses := c.nofParentheses + 1 } r := by
      refine ReportsAt.bind (.bind (parsePieces_reported ih inner _ _) fun s d read => ?_) (fun x d _ => Reports.pure _ _ _ d) r run
      have inner' := parsePieces_comes inner read
      refine (parseAlternatives_reported ih inner' _ _).bind fun branches e _ => ?_
      exact ((parseClose_reports _).bind fun _ => .ite .stuck (.pure _)) _ _ e
    exact ⟨later.keeps, later.success, later.failure⟩

/-! ### Where a run comes -/

theorem returns_unique {α : Type} {x : Nat → Nat → Scan α} (both : ∀ f g, Within (x f g) (x (f + 1) (g + 1)))
    (second : ∀ f g, Within (x f g) (x f (g + 1))) {f g f' g' : Nat} {c : Scanner} {r r' : Option α × Scanner}
    (run : x f g c = some r) (run' : x f' g' c = some r') : r = r' := by
  have climbs : ∀ {f g : Nat} {r : Option α × Scanner}, x f g c = some r → ∀ k j, x (f + k) (g + k + j) c = some r := by
    intro f g r run k j
    induction j with
    | zero =>
      induction k with
      | zero => exact run
      | succ k ih => exact both _ _ c r ih
    | succ j ih => exact second _ _ c r ih
  have high := climbs run f' (g' + f)
  have high' := climbs run' f (g + f')
  rw [Nat.add_comm f' f, show g' + f + (g + f') = g + f' + (g' + f) by omega, high] at high'
  exact Option.some.inj high'

theorem parseTerminal_unique {f g f' g' : Nat} {c : Scanner} {r r' : Option (Terminal × Bool) × Scanner}
    (run : parseTerminal pattern (parseExpr pattern f) g c = some r)
    (run' : parseTerminal pattern (parseExpr pattern f') g' c = some r') : r = r' :=
  returns_unique (fun f g => parseTerminal_within pattern (parseExpr_within pattern f) g)
    (fun _ g => parseTerminal_within pattern .refl g) run run'

theorem parseClosure_unique {f g f' g' : Nat} {c : Scanner} {r r' : Option (Piece × Bool) × Scanner}
    (run : parseClosure pattern (parseExpr pattern f) g c = some r)
    (run' : parseClosure pattern (parseExpr pattern f') g' c = some r') : r = r' :=
  returns_unique (fun f g => parseClosure_within pattern (parseExpr_within pattern f) g)
    (fun _ g => parseClosure_within pattern .refl g) run run'

variable (pattern) in
def restOfExpr (opened : Option Nat) (f g h : Nat) (s : Sequence) (b : Bool) (k : Sequence × Bool → List Sequence × Bool) :
    Scan Unit :=
  parsePieces pattern (parseExpr pattern f) g s b >>= fun r =>
    parseAlternatives pattern (parseExpr pattern f) h (k r).1 (k r).2 >>= fun _ => parseClose pattern opened

theorem restOfExpr_reported {opened : Option Nat} {f g h : Nat} {s : Sequence} {b : Bool}
    {k : Sequence × Bool → List Sequence × Bool} {c : Scanner} (comes : Comes pattern opened c) :
    ReportsAt (BareRepetition pattern) (HighEscape pattern) (restOfExpr pattern opened f g h s b k) c := by
  refine .bind (parsePieces_reported (groups_report f) comes _ _) fun r d read => ?_
  refine .bind (parseAlternatives_reported (groups_report f) (parsePieces_comes comes read) _ _) fun _ e _ => ?_
  exact parseClose_reports _ _ _ e

theorem parseExprWith_rest {opened : Option Nat} {f fuel : Nat} {c : Scanner} {r : Option (Alts × Bool) × Scanner}
    (run : parseExprWith pattern (parseExpr pattern f) opened fuel c = some r) :
    ∃ a, restOfExpr pattern opened f fuel fuel .empty true (fun r => ([], r.2)) c = some (a, r.2) ∧ (a = none ↔ r.1 = none) := by
  obtain ⟨d, failed, rfl⟩ | ⟨first, d, read, run⟩ := bind_some run
  · exact ⟨none, bind_of_failure failed, iff_of_true rfl rfl⟩
  obtain ⟨e, failed, rfl⟩ | ⟨branches, e, read', run⟩ := bind_some run
  · exact ⟨none, (bind_of_ok read).trans (bind_of_failure failed), iff_of_true rfl rfl⟩
  obtain ⟨e', failed, rfl⟩ | ⟨u, e', closed, run⟩ := bind_some run
  · exact ⟨none, (bind_of_ok read).trans ((bind_of_ok read').trans failed), iff_of_true rfl rfl⟩
  split at run
  · cases run
  · cases run
    exact ⟨some (), (bind_of_ok read).trans ((bind_of_ok read').trans closed), iff_of_false (by simp) (by simp)⟩

theorem parseExpr_rest {f : Nat} {c : Scanner} {r : Option (Terminal × Bool) × Scanner} (run : parseExpr pattern f c = some r) :
    ∃ f a, restOfExpr pattern (some c.nofParentheses) f f f .empty true (fun r => ([], r.2))
      { c with patternIdx := c.patternIdx + 1, nofParentheses := c.nofParentheses + 1 } = some (a, r.2) ∧ (a = none ↔ r.1 = none) := by
  cases f with
  | zero => cases run
  | succ f =>
    have inner : (parseExprWith pattern (parseExpr pattern f) (some c.nofParentheses) f >>= fun r =>
        (pure (.group c.nofParentheses r.1, r.2) : Scan (Terminal × Bool)))
          { c with patternIdx := c.patternIdx + 1, nofParentheses := c.nofParentheses + 1 } = some r := run
    obtain ⟨d, failed, rfl⟩ | ⟨x, d, read, done⟩ := bind_some inner
    · obtain ⟨a, rest, none'⟩ := parseExprWith_rest failed
      exact ⟨f, a, rest, none'.trans (iff_of_true rfl rfl)⟩
    · obtain ⟨a, rest, none'⟩ := parseExprWith_rest read
      cases done
      exact ⟨f, a, rest, none'.trans (iff_of_false (by simp) (by simp))⟩

inductive Concludes (pattern : Bytes) : Option Unit → Scanner → Option Alts × Bytes → Prop where
  | fails (e : Scanner) : Concludes pattern none e (none, e.errorMsg)
  | ends {e : Scanner} (alts : Alts) (behind : e.patternIdx = pattern.length) : Concludes pattern (some ()) e (some alts, e.errorMsg)
  | remains {e : Scanner} {msg : Bytes} (more : e.patternIdx ≠ pattern.length) (some' : msg ≠ []) :
    Concludes pattern (some ()) e (none, msg)

theorem readAll_ended {c : Scanner} (ended : c.patternIdx = pattern.length) : readAll pattern c = some (some (), c) := by
  rw [readAll, current_bind, if_pos ended]
  rfl

theorem readAll_remains {c : Scanner} (more : c.patternIdx ≠ pattern.length) :
    ∃ d, readAll pattern c = some (none, d) ∧ d.errorMsg ≠ [] := by
  rw [readAll, current_bind, if_neg more, peek_bind]
  split
  · obtain ⟨d, read, some', -⟩ := syntaxError_run "Unmatched close paren" c
    rw [bind_of_ok read]
    exact fails_failure.error _ d some'
  · obtain ⟨d, read, some', -⟩ := syntaxError_run "Unexpected input remains" c
    exact ⟨d, bind_of_ok read, some'⟩

theorem parse_outcome {fuel : Nat} {final : Option Alts × Bytes} (done : parse pattern fuel = some final) :
    ∃ a e, restOfExpr pattern none fuel fuel fuel .empty true (fun r => ([], r.2)) ⟨0, 1, 0, []⟩ = some (a, e) ∧
      Concludes pattern a e final := by
  rw [parse] at done
  cases run : parseWith pattern fuel ⟨0, 0, 0, []⟩ with
  | none =>
    rw [run] at done
    cases done
  | some result =>
    obtain ⟨res, c⟩ := result
    rw [run] at done
    cases done
    obtain ⟨d, failed, is⟩ | ⟨x, d, read, run⟩ := bind_some run
    · cases is
      obtain ⟨a, rest, none'⟩ := parseExprWith_rest failed
      rw [none'.mpr rfl] at rest
      exact ⟨none, _, rest, .fails _⟩
    · obtain ⟨a, rest, none'⟩ := parseExprWith_rest read
      cases a with
      | none => cases none'.mp rfl
      | some u =>
        have behind : (readAll pattern >>= fun _ => (pure x.1 : Scan Alts)) d = some (res, c) := run
        refine ⟨some u, d, rest, ?_⟩
        by_cases ended : d.patternIdx = pattern.length
        · rw [bind_of_ok (readAll_ended ended)] at behind
          cases behind
          exact .ends x.1 ended
        · obtain ⟨e, failed, some'⟩ := readAll_remains ended
          rw [bind_of_failure failed] at behind
          cases behind
          exact .remains ended some'

variable (pattern) in
def Passes (final : Option Alts × Bytes) (opened : Option Nat) (c : Scanner) : Prop :=
  ∃ f g h s b k a e, restOfExpr pattern opened f g h s b k c = some (a, e) ∧ (a = none → final = (none, e.errorMsg)) ∧
    (e.errorMsg ≠ [] → final.2 ≠ []) ∧
      (a.isSome = true → opened = none → e.patternIdx = pattern.length → final.1.isSome = true)

theorem not_ends_of_paren {c : Scanner} (paren : patternAt pattern c.patternIdx = '('.toUInt8) : ¬Ends pattern c := by
  rintro (behind | bar | close)
  · exact absurd (inside_of_patternAt pattern paren (by decide)) (Nat.not_lt.mpr behind)
  · exact absurd (bar.symm.trans paren) (by decide)
  · exact absurd (close.symm.trans paren) (by decide)

theorem parseTerminal_paren {expr : Scan (Terminal × Bool)} {fuel : Nat} {c : Scanner}
    (paren : patternAt pattern c.patternIdx = '('.toUInt8) : parseTerminal pattern expr fuel c = expr c := by
  rw [parseTerminal, current_bind, peek_bind, paren]
  rw [if_neg (by decide), if_neg (by decide), if_neg (by decide), if_neg (by decide), if_pos rfl]

section Run

variable {fuel : Nat} {final : Option Alts × Bytes}

theorem passes_begin (done : parse pattern fuel = some final) : Passes pattern final none ⟨0, 1, 0, []⟩ := by
  obtain ⟨a, e, rest, outcome⟩ := parse_outcome done
  refine ⟨_, _, _, _, _, _, a, e, rest, ?_⟩
  cases outcome with
  | fails => exact ⟨fun _ => rfl, id, (fun is => by cases is)⟩
  | ends => exact ⟨(fun is => by cases is), id, fun _ _ _ => rfl⟩
  | remains more some' => exact ⟨(fun is => by cases is), fun _ => some', fun _ _ ended => absurd ended more⟩

theorem Passes.closure {opened : Option Nat} {c : Scanner} (passes : Passes pattern final opened c) (comes : Comes pattern opened c)
    (more : ¬Ends pattern c) : ∃ f g r d, parseClosure pattern (parseExpr pattern f) g c = some (r, d) ∧
      (r = none → final = (none, d.errorMsg)) ∧ (d.errorMsg ≠ [] → final.2 ≠ []) ∧ (r.isSome = true → Passes pattern final opened d) := by
  obtain ⟨f, g, h, s, b, k, a, e, run, fails, keeps, ends⟩ := passes
  cases g with
  | zero => cases run
  | succ g =>
    have split : (parseClosure pattern (parseExpr pattern f) g >>= fun r =>
        (if s.broken then stuck else parsePieces pattern (parseExpr pattern f) g (s.add r.1) (b && r.2)) >>= fun r =>
          parseAlternatives pattern (parseExpr pattern f) h (k r).1 (k r).2 >>= fun _ => parseClose pattern opened) c =
        some (a, e) := by
      rw [← bind_assoc, ← run, restOfExpr]
      exact (bind_congr_run (parsePieces_more more) fun _ _ _ => rfl).symm
    obtain ⟨d, failed, is⟩ | ⟨r, d, read, split⟩ := bind_some split
    · cases is
      exact ⟨f, g, none, _, failed, fun _ => fails rfl, keeps, (fun is => by cases is)⟩
    · split_ifs at split with broken
      · cases split
      · have behind : restOfExpr pattern opened f g h (s.add r.1) (b && r.2) k d = some (a, e) := split
        have reported := restOfExpr_reported (.piece comes more read) _ behind
        exact ⟨f, g, some r, d, read, (fun is => by cases is), fun some' => keeps (reported.keeps some'),
          fun _ => ⟨f, g, h, _, _, k, a, e, behind, fails, keeps, ends⟩⟩

theorem Passes.alternative {opened : Option Nat} {c : Scanner} (passes : Passes pattern final opened c)
    (bar : patternAt pattern c.patternIdx = '|'.toUInt8) : Passes pattern final opened (c.moved (c.patternIdx + 1)) := by
  obtain ⟨f, g, h, s, b, k, a, e, run, outcome⟩ := passes
  have inside := inside_of_patternAt pattern bar (by decide)
  cases g with
  | zero => cases run
  | succ g =>
    rw [restOfExpr, bind_of_ok (parsePieces_ended (.inr (.inl bar)))] at run
    cases h with
    | zero => cases run
    | succ h =>
      refine ⟨f, h, h, .empty, true, fun r => ((k (s, b)).1 ++ [r.1], (k (s, b)).2 || r.2), a, e, ?_, outcome⟩
      rw [← run, restOfExpr, ← bind_assoc]
      exact (bind_congr_run (parseAlternatives_bar bar) fun _ _ _ => rfl).symm

theorem Passes.piece {opened : Option Nat} {f g : Nat} {c d : Scanner} {r : Piece × Bool} (passes : Passes pattern final opened c)
    (comes : Comes pattern opened c) (more : ¬Ends pattern c)
    (read : parseClosure pattern (parseExpr pattern f) g c = some (some r, d)) : Passes pattern final opened d := by
  obtain ⟨f', g', r', d', read', -, -, behind⟩ := passes.closure comes more
  cases parseClosure_unique read read'
  exact behind rfl

theorem Passes.group {opened : Option Nat} {c : Scanner} (passes : Passes pattern final opened c) (comes : Comes pattern opened c)
    (paren : patternAt pattern c.patternIdx = '('.toUInt8) :
    Passes pattern final (some c.nofParentheses)
      { c with patternIdx := c.patternIdx + 1, nofParentheses := c.nofParentheses + 1 } := by
  obtain ⟨f, g, r, d, read, fails, keeps, -⟩ := passes.closure comes (not_ends_of_paren paren)
  rw [parseClosure_eq] at read
  obtain ⟨e, terminal, is⟩ | ⟨x, e, terminal, marks⟩ := bind_some read
  · cases is
    obtain ⟨f, a, rest, -⟩ := parseExpr_rest (parseTerminal_paren paren ▸ terminal)
    exact ⟨f, f, f, _, _, _, a, _, rest, fun _ => fails rfl, keeps, fun _ is => (by cases is)⟩
  · obtain ⟨f, a, rest, none'⟩ := parseExpr_rest (parseTerminal_paren paren ▸ terminal)
    have reported : Reported True True e (r, d) := closureMarks_reported (fun _ _ _ => trivial) _ marks
    exact ⟨f, f, f, _, _, _, a, e, rest, fun is => (by cases none'.mp is), fun some' => keeps (reported.keeps some'),
      fun _ is => (by cases is)⟩

theorem passes_of_comes (done : parse pattern fuel = some final) {opened : Option Nat} {c : Scanner} (comes : Comes pattern opened c) :
    Passes pattern final opened c := by
  induction comes with
  | begin => exact passes_begin done
  | piece comes more read ih => exact ih.piece comes more read
  | alternative _ bar ih => exact ih.alternative bar
  | group comes paren ih => exact ih.group comes paren

theorem message_of_comes {opened : Option Nat} {c : Scanner} (comes : Comes pattern opened c) (some' : c.errorMsg ≠ []) :
    BareRepetition pattern ∨ Doomed pattern c.patternIdx := by
  have other : ∀ {c : Scanner} {ch : UInt8}, patternAt pattern c.patternIdx = ch → ch ≠ '\\'.toUInt8 →
      BareRepetition pattern ∨ Doomed pattern c.patternIdx → BareRepetition pattern := by
    intro c ch is differs excuse
    exact excuse.resolve_right fun doomed => differs (is.symm.trans doomed.1)
  induction comes with
  | begin => exact absurd rfl some'
  | @piece opened c d f g r comes more read ih =>
    have reported := parseClosure_reported comes more (groups_report f opened c comes) read
    rcases reported.success rfl with same | excuse
    · rcases ih (same ▸ some') with bare | doomed
      · exact .inl bare
      · obtain ⟨e, failed, -⟩ := parseClosure_doomed (parseExpr pattern f) g doomed
        rw [read] at failed
        cases failed
    · exact excuse
  | alternative _ bar ih => exact .inl (other bar (by decide) (ih some'))
  | group _ paren ih => exact .inl (other paren (by decide) (ih some'))

theorem message_of_bareRepetition (done : parse pattern fuel = some final) (bare : BareRepetition pattern) : final.2 ≠ [] := by
  obtain ⟨opened, c, f, g, x, d, comes, more, read, brace, missing⟩ := bare
  obtain ⟨f', g', r, e, run, fails, keeps, -⟩ := (passes_of_comes done comes).closure comes more
  rw [parseClosure_eq] at run
  obtain ⟨d', failed, is⟩ | ⟨x', d', read', run⟩ := bind_some run
  · cases parseTerminal_unique read failed
  · cases parseTerminal_unique read read'
    exact keeps (closureMarks_bare brace missing run)

theorem atomLoop_of_comes {c d : Scanner} {text : Bytes} (comes : AtomComes pattern c text d) {f : Nat}
    {r : Option Bytes × Scanner} (run : atomLoop pattern f [] c = some r) : ∃ f, atomLoop pattern f text d = some r := by
  induction comes with
  | begin => exact ⟨f, run⟩
  | char _ step ih =>
    obtain ⟨f, run⟩ := ih
    cases f with
    | zero => cases run
    | succ f =>
      rw [atomLoop, bind_of_ok step] at run
      exact ⟨f, run⟩

theorem AtomComes.first {c d : Scanner} {text : Bytes} (comes : AtomComes pattern c text d) :
    d = c ∧ text = [] ∨ ∃ text e, atomStep pattern [] c = some (some (some text), e) := by
  induction comes with
  | begin => exact .inl ⟨rfl, rfl⟩
  | char _ step ih =>
    rcases ih with ⟨rfl, rfl⟩ | first
    · exact .inr ⟨_, _, step⟩
    · exact .inr first

theorem AtomComes.errorMsg {c d : Scanner} {text : Bytes} (comes : AtomComes pattern c text d) : d.errorMsg = c.errorMsg := by
  induction comes with
  | begin => rfl
  | char _ step ih => exact ((atomStep_reported pattern step).goesOn _ rfl).trans ih

/-- The state in which `terminal` begins an atom. -/
structure BeginsAtom (pattern : Bytes) (c : Scanner) : Prop where
  opens : patternAt pattern c.patternIdx ∉ ascii "^$.[()|"
  operand : isClosure (patternAt pattern c.patternIdx) = false
  char : patternAt pattern c.patternIdx = '\\'.toUInt8 → ∃ v i, escape pattern c = some (some (.char v), c.moved i)

theorem beginsAtom_of_high {c : Scanner} (high : High pattern c.patternIdx) : BeginsAtom pattern c := by
  obtain ⟨inside, backslash, byte⟩ := high
  have other := not_isalnum_of_high byte
  exact ⟨by rw [backslash]; decide, by rw [backslash]; decide, fun _ => ⟨_, _, escape_other pattern inside other⟩⟩

theorem beginsAtom_of_step {c e : Scanner} {text : Bytes} (step : atomStep pattern [] c = some (some (some text), e)) :
    BeginsAtom pattern c := by
  rw [atomStep, atEnd_bind] at step
  by_cases inside : c.patternIdx < pattern.length
  · rw [decide_eq_false (by omega), if_neg (by decide)] at step
    obtain ⟨second, e', ahead, step⟩ := bind_ok step
    have same := lookAhead_idx pattern ahead
    rw [if_neg (by simp), current_bind, peek_bind, same] at step
    split at step
    · cases step
    rename_i opens
    split at step
    · cases step
    rename_i operand
    refine ⟨opens, Bool.eq_false_iff.mpr operand, fun backslash => ?_⟩
    by_cases bad : BadEscape pattern c.patternIdx
    · obtain ⟨d, read, -⟩ := escape_bad pattern (c := e') (same.symm ▸ bad)
      rw [if_pos backslash, bind_of_ok read] at step
      cases step
    by_cases high : High pattern c.patternIdx
    · exact (beginsAtom_of_high high).char backslash
    have more : c.patternIdx + 1 < pattern.length := by
      by_contra short
      exact bad (.inl (by omega))
    obtain ⟨second', ahead'⟩ := lookAhead_escaped_run pattern more backslash bad high
    obtain ⟨esc, i, read, -⟩ := escape_good pattern bad
    rw [ahead'] at ahead
    cases ahead
    rw [if_pos backslash, bind_of_ok read] at step
    cases esc with
    | char v => exact ⟨v, i, read⟩
    | _ => cases step
  · rw [decide_eq_true (by omega), if_pos rfl] at step
    cases step

theorem BeginsAtom.not_doomed {c : Scanner} (begins : BeginsAtom pattern c) : ¬Doomed pattern c.patternIdx := by
  rintro ⟨backslash, bad⟩
  obtain ⟨v, i, read⟩ := begins.char backslash
  obtain ⟨d, read', -⟩ := escape_bad pattern bad
  rw [read] at read'
  cases read'

theorem parseTerminal_atom {expr : Scan (Terminal × Bool)} {f : Nat} {c : Scanner} (begins : BeginsAtom pattern c)
    (nonzero : patternAt pattern c.patternIdx ≠ 0) : parseTerminal pattern expr f c =
      (atomText pattern f >>= fun text => (pure (.simple (.opAtom text), false) : Scan (Terminal × Bool))) c := by
  have not : ∀ {ch : UInt8}, ch ∈ ascii "^$.[()|" → patternAt pattern c.patternIdx ≠ ch := fun special is => begins.opens (is ▸ special)
  rw [parseTerminal, current_bind, peek_bind, if_neg (not (by decide)), if_neg (not (by decide)), if_neg (not (by decide)),
    if_neg (not (by decide)), if_neg (not (by decide)), if_neg (not (by decide)), if_neg (not (by decide)), if_neg nonzero,
    begins.operand, if_neg Bool.false_ne_true]
  split
  · rename_i backslash
    obtain ⟨v, i, read⟩ := begins.char backslash
    rw [bind_of_ok read]
    rfl
  · rfl

theorem atomLoop_high {f : Nat} {text : Bytes} {c : Scanner} (high : High pattern c.patternIdx) {r : Option Bytes × Scanner}
    (run : atomLoop pattern f text c = some r) : r.1 = none ∧ r.2.errorMsg = c.errorMsg := by
  cases f with
  | zero => cases run
  | succ f =>
    have inside := high.1
    obtain ⟨d, ahead, same⟩ := lookAhead_high pattern high
    have step : atomStep pattern text c = some (none, d) := by
      rw [atomStep, atEnd_bind, decide_eq_false (by omega), if_neg (by decide)]
      exact bind_of_failure ahead
    rw [atomLoop, bind_of_failure step] at run
    cases run
    exact ⟨rfl, same⟩

theorem parseTerminal_high {expr : Scan (Terminal × Bool)} {f : Nat} {c d : Scanner} {text : Bytes} (begins : BeginsAtom pattern c)
    (nonzero : patternAt pattern c.patternIdx ≠ 0) (comes : AtomComes pattern c text d) (high : High pattern d.patternIdx)
    {r : Option (Terminal × Bool) × Scanner} (run : parseTerminal pattern expr f c = some r) :
    r.1 = none ∧ r.2.errorMsg = c.errorMsg := by
  rw [parseTerminal_atom begins nonzero, atomText, bind_assoc] at run
  obtain ⟨e, failed, rfl⟩ | ⟨text', e, read, -⟩ := bind_some run
  · obtain ⟨f', behind⟩ := atomLoop_of_comes comes failed
    exact ⟨rfl, (atomLoop_high high behind).2.trans comes.errorMsg⟩
  · obtain ⟨f', behind⟩ := atomLoop_of_comes comes read
    cases (atomLoop_high high behind).1

theorem outcome_of_highEscape (done : parse pattern fuel = some final) (high : HighEscape pattern) :
    ∃ opened c, Comes pattern opened c ∧ ¬Doomed pattern c.patternIdx ∧ final = (none, c.errorMsg) := by
  obtain ⟨opened, c, text, d, comes, more, nonzero, reached, high⟩ := high
  have begins : BeginsAtom pattern c := by
    rcases reached.first with ⟨rfl, -⟩ | ⟨text', e, step⟩
    · exact beginsAtom_of_high high
    · exact beginsAtom_of_step step
  refine ⟨opened, c, comes, begins.not_doomed, ?_⟩
  obtain ⟨f, g, r, e, run, fails, -⟩ := (passes_of_comes done comes).closure comes more
  rw [parseClosure_eq] at run
  obtain ⟨e', failed, is⟩ | ⟨x, e', read, -⟩ := bind_some run
  · cases is
    rw [fails rfl, (parseTerminal_high begins nonzero reached high failed).2]
  · cases (parseTerminal_high begins nonzero reached high read).1

theorem success_iff (done : parse pattern fuel = some final) : final.1.isSome = true ↔ ReadToTheEnd pattern := by
  constructor
  · intro success
    obtain ⟨a, e, rest, outcome⟩ := parse_outcome done
    cases outcome with
    | fails => cases success
    | remains => cases success
    | ends alts behind =>
      obtain ⟨r, d, pieces, rest⟩ := bind_ok rest
      obtain ⟨x, d', alternatives, close⟩ := bind_ok rest
      cases close
      exact ⟨_, parseAlternatives_comes (parsePieces_comes .begin pieces) alternatives, behind⟩
  · rintro ⟨c, comes, ended⟩
    obtain ⟨f, g, h, s, b, k, a, e, rest, -, -, ends⟩ := passes_of_comes done comes
    have behind : pattern.length ≤ c.patternIdx := Nat.le_of_eq ended.symm
    cases g with
    | zero => cases rest
    | succ g =>
      rw [restOfExpr, bind_of_ok (parsePieces_ended (.inl behind))] at rest
      cases h with
      | zero => cases rest
      | succ h =>
        have alternatives : parseAlternatives pattern (parseExpr pattern f) (h + 1) (k (s, b)).1 (k (s, b)).2 c =
            some (some (k (s, b)), c) := by
          rw [parseAlternatives, atEnd_bind, peek_bind, if_pos (.inl (decide_eq_true behind))]
          rfl
        rw [bind_of_ok alternatives] at rest
        cases rest
        exact ends rfl rfl ended

theorem bareRepetition_of_success (done : parse pattern fuel = some final) (success : final.1.isSome = true) (some' : final.2 ≠ []) :
    BareRepetition pattern := by
  obtain ⟨a, e, rest, outcome⟩ := parse_outcome done
  have reported := restOfExpr_reported .begin _ rest
  cases outcome with
  | fails => cases success
  | ends => exact (reported.success rfl).resolve_left some'
  | remains => cases success

theorem highEscape_of_failure (done : parse pattern fuel = some final) (failed : final.1 = none) (silent : final.2 = []) :
    HighEscape pattern := by
  obtain ⟨a, e, rest, outcome⟩ := parse_outcome done
  have reported := restOfExpr_reported .begin _ rest
  cases outcome with
  | fails => exact (reported.failure rfl).resolve_left fun some' => some' silent
  | ends => cases failed
  | remains _ some' => exact absurd silent some'

/-- A run yields an expression exactly when it leaves no message, unless one of the two exceptions is met. -/
theorem parse_reports_iff (done : parse pattern fuel = some final) : (final.1.isSome = true ↔ final.2 = []) ↔
    (BareRepetition pattern → ¬ReadToTheEnd pattern) ∧ (HighEscape pattern → BareRepetition pattern) := by
  constructor
  · intro reports
    refine ⟨fun bare ended => message_of_bareRepetition done bare (reports.mp ((success_iff done).mpr ended)), fun high => ?_⟩
    obtain ⟨opened, c, comes, sound, is⟩ := outcome_of_highEscape done high
    have some' : c.errorMsg ≠ [] := by
      intro silent
      have success := reports.mpr (by rw [is, silent])
      rw [is] at success
      cases success
    exact (message_of_comes comes some').resolve_right sound
  · rintro ⟨bare, high⟩
    constructor
    · intro success
      by_contra some'
      exact bare (bareRepetition_of_success done success some') ((success_iff done).mp success)
    · intro silent
      by_contra failed
      have high' := highEscape_of_failure done (by simpa using failed) silent
      exact message_of_bareRepetition done (high high') silent

end Run

/-- The compiler yields a program exactly when it leaves no message on the patterns that it gets through without
one of the two exceptions: a repetition without its first number, read up to the end of the pattern, and a
backslash before a byte above 7f, read with no message from such a repetition in front of it. -/
theorem compile_reports_iff (pattern : Bytes) :
    (∃ fuel res msg, compile pattern fuel = some (res, msg) ∧ (res.isSome = true ↔ msg = [])) ↔
      Readable pattern ∧ (BareRepetition pattern → ¬ReadToTheEnd pattern) ∧ (HighEscape pattern → BareRepetition pattern) := by
  constructor
  · rintro ⟨fuel, res, msg, done, reports⟩
    have readable := readable_of_compile pattern (by rw [done]; exact Option.some_ne_none _)
    rw [compile_eq, Option.map_eq_some_iff] at done
    obtain ⟨final, done, is⟩ := done
    cases is
    rw [Option.isSome_map] at reports
    exact ⟨readable, (parse_reports_iff done).mp reports⟩
  · rintro ⟨readable, exceptions⟩
    obtain ⟨final, done⟩ := Option.ne_none_iff_exists'.mp readable
    refine ⟨2 * pattern.length + 1, _, _, by rw [compile_eq, done]; rfl, ?_⟩
    rw [Option.isSome_map]
    exact (parse_reports_iff done).mpr exceptions

theorem compile_unique {f f' : Nat} {r r' : Option Compiled × Bytes} (done : compile pattern f = some r)
    (done' : compile pattern f' = some r') : r = r' := by
  rw [compile_eq, Option.map_eq_some_iff] at done done'
  obtain ⟨final, done, rfl⟩ := done
  obtain ⟨final', done', rfl⟩ := done'
  have high := parse_mono pattern (Nat.le_max_left f f') done
  rw [parse_mono pattern (Nat.le_max_right f f') done'] at high
  cases high
  rfl

theorem not_reports {fuel : Nat} {success : Bool} {msg : Bytes}
    (done : (compile pattern fuel).map (fun r => (r.1.isSome, r.2)) = some (success, msg)) (differ : ¬(success = true ↔ msg = [])) :
    ¬∃ fuel res msg, compile pattern fuel = some (res, msg) ∧ (res.isSome = true ↔ msg = []) := by
  rintro ⟨fuel', res, msg', done', reports⟩
  rw [Option.map_eq_some_iff] at done
  obtain ⟨r, done, is⟩ := done
  cases compile_unique done done'
  cases is
  exact differ reports

/-- A program with a message, about the missing number in `a{}`, and no program without one, for a backslash before the byte e4. -/
theorem compile_reports_not :
    (¬∃ fuel res msg, compile (ascii "a\x7b\x7d") fuel = some (res, msg) ∧ (res.isSome = true ↔ msg = [])) ∧
      ¬∃ fuel res msg, compile [92, 228] fuel = some (res, msg) ∧ (res.isSome = true ↔ msg = []) := by
  constructor
  · have done : (compile (ascii "a\x7b\x7d") 7).map (fun r => (r.1.isSome, r.2)) = some (true, ascii "2:Expected digit") := by decide
    exact not_reports done (by decide)
  · have done : (compile [92, 228] 5).map (fun r => (r.1.isSome, r.2)) = some (false, []) := by decide
    exact not_reports done (by decide)

end Pattern

end Coast.Regex
