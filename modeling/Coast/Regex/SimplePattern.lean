import Coast.Regex.FragmentReading

/-!
# Simple patterns

`SimplePatternToFullRegularExpression` writes a backslash before every character that means something to
the compiler, and `.*` for a star. The compiler reads the characters back as atoms; it ends an atom before
the last character if that is escaped and would be a closure. A search finds what a simple pattern stands for.
-/

namespace Coast.Regex

open Scan Fragment Languages Computability

def specials : Bytes := ascii ".[]\\+?\x7b\x7d$^|()"

/-- What `SimplePatternToFullRegularExpression` writes for a character. -/
def spelled (c : UInt8) : Bytes :=
  if c = '*'.toUInt8 then ascii ".*" else if c ∈ specials then ['\\'.toUInt8, c] else [c]

def simplePatternToFullRegularExpression (pattern : Bytes) : Bytes := pattern.flatMap spelled

inductive Fills : Bytes → Bytes → Prop where
  | nil : Fills [] []
  | star {pattern text : Bytes} (any : Bytes) (rest : Fills pattern text) : Fills ('*'.toUInt8 :: pattern) (any ++ text)
  | char {c : UInt8} {pattern text : Bytes} (plain : c ≠ '*'.toUInt8) (rest : Fills pattern text) :
    Fills (c :: pattern) (c :: text)

inductive Spells : List Piece → Bytes → Prop where
  | nil : Spells [] []
  | star {ps : List Piece} {pattern : Bytes} (rest : Spells ps pattern) :
    Spells (.star (.simple .opAny) :: ps) ('*'.toUInt8 :: pattern)
  | atom {ps : List Piece} {pattern text : Bytes} (some : text ≠ []) (plain : ∀ c ∈ text, c ≠ '*'.toUInt8 ∧ c ≠ 0)
    (rest : Spells ps pattern) : Spells (.simple (.opAtom text) :: ps) (text ++ pattern)

/-! ### Reading the characters back -/

theorem isClosure_of_other {c : UInt8} (plain : c ≠ '*'.toUInt8) (other : c ∉ specials) : isClosure c = false := by
  refine Bool.eq_false_iff.mpr fun closes => ?_
  rcases isClosure_cases closes with rfl | rfl | rfl | rfl
  · exact other (by decide)
  · exact other (by decide)
  · exact plain rfl
  · exact other (by decide)

set_option maxRecDepth 2000 in
theorem literal_of_plain {c : UInt8} (plain : c ≠ '*'.toUInt8) (nonzero : c ≠ 0) : isLiteral (decide (c ∈ specials)) c = true := by
  by_cases special : c ∈ specials
  · have escaped : ∀ b ∈ specials, isLiteral true b = true := by decide
    rw [decide_eq_true special]
    exact escaped c special
  · have opens : ∀ b ∈ ascii "^$.[()|\\", b ∈ specials := by decide
    have other : c ∉ ascii "^$.[()|\\" := fun mem => special (opens c mem)
    simp [isLiteral, special, nonzero, other, isClosure_of_other plain special]

theorem spelled_of_plain {c : UInt8} (plain : c ≠ '*'.toUInt8) : spelled c = (Operand.char (decide (c ∈ specials)) c).text := by
  rw [spelled, if_neg plain, Operand.text]
  simp only [decide_eq_true_eq]

theorem spelled_head (c : UInt8) : spelled c ≠ [] ∧
    ∀ b ∈ (spelled c).head?, isClosure b = false ∧ b ≠ '|'.toUInt8 ∧ b ≠ ')'.toUInt8 := by
  unfold spelled
  split
  · refine ⟨List.cons_ne_nil _ _, fun b has => ?_⟩
    cases has
    decide
  · rename_i plain
    split
    · refine ⟨List.cons_ne_nil _ _, fun b has => ?_⟩
      cases has
      decide
    · rename_i other
      refine ⟨List.cons_ne_nil _ _, fun b has => ?_⟩
      cases has
      refine ⟨isClosure_of_other plain other, ?_, ?_⟩
      · rintro rfl
        exact other (by decide)
      · rintro rfl
        exact other (by decide)

theorem simplePattern_cons (c : UInt8) (pattern : Bytes) : ∃ b more, simplePatternToFullRegularExpression (c :: pattern) = b :: more ∧
    isClosure b = false ∧ b ≠ '|'.toUInt8 ∧ b ≠ ')'.toUInt8 := by
  obtain ⟨some, head⟩ := spelled_head c
  obtain ⟨b, more, is⟩ := List.exists_cons_of_ne_nil some
  rw [is] at head
  rw [simplePatternToFullRegularExpression, List.flatMap_cons, is]
  exact ⟨b, _, rfl, head b rfl⟩

theorem simplePattern_open (pattern : Bytes) : Open (simplePatternToFullRegularExpression pattern) := by
  intro b has
  cases pattern with
  | nil => cases has
  | cons c pattern =>
    obtain ⟨b', more, is, other, -⟩ := simplePattern_cons c pattern
    rw [is] at has
    cases has
    exact other

theorem simplePattern_append (first second : Bytes) : simplePatternToFullRegularExpression (first ++ second) =
    simplePatternToFullRegularExpression first ++ simplePatternToFullRegularExpression second := List.flatMap_append

section Reading

variable {pattern rest : Bytes} {s : Scanner} {c : UInt8} {text behind : Bytes}

theorem drop_spelled (run : Bytes) {stop : Bytes}
    (here : pattern.drop s.patternIdx = simplePatternToFullRegularExpression (run ++ stop)) :
    pattern.drop (s.on (simplePatternToFullRegularExpression run).length).patternIdx =
      simplePatternToFullRegularExpression stop := by
  rw [simplePattern_append] at here
  exact drop_on here

theorem atomStep_spelled (plain : c ≠ '*'.toUInt8) (nonzero : c ≠ 0) (text : Bytes)
    (here : pattern.drop s.patternIdx = simplePatternToFullRegularExpression (c :: behind)) :
    atomStep pattern text s = some (some (some (text ++ [c])), s.on (spelled c).length) ∨
      text ≠ [] ∧ atomStep pattern text s = some (some none, s) := by
  rw [simplePatternToFullRegularExpression, List.flatMap_cons, spelled_of_plain plain] at here
  have step := atomStep_literal (literal_of_plain plain nonzero) here text
  rw [spelled_of_plain plain]
  split at step
  · rename_i ends
    exact .inr ⟨ends.2, step⟩
  · exact .inl step

theorem atomLoop_spelled {fuel : Nat} (nonempty : text ≠ []) (nonzero : 0 ∉ behind)
    (here : pattern.drop s.patternIdx = simplePatternToFullRegularExpression behind) (enough : behind.length < fuel) :
    ∃ run stop, behind = run ++ stop ∧ (∀ c ∈ run, c ≠ '*'.toUInt8) ∧
      atomLoop pattern fuel text s = some (some (text ++ run), s.on (simplePatternToFullRegularExpression run).length) := by
  induction behind generalizing s text fuel with
  | nil =>
    obtain ⟨f, rfl⟩ : ∃ f, fuel = f + 1 := ⟨fuel - 1, by omega⟩
    refine ⟨[], [], rfl, by simp, ?_⟩
    rw [atomLoop, bind_of_ok (atomStep_stop nonempty here fun h has => by cases has), List.append_nil]
    rfl
  | cons c behind ih =>
    obtain ⟨f, rfl⟩ : ∃ f, fuel = f + 1 := ⟨fuel - 1, by omega⟩
    rw [List.mem_cons, not_or] at nonzero
    have ends : atomStep pattern text s = some (some none, s) → ∃ run stop, c :: behind = run ++ stop ∧
        (∀ c ∈ run, c ≠ '*'.toUInt8) ∧ atomLoop pattern (f + 1) text s =
          some (some (text ++ run), s.on (simplePatternToFullRegularExpression run).length) := by
      intro stops
      refine ⟨[], c :: behind, rfl, by simp, ?_⟩
      rw [atomLoop, bind_of_ok stops, List.append_nil]
      rfl
    by_cases star : c = '*'.toUInt8
    · subst star
      -- the text of a star starts with a dot
      exact ends (atomStep_stop nonempty here fun h has => .inl (by cases has; decide))
    · rcases atomStep_spelled star (Ne.symm nonzero.1) text here with step | ⟨-, stops⟩
      · have next := drop_spelled [c] here
        rw [simplePatternToFullRegularExpression, List.flatMap_singleton] at next
        have longer : text ++ [c] ≠ [] := List.append_ne_nil_of_right_ne_nil text (List.cons_ne_nil c [])
        obtain ⟨run, stop, rfl, plain, loop⟩ := ih longer nonzero.2 next (by simpa using enough)
        refine ⟨c :: run, stop, rfl, by simpa using ⟨star, plain⟩, ?_⟩
        rw [atomLoop, bind_of_ok step]
        refine loop.trans ?_
        rw [Scanner.on_on, List.append_assoc, simplePatternToFullRegularExpression, simplePatternToFullRegularExpression,
          List.flatMap_cons, List.length_append]
        rfl
      · exact ends stops

theorem atomText_spelled {fuel : Nat} (plain : c ≠ '*'.toUInt8) (nonzero : 0 ∉ c :: behind)
    (here : pattern.drop s.patternIdx = simplePatternToFullRegularExpression (c :: behind)) (enough : behind.length + 1 < fuel) :
    ∃ run stop, c :: behind = c :: run ++ stop ∧ (∀ b ∈ c :: run, b ≠ '*'.toUInt8) ∧ atomText pattern fuel s =
      some (some (c :: run), s.on (simplePatternToFullRegularExpression (c :: run)).length) := by
  obtain ⟨f, rfl⟩ : ∃ f, fuel = f + 1 := ⟨fuel - 1, by omega⟩
  rw [List.mem_cons, not_or] at nonzero
  rcases atomStep_spelled plain (Ne.symm nonzero.1) [] here with step | ⟨none, -⟩
  · have next := drop_spelled [c] here
    rw [simplePatternToFullRegularExpression, List.flatMap_singleton] at next
    obtain ⟨run, stop, rfl, plain', loop⟩ := atomLoop_spelled (List.cons_ne_nil c []) nonzero.2 next (by omega : behind.length < f)
    refine ⟨run, stop, rfl, by simpa using ⟨plain, plain'⟩, ?_⟩
    have whole : atomLoop pattern (f + 1) [] s =
        some (some (c :: run), s.on (simplePatternToFullRegularExpression (c :: run)).length) := by
      rw [atomLoop, bind_of_ok step]
      refine loop.trans ?_
      rw [Scanner.on_on, simplePatternToFullRegularExpression, simplePatternToFullRegularExpression, List.flatMap_cons,
        List.length_append]
      rfl
    rw [atomText, bind_of_ok whole, if_neg (List.cons_ne_nil _ _)]
    rfl
  · exact absurd rfl none

theorem parseClosure_char (expr : Scan (Terminal × Bool)) {fuel : Nat} (plain : c ≠ '*'.toUInt8) (nonzero : 0 ∉ c :: behind)
    (here : pattern.drop s.patternIdx = simplePatternToFullRegularExpression (c :: behind)) (enough : behind.length + 1 < fuel) :
    ∃ run stop, c :: behind = c :: run ++ stop ∧ (∀ b ∈ c :: run, b ≠ '*'.toUInt8) ∧ parseClosure pattern expr fuel s =
      some (some (.simple (.opAtom (c :: run)), false), s.on (simplePatternToFullRegularExpression (c :: run)).length) := by
  obtain ⟨run, stop, whole, plain', read⟩ := atomText_spelled plain nonzero here enough
  have literal := literal_of_plain plain fun is => nonzero (is ▸ List.mem_cons_self)
  have first := here
  rw [simplePatternToFullRegularExpression, List.flatMap_cons, spelled_of_plain plain] at first
  have terminal : parseTerminal pattern expr fuel s =
      some (some (.simple (.opAtom (c :: run)), false), s.on (simplePatternToFullRegularExpression (c :: run)).length) := by
    rw [parseTerminal_literal literal first, bind_of_ok read]
    rfl
  rw [whole] at here
  exact ⟨run, stop, whole, plain', parseClosure_once terminal (drop_spelled (c :: run) here) (simplePattern_open stop)⟩

theorem parseClosure_star (expr : Scan (Terminal × Bool)) (fuel : Nat)
    (here : pattern.drop s.patternIdx = simplePatternToFullRegularExpression ('*'.toUInt8 :: behind)) :
    parseClosure pattern expr fuel s = some (some (.star (.simple .opAny), true), s.on 2) := by
  have here : pattern.drop s.patternIdx = '.'.toUInt8 :: '*'.toUInt8 :: simplePatternToFullRegularExpression behind := here
  have length := length_of_drop here
  rw [List.length_cons, List.length_cons] at length
  have terminal : parseTerminal pattern expr fuel s = some (some (.simple .opAny, false), s.on 1) := by
    rw [parseTerminal, current_bind, peek_bind, peek_of_drop here, if_neg (by decide), if_neg (by decide), if_pos rfl, advance_on]
    rfl
  have second := drop_on_one here
  have mark := parseMark_open (drop_on_one second) (simplePattern_open behind)
  rw [parseClosure, bind_of_ok terminal]
  dsimp only
  rw [atEnd_bind, Scanner.on_idx, decide_eq_false (by omega), if_neg (by decide), peek_bind, peek_of_drop second, if_neg (by decide),
    if_neg (by decide), advance_on, if_neg (by decide)]
  exact bind_of_ok mark

theorem parsePieces_spelled (expr : Scan (Terminal × Bool)) {fuel : Nat} (nonzero : 0 ∉ behind)
    (here : pattern.drop s.patternIdx = simplePatternToFullRegularExpression behind) (enough : 2 * behind.length + 1 ≤ fuel)
    {q : Sequence} (sound : q.Sound) (isnullable : Bool) : ∃ ps q' b, Spells ps behind ∧ q'.pieces = q.pieces ++ ps ∧
      q'.broken = false ∧ parsePieces pattern expr fuel q isnullable s =
        some (some (q', b), s.on (simplePatternToFullRegularExpression behind).length) := by
  induction fuel generalizing behind s q isnullable with
  | zero => omega
  | succ fuel ih =>
    rw [parsePieces, peek_bind, atEnd_bind]
    cases behind with
    | nil =>
      rw [if_pos (.inl (decide_eq_true (List.drop_eq_nil_iff.mp here)))]
      exact ⟨[], q, isnullable, .nil, (List.append_nil _).symm, sound.1, rfl⟩
    | cons c behind =>
      rw [List.length_cons] at enough
      have goesOn : ¬(decide (pattern.length ≤ s.patternIdx) = true ∨ patternAt pattern s.patternIdx = '|'.toUInt8 ∨
          patternAt pattern s.patternIdx = ')'.toUInt8) := by
        obtain ⟨b, rest, is, -, bar, close⟩ := simplePattern_cons c behind
        rw [is] at here
        have length := length_of_drop here
        rw [List.length_cons] at length
        rw [peek_of_drop here, decide_eq_true_eq]
        rintro (ended | is | is)
        · omega
        · exact bar is
        · exact close is
      rw [if_neg goesOn]
      have goOn : ∀ {p : Piece} {b : Bool} {run stop : Bytes} (_ : c :: behind = run ++ stop) (_ : run ≠ [])
          (_ : p.closed = true) (_ : ∀ ps, Spells ps stop → Spells (p :: ps) (run ++ stop))
          (_ : parseClosure pattern expr fuel s = some (some (p, b), s.on (simplePatternToFullRegularExpression run).length)),
          ∃ ps q' b', Spells ps (c :: behind) ∧ q'.pieces = q.pieces ++ ps ∧ q'.broken = false ∧
            (parseClosure pattern expr fuel >>= fun r => if q.broken then stuck
              else parsePieces pattern expr fuel (q.add r.1) (isnullable && r.2)) s =
                some (some (q', b'), s.on (simplePatternToFullRegularExpression (c :: behind)).length) := by
        intro p b run stop whole some' closed spells read
        have shorter := congrArg List.length whole
        have pos := List.length_pos_iff.mpr some'
        rw [List.length_append, List.length_cons] at shorter
        rw [whole] at here nonzero ⊢
        obtain ⟨ps, q', b', spelled, pieces, intact, later⟩ := ih (fun mem => nonzero (List.mem_append_right _ mem))
          (drop_spelled run here) (by omega) (sound.add closed) (isnullable && b)
        refine ⟨p :: ps, q', b', spells ps spelled, ?_, intact, ?_⟩
        · rw [pieces, Sequence.add, List.append_assoc, List.singleton_append]
        · rw [bind_of_ok read, sound.1, if_neg (by decide)]
          refine later.trans ?_
          rw [Scanner.on_on, simplePattern_append, List.length_append]
      by_cases star : c = '*'.toUInt8
      · subst star
        have whole : '*'.toUInt8 :: behind = ['*'.toUInt8] ++ behind := rfl
        exact goOn whole (by simp) rfl (fun _ spells => spells.star) (parseClosure_star expr fuel here)
      · obtain ⟨run, stop, whole, plain, read⟩ := parseClosure_char expr star nonzero here
          (by omega : behind.length + 1 < fuel)
        refine goOn whole (by simp) rfl (fun _ spells => .atom (by simp) (fun b mem => ⟨plain b mem, ?_⟩) spells) read
        rintro rfl
        exact nonzero (whole ▸ List.mem_append_left _ mem)

end Reading

theorem parse_spelled {pattern : Bytes} (nonzero : 0 ∉ pattern) {fuel : Nat} (enough : 2 * pattern.length + 1 ≤ fuel) :
    ∃ ps, Spells ps pattern ∧ parse (simplePatternToFullRegularExpression pattern) fuel = some (some (.last (.ofList ps)), []) := by
  obtain ⟨full, is⟩ : ∃ full, full = simplePatternToFullRegularExpression pattern := ⟨_, rfl⟩
  have here : full.drop (Scanner.patternIdx ⟨0, 1, 0, []⟩) = simplePatternToFullRegularExpression pattern := is
  have sound : Sequence.empty.Sound := ⟨rfl, fun last has => by cases has⟩
  obtain ⟨ps, q, b, spells, pieces, intact, read⟩ := parsePieces_spelled (parseExpr full fuel) nonzero here enough sound true
  refine ⟨ps, spells, ?_⟩
  rw [← is] at read ⊢
  have last : Scanner.on ⟨0, 1, 0, []⟩ full.length = ⟨full.length, 1, 0, []⟩ := by rw [Scanner.on, Nat.zero_add]
  rw [last] at read
  obtain ⟨f, rfl⟩ : ∃ f, fuel = f + 1 := ⟨fuel - 1, by omega⟩
  have alternatives := @parseAlternatives_done full (parseExpr full (f + 1)) f ⟨full.length, 1, 0, []⟩ [] (fun h has => by cases has)
    List.drop_length [] b
  have outer : parseOutermost full (f + 1) ⟨0, 0, 0, []⟩ = some (some (.last (.ofList ps), b), ⟨full.length, 1, 0, []⟩) := by
    rw [parseOutermost, change_bind, parseExprWith, bind_of_ok read]
    dsimp only
    rw [bind_of_ok alternatives, parseClose, pure_bind, if_neg (by simp [intact]), Sequence.piece, pieces]
    rfl
  have whole : parseWith full (f + 1) ⟨0, 0, 0, []⟩ = some (some (.last (.ofList ps)), ⟨full.length, 1, 0, []⟩) := by
    rw [parseWith, bind_of_ok outer]
    dsimp only
    rw [readAll, bind_assoc, current_bind, if_pos rfl]
    rfl
  rw [parse, whole]

/-! ### Matching the pieces -/

theorem fills_append {text pattern filled : Bytes} (plain : ∀ c ∈ text, c ≠ '*'.toUInt8 ∧ c ≠ 0) :
    Fills (text ++ pattern) filled ↔ ∃ behind, filled = text ++ behind ∧ Fills pattern behind := by
  induction text generalizing filled with
  | nil => simp
  | cons c text ih =>
    obtain ⟨first, later⟩ := List.forall_mem_cons.mp plain
    constructor
    · intro fills
      cases fills with
      | star => exact absurd rfl first.1
      | char _ rest =>
        obtain ⟨behind, rfl, fills⟩ := (ih later).mp rest
        exact ⟨behind, rfl, fills⟩
    · rintro ⟨behind, rfl, fills⟩
      exact .char first.1 ((ih later).mpr ⟨behind, rfl, fills⟩)

theorem fills_star {pattern filled : Bytes} :
    Fills ('*'.toUInt8 :: pattern) filled ↔ ∃ behind, behind <:+ filled ∧ Fills pattern behind := by
  constructor
  · intro fills
    cases fills with
    | star any rest => exact ⟨_, List.suffix_append _ _, rest⟩
    | char plain => exact absurd rfl plain
  · rintro ⟨behind, ⟨any, rfl⟩, fills⟩
    exact .star any fills

theorem mem_anyChar_kstar {w : Bytes} : w ∈ (MatchFlags.normal.anyChar)∗ ↔ 10 ∉ w := by
  constructor
  · intro word
    obtain ⟨parts, rfl, each⟩ := Language.mem_kstar.mp word
    intro mem
    obtain ⟨part, within, mem⟩ := List.mem_flatten.mp mem
    obtain ⟨c, rfl, line⟩ := each part within
    obtain rfl := List.mem_singleton.mp mem
    exact absurd (line rfl) (by decide)
  · intro line
    refine Language.mem_kstar.mpr ⟨w.map fun c => [c], (List.flatMap_singleton' w).symm, fun part within => ?_⟩
    obtain ⟨c, mem, rfl⟩ := List.mem_map.mp within
    exact ⟨c, rfl, fun is => absurd (is ▸ mem) line⟩

theorem language_ofList_cons (flags : MatchFlags) (p : Piece) (ps : List Piece) :
    (Piece.ofList (p :: ps)).language flags = p.language flags * (Piece.ofList ps).language flags := by
  cases ps with
  | nil => exact (mul_one _).symm
  | cons q qs => rfl

theorem language_spelled {ps : List Piece} {pattern w : Bytes} (spells : Spells ps pattern) (line : 10 ∉ w) :
    w ∈ (Piece.ofList ps).language .normal ↔ Fills pattern w := by
  induction spells generalizing w with
  | nil =>
    refine Language.mem_one w |>.trans ⟨?_, fun fills => by cases fills; rfl⟩
    rintro rfl
    exact .nil
  | star _ ih =>
    rw [language_ofList_cons, Language.mem_mul, fills_star]
    constructor
    · rintro ⟨any, -, behind, word, rfl⟩
      exact ⟨behind, List.suffix_append _ _, (ih fun mem => line (List.mem_append_right _ mem)).mp word⟩
    · rintro ⟨behind, ⟨any, rfl⟩, fills⟩
      rw [List.mem_append, not_or] at line
      exact ⟨any, mem_anyChar_kstar.mpr line.1, behind, (ih line.2).mpr fills, rfl⟩
  | @atom ps pattern text _ plain _ ih =>
    have same : MatchFlags.normal.fold = id := rfl
    have word : ∀ v : Bytes, v ∈ (Piece.simple (.opAtom text)).language .normal ↔ v = text := by
      intro v
      rw [Piece.language, Op.language, mem_alike, same, List.map_id, List.map_id]
    rw [language_ofList_cons, Language.mem_mul, fills_append plain]
    constructor
    · rintro ⟨v, is, behind, word', rfl⟩
      exact ⟨behind, by rw [(word v).mp is], (ih fun mem => line (List.mem_append_right _ mem)).mp word'⟩
    · rintro ⟨behind, rfl, fills⟩
      exact ⟨text, (word text).mpr rfl, behind, (ih fun mem => line (List.mem_append_right _ mem)).mpr fills, rfl⟩

/-! ### Searching -/

theorem greedy_spelled (flags : MatchFlags) {ps : List Piece} {pattern : Bytes} (spells : Spells ps pattern) :
    (Piece.ofList ps).Greedy flags := by
  have cons : ∀ (p : Piece) (ps : List Piece), p.Greedy flags → (Piece.ofList ps).Greedy flags →
      (Piece.ofList (p :: ps)).Greedy flags := by
    intro p ps first later
    cases ps with
    | nil => exact first
    | cons q qs => exact ⟨first, later⟩
  induction spells with
  | nil => exact trivial
  | star _ ih => exact cons _ _ ⟨trivial, nil_notMem_anyChar flags⟩ ih
  | atom some plain _ ih => exact cons _ _ ⟨some, fun mem => (plain 0 mem).2 rfl⟩ ih

theorem offsets_spelled {ps : List Piece} {pattern : Bytes} (spells : Spells ps pattern) :
    ∀ n ∈ (Piece.ofList ps).code (Piece.ofList ps).size, short n.next = n.next := by
  have cons : ∀ (p : Piece) (ps : List Piece), (∀ n ∈ p.code p.size, short n.next = n.next) →
      (∀ n ∈ (Piece.ofList ps).code (Piece.ofList ps).size, short n.next = n.next) →
        ∀ n ∈ (Piece.ofList (p :: ps)).code (Piece.ofList (p :: ps)).size, short n.next = n.next := by
    intro p ps first later n mem
    cases ps with
    | nil => exact first n mem
    | cons q qs =>
      have rest : ((p.size + (Piece.ofList (q :: qs)).size : Nat) : Int) - p.size = (Piece.ofList (q :: qs)).size := by omega
      rw [Piece.ofList, Piece.code, Piece.size, rest] at mem
      · exact (List.mem_append.mp mem).elim (first n) (later n)
      · exact List.cons_ne_nil q qs
  induction spells with
  | nil => decide
  | star _ ih => exact cons _ _ (by decide) ih
  | atom _ _ _ ih =>
    refine cons _ _ (fun n mem => ?_) ih
    rw [Piece.size, Piece.code, List.mem_singleton] at mem
    rw [mem]
    exact (by decide : short ((1 : Nat) : Int) = (1 : Nat))

theorem fits_spelled {m : Matcher} {ps : List Piece} {pattern : Bytes} (spells : Spells ps pattern)
    (whole : m.program = (Alts.last (.ofList ps)).program) : m.FitsFrom 1 := by
  intro node op k first has
  obtain ⟨n, rfl⟩ : ∃ n, node = n + 1 := ⟨node - 1, by omega⟩
  rw [whole, Alts.program, Alts.code, Alts.size, Int.natCast_succ, Int.add_sub_cancel, List.cons_append,
    List.getElem?_cons_succ] at has
  rcases List.mem_append.mp (List.mem_of_getElem? has) with inner | last
  · exact offsets_spelled spells _ inner
  · cases List.mem_singleton.mp last
    rfl

theorem containedIn_spelled {m : Matcher} (normal : m.flags = .normal) (line : 10 ∉ m.search) {ps : List Piece} {pattern : Bytes}
    (spells : Spells ps pattern) (whole : m.program = (Alts.last (.ofList ps)).program) :
    ∃ f r, m.containedIn [] f 0 = some r ∧ (r.isSome = true ↔ ∃ filled, filled <:+: m.search ∧ Fills pattern filled) := by
  have greedy := greedy_spelled m.flags spells
  obtain ⟨f, r, run, found⟩ := Matcher.containedIn_language_of whole (a := .last (.ofList ps)) greedy
    (fun result => Piece.matchNodes_program (fits_spelled spells whole) _ _ (Piece.simple_of_greedy greedy) whole result) (Int.le_refl 0)
  refine ⟨f, r, run, ?_⟩
  have fills : ∀ {w : Bytes}, w <:+: m.search → (w ∈ (Alts.last (.ofList ps)).language m.flags ↔ Fills pattern w) := by
    intro w part
    rw [normal]
    exact language_spelled spells fun mem => line (part.mem mem)
  cases r with
  | none =>
    refine iff_of_false (by decide) ?_
    rintro ⟨w, ⟨before, behind, is⟩, filled⟩
    refine found before.length (before.length + w.length) (Int.natCast_nonneg _) (spans_iff_starts.mpr ⟨w, ?_, ?_, rfl, ?_⟩)
    · exact (fills ⟨before, behind, is⟩).mpr filled
    · rw [← is, List.append_assoc, List.drop_left]
      exact List.prefix_append _ _
    · rw [← is, List.length_append, List.length_append]
      omega
  | some c =>
    obtain ⟨j, k, -, -, -, spans, -⟩ := found
    obtain ⟨w, word, begins, -⟩ := spans_iff_starts.mp spans
    have part := begins.isInfix.trans (List.drop_suffix _ _).isInfix
    exact iff_of_true rfl ⟨w, part, (fills part).mp word⟩

theorem length_le_simplePattern (pattern : Bytes) : pattern.length ≤ (simplePatternToFullRegularExpression pattern).length := by
  induction pattern with
  | nil => exact Nat.le_refl _
  | cons c pattern ih =>
    have pos := List.length_pos_iff.mpr (spelled_head c).1
    rw [simplePatternToFullRegularExpression, List.flatMap_cons, List.length_append, List.length_cons,
      ← simplePatternToFullRegularExpression]
    omega

/-- A simple pattern compiles, and a search finds the texts that fill it. -/
theorem simplePattern_found {pattern : Bytes} (nonzero : 0 ∉ pattern) :
    ∃ c, compile (simplePatternToFullRegularExpression pattern) (2 * (simplePatternToFullRegularExpression pattern).length + 1) =
      some (some c, []) ∧ ∀ search : Bytes, 10 ∉ search → ∃ f r, Matcher.containedIn ⟨c.program, .normal, search⟩ c.fPrefix f 0 =
        some r ∧ (r.isSome = true ↔ ∃ filled, filled <:+: search ∧ Fills pattern filled) := by
  have long := length_le_simplePattern pattern
  obtain ⟨ps, spells, read⟩ := parse_spelled nonzero
    (by omega : 2 * pattern.length + 1 ≤ 2 * (simplePatternToFullRegularExpression pattern).length + 1)
  refine ⟨(Alts.last (.ofList ps)).compiled, compile_of_parse read, fun search line => ?_⟩
  obtain ⟨f, r, run, found⟩ := containedIn_spelled (m := ⟨(Alts.last (.ofList ps)).program, .normal, search⟩) rfl line spells rfl
  refine ⟨max f 2, r, ?_, found⟩
  have same := Matcher.containedIn_prefix (c := (Alts.last (.ofList ps)).compiled) rfl .normal search (Nat.le_max_right f 2)
    (Int.le_refl 0)
  rw [same]
  exact Matcher.containedIn_mono _ [] (Nat.le_max_left f 2) 0 r run

theorem simplePattern_found_dot :
    ∃ c, compile (ascii "a.*\\.") 11 = some (some c, []) ∧ ∀ search : Bytes, 10 ∉ search → ∃ f r,
      Matcher.containedIn ⟨c.program, .normal, search⟩ c.fPrefix f 0 = some r ∧
        (r.isSome = true ↔ ∃ filled, filled <:+: search ∧ Fills (ascii "a*.") filled) := by
  have full : simplePatternToFullRegularExpression (ascii "a*.") = ascii "a.*\\." := by decide
  have size : 2 * (ascii "a.*\\.").length + 1 = 11 := by decide
  have found := @simplePattern_found (ascii "a*.") (by decide)
  rwa [full, size] at found

end Coast.Regex
