import Coast.Regex.Compiler

/-!
# Expressions and their code

The expressions that the parser recognises, each with the block of nodes that stands for it. A block
is given the offset, from its first node, of the node to continue with; `exit` is the node that carries
this offset. A reluctant closure has no such node: it continues behind its own block.
-/

namespace Coast.Regex

open Scan

mutual

inductive Piece where
  | nothing
  | simple (op : Op)
  | group (number : Nat) (alts : Alts)
  | question (x : Piece)
  | star (x : Piece)
  | plus (x : Piece)
  | reluctantMaybe (x : Piece)
  | reluctantStar (x : Piece)
  | reluctantPlus (x : Piece)
  | chain (x y : Piece)

inductive Alts where
  | last (b : Piece)
  | alt (b : Piece) (rest : Alts)

end

namespace Piece

/-- `n` pieces `x` before `y`. -/
def copies (x : Piece) : Nat → Piece → Piece
  | 0, y => y
  | n + 1, y => chain x (copies x n y)

def ofList : List Piece → Piece
  | [] => nothing
  | [p] => p
  | p :: ps => chain p (ofList ps)

end Piece

def Alts.ofList (b : Piece) : List Piece → Alts
  | [] => last b
  | c :: rest => alt b (ofList c rest)

/-! ### Blocks -/

mutual

def Piece.size : Piece → Nat
  | .nothing => 1
  | .simple _ => 1
  | .group _ a => a.size + 2
  | .question x => x.size + 3
  | .star x => x.size + 5
  | .plus x => x.size + 4
  | .reluctantMaybe x => x.size + 2
  | .reluctantStar x => x.size + 2
  | .reluctantPlus x => x.size + 2
  | .chain x y => x.size + y.size

def Alts.size : Alts → Nat
  | .last b => b.size + 1
  | .alt b rest => b.size + 1 + rest.size

end

/-- The node that continues behind the block; for a reluctant closure, the position behind it. -/
def Piece.exit : Piece → Nat
  | .nothing => 0
  | .simple _ => 0
  | .group _ a => a.size + 1
  | .question x => x.size + 2
  | .star x => x.size + 4
  | .plus x => x.size + 3
  | .reluctantMaybe x => x.size + 2
  | .reluctantStar x => x.size + 2
  | .reluctantPlus x => x.size + 2
  | .chain x y => x.size + y.exit

def Piece.closed : Piece → Bool
  | .reluctantMaybe _ => false
  | .reluctantStar _ => false
  | .reluctantPlus _ => false
  | .chain _ y => y.closed
  | _ => true

def reluctantCode (op : Op) (size : Nat) (operand : Program) : Program := ⟨op, size + 2⟩ :: (operand ++ [⟨.opEnd, 0⟩])

mutual

/-- The nodes of a piece that continues at the offset `q`. -/
def Piece.code : Piece → Int → Program
  | .nothing, q => [⟨.opNothing, q⟩]
  | .simple op, q => [⟨op, q⟩]
  | .group k a, q => ⟨.opOpen k, 1⟩ :: (a.code a.size ++ [⟨.opClose k, q - (a.size + 1)⟩])
  | .question x, q =>
    ⟨.opBranch, x.size + 1⟩ :: (x.code (x.size + 1) ++ [⟨.opBranch, 1⟩, ⟨.opNothing, q - (x.size + 2)⟩])
  | .star x, q =>
    ⟨.opBranch, x.size + 3⟩ ::
      (x.code x.size ++ [⟨.opBranch, 1⟩, ⟨.opGoto, -(x.size + 2)⟩, ⟨.opBranch, 1⟩, ⟨.opNothing, q - (x.size + 4)⟩])
  | .plus x, q =>
    x.code x.size ++ [⟨.opBranch, 2⟩, ⟨.opGoto, -(x.size + 1)⟩, ⟨.opBranch, 1⟩, ⟨.opNothing, q - (x.size + 3)⟩]
  | .reluctantMaybe x, _ => reluctantCode .opReluctantMaybe x.size (x.code x.size)
  | .reluctantStar x, _ => reluctantCode .opReluctantStar x.size (x.code x.size)
  | .reluctantPlus x, _ => reluctantCode .opReluctantPlus x.size (x.code x.size)
  | .chain x y, q => x.code x.size ++ y.code (q - x.size)

/-- The nodes of alternatives that are ended by the node at the offset `q`. -/
def Alts.code : Alts → Int → Program
  | .last b, q => ⟨.opBranch, b.size + 1⟩ :: b.code (q - 1)
  | .alt b rest, q => ⟨.opBranch, b.size + 1⟩ :: (b.code (q - 1) ++ rest.code (q - (b.size + 1)))

end

def Piece.pending (p : Piece) : Program := p.code p.exit

def Alts.program (a : Alts) : Program := a.code a.size ++ [⟨.opEnd, 0⟩]

mutual

theorem Piece.length_code (p : Piece) (q : Int) : (p.code q).length = p.size := by
  match p with
  | .nothing | .simple _ => simp only [Piece.code, Piece.size, List.length_singleton]
  | .group k a =>
    simp only [Piece.code, Piece.size, List.length_cons, List.length_append, List.length_nil, a.length_code]
  | .question x | .star x | .plus x =>
    simp only [Piece.code, Piece.size, List.length_cons, List.length_append, List.length_nil, x.length_code]
  | .reluctantMaybe x | .reluctantStar x | .reluctantPlus x =>
    simp only [Piece.code, Piece.size, reluctantCode, List.length_cons, List.length_append, List.length_nil,
      x.length_code]
  | .chain x y => simp only [Piece.code, Piece.size, List.length_append, x.length_code, y.length_code]

theorem Alts.length_code (a : Alts) (q : Int) : (a.code q).length = a.size := by
  match a with
  | .last b => simp only [Alts.code, Alts.size, List.length_cons, b.length_code]
  | .alt b rest =>
    simp only [Alts.code, Alts.size, List.length_cons, List.length_append, b.length_code, rest.length_code]
    omega

end

theorem Piece.size_pos : ∀ p : Piece, 0 < p.size
  | .nothing | .simple _ => Nat.zero_lt_one
  | .group _ _ | .question _ | .star _ | .plus _ | .reluctantMaybe _ | .reluctantStar _ | .reluctantPlus _ => by
    rw [Piece.size]
    omega
  | .chain x y => by
    have := x.size_pos
    rw [Piece.size]
    omega

theorem Piece.exit_lt : ∀ p : Piece, p.closed = true → p.exit < p.size
  | .nothing, _ | .simple _, _ => Nat.zero_lt_one
  | .group _ _, _ | .question _, _ | .star _, _ | .plus _, _ => by
    rw [Piece.exit, Piece.size]
    omega
  | .chain x y, closed => by
    have := y.exit_lt closed
    rw [Piece.exit, Piece.size]
    omega

/-! ### The parser

It reads the pattern as the compiler does and yields the expression instead of nodes. Where the
compiler would not return, it is stuck. -/

section Parser

variable (pattern : Bytes)

/-- The loop of `characterClass` does not move past a `^` that is not the first character, unless it ends a
range that is not one. -/
def caretBlocks (idxFirst : Nat) (s : ClassState) : Scan Bool := do
  let c ← current
  return decide (c.patternIdx < pattern.length ∧ patternAt pattern c.patternIdx = '^'.toUInt8 ∧ c.patternIdx ≠ idxFirst) &&
    !(s.definingRange && decide ('^'.toUInt8 ≤ s.rangeStart))

def parseClassLoop (idxFirst : Nat) : Nat → ClassState → Scan ClassState
  | 0, _ => stuck
  | fuel + 1, s => do
    if ← caretBlocks pattern idxFirst s then stuck
    else
      match ← classStep pattern idxFirst s with
      | some s => parseClassLoop idxFirst fuel s
      | none => return s

theorem classStep_blocked {idxFirst : Nat} {s : ClassState} {c : Scanner} (inside : c.patternIdx < pattern.length)
    (caret : patternAt pattern c.patternIdx = '^'.toUInt8) (later : c.patternIdx ≠ idxFirst)
    (range : (s.definingRange && decide ('^'.toUInt8 ≤ s.rangeStart)) = false) :
    ∃ s', classStep pattern idxFirst s c = some (some (some s'), c) ∧ s'.definingRange = false := by
  have simple : ∃ s', simpleChar pattern s '^'.toUInt8 c = some (some s', c) ∧ s'.definingRange = false := by
    unfold simpleChar
    cases defining : s.definingRange with
    | true =>
      rw [defining, Bool.true_and, decide_eq_false_iff_not] at range
      rw [if_pos rfl, if_neg range]
      exact ⟨_, rfl, rfl⟩
    | false =>
      simp only [Bool.false_eq_true, if_false, current_bind]
      split
      · exact ⟨_, rfl, rfl⟩
      · exact ⟨_, rfl, rfl⟩
  obtain ⟨s', read, stopped⟩ := simple
  refine ⟨s', ?_, stopped⟩
  unfold classStep
  rw [atEnd_bind, decide_eq_false (by omega), if_neg (by simp), current_bind, peek_bind, caret, if_neg (by decide),
    if_pos rfl, if_neg later, bind_of_ok read]
  rfl

theorem classLoop_blocked {idxFirst : Nat} {c : Scanner} (inside : c.patternIdx < pattern.length)
    (caret : patternAt pattern c.patternIdx = '^'.toUInt8) (later : c.patternIdx ≠ idxFirst) (fuel : Nat) (s : ClassState)
    (range : (s.definingRange && decide ('^'.toUInt8 ≤ s.rangeStart)) = false) :
    classLoop pattern idxFirst fuel s c = none := by
  induction fuel generalizing s with
  | zero => rfl
  | succ fuel ih =>
    obtain ⟨s', step, stopped⟩ := classStep_blocked pattern inside caret later range
    rw [classLoop, bind_of_ok step]
    exact ih s' (by rw [stopped, Bool.false_and])

theorem parseClassLoop_eq (idxFirst fuel : Nat) (s : ClassState) :
    parseClassLoop pattern idxFirst fuel s = classLoop pattern idxFirst fuel s := by
  induction fuel generalizing s with
  | zero => rfl
  | succ fuel ih =>
    funext c
    have same : (do
        match ← classStep pattern idxFirst s with
        | some s => parseClassLoop pattern idxFirst fuel s
        | none => return s) = classLoop pattern idxFirst (fuel + 1) s := by
      rw [classLoop]
      refine bind_congr fun r => ?_
      cases r with
      | none => rfl
      | some s => exact ih s
    rw [parseClassLoop, caretBlocks]
    simp only [bind_assoc, current_bind, pure_bind]
    split
    · rename_i blocks
      simp only [Bool.and_eq_true, decide_eq_true_eq, Bool.not_eq_true'] at blocks
      obtain ⟨⟨inside, caret, later⟩, range⟩ := blocks
      exact (classLoop_blocked pattern inside caret later _ s range).symm
    · rw [same]

def parseClassSet (fuel : Nat) : Scan REBitSet := do
  let c ← current
  classEnd pattern (← parseClassLoop pattern c.patternIdx fuel .start)

theorem parseClassSet_eq (fuel : Nat) : parseClassSet pattern fuel = classSet pattern fuel := by
  simp only [parseClassSet, parseClassLoop_eq, classSet]

/-- What `characterClass` reads. -/
def parseClass (fuel : Nat) : Scan REBitSet := do
  advance 1
  if ← atEnd pattern then
    syntaxError "Unterminated class"
    failure
  else if (← peek pattern) = ':'.toUInt8 then
    advance 1
    posixSet pattern
  else parseClassSet pattern fuel

inductive Terminal where
  | simple (op : Op)
  | group (number : Nat) (alts : Alts)

def Terminal.piece : Terminal → Piece
  | simple op => .simple op
  | group number alts => .group number alts

def parseTerminal (expr : Scan (Terminal × Bool)) (fuel : Nat) : Scan (Terminal × Bool) := do
  let start ← current
  let ch ← peek pattern
  if ch = '$'.toUInt8 then
    advance 1
    return (.simple .opEol, true)
  else if ch = '^'.toUInt8 then
    advance 1
    return (.simple .opBol, true)
  else if ch = '.'.toUInt8 then
    advance 1
    return (.simple .opAny, false)
  else if ch = '['.toUInt8 then return (.simple (.opAnyof (← parseClass pattern fuel)), false)
  else if ch = '('.toUInt8 then expr
  else if ch = ')'.toUInt8 then
    syntaxError "Unexpected close paren"
    failure
  else if ch = '|'.toUInt8 then failure
  else if ch = 0 then
    syntaxError "Unexpected end of input"
    failure
  else if isClosure ch then
    syntaxError "Missing operand to closure"
    failure
  else if ch = '\\'.toUInt8 then
    match ← escape pattern with
    | .cls =>
      let c ← current
      return (.simple (.opAnyof (escapedSet (patternAt pattern (c.patternIdx - 1)))), false)
    | .complex =>
      let c ← current
      return (.simple (.opBow (patternAt pattern (c.patternIdx - 1) == 'b'.toUInt8)), true)
    | .backref =>
      let c ← current
      let backreference := (patternAt pattern (c.patternIdx - 1)).toNat - 48
      if c.maskOfClosedParentheses.testBit backreference then return (.simple (.opBackref backreference), true)
      else
        syntaxError "Bad backreference"
        failure
    | .error => failure
    | .char _ =>
      change fun s => { s with patternIdx := start.patternIdx }
      return (.simple (.opAtom (← atomText pattern fuel)), false)
  else return (.simple (.opAtom (← atomText pattern fuel)), false)

def repeated (x : Piece) (minimum : Nat) : Option Nat → Piece
  | none => .copies x minimum (.star x)
  | some 0 => .copies x (minimum - 1) x
  | some (repetitions + 1) => .copies x minimum (.copies (.question x) repetitions (.question x))

def parseRepetition (x : Terminal) : Scan (Piece × Bool) := do
  let (minimum, optionalRepetition) ← bracket pattern
  if optionalRepetition = some 0 ∧ minimum ≤ 0 then
    syntaxError "repetition \x7b0\x7d or \x7b0,0\x7d"
    failure
  else return (repeated x.piece minimum.toNat optionalRepetition, minimum == 0)

/-- The closure `?`, `*` or `+` of a piece. -/
def closureOf (closureType : UInt8) (reluctant : Bool) (x : Piece) : Piece :=
  if reluctant then
    if closureType = '?'.toUInt8 then .reluctantMaybe x
    else if closureType = '*'.toUInt8 then .reluctantStar x else .reluctantPlus x
  else if closureType = '?'.toUInt8 then .question x
  else if closureType = '*'.toUInt8 then .star x
  else .plus x

def parseMark : Scan Bool := do
  if (← peek pattern) = '?'.toUInt8 then
    advance 1
    return true
  else return false

def parseClosure (expr : Scan (Terminal × Bool)) (fuel : Nat) : Scan (Piece × Bool) := do
  let (x, terminalIsNullable) ← parseTerminal pattern expr fuel
  if ← atEnd pattern then return (x.piece, terminalIsNullable)
  else
    let closureType ← peek pattern
    if isClosure closureType = false then return (x.piece, terminalIsNullable)
    else if closureType = '\x7b'.toUInt8 then
      if terminalIsNullable then
        syntaxError "Closure operand can't be nullable"
        failure
      else parseRepetition pattern x
    else
      advance 1
      if terminalIsNullable then
        syntaxError "Closure operand can't be nullable"
        failure
      else
        let reluctant ← parseMark pattern
        return (closureOf closureType reluctant x.piece, closureType ≠ '+'.toUInt8)

def Piece.single (p : Piece) : Bool := p.closed && p.exit == 0

structure Sequence where
  pieces : List Piece
  broken : Bool
  compound : broken = true → ∃ last, pieces.getLast? = some last ∧ last.single = false

namespace Sequence

def empty : Sequence := ⟨[], false, fun broken => by cases broken⟩

def breaks (s : Sequence) (p : Piece) : Bool := s.pieces.getLast?.any (fun last => !last.closed) && !p.single

def add (s : Sequence) (p : Piece) : Sequence where
  pieces := s.pieces ++ [p]
  broken := s.breaks p
  compound := by
    intro broken
    rw [breaks, Bool.and_eq_true, Bool.not_eq_true'] at broken
    exact ⟨p, List.getLast?_concat, broken.2⟩

def piece (s : Sequence) : Piece := .ofList s.pieces

end Sequence

def parsePieces (expr : Scan (Terminal × Bool)) : Nat → Sequence → Bool → Scan (Sequence × Bool)
  | 0, _, _ => stuck
  | fuel + 1, s, isnullable => do
    let ch ← peek pattern
    if (← atEnd pattern) ∨ ch = '|'.toUInt8 ∨ ch = ')'.toUInt8 then return (s, isnullable)
    else
      let (p, closureIsNullable) ← parseClosure pattern expr fuel
      if s.broken then stuck else parsePieces expr fuel (s.add p) (isnullable && closureIsNullable)

def parseAlternatives (expr : Scan (Terminal × Bool)) : Nat → List Sequence → Bool → Scan (List Sequence × Bool)
  | 0, _, _ => stuck
  | fuel + 1, branches, isnullable => do
    if (← atEnd pattern) ∨ (← peek pattern) ≠ '|'.toUInt8 then return (branches, isnullable)
    else
      advance 1
      let (s, branchnullable) ← parsePieces pattern expr fuel .empty true
      parseAlternatives expr fuel (branches ++ [s]) (isnullable || branchnullable)

/-- The closing parenthesis, unless this is the outermost expression. -/
def parseClose (opened : Option Nat) : Scan Unit :=
  match opened with
  | some number => closeParen pattern number
  | none => return

def parseExprWith (expr : Scan (Terminal × Bool)) (opened : Option Nat) (fuel : Nat) : Scan (Alts × Bool) := do
  let (first, branchnullable) ← parsePieces pattern expr fuel .empty true
  let (branches, isnullable) ← parseAlternatives pattern expr fuel [] branchnullable
  parseClose pattern opened
  if first.broken ∨ branches.any (·.broken) then stuck
  else return (.ofList first.piece (branches.map (·.piece)), isnullable)

def parseExpr : Nat → Scan (Terminal × Bool)
  | 0 => stuck
  | fuel + 1 => do
    let number ← openParen
    let (alts, isnullable) ← parseExprWith pattern (parseExpr fuel) (some number) fuel
    return (.group number alts, isnullable)

def parseOutermost (fuel : Nat) : Scan (Alts × Bool) := do
  change fun c => { c with nofParentheses := 1 }
  parseExprWith pattern (parseExpr pattern fuel) none fuel

def parseWith (fuel : Nat) : Scan Alts := do
  let (alts, _) ← parseOutermost pattern fuel
  readAll pattern
  return alts

def parse (fuel : Nat) : Option (Option Alts × Bytes) :=
  match parseWith pattern fuel ⟨0, 0, 0, []⟩ with
  | some (res, c) => some (res, c.errorMsg)
  | none => none

end Parser

end Coast.Regex
