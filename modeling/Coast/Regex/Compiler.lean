import Coast.Regex.Scanner

/-!
# The compiler

`RECompiler` is a recursive descent parser that emits nodes as it goes: it appends and inserts them at
the end of the program and connects them by following chains of offsets.
-/

namespace Coast.Regex

open Scan

/-- A computation on the program; one that fails leaves none behind. -/
abbrev Compile := StateT Program Scan

/-! ### Nodes -/

def appendNode (op : Op) : Compile Nat := fun p => return (p.length, p ++ [⟨op, 0⟩])

def insertNode (op : Op) (insertAt : Nat) : Compile Unit := fun p => return ((), p.insertIdx insertAt ⟨op, 0⟩)

def nextOf (p : Program) (node : Nat) : Int := (p.getD node ⟨.hole, 0⟩).next

def follow (p : Program) : Nat → Nat → Option Nat
  | 0, _ => none
  | fuel + 1, node => if nextOf p node = 0 then some node else follow p fuel (node + nextOf p node).toNat

def endOfChain (p : Program) (node : Nat) : Option Nat := follow p (p.length + 1) node

/-- Writes an offset; behind the program this makes a new node that has no opcode. -/
def setNext (p : Program) (node : Nat) (offset : Int) : Program :=
  if node < p.length then p.modify node fun n => { n with next := offset }
  else p ++ List.replicate (node - p.length) ⟨.hole, 0⟩ ++ [⟨.hole, offset⟩]

def setNextOfEnd (node pointTo : Nat) : Compile Unit := fun p =>
  match endOfChain p node with
  | some last => return ((), setNext p last (pointTo - last))
  | none => stuck

section Pattern

variable (pattern : Bytes)

/-! ### Bracket expressions and atoms -/

def posixCharacterClass : Compile Nat := do
  appendNode (.opAnyof (← posixSet pattern))

def setOp (node : Nat) (op : Op) : Compile Unit := fun p => return ((), p.modify node fun n => { n with op := op })

def characterClass (fuel : Nat) : Compile Nat := do
  advance 1
  if ← atEnd pattern then
    syntaxError "Unterminated class"
    failure
  else if (← peek pattern) = ':'.toUInt8 then
    advance 1
    posixCharacterClass pattern
  else
    let ret ← appendNode (.opAnyof fun _ => false)
    let set ← classSet pattern fuel
    setOp ret (.opAnyof set)
    return ret

def atom (fuel : Nat) : Compile Nat := do
  let ret ← appendNode (.opAtom [])
  let text ← atomText pattern fuel
  setOp ret (.opAtom text)
  return ret

/-! ### Terminals -/

def escapedSet (letter : UInt8) : REBitSet :=
  if letter = 'w'.toUInt8 then isalnum
  else if letter = 'W'.toUInt8 then fun c => !isalnum c
  else if letter = 's'.toUInt8 then isspace
  else if letter = 'S'.toUInt8 then fun c => !isspace c
  else if letter = 'd'.toUInt8 then isdigit
  else if letter = 'D'.toUInt8 then fun c => !isdigit c
  else fun _ => false

def terminal (expr : Compile (Nat × Bool)) (fuel : Nat) : Compile (Nat × Bool) := do
  let start ← current
  let ch ← peek pattern
  if ch = '$'.toUInt8 then
    advance 1
    return (← appendNode .opEol, true)
  else if ch = '^'.toUInt8 then
    advance 1
    return (← appendNode .opBol, true)
  else if ch = '.'.toUInt8 then
    advance 1
    return (← appendNode .opAny, false)
  else if ch = '['.toUInt8 then return (← characterClass pattern fuel, false)
  else if ch = '('.toUInt8 then expr
  else if ch = ')'.toUInt8 then
    syntaxError "Unexpected close paren"
    failure
  else if ch = '|'.toUInt8 then failure
  else if ch = 0 then
    syntaxError "Unexpected end of input"
    failure
  else if isClosure ch then
    syntaxError "Missing operand to closure"
    failure
  else if ch = '\\'.toUInt8 then
    match ← escape pattern with
    | .cls =>
      let c ← current
      return (← appendNode (.opAnyof (escapedSet (patternAt pattern (c.patternIdx - 1)))), false)
    | .complex =>
      let c ← current
      return (← appendNode (.opBow (patternAt pattern (c.patternIdx - 1) == 'b'.toUInt8)), true)
    | .backref =>
      let c ← current
      let backreference := (patternAt pattern (c.patternIdx - 1)).toNat - 48
      if c.maskOfClosedParentheses.testBit backreference then
        return (← appendNode (.opBackref backreference), true)
      else
        syntaxError "Bad backreference"
        failure
    | .error => failure
    | .char _ =>
      change fun s => { s with patternIdx := start.patternIdx }
      return (← atom pattern fuel, false)
  else return (← atom pattern fuel, false)

/-! ### Closures -/

def copyProgram (start len : Nat) : Compile Program := fun p => return ((p.drop start).take len, p)

def appendProgram (prog : Program) : Compile Nat := fun p => return (p.length, p ++ prog)

def generateQuestion (terminalNode : Nat) : Compile Unit := do
  insertNode .opBranch terminalNode
  let option ← appendNode .opBranch
  setNextOfEnd terminalNode option
  let nothing ← appendNode .opNothing
  setNextOfEnd terminalNode nothing
  setNextOfEnd (terminalNode + 1) nothing

def moreQuestions (prog : Program) : Nat → Nat → Compile Unit
  | 0, _ => return
  | repetitions + 1, chain => do
    let newTerminal ← appendProgram prog
    generateQuestion newTerminal
    setNextOfEnd chain newTerminal
    moreQuestions prog repetitions newTerminal

def generateQuestions (prog : Program) (terminalNode repetitions : Nat) : Compile Unit := do
  generateQuestion terminalNode
  moreQuestions prog (repetitions - 1) terminalNode

def generateStar (terminalNode : Nat) : Compile Unit := do
  insertNode .opBranch terminalNode
  setNextOfEnd (terminalNode + 1) (← appendNode .opBranch)
  setNextOfEnd (terminalNode + 1) (← appendNode .opGoto)
  setNextOfEnd (terminalNode + 1) terminalNode
  setNextOfEnd terminalNode (← appendNode .opBranch)
  setNextOfEnd terminalNode (← appendNode .opNothing)

def generatePlus (terminalNode : Nat) : Compile Unit := do
  let branch ← appendNode .opBranch
  setNextOfEnd terminalNode branch
  setNextOfEnd (← appendNode .opGoto) terminalNode
  setNextOfEnd branch (← appendNode .opBranch)
  setNextOfEnd terminalNode (← appendNode .opNothing)

def repeatTerminal (prog : Program) : Nat → Nat → Compile Nat
  | 0, last => return last
  | repetitions + 1, chain => do
    let last ← appendProgram prog
    setNextOfEnd chain last
    repeatTerminal prog repetitions last

def optionalCopy (prog : Program) (minimum : Int) (last : Nat) : Compile Nat :=
  if 0 < minimum then repeatTerminal prog 1 last else return last

def repetition (terminalNode terminalLen : Nat) : Compile Bool := do
  let (minimum, optionalRepetition) ← bracket pattern
  let terminalProg ← copyProgram terminalNode terminalLen
  let lastTerminalNode ← repeatTerminal terminalProg (minimum - 1).toNat terminalNode
  match optionalRepetition with
  | none =>
    generateStar (← optionalCopy terminalProg minimum lastTerminalNode)
    return minimum == 0
  | some 0 =>
    if minimum ≤ 0 then
      modify fun p => p.take terminalNode
      syntaxError "repetition \x7b0\x7d or \x7b0,0\x7d"
      failure
    else return false
  | some repetitions =>
    generateQuestions terminalProg (← optionalCopy terminalProg minimum lastTerminalNode) repetitions
    return minimum == 0

/-- The closure with its operand in the nodes from `terminalNode` on. -/
def reluctantClosure (terminalNode : Nat) (op : Op) : Compile Unit := do
  setNextOfEnd terminalNode (← appendNode .opEnd)
  insertNode op terminalNode
  let p ← get
  setNextOfEnd terminalNode p.length

/-- The closure `?`, `*` or `+`; a `?` behind it makes it reluctant. -/
def generateClosure (terminalNode : Nat) (closureType : UInt8) : Compile Unit := do
  if (← peek pattern) = '?'.toUInt8 then
    advance 1
    reluctantClosure terminalNode
      (if closureType = '?'.toUInt8 then .opReluctantMaybe
        else if closureType = '*'.toUInt8 then .opReluctantStar else .opReluctantPlus)
  else if closureType = '?'.toUInt8 then generateQuestion terminalNode
  else if closureType = '*'.toUInt8 then generateStar terminalNode
  else generatePlus terminalNode

def closure (expr : Compile (Nat × Bool)) (fuel : Nat) : Compile (Nat × Bool) := do
  let (terminalNode, terminalIsNullable) ← terminal pattern expr fuel
  let p ← get
  let terminalLen := p.length - terminalNode
  if ← atEnd pattern then return (terminalNode, terminalIsNullable)
  else
    let closureType ← peek pattern
    if isClosure closureType = false then return (terminalNode, terminalIsNullable)
    else if closureType = '\x7b'.toUInt8 then
      if terminalIsNullable then
        syntaxError "Closure operand can't be nullable"
        failure
      else
        let isnullable ← repetition pattern terminalNode terminalLen
        return (terminalNode, isnullable)
    else
      advance 1
      if terminalIsNullable then
        syntaxError "Closure operand can't be nullable"
        failure
      else
        generateClosure pattern terminalNode closureType
        return (terminalNode, closureType ≠ '+'.toUInt8)

/-! ### Branches and expressions -/

def connect (chain : Option Nat) (node : Nat) : Compile Unit :=
  match chain with
  | some last => setNextOfEnd last node
  | none => return

/-- The loop of `Branch`; `chain` is the last piece. -/
def branchPieces (expr : Compile (Nat × Bool)) : Nat → Option Nat → Bool → Compile (Option Nat × Bool)
  | 0, _, _ => (stuck : Scan _)
  | fuel + 1, chain, isnullable => do
    let ch ← peek pattern
    if (← atEnd pattern) ∨ ch = '|'.toUInt8 ∨ ch = ')'.toUInt8 then return (chain, isnullable)
    else
      let (node, closureIsNullable) ← closure pattern expr fuel
      connect chain node
      branchPieces expr fuel (some node) (isnullable && closureIsNullable)

def branch (expr : Compile (Nat × Bool)) (fuel : Nat) : Compile (Nat × Bool) := do
  let ret ← appendNode .opBranch
  let (chain, isnullable) ← branchPieces pattern expr fuel none true
  if chain = none then
    let _ ← appendNode .opNothing
    return (ret, isnullable)
  else return (ret, isnullable)

def alternatives (expr : Compile (Nat × Bool)) (ret : Nat) : Nat → Bool → Compile Bool
  | 0, _ => (stuck : Scan _)
  | fuel + 1, isnullable => do
    if (← atEnd pattern) ∨ (← peek pattern) ≠ '|'.toUInt8 then return isnullable
    else
      advance 1
      let (next, branchnullable) ← branch pattern expr fuel
      setNextOfEnd ret next
      alternatives expr ret fuel (isnullable || branchnullable)

def hookBranch (finish i : Nat) : Compile Unit := do
  let p ← get
  if (p.nodeAt i).op.isBranch then setNextOfEnd (i + 1) finish else return

def hookBranches (finish : Nat) : Nat → Nat → Compile Unit
  | 0, _ => (stuck : Scan _)
  | fuel + 1, i => do
    hookBranch finish i
    let p ← get
    let next := nextOf p i
    if next = 0 then return else hookBranches finish fuel (i + next).toNat

def closeParen (closeParens : Nat) : Scan Unit := do
  if (← peek pattern) = ')'.toUInt8 then
    advance 1
    -- The shift count is taken modulo the word size.
    change fun c => { c with maskOfClosedParentheses := c.maskOfClosedParentheses ||| 2 ^ (closeParens % 64) }
  else
    syntaxError "Missing close paren"
    failure

/-- The node that ends an expression; `opened` is the number of its parenthesis. -/
def closeExpr (opened : Option Nat) : Compile Nat := do
  match opened with
  | some number =>
    closeParen pattern number
    appendNode (.opClose number)
  | none => appendNode .opEnd

def openExpr (opened : Option Nat) : Compile (Option Nat) := do
  match opened with
  | some number => return some (← appendNode (.opOpen number))
  | none => return none

def exprWith (expr : Compile (Nat × Bool)) (opened : Option Nat) (fuel : Nat) : Compile (Nat × Bool) := do
  let node ← openExpr opened
  let (first, branchnullable) ← branch pattern expr fuel
  connect node first
  let ret := node.getD first
  let isnullable ← alternatives pattern expr ret fuel branchnullable
  let finish ← closeExpr pattern opened
  setNextOfEnd ret finish
  let p ← get
  hookBranches finish (p.length + 1) ret
  return (ret, isnullable)

def openParen : Scan Nat := do
  let c ← current
  advance 1
  change fun c => { c with nofParentheses := c.nofParentheses + 1 }
  return c.nofParentheses

/-- An expression in parentheses: `terminal` has seen the open one, and the count of them is at least 1. -/
def expr : Nat → Compile (Nat × Bool)
  | 0 => (stuck : Scan _)
  | fuel + 1 => do exprWith pattern (expr fuel) (some (← openParen)) fuel

/-- The outermost call of `expr`, which finds the count at 0. -/
def outermost (fuel : Nat) : Compile (Nat × Bool) := do
  change fun c => { c with nofParentheses := 1 }
  exprWith pattern (expr pattern fuel) none fuel

/-- The literal with which a match begins, read off the first nodes. -/
def compiledPrefix (p : Program) : Option Bytes :=
  if (p.nodeAt 0).op.isBranch ∧ (p.nodeAt (p.nodeAt 0).next).op.isEnd then
    match (p.nodeAt 1).op with
    | .opAtom text => some text
    | _ => none
  else none

/-- The result of `compile`. -/
structure Compiled where
  program : Program
  literalPrefix : Option Bytes

def readAll : Scan Unit := do
  let c ← current
  if c.patternIdx = pattern.length then return
  else
    let ch ← peek pattern
    if ch = ')'.toUInt8 then syntaxError "Unmatched close paren" else pure ()
    syntaxError "Unexpected input remains"
    failure

def compileWith (fuel : Nat) : Compile Compiled := do
  let _ ← outermost pattern fuel
  readAll pattern
  let p ← get
  return ⟨p, compiledPrefix p⟩

/-- The compiled expression, if there is one, and the error message. -/
def compile (fuel : Nat) : Option (Option Compiled × Bytes) :=
  match (compileWith pattern fuel).run [] ⟨0, 0, 0, []⟩ with
  | some (res, c) => some (res.map (·.1), c.errorMsg)
  | none => none

end Pattern

/-- `setProgram`: the literal that the search looks for. -/
def Compiled.fPrefix (c : Compiled) : Bytes := cstr (c.literalPrefix.getD [])

end Coast.Regex
