import Coast.Base.Bytes
import Mathlib.Data.List.TakeWhile

/-!
# Programs and the matching engine

A compiled expression is a list of nodes; each node has an opcode with its operand and the relative
offset of the node that follows it. `MatchNodes` is a backtracking interpreter that calls itself for
what follows a choice. It runs on fuel here: `none` means that the engine has not returned yet.
-/

namespace Coast.Regex

abbrev REBitSet := UInt8 → Bool

/-- The opcodes with their operands. A `hole` is a node that only an offset was ever written to. -/
inductive Op where
  | opEnd
  | opBol
  | opEol
  | opAny
  | opAnyof (set : REBitSet)
  | opBranch
  | opAtom (text : Bytes)
  | opOpen (number : Nat)
  | opClose (number : Nat)
  | opBackref (number : Nat)
  | opGoto
  | opNothing
  | opReluctantStar
  | opReluctantPlus
  | opReluctantMaybe
  | opBow (boundary : Bool)
  | hole

namespace Op

def isBranch : Op → Bool
  | opBranch => true
  | _ => false

def isEnd : Op → Bool
  | opEnd => true
  | _ => false

end Op

structure Node where
  op : Op
  next : Int

abbrev Program := List Node

namespace Program

/-- `fProgram[node]`; an index below 0 is taken as 0. -/
def nodeAt (p : Program) (node : Int) : Node := p.getD node.toNat ⟨.hole, 0⟩

end Program

structure MatchFlags where
  icase : Bool
  multiline : Bool
  dotMatchesNewline : Bool

/-- `MATCH_NORMAL`. -/
def MatchFlags.normal : MatchFlags := ⟨false, false, false⟩

def tolower (c : UInt8) : UInt8 := if isupper c then c + 32 else c

/-! ### Comparison of texts -/

def cstr (text : Bytes) : Bytes := text.takeWhile fun c => c != 0

theorem cstr_of_plain {text : Bytes} (plain : 0 ∉ text) : cstr text = text := by
  rw [cstr, List.takeWhile_eq_self_iff]
  intro c mem
  rw [bne_iff_ne]
  rintro rfl
  exact plain mem

/-- `strncmp(s, t, n) == 0`, where the bytes behind the end of a text are 0. -/
def strncmpEq : Nat → Bytes → Bytes → Bool
  | 0, _, _ => true
  | n + 1, s, t =>
    let c := s.headD 0
    if c = t.headD 0 then c == 0 || strncmpEq n s.tail t.tail else false

/-- `String::CaselessCompare(s, t) == 0`. -/
def caselessEq (s t : Bytes) : Bool := (cstr s).map tolower == (cstr t).map tolower

def subString (text : Bytes) (start length : Nat) : Bytes := (text.drop start).take length

/-! ### The state of a match -/

/-- The registers, `none` for -1, and the stacks of `fBackRefs`, bottom first. -/
structure Captures where
  startRegister : Nat → Option Nat
  endRegister : Nat → Option Nat
  opened : Nat → List Nat
  closed : Nat → List Nat

def update {α : Type} (f : Nat → α) (k : Nat) (v : α) (i : Nat) : α := if i = k then v else f i

namespace Captures

/-- The captures when a match begins at `i`. -/
def start (i : Nat) : Captures where
  startRegister := update (fun _ => none) 0 (some i)
  endRegister := fun _ => none
  opened := fun _ => []
  closed := fun _ => []

def setStart (c : Captures) (k i : Nat) : Captures :=
  if c.startRegister k = none then { c with startRegister := update c.startRegister k (some i) } else c

def setEnd (c : Captures) (k i : Nat) : Captures :=
  if c.endRegister k = none then { c with endRegister := update c.endRegister k (some i) } else c

def pushOpen (c : Captures) (k i : Nat) : Captures := { c with opened := update c.opened k (c.opened k ++ [i]) }

def popOpen (c : Captures) (k : Nat) : Captures := { c with opened := update c.opened k (c.opened k).dropLast }

def pushClose (c : Captures) (k i : Nat) : Captures := { c with closed := update c.closed k (c.closed k ++ [i]) }

def popClose (c : Captures) (k : Nat) : Captures := { c with closed := update c.closed k (c.closed k).dropLast }

end Captures

/-- A conversion to `short`. -/
def short (n : Int) : Int := (n + 32768) % 65536 - 32768

/-- A conversion to `int`. -/
def toInt (n : Int) : Int := (n + 2147483648) % 4294967296 - 2147483648

/-- `MatchNodes` has returned the index behind the match, or failed; `none` if it is still running. -/
abbrev Result := Option (Option Nat × Captures)

structure Matcher where
  program : Program
  flags : MatchFlags
  search : Bytes

namespace Matcher

variable (m : Matcher)

/-! ### Nodes that do not branch -/

def matchBackref (k idx : Nat) (c : Captures) : Option Nat :=
  match (c.opened k).head?, (c.closed k).head? with
  | some s, some e =>
    if s = e then some idx
    else
      -- The length may be negative here; the sum never is for an index in the text.
      let behind : Int := idx + ((e : Int) - s)
      if m.search.length ≤ behind - 1 then none
      else if m.flags.icase then
        if caselessEq (subString m.search idx (e - s)) (subString m.search s (e - s)) then some behind.toNat else none
      else if strncmpEq (e - s) (m.search.drop idx) (m.search.drop s) then some behind.toNat
      else none
  | _, _ => none

def matchAtom (text : Bytes) (idx : Nat) : Option Nat :=
  let atom := cstr text
  if m.search.length < atom.length + idx then none
  else if m.flags.icase then
    if caselessEq atom (subString m.search idx atom.length) then some (idx + atom.length) else none
  else if strncmpEq atom.length (m.search.drop idx) atom then some (idx + atom.length)
  else none

/-- The index behind what a node matches at `idx`; `none` if it fails or is not one of these nodes. -/
def matchSimple (op : Op) (idx : Nat) (c : Captures) : Option Nat :=
  let s := m.search
  match op with
  | .opBackref k => m.matchBackref k idx c
  | .opBol => if idx ≠ 0 ∧ (m.flags.multiline = false ∨ s.getD (idx - 1) 0 ≠ 10) then none else some idx
  | .opEol =>
    if 0 < s.length ∧ idx < s.length ∧ (m.flags.multiline = false ∨ s.getD idx 0 ≠ 10) then none else some idx
  | .opBow boundary =>
    let last := if idx = 0 then 32 else s.getD (idx - 1) 0
    let next := if s.length ≤ idx then 32 else s.getD idx 0
    if (isalnum last == isalnum next) == boundary then none else some idx
  | .opAny =>
    if s.length ≤ idx ∨ (s.getD idx 0 = 10 ∧ m.flags.dotMatchesNewline = false) then none else some (idx + 1)
  | .opAtom text => m.matchAtom text idx
  | .opAnyof set =>
    if s.length ≤ idx then none
    else
      let c := s.getD idx 0
      if set (if m.flags.icase then tolower c else c) then some (idx + 1) else none
  | .opNothing => some idx
  | .opGoto => some idx
  | _ => none

/-! ### The interpreter -/

/-- The loop of a reluctant `*`: `rest` is tried before each further pass through the operand. -/
def reluctantLoop (rest operand : Nat → Captures → Result) : Nat → Nat → Captures → Result
  | 0, _, _ => none
  | fuel + 1, idx, c =>
    match rest idx c with
    | some (none, c) =>
      match operand idx c with
      | some (some idx, c) => reluctantLoop rest operand fuel idx c
      | other => other
    | other => other

def branchLoop (operand : Int → Captures → Result) : Nat → Int → Captures → Result
  | 0, _, _ => none
  | fuel + 1, node, c =>
    match operand (node + 1) c with
    | some (none, c) =>
      let nextBranch := (m.program.nodeAt node).next
      if nextBranch ≠ 0 ∧ (m.program.nodeAt (node + nextBranch)).op.isBranch then
        branchLoop operand fuel (node + nextBranch) c
      else some (none, c)
    | other => other

def matchNodes : Nat → Int → Int → Nat → Captures → Result
  | 0, _, _, _, _ => none
  | fuel + 1, node, lastNode, idx, c =>
    if lastNode ≤ node then some (none, c)
    else
      let here := m.program.nodeAt node
      let next := node + short here.next
      let rest := matchNodes fuel next m.program.length
      let operand := matchNodes fuel (node + 1) next
      match here.op with
      | .opReluctantMaybe =>
        match rest idx c with
        | some (none, c) =>
          match operand idx c with
          | some (some idx, c) => rest idx c
          | other => other
        | other => other
      | .opReluctantPlus =>
        match operand idx c with
        | some (some idx, c) => reluctantLoop rest operand fuel idx c
        | other => other
      | .opReluctantStar => reluctantLoop rest operand fuel idx c
      | .opOpen k =>
        match rest idx (c.pushOpen k idx) with
        | some (some e, c) => some (some e, c.setStart k idx)
        | some (none, c) => some (none, c.popOpen k)
        | none => none
      | .opClose k =>
        match rest idx (c.pushClose k idx) with
        | some (some e, c) => some (some e, c.setEnd k idx)
        | some (none, c) => some (none, c.popClose k)
        | none => none
      | .opBranch =>
        if (m.program.nodeAt next).op.isBranch then
          m.branchLoop (fun node c => matchNodes fuel node m.program.length idx c) fuel node c
        else matchNodes fuel (node + 1) lastNode idx c
      | .opEnd => some (some idx, c)
      | .hole => some (none, c)
      | op =>
        match m.matchSimple op idx c with
        | some idx => matchNodes fuel next lastNode idx c
        | none => some (none, c)

/-! ### Matching at a position and searching -/

/-- `MatchAt`: the registers of a match that begins at `i`. -/
def matchAt (fuel : Nat) (i : Int) : Option (Option Captures) :=
  if i < 0 then some none
  else
    match m.matchNodes fuel 0 m.program.length i.toNat (.start i.toNat) with
    | some (some e, c) => some (some { c with endRegister := update c.endRegister 0 (some e) })
    | some (none, _) => some none
    | none => none

/-- The first of `count` positions from `i` on that satisfies the test and where there is a match. -/
def searchFrom (test : Int → Bool) (fuel : Nat) : Nat → Int → Option (Option Captures)
  | 0, _ => some none
  | count + 1, i =>
    if test i then
      match m.matchAt fuel i with
      | some none => searchFrom test fuel count (i + 1)
      | other => other
    else searchFrom test fuel count (i + 1)

def prefixMatches (fPrefix : Bytes) (i : Int) : Bool :=
  let part := subString m.search i.toNat fPrefix.length
  if m.flags.icase then caselessEq fPrefix part else fPrefix == part

/-- `ContainedIn`: the registers, or `none` for `false`. -/
def containedIn (fPrefix : Bytes) (fuel : Nat) (i : Int) : Option (Option Captures) :=
  if m.program.isEmpty then some none
  else if fPrefix.isEmpty then m.searchFrom (fun _ => true) fuel (m.search.length + 1 - i).toNat i
  else m.searchFrom (m.prefixMatches fPrefix) fuel (m.search.length + 1 - fPrefix.length - i).toNat i

/-! ### Splitting, substitution and filtering -/

/-- `GetStartRegister` and `GetEndRegister`. -/
def register : Option Nat → Int
  | some i => i
  | none => -1

/-- `SubString`, where a negative length means the rest. -/
def part (start length : Int) : Bytes :=
  if length < 0 then m.search.drop start.toNat else subString m.search start.toNat length.toNat

def splitLoop (fPrefix : Bytes) (fuel : Nat) : Nat → Int → List Bytes → Option (Int × List Bytes)
  | 0, _, _ => none
  | n + 1, pos, res =>
    if pos < m.search.length then
      match m.containedIn fPrefix fuel pos with
      | some (some c) =>
        let start := register (c.startRegister 0)
        let newpos := register (c.endRegister 0)
        if newpos = pos then splitLoop fPrefix fuel n (toInt (newpos + 1)) (res ++ [m.part pos (start + 1 - pos)])
        else splitLoop fPrefix fuel n (toInt newpos) (res ++ [m.part pos (start - pos)])
      | some none => some (pos, res)
      | none => none
    else some (pos, res)

def split (fPrefix : Bytes) (fuel : Nat) : Option (List Bytes) :=
  match m.splitLoop fPrefix fuel fuel 0 [] with
  | some (pos, res) => some (if m.part pos (-1) = [] then res else res ++ [m.part pos (-1)])
  | none => none

def substLoop (substitution : Bytes) (replaceall : Bool) (fPrefix : Bytes) (fuel : Nat) : Nat → Int → Bytes → Option (Int × Bytes)
  | 0, _, _ => none
  | n + 1, pos, ret =>
    if pos < m.search.length then
      match m.containedIn fPrefix fuel pos with
      | some (some c) =>
        let ret := ret ++ m.part pos (register (c.startRegister 0) - pos) ++ substitution
        let newpos := register (c.endRegister 0)
        let pos := toInt (if newpos = pos then newpos + 1 else newpos)
        if replaceall then substLoop substitution replaceall fPrefix fuel n pos ret else some (pos, ret)
      | some none => some (pos, ret)
      | none => none
    else some (pos, ret)

def subst (substitution : Bytes) (replaceall : Bool) (fPrefix : Bytes) (fuel : Nat) : Option Bytes :=
  match m.substLoop substitution replaceall fPrefix fuel fuel 0 [] with
  | some (pos, ret) => some (if pos < m.search.length then ret ++ m.part pos (-1) else ret)
  | none => none

/-- The loop of `Grep` over the slots that are left, with those found so far. -/
def grepLoop {α : Type} (asString : α → Bytes) (fPrefix : Bytes) (fuel : Nat) :
    List (Option Bytes × α) → List (Option Bytes × α) → Option (List (Option Bytes × α))
  | [], res => some res
  | (sname, value) :: rest, res =>
    match { m with search := asString value }.containedIn fPrefix fuel 0 with
    | some (some _) =>
      let defined := sname.isSome && res.any fun slot => slot.1 == sname
      grepLoop asString fPrefix fuel rest (res ++ [(if defined then none else sname, value)])
    | some none => grepLoop asString fPrefix fuel rest res
    | none => none

def grep {α : Type} (asString : α → Bytes) (fPrefix : Bytes) (fuel : Nat) (search : List (Option Bytes × α)) :
    Option (List (Option Bytes × α)) := m.grepLoop asString fPrefix fuel search []

end Matcher

end Coast.Regex
