import Coast.Base.Number
import Coast.Regex.Program

/-!
# Scanning a pattern

The parts of `RECompiler` that read the pattern without touching the program: numbers, escapes, bracket
expressions and the texts of atoms. A computation may fail, which the code reports by a negative value
after it has appended to the error message, or not return, when its fuel does not suffice.
-/

namespace Coast.Regex

structure Scanner where
  patternIdx : Nat
  nofParentheses : Nat
  maskOfClosedParentheses : Nat
  errorMsg : Bytes

/-- `none` does not return, `some (none, _)` fails. -/
def Scan (α : Type) := Scanner → Option (Option α × Scanner)

namespace Scan

variable {α β : Type}

def pure' (a : α) : Scan α := fun c => some (some a, c)

def bind' (x : Scan α) (f : α → Scan β) : Scan β := fun c =>
  match x c with
  | some (some a, c) => f a c
  | some (none, c) => some (none, c)
  | none => none

instance : Monad Scan where
  pure := pure'
  bind := bind'

def failure : Scan α := fun c => some (none, c)

def stuck : Scan α := fun _ => none

def current : Scan Scanner := fun c => some (some c, c)

def change (f : Scanner → Scanner) : Scan Unit := fun c => some (some (), f c)

variable {x : Scan α} {f : α → Scan β} {c : Scanner}

@[simp] theorem pure_run (a : α) (c : Scanner) : (pure a : Scan α) c = some (some a, c) := rfl

@[simp] theorem failure_run (c : Scanner) : (failure : Scan α) c = some (none, c) := rfl

@[simp] theorem stuck_run (c : Scanner) : (stuck : Scan α) c = none := rfl

@[simp] theorem current_bind (f : Scanner → Scan β) (c : Scanner) : (current >>= f) c = f c c := rfl

@[simp] theorem change_bind (g : Scanner → Scanner) (f : Unit → Scan β) (c : Scanner) :
    (change g >>= f) c = f () (g c) := rfl

theorem bind_of_ok {a : α} {d : Scanner} (first : x c = some (some a, d)) : (x >>= f) c = f a d := by
  show bind' x f c = _
  rw [bind', first]

theorem bind_of_failure {d : Scanner} (first : x c = some (none, d)) : (x >>= f) c = some (none, d) := by
  show bind' x f c = _
  rw [bind', first]

theorem bind_of_stuck (first : x c = none) : (x >>= f) c = none := by
  show bind' x f c = _
  rw [bind', first]

theorem bind_ok {b : β} {d : Scanner} (done : (x >>= f) c = some (some b, d)) :
    ∃ a c', x c = some (some a, c') ∧ f a c' = some (some b, d) := by
  change bind' x f c = _ at done
  unfold bind' at done
  split at done
  · rename_i a c' first
    exact ⟨a, c', first, done⟩
  · cases done
  · cases done

theorem bind_congr_run {y : Scan α} {g : α → Scan β} (first : x c = y c)
    (rest : ∀ a d, x c = some (some a, d) → f a d = g a d) : (x >>= f) c = (y >>= g) c := by
  match run : x c with
  | none => rw [bind_of_stuck run, bind_of_stuck (first ▸ run)]
  | some (none, d) => rw [bind_of_failure run, bind_of_failure (first ▸ run)]
  | some (some a, d) => rw [bind_of_ok run, bind_of_ok (first ▸ run), rest a d run]

theorem ite_congr_run {p : Prop} [Decidable p] {x y x' y' : Scan α} (yes : p → x c = x' c) (no : ¬p → y c = y' c) :
    (if p then x else y) c = (if p then x' else y') c := by
  split
  · exact yes ‹_›
  · exact no ‹_›

instance : LawfulMonad Scan := LawfulMonad.mk' Scan
  (by
    intro α x
    funext c
    show bind' x pure' c = x c
    unfold bind'
    split <;> rename_i first <;> exact first.symm)
  (fun _ _ => rfl)
  (by
    intro α β γ x f g
    funext c
    show bind' (bind' x f) g c = bind' x (fun a => bind' (f a) g) c
    unfold bind'
    cases x c with
    | none => rfl
    | some r => cases r with | mk a d => cases a <;> rfl)

@[simp] theorem failure_bind (f : α → Scan β) : (failure >>= f) = failure := rfl

@[simp] theorem stuck_bind (f : α → Scan β) : (stuck >>= f) = stuck := rfl

@[simp] theorem map_failure (f : α → β) : f <$> (failure : Scan α) = failure := rfl

@[simp] theorem map_stuck (f : α → β) : f <$> (stuck : Scan α) = stuck := rfl

end Scan

open Scan

def syntaxError (s : String) : Scan Unit :=
  change fun c => { c with errorMsg := c.errorMsg ++ decimalText c.patternIdx ++ ascii ":" ++ ascii s }

section Pattern

variable (pattern : Bytes)

/-- `fPattern.At(i)`, which is 0 behind the end. -/
def patternAt (i : Nat) : UInt8 := pattern.getD i 0

def peek : Scan UInt8 := fun c => some (some (patternAt pattern c.patternIdx), c)

def advance (n : Nat) : Scan Unit := change fun c => { c with patternIdx := c.patternIdx + n }

def atEnd : Scan Bool := fun c => some (some (decide (pattern.length ≤ c.patternIdx)), c)

@[simp] theorem peek_bind {β : Type} (f : UInt8 → Scan β) (c : Scanner) :
    (peek pattern >>= f) c = f (patternAt pattern c.patternIdx) c := rfl

@[simp] theorem advance_bind {β : Type} (n : Nat) (f : Unit → Scan β) (c : Scanner) :
    (advance n >>= f) c = f () { c with patternIdx := c.patternIdx + n } := rfl

@[simp] theorem atEnd_bind {β : Type} (f : Bool → Scan β) (c : Scanner) :
    (atEnd pattern >>= f) c = f (decide (pattern.length ≤ c.patternIdx)) c := rfl

/-! ### Brackets -/

/-- `String::AsLong` on a text of digits. -/
def asLong (digits : Bytes) : Int := (strtol digits 10).1.toInt

def readNumber (dflt : Int) : Scan Int := do
  if isdigit (← peek pattern) then
    let c ← current
    let digits := (pattern.drop c.patternIdx).takeWhile isdigit
    advance digits.length
    return asLong digits
  else
    syntaxError "Expected digit"
    return dflt

/-- The minimum and the number of optional repetitions, `none` for `bracketUnbounded`. -/
def bracket : Scan (Int × Option Nat) := do
  advance 1
  let min ← readNumber pattern 1
  if (← peek pattern) = '\x7d'.toUInt8 then
    advance 1
    return (min, some 0)
  else
    let comma ← peek pattern
    advance 1
    if comma ≠ ','.toUInt8 then
      syntaxError "Expected comma"
      failure
    else if (← peek pattern) = '\x7d'.toUInt8 then
      advance 1
      return (min, none)
    else
      let optional := (← readNumber pattern min) - min
      if optional < 0 ∨ min < 0 then
        syntaxError "Bad range"
        failure
      else
        let close ← peek pattern
        advance 1
        if close ≠ '\x7d'.toUInt8 then
          syntaxError "Missing close brace"
          failure
        else return (min, some optional.toNat)

/-! ### Escapes -/

inductive Escape where
  | char (value : Int)
  | backref
  | complex
  | cls
  | error

def Escape.isNegative : Escape → Bool
  | .char value => value < 0
  | _ => false

def isodigit (c : UInt8) : Bool := 48 ≤ c && c ≤ 55

def hexDigits : Nat → Int → Scan Escape
  | 0, val => return .char val
  | left + 1, val => do
    if ← atEnd pattern then return .char val
    else
      let c ← peek pattern
      if isxdigit c then
        advance 1
        hexDigits left (val * 16 + digitValue c)
      else
        syntaxError ("Expected " ++ toString left ++ " hexadecimal digits after \\x")
        return .error

def octalDigit (val : Int) : Scan Int := do
  let c ← peek pattern
  advance 1
  return val * 8 + (c.toNat - 48)

def escape : Scan Escape := do
  let c ← current
  if pattern.length ≤ c.patternIdx + 1 then
    syntaxError "Escape terminates string"
    return .error
  else
    advance 2
    let escapeChar := patternAt pattern (c.patternIdx + 1)
    if escapeChar = 'b'.toUInt8 ∨ escapeChar = 'B'.toUInt8 then return .complex
    else if escapeChar ∈ ascii "wWsSdD" then return .cls
    else if escapeChar = 'x'.toUInt8 then hexDigits pattern 2 0
    else if escapeChar = 't'.toUInt8 then return .char 9
    else if escapeChar = 'n'.toUInt8 then return .char 10
    else if escapeChar = 'r'.toUInt8 then return .char 13
    else if escapeChar = 'f'.toUInt8 then return .char 12
    else if isodigit escapeChar then
      let val : Int := escapeChar.toNat - 48
      if isodigit (← peek pattern) then
        let val ← octalDigit pattern val
        if isodigit (← peek pattern) then
          return .char (← octalDigit pattern val)
        else return .char val
      else if escapeChar = '0'.toUInt8 then return .char val
      else return .backref
    else if escapeChar = '8'.toUInt8 ∨ escapeChar = '9'.toUInt8 then return .backref
    else return .char (charInt escapeChar)

/-! ### Character classes -/

def isblank (c : UInt8) : Bool := c == 9 || c == 32
def iscntrl (c : UInt8) : Bool := c < 32 || c == 127
def isgraph (c : UInt8) : Bool := 33 ≤ c && c ≤ 126

def posixtable : List (String × REBitSet) :=
  [("alnum", isalnum), ("alpha", fun c => isupper c || islower c), ("blank", isblank), ("cntrl", iscntrl),
    ("digit", isdigit), ("graph", isgraph), ("lower", islower), ("print", isprint),
    ("punct", fun c => isgraph c && !isalnum c), ("space", isspace), ("upper", isupper), ("xdigit", isxdigit)]

def posixSet : Scan REBitSet := do
  let c ← current
  let charClass := (pattern.drop c.patternIdx).takeWhile islower
  advance charClass.length
  let c ← current
  if patternAt pattern c.patternIdx = ':'.toUInt8 ∧ patternAt pattern (c.patternIdx + 1) = ']'.toUInt8 then
    match posixtable.find? fun entry => ascii entry.1 == charClass with
    | some entry =>
      advance 2
      return entry.2
    | none =>
      syntaxError ("Invalid POSIX character class '" ++ String.ofList (charClass.map fun c => Char.ofNat c.toNat) ++ "'")
      syntaxError "Invalid POSIX character class syntax"
      failure
  else
    syntaxError "Invalid POSIX character class syntax"
    failure

/-- The variables of the loop in `characterClass`; `last` is 255 for `CHAR_INVALID`. -/
structure ClassState where
  last : UInt8
  «include» : Bool
  definingRange : Bool
  rangeStart : UInt8
  range : REBitSet

/-- What follows `switchOnCharacter`. -/
def simpleChar (s : ClassState) (char : UInt8) : Scan ClassState := do
  if s.definingRange then
    if s.rangeStart ≥ char then
      syntaxError "Bad character class"
      failure
    else
      return { s with
        range := fun c => s.range c || (s.rangeStart ≤ c && c ≤ char), last := 255, definingRange := false }
  else
    let c ← current
    if patternAt pattern (c.patternIdx + 1) ≠ '-'.toUInt8 then
      return { s with range := fun c => s.range c || c == char, last := char }
    else return { s with last := char }

def classEscape (s : ClassState) : Scan ClassState := do
  if s.definingRange then
    syntaxError "Bad character class"
    failure
  else
    let c ← current
    let letter := patternAt pattern (c.patternIdx - 1)
    if letter = 's'.toUInt8 then return { s with range := fun c => s.range c || isspace c, last := 255 }
    else if letter = 'w'.toUInt8 then return { s with range := fun c => s.range c || isalnum c, last := 255 }
    else if letter = 'd'.toUInt8 then return { s with range := fun c => s.range c || isdigit c, last := 255 }
    else
      syntaxError "Bad character class"
      failure

/-- One pass of the loop in `characterClass`; `none` ends it, at the `]` or at the end of the pattern. -/
def classStep (idxFirst : Nat) (s : ClassState) : Scan (Option ClassState) := do
  if ← atEnd pattern then return none
  else
    let c ← current
    let ch ← peek pattern
    if ch = ']'.toUInt8 then
      if c.patternIdx = idxFirst ∨ (c.patternIdx = idxFirst + 1 ∧ patternAt pattern idxFirst = '^'.toUInt8) then
        advance 1
        return some (← simpleChar pattern s ch)
      else return none
    else if ch = '^'.toUInt8 then
      if c.patternIdx = idxFirst then
        advance 1
        return some { s with «include» := !s.«include» }
      else return some (← simpleChar pattern s ch)
    else if ch = '\\'.toUInt8 then
      match ← escape pattern with
      | .char value => return some (← simpleChar pattern s (UInt8.ofInt value))
      | .cls => return some (← classEscape pattern s)
      | _ =>
        syntaxError "Bad character class"
        failure
    else if ch = '-'.toUInt8 then
      if s.definingRange ∨ s.last = 255 then
        advance 1
        return some (← simpleChar pattern s ch)
      else
        let started := { s with definingRange := true, rangeStart := s.last }
        if c.patternIdx + 1 < pattern.length then
          advance 1
          if (← peek pattern) = ']'.toUInt8 then
            return some (← simpleChar pattern { started with definingRange := false } ch)
          else return some started
        else return some started
    else
      advance 1
      return some (← simpleChar pattern s ch)

def classLoop (idxFirst : Nat) : Nat → ClassState → Scan ClassState
  | 0, _ => stuck
  | fuel + 1, s => do
    match ← classStep pattern idxFirst s with
    | some s => classLoop idxFirst fuel s
    | none => return s

def ClassState.start : ClassState := ⟨255, true, false, 0, fun _ => false⟩

def classEnd (s : ClassState) : Scan REBitSet := do
  if ← atEnd pattern then
    syntaxError "Unterminated character class"
    failure
  else
    advance 1
    return fun c => if s.«include» then s.range c else !s.range c

def classSet (fuel : Nat) : Scan REBitSet := do
  let c ← current
  classEnd pattern (← classLoop pattern c.patternIdx fuel .start)

/-! ### Atoms -/

def isClosure (c : UInt8) : Bool := c ∈ ascii "\x7b?*+"

def lookAhead : Scan (Option UInt8) := do
  let c ← current
  if pattern.length ≤ c.patternIdx + 1 then return none
  else
    let second := patternAt pattern (c.patternIdx + 1)
    if patternAt pattern c.patternIdx ≠ '\\'.toUInt8 then return some second
    else
      let escaped ← escape pattern
      if escaped.isNegative then failure
      else
        let behind ← current
        change fun s => { s with patternIdx := c.patternIdx }
        return some (if behind.patternIdx < pattern.length then patternAt pattern behind.patternIdx else second)

/-- One pass of the loop in `atom` with the text so far; `none` ends the atom. -/
def atomStep (text : Bytes) : Scan (Option Bytes) := do
  if ← atEnd pattern then return none
  else
    let second ← lookAhead pattern
    if second.any isClosure ∧ text ≠ [] then return none
    else
      let c ← current
      let ch ← peek pattern
      if ch ∈ ascii "^$.[()|" then return none
      else if isClosure ch then
        if text = [] then
          syntaxError "Missing operand to closure"
          failure
        else return none
      else if ch = '\\'.toUInt8 then
        match ← escape pattern with
        | .char value =>
          -- Characters from 0xf0 on are mistaken for one of the special escapes.
          if value % 65536 ≥ 65520 then
            change fun s => { s with patternIdx := c.patternIdx }
            return none
          else return some (text ++ [UInt8.ofInt value])
        | _ =>
          change fun s => { s with patternIdx := c.patternIdx }
          return none
      else
        advance 1
        return some (text ++ [ch])

def atomLoop : Nat → Bytes → Scan Bytes
  | 0, _ => stuck
  | fuel + 1, text => do
    match ← atomStep pattern text with
    | some text => atomLoop fuel text
    | none => return text

def atomText (fuel : Nat) : Scan Bytes := do
  let text ← atomLoop pattern fuel []
  if text = [] then failure else return text

end Pattern

end Coast.Regex
