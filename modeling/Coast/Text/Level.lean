import Coast.Text.Tree

/-!
# Levels

The place of a slot is the list of names and indices on the way to it. References in the text hold such
a list as a path, with `.` before a name, `:` before an index and `\` before a `.` or `:` in a name.
-/

namespace Coast

inductive Level where
  | key (k : Bytes)
  | index (i : Int64)
  deriving DecidableEq

namespace Level

def isPathDelim (c : UInt8) : Bool := c == '.'.toUInt8 || c == ':'.toUInt8

/-- `escapeString`. -/
def escape (text : Bytes) : Bytes := text.flatMap fun c => if isPathDelim c then ['\\'.toUInt8, c] else [c]

/-- `unescapeString`: a backslash just before a delimiter is dropped. -/
def unescapeStep (result : Bytes) (c : UInt8) : Bytes :=
  if result.getLast? == some '\\'.toUInt8 && isPathDelim c then result.dropLast ++ [c] else result ++ [c]

def unescape (text : Bytes) : Bytes := text.foldl unescapeStep []

/-- `Anything::AsString` of an entry. -/
def text : Level → Bytes
  | key k => k
  | index i => longText i.toInt

/-- `appendAnyLevelToString`. -/
def appendLevel (path : Bytes) (l : Level) : Bytes :=
  match l with
  | key _ => (if path.isEmpty then path else path ++ ['.'.toUInt8]) ++ escape l.text
  | index _ => path ++ [':'.toUInt8] ++ escape l.text

def pathText (level : List Level) : Bytes := level.foldl appendLevel []

/-- A new token starts at a delimiter after anything but a backslash. -/
def leftCharNotEscape (l r : UInt8) : Bool := l != '\\'.toUInt8 && isPathDelim r

/-- `String::AsLong` with the default -1, and whether `errno` becomes `ERANGE`. -/
def asLong (s : Bytes) : Int64 × Bool :=
  let unsigned := (splitSign (s.dropWhile isspace)).2
  if unsigned.head?.any isdigit then strtol s 10 else (-1, false)

def ofToken (erange : Bool) (tok : Bytes) : Level × Bool :=
  match tok with
  | [] => (key [], erange)
  | c :: cs =>
    if c == ':'.toUInt8 then (index (asLong cs).1, erange || (asLong cs).2)
    else (key (unescape (if c == '.'.toUInt8 then cs else c :: cs)), erange)

/-- `escapedQueryStringToAny`, with `errno`. -/
def ofPath (erange : Bool) (query : Bytes) : List Level × Bool :=
  (query.splitBy fun l r => !leftCharNotEscape l r).foldl
    (fun state tok => (state.1 ++ [(ofToken state.2 tok).1], (ofToken state.2 tok).2)) ([], erange)

/-- `Append` of an entry. -/
def entry {D : Type} : Level → AnyTree D
  | key k => .string k
  | index i => .long i

def toAny {D : Type} (level : List Level) : AnyTree D :=
  if level.isEmpty then .null else .array (level.map fun l => (none, l.entry))

end Level

end Coast
