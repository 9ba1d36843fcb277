import Coast.Http.URLUtils
import Coast.Text.Value

/-!
# Splitting a text into fields
-/

namespace Coast.Http

open AnythingParser (assignKey)
open Regex (cstr tolower)
open Value

variable {D : Type}

def lf : UInt8 := 10

def cr : UInt8 := 13

def crlf : Bytes := [cr, lf]

/-! ### Texts -/

def firstIndex (pattern : Bytes) : Bytes → Option Nat
  | [] => if pattern.isEmpty then some 0 else none
  | c :: rest => if pattern.isPrefixOf (c :: rest) then some 0 else (firstIndex pattern rest).map (· + 1)

/-- `String::Contains`, which is `strstr`. -/
def indexOf (text pattern : Bytes) : Option Nat := firstIndex (cstr pattern) (cstr text)

def strChr (text : Bytes) (c : UInt8) (start : Nat) : Option Nat := ((text.drop start).findIdx? (· == c)).map (· + start)

def trimENDL (line : Bytes) : Bytes :=
  if crlf.isSuffixOf line then line.take (line.length - 2)
  else if line.getLast? = some cr ∨ line.getLast? = some lf then line.dropLast
  else line

/-- `TrimBlanks` at the front. -/
def trimBlanks (text : Bytes) : Bytes := text.dropWhile fun c => c == ' '.toUInt8

/-! ### Fields -/

inductive NormalizeTag where
  | eUpshift
  | eDownshift
  | eUntouched
  deriving DecidableEq, Repr

def normalize (str : Bytes) : NormalizeTag → Bytes
  | .eUpshift => str.map toupper
  | .eDownshift => str.map tolower
  | .eUntouched => str

def appendValueTo (any : AnyTree D) (key value : Bytes) : AnyTree D :=
  let value := cstr value
  if key.isEmpty then if value.isEmpty then any else append any (.string value)
  else
    match lookup (slotsOf any) key with
    | some old => .array (assignKey (slotsOf any) key (append old (.string value)))
    | none => .array (assignKey (slotsOf any) key (.string value))

def unquote (value : Bytes) : Bytes :=
  if value.head? = some '"'.toUInt8 ∨ value.head? = some '\''.toUInt8 then value.dropLast.tail else value

def pair (buf : Bytes) (delim : UInt8) (any : AnyTree D) (normKey : NormalizeTag) : AnyTree D :=
  if buf.contains delim then
    let key := buf.takeWhile fun c => c != delim
    let value := (buf.dropWhile fun c => c != delim).tail
    appendValueTo any (normalize key normKey) (unquote value)
  else if buf.isEmpty then any
  else append any (.string buf)

theorem pair_key {key : Bytes} {delim : UInt8} (free : delim ∉ key) (value : Bytes) (any : AnyTree D) (norm : NormalizeTag) :
    pair (key ++ delim :: value) delim any norm = appendValueTo any (normalize key norm) (unquote value) := by
  have before : ∀ c ∈ key, (c != delim) = true := by
    intro c mem
    rw [bne_iff_ne]
    rintro rfl
    exact free mem
  have there : (key ++ delim :: value).contains delim = true := by
    rw [List.contains_iff_mem]
    exact List.mem_append_right _ List.mem_cons_self
  have stop : (delim != delim) = false := bne_self_eq_false delim
  rw [pair, if_pos there, List.takeWhile_append_of_pos before, List.dropWhile_append_of_pos before, List.takeWhile_cons, stop,
    List.dropWhile_cons, stop, if_neg Bool.false_ne_true, if_neg Bool.false_ne_true, List.append_nil, List.tail_cons]

/-- What a `StringTokenizer` yields. -/
def tokens (buf : Bytes) (delim : UInt8) : List Bytes := if (cstr buf).isEmpty then [] else (cstr buf).splitOn delim

def split (buf : Bytes) (delim : UInt8) (out : AnyTree D) (delim2 : UInt8) (norm : NormalizeTag) : AnyTree D :=
  (tokens buf delim).foldl (fun out token => pair (trimBlanks token) delim2 out norm) out

/-- `urlDecode` with the replacement of plus signs. -/
def urlDecodePlus (instr : Bytes) : Bytes := (urlDecode (instr.map fun c => if c = '+'.toUInt8 then ' '.toUInt8 else c)).1

mutual

def decodeAll : AnyTree D → AnyTree D
  | .array slots => .array (decodeSlots slots)
  | .string s => .string (urlDecodePlus (cstr s))
  | v => v

def decodeSlots : Slots D → Slots D
  | [] => []
  | (name, v) :: rest => (name, decodeAll v) :: decodeSlots rest

end

end Coast.Http
