import Coast.Anything.ArrayBuild
import Coast.Text.Token

/-!
# Values and their text

A value that shares nothing is a tree; its arrays are lists of entries, what a reader of the array
implementation sees. The two printers differ only in the white space they put around the slots.
-/

namespace Coast

open Anything (Key)

/-- The contents of a binary buffer, whose length is a `long`. -/
structure Buffer where
  bytes : Bytes
  fits : bytes.length < 2 ^ 63
  deriving DecidableEq

/-- `D` is the type of doubles. -/
inductive AnyTree (D : Type) where
  | null
  | long (n : Int64)
  | double (d : D)
  | string (s : Bytes)
  | vbuf (b : Buffer)
  | object (p : UInt64)
  | array (slots : List (Option Key × AnyTree D))

abbrev Slots (D : Type) := List (Option Key × AnyTree D)

instance {D : Type} : Inhabited (AnyTree D) := ⟨.null⟩

/-- What the text format takes from elsewhere: the conversion of doubles and the import of included
files, which may touch `errno`. -/
structure Environment (D : Type) where
  strtod : Bytes → D × Bool
  doubleText : D → Bytes
  importIncludeAny : Bytes → Bool → AnyTree D × Bool

def bareEnvironment : Environment Unit where
  strtod _ := ((), false)
  doubleText _ := []
  importIncludeAny _ erange := (.null, erange)

namespace AnyTree

variable {D : Type}

theorem induct {p : AnyTree D → Prop} (leaf : ∀ v, (∀ slots, v ≠ .array slots) → p v)
    (array : ∀ slots : Slots D, (∀ e ∈ slots, p e.2) → p (.array slots)) : ∀ v : AnyTree D, p v
  | .array slots => array slots fun e _mem => induct leaf array e.2
  | .null => leaf _ nofun
  | .long _ => leaf _ nofun
  | .double _ => leaf _ nofun
  | .string _ => leaf _ nofun
  | .vbuf _ => leaf _ nofun
  | .object _ => leaf _ nofun
termination_by v => sizeOf v
decreasing_by
  have smaller := List.sizeOf_lt_of_mem _mem
  cases e
  simp only [Prod.mk.sizeOf_spec, AnyTree.array.sizeOf_spec] at smaller ⊢
  omega

end AnyTree

/-! ### Printing -/

def needQuote (s : Bytes) : Bool := isdigit (s.headD 0) || s.any AnythingToken.isNameDelimiter

def printKey (s : Bytes) : Bytes :=
  '/'.toUInt8 :: (if needQuote s then intPrintOn s else s) ++ [' '.toUInt8]

def printName : Option Key → Bytes
  | none => []
  | some k => printKey k.text

def newline (pretty : Bool) : Bytes := if pretty then ['\n'.toUInt8] else []

@[simp] theorem newline_false : newline false = [] := rfl

def tab (pretty : Bool) (level : Nat) : Bytes := if pretty then List.replicate (2 * level) ' '.toUInt8 else []

@[simp] theorem tab_false (level : Nat) : tab false level = [] := rfl

def printBuffer (b : Bytes) : Bytes :=
  '['.toUInt8 :: decimalText b.length ++ ';'.toUInt8 :: b ++ [']'.toUInt8]

def printObject (p : UInt64) : Bytes := '&'.toUInt8 :: decimalText p.toNat

variable {D : Type}

mutual

/-- The text that `SimpleAnyPrinter` and `PrettyAnyPrinter` write at a level. -/
def printAny (env : Environment D) (pretty : Bool) (level : Nat) : AnyTree D → Bytes
  | .null => ['*'.toUInt8]
  | .long n => longText n.toInt
  | .double d => env.doubleText d
  | .string s => intPrintOn s
  | .vbuf b => printBuffer b.bytes
  | .object p => printObject p
  | .array slots =>
    '{'.toUInt8 :: newline pretty ++ printSlots env pretty (level + 1) slots ++ tab pretty level ++ ['}'.toUInt8]

def printSlots (env : Environment D) (pretty : Bool) (level : Nat) : Slots D → Bytes
  | [] => []
  | (key, v) :: slots =>
    tab pretty level ++ printName key ++ printAny env pretty level v ++ newline pretty ++ printSlots env pretty level slots

end

def printOn (env : Environment D) (v : AnyTree D) (pretty : Bool) : Bytes := printAny env pretty 0 v

inductive Printable : AnyTree D → Prop
  | null : Printable .null
  | long (n : Int64) : Printable (.long n)
  | string (s : Bytes) : Printable (.string s)
  | vbuf (b : Buffer) : Printable (.vbuf b)
  | object (p : UInt64) : Printable (.object p)
  | array {slots : Slots D} (distinct : (slots.filterMap Prod.fst).Nodup) (each : ∀ e ∈ slots, Printable e.2) :
    Printable (.array slots)

end Coast
