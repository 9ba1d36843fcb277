import Mathlib.Algebra.Order.Ring.Int
import Mathlib.Tactic.Common

/-!
# Bytes and character classes

Texts are byte lists. The character classes are those of `ctype.h` in the C locale. `char` is signed,
as on the platforms the library is built for, so a comparison of a `char` with an `unsigned char`
goes through `charInt`.
-/

namespace Coast

abbrev Bytes := List UInt8

/-- The value of a `char` after integral promotion. -/
def charInt (c : UInt8) : Int := if c.toNat < 128 then c.toNat else c.toNat - 256

def isspace (c : UInt8) : Bool := c == 32 || (9 ≤ c && c ≤ 13)

def isdigit (c : UInt8) : Bool := 48 ≤ c && c ≤ 57

def isupper (c : UInt8) : Bool := 65 ≤ c && c ≤ 90

def islower (c : UInt8) : Bool := 97 ≤ c && c ≤ 122

def isalnum (c : UInt8) : Bool := isdigit c || isupper c || islower c

def isxdigit (c : UInt8) : Bool := isdigit c || (65 ≤ c && c ≤ 70) || (97 ≤ c && c ≤ 102)

def isprint (c : UInt8) : Bool := 32 ≤ c && c ≤ 126

def toupper (c : UInt8) : UInt8 := if islower c then c - 32 else c

def ascii (s : String) : Bytes := s.toList.map fun c => UInt8.ofNat c.toNat

theorem ascii_ofList (cs : List Char) : ascii (String.ofList cs) = cs.map fun c => UInt8.ofNat c.toNat := by
  rw [ascii, String.toList_ofList]

theorem ascii_append (s t : String) : ascii (s ++ t) = ascii s ++ ascii t := by
  rw [ascii, String.toList_append, List.map_append]
  rfl

end Coast
