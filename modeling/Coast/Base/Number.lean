import Coast.Base.Bytes
import Mathlib.Data.List.TakeWhile

/-!
# Numbers as text

Decimal output and the `strtol` family. `errno` is state of the thread that the conversions read: the
wrappers in `coast::system` take any `ERANGE` they find there as their own, and clear it.
-/

namespace Coast

@[elab_as_elim]
theorem forall_byte {p : UInt8 → Prop} (all : ∀ high low : Fin 16, p (UInt8.ofNat (16 * high + low))) (c : UInt8) : p c := by
  have small := c.toNat_lt
  have here := all ⟨c.toNat / 16, by omega⟩ ⟨c.toNat % 16, by omega⟩
  rwa [Nat.div_add_mod, UInt8.ofNat_toNat] at here

def decimalText (n : Nat) : Bytes := (Nat.toDigits 10 n).map fun c => UInt8.ofNat c.toNat

def longText (n : Int) : Bytes := if n < 0 then '-'.toUInt8 :: decimalText n.natAbs else decimalText n.natAbs

def digitValue (c : UInt8) : Nat :=
  if isdigit c then c.toNat - 48 else if isupper c then c.toNat - 55 else if islower c then c.toNat - 87 else 36

def splitSign : Bytes → Bool × Bytes
  | [] => (false, [])
  | c :: cs => if c == '-'.toUInt8 then (true, cs) else if c == '+'.toUInt8 then (false, cs) else (false, c :: cs)

/-- The optional `0x` of a hexadecimal number, which is skipped only before a digit. -/
def skipHexMark : Bytes → Bytes
  | z :: x :: d :: rest => if z == '0'.toUInt8 && toupper x == 'X'.toUInt8 && isxdigit d then d :: rest else z :: x :: d :: rest
  | text => text

def digitsValue (base : Nat) (text : Bytes) : Nat :=
  (text.takeWhile fun c => decide (digitValue c < base)).foldl (fun n c => n * base + digitValue c) 0

/-- The sign and magnitude that the `strtol` family reads. -/
def scanNumber (base : Nat) (text : Bytes) : Bool × Nat :=
  let signed := splitSign (text.dropWhile isspace)
  (signed.1, digitsValue base (if base = 16 then skipHexMark signed.2 else signed.2))

/-- The value and whether `errno` becomes `ERANGE`. -/
def strtol (text : Bytes) (base : Nat) : Int64 × Bool :=
  match scanNumber base text with
  | (false, n) => if n < 2 ^ 63 then (Int64.ofNat n, false) else (Int64.maxValue, true)
  | (true, n) => if n ≤ 2 ^ 63 then (Int64.ofInt (-n), false) else (Int64.minValue, true)

def strtoul (text : Bytes) (base : Nat) : UInt64 × Bool :=
  match scanNumber base text with
  | (negative, n) =>
    if n < 2 ^ 64 then (if negative then -UInt64.ofNat n else UInt64.ofNat n, false) else (UInt64.ofNat (2 ^ 64 - 1), true)

/-- `CheckErrnoForRangeError`: the value if `errno` is not `ERANGE`, and `errno` afterwards. -/
def checkErrno {α : Type} (erange : Bool) (converted : α × Bool) : Option α × Bool :=
  if erange || converted.2 then (none, false) else (some converted.1, erange)

def strToL (erange : Bool) (text : Bytes) : Option Int64 × Bool := checkErrno erange (strtol text 10)

def strToUL (erange : Bool) (text : Bytes) (base : Nat) : Option UInt64 × Bool := checkErrno erange (strtoul text base)

/-! ### Reading what was written -/

theorem isdigit_digitChar : ∀ n < 10, isdigit (UInt8.ofNat (Nat.digitChar n).toNat) = true := by
  decide

theorem digitValue_digitChar : ∀ n < 10, digitValue (UInt8.ofNat (Nat.digitChar n).toNat) = n := by
  decide

theorem decimalText_lt {n : Nat} (small : n < 10) : decimalText n = [UInt8.ofNat (Nat.digitChar n).toNat] := by
  rw [decimalText, Nat.toDigits_of_lt_base small]
  rfl

theorem decimalText_ge {n : Nat} (large : 10 ≤ n) :
    decimalText n = decimalText (n / 10) ++ decimalText (n % 10) := by
  rw [decimalText, Nat.toDigits_of_base_le (by decide) large, List.map_append,
    decimalText_lt (Nat.mod_lt n (by decide)), decimalText]
  rfl

theorem decimal_induction {p : Nat → Prop} (small : ∀ n < 10, p n) (step : ∀ n, 10 ≤ n → p (n / 10) → p n) (n : Nat) :
    p n := by
  induction n using Nat.strongRecOn with
  | _ n ih =>
    by_cases small' : n < 10
    · exact small n small'
    · exact step n (by omega) (ih (n / 10) (by omega))

theorem decimalText_cons (n : Nat) : ∃ c digits, decimalText n = c :: digits ∧ isdigit c = true ∧
    (∀ d ∈ digits, isdigit d = true) ∧ (n ≠ 0 → c ≠ '0'.toUInt8) := by
  induction n using decimal_induction with
  | small n small =>
    have nonzero : ∀ m < 10, m ≠ 0 → UInt8.ofNat (Nat.digitChar m).toNat ≠ '0'.toUInt8 := by decide
    exact ⟨_, [], decimalText_lt small, isdigit_digitChar n small, by simp, nonzero n small⟩
  | step n large ih =>
    obtain ⟨c, digits, shape, digit, all, nonzero⟩ := ih
    refine ⟨c, digits ++ decimalText (n % 10), by rw [decimalText_ge large, shape, List.cons_append], digit, ?_,
      fun _ => nonzero (by omega)⟩
    intro d mem
    rcases List.mem_append.mp mem with mem | mem
    · exact all d mem
    · rw [decimalText_lt (Nat.mod_lt n (by decide)), List.mem_singleton] at mem
      rw [mem]
      exact isdigit_digitChar (n % 10) (Nat.mod_lt n (by decide))

theorem decimalText_ne_nil (n : Nat) : decimalText n ≠ [] := by
  obtain ⟨c, digits, shape, -⟩ := decimalText_cons n
  rw [shape]
  exact List.cons_ne_nil c digits

theorem isdigit_of_mem_decimalText {n : Nat} : ∀ c ∈ decimalText n, isdigit c = true := by
  obtain ⟨c, digits, shape, digit, all, -⟩ := decimalText_cons n
  rw [shape]
  intro d mem
  rcases List.mem_cons.mp mem with rfl | mem
  · exact digit
  · exact all d mem

theorem foldl_decimalText (n : Nat) : (decimalText n).foldl (fun m c => m * 10 + digitValue c) 0 = n := by
  induction n using decimal_induction with
  | small n small =>
    rw [decimalText_lt small]
    simp [digitValue_digitChar n small]
  | step n large ih =>
    rw [decimalText_ge large, List.foldl_append, ih, decimalText_lt (Nat.mod_lt n (by decide))]
    simp only [List.foldl_cons, List.foldl_nil, digitValue_digitChar (n % 10) (Nat.mod_lt n (by decide))]
    omega

theorem digitValue_lt_ten {c : UInt8} (digit : isdigit c = true) : digitValue c < 10 := by
  revert digit
  exact forall_byte (by decide) c

theorem digitsValue_decimalText (n : Nat) : digitsValue 10 (decimalText n) = n := by
  have all : ∀ c ∈ decimalText n, decide (digitValue c < 10) = true := fun c mem =>
    decide_eq_true (digitValue_lt_ten (isdigit_of_mem_decimalText c mem))
  rw [digitsValue, List.takeWhile_eq_self_iff.mpr all, foldl_decimalText]

theorem digit_not_mark {c : UInt8} (digit : isdigit c = true) :
    isspace c = false ∧ (c == '-'.toUInt8) = false ∧ (c == '+'.toUInt8) = false := by
  revert digit
  exact forall_byte (by decide) c

theorem scanNumber_decimalText (n : Nat) : scanNumber 10 (decimalText n) = (false, n) := by
  have value := digitsValue_decimalText n
  obtain ⟨c, digits, shape, digit, -⟩ := decimalText_cons n
  rw [shape] at value ⊢
  obtain ⟨space, minus, plus⟩ := digit_not_mark digit
  rw [scanNumber, List.dropWhile_cons_of_neg (by simp [space])]
  simp [splitSign, minus, plus, value]

theorem scanNumber_minus (n : Nat) : scanNumber 10 ('-'.toUInt8 :: decimalText n) = (true, n) := by
  have minus : splitSign ('-'.toUInt8 :: decimalText n) = (true, decimalText n) := rfl
  rw [scanNumber, List.dropWhile_cons_of_neg (by decide)]
  simp [minus, digitsValue_decimalText]

theorem strtol_longText (n : Int64) : strtol (longText n.toInt) 10 = (n, false) := by
  have upper := n.toInt_lt
  have lower := n.le_toInt
  rw [longText]
  split
  · rename_i negative
    rw [strtol, scanNumber_minus]
    have magnitude : (n.toInt.natAbs : Int) = -n.toInt := by omega
    have small : n.toInt.natAbs ≤ 2 ^ 63 := by omega
    simp only [if_pos small, magnitude, Int.neg_neg, Int64.ofInt_toInt]
  · rename_i positive
    rw [strtol, scanNumber_decimalText]
    have magnitude : (n.toInt.natAbs : Int) = n.toInt := by omega
    have small : n.toInt.natAbs < 2 ^ 63 := by omega
    simp only [if_pos small]
    rw [← Int64.ofInt_eq_ofNat, magnitude, Int64.ofInt_toInt]

theorem strtoul_decimalText (n : UInt64) : strtoul (decimalText n.toNat) 10 = (n, false) := by
  have small := n.toNat_lt
  rw [strtoul, scanNumber_decimalText]
  simp only [if_pos small, UInt64.ofNat_toNat, Bool.false_eq_true, if_false]

end Coast
