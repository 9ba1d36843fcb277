import Coast.Base.Bytes
import Mathlib.Data.Nat.Bitwise
import Mathlib.Tactic.NormNum

/-!
# Key hashes

`IFAHash` reads a key up to a NUL or one of two stop characters. Its accumulator is a 64-bit `long`
that wraps around; the result is never negative, so a remainder of it indexes a hash table.
-/

namespace Coast.Anything

def ifaHashStep (h : Nat) (c : UInt8) : Nat :=
  let h := (h <<< 4 + c.toNat) % 2 ^ 64
  let g := h &&& 0xf0000000
  if g ≠ 0 then (h ^^^ (g >>> 24)) ^^^ g else h

/-- The loop condition of `IFAHash`: the bytes are unsigned, the stop characters are not. -/
def ifaHashReads (stop1 stop2 c : UInt8) : Bool :=
  c != 0 && (c.toNat : Int) != charInt stop1 && (c.toNat : Int) != charInt stop2

/-- The `long` with the given 64-bit pattern. -/
def asLong (h : Nat) : Int := if h < 2 ^ 63 then h else h - 2 ^ 64

/-- The hash value and the length of the part of `key` that it covers. -/
def ifaHash (key : Bytes) (stop1 stop2 : UInt8 := 0) : Int × Nat :=
  let part := key.takeWhile (ifaHashReads stop1 stop2)
  (asLong (part.foldl ifaHashStep 0), part.length)

/-- The hexadecimal digits of `n` are all 0 or 1. -/
def CarryDigits (n : Nat) : Prop := ∀ i, n / 16 ^ i % 16 ≤ 1

theorem carryDigits_zero : CarryDigits 0 := by
  intro i
  simp

theorem carryDigits_push {n c : Nat} (h : CarryDigits n) (hc : c ≤ 1) : CarryDigits (16 * n + c) := by
  intro i
  cases i with
  | zero =>
    simp only [pow_zero, Nat.div_one]
    omega
  | succ i =>
    rw [pow_succ', ← Nat.div_div_eq_div_mul, show (16 * n + c) / 16 = n by omega]
    exact h i

theorem digit_mod {i : Nat} (below : i < 8) (n : Nat) : n % 2 ^ 32 / 16 ^ i % 16 = n / 16 ^ i % 16 := by
  rw [show (2 : Nat) ^ 32 = 16 ^ i * 16 ^ (8 - i) by rw [← pow_add, show i + (8 - i) = 8 by omega]; norm_num,
    Nat.mod_mul_right_div_self, Nat.mod_mod_of_dvd _ (dvd_pow_self 16 (by omega))]

theorem carryDigits_mod {n : Nat} (h : CarryDigits n) : CarryDigits (n % 2 ^ 32) := by
  intro i
  by_cases hi : i < 8
  · rw [digit_mod hi]
    exact h i
  · have small : n % 2 ^ 32 < 16 ^ i := by
      calc n % 2 ^ 32 < 2 ^ 32 := Nat.mod_lt _ (by norm_num)
        _ = 16 ^ 8 := by norm_num
        _ ≤ 16 ^ i := Nat.pow_le_pow_right (by norm_num) (by omega)
    rw [Nat.div_eq_of_lt small]
    simp

theorem carryDigits_lt {n : Nat} (h : CarryDigits n) (hn : n < 2 ^ 32) : n < 2 ^ 29 := by
  have top := h 7
  norm_num at top hn ⊢
  omega

def HashBound (h : Nat) : Prop := h < 2 ^ 64 ∧ CarryDigits (h / 2 ^ 32) ∧ h % 2 ^ 32 < 2 ^ 28

def foldNibble (h : Nat) : Nat := (h ^^^ ((h &&& 0xf0000000) >>> 24)) ^^^ (h &&& 0xf0000000)

theorem ifaHashStep_eq (h : Nat) (c : UInt8) : ifaHashStep h c = foldNibble ((h <<< 4 + c.toNat) % 2 ^ 64) := by
  unfold ifaHashStep foldNibble
  dsimp only
  split
  · rfl
  · rename_i clear
    have none : (h <<< 4 + c.toNat) % 2 ^ 64 &&& 0xf0000000 = 0 := by simpa using clear
    rw [none]
    simp

theorem testBit_foldNibble (h i : Nat) : (foldNibble h).testBit i =
    ((h.testBit i ^^ (h.testBit (24 + i) && decide (4 ≤ i ∧ i < 8))) ^^ (h.testBit i && decide (28 ≤ i ∧ i < 32))) := by
  have mask : (0xf0000000 : Nat) = (2 ^ 4 - 1) <<< 28 := by decide
  simp only [foldNibble, mask, Nat.testBit_xor, Nat.testBit_and, Nat.testBit_shiftRight, Nat.testBit_shiftLeft,
    Nat.testBit_two_pow_sub_one]
  congr 2
  · congr 1
    by_cases h4 : 4 ≤ i <;> by_cases h8 : i < 8 <;> simp [h4, h8] <;> omega
  · by_cases h28 : 28 ≤ i <;> by_cases h32 : i < 32 <;> simp [h28, h32] <;> omega

theorem foldNibble_div (h : Nat) : foldNibble h / 2 ^ 32 = h / 2 ^ 32 := by
  apply Nat.eq_of_testBit_eq
  intro i
  rw [Nat.testBit_div_two_pow, Nat.testBit_div_two_pow, testBit_foldNibble]
  simp [show ¬ (i + 32 < 8) by omega, show ¬ (i + 32 < 32) by omega]

theorem foldNibble_mod (h : Nat) : foldNibble h % 2 ^ 32 = foldNibble (h % 2 ^ 32) := by
  apply Nat.eq_of_testBit_eq
  intro i
  rw [testBit_foldNibble, Nat.testBit_mod_two_pow, Nat.testBit_mod_two_pow, Nat.testBit_mod_two_pow, testBit_foldNibble]
  by_cases h8 : i < 8
  · simp [h8, show i < 32 by omega, show 24 + i < 32 by omega]
  · by_cases h32 : i < 32 <;> simp [h32, h8]

theorem foldNibble_lt (h : Nat) : foldNibble h % 2 ^ 32 < 2 ^ 28 := by
  apply Nat.lt_pow_two_of_testBit
  intro i hi
  rw [Nat.testBit_mod_two_pow, testBit_foldNibble]
  by_cases h32 : i < 32
  · simp [h32, hi, show ¬ (i < 8) by omega]
  · simp [h32]

theorem ifaHashStep_div (h : Nat) (c : UInt8) :
    ifaHashStep h c / 2 ^ 32 = (16 * (h / 2 ^ 32) + (16 * (h % 2 ^ 32) + c.toNat) / 2 ^ 32) % 2 ^ 32 := by
  have hc := c.toNat_lt
  have split : h = 2 ^ 32 * (h / 2 ^ 32) + h % 2 ^ 32 := (Nat.div_add_mod h (2 ^ 32)).symm
  rw [ifaHashStep_eq, foldNibble_div, Nat.shiftLeft_eq]
  norm_num at split hc ⊢
  omega

theorem carry_le_one {l : Nat} (c : UInt8) (low : l < 2 ^ 28) : (16 * l + c.toNat) / 2 ^ 32 ≤ 1 := by
  have hc := c.toNat_lt
  norm_num at low hc ⊢
  omega

theorem hashBound_step {h : Nat} (c : UInt8) (bound : HashBound h) : HashBound (ifaHashStep h c) := by
  obtain ⟨_, digits, low⟩ := bound
  refine ⟨?_, ?_, ?_⟩
  · have upper : ifaHashStep h c / 2 ^ 32 < 2 ^ 32 := by
      rw [ifaHashStep_div]
      exact Nat.mod_lt _ (by norm_num)
    have below := (Nat.div_lt_iff_lt_mul (by norm_num)).mp upper
    norm_num at below ⊢
    exact below
  · rw [ifaHashStep_div]
    exact carryDigits_mod (carryDigits_push digits (carry_le_one c low))
  · rw [ifaHashStep_eq]
    exact foldNibble_lt _

theorem hashBound_foldl (part : Bytes) {h : Nat} (bound : HashBound h) :
    HashBound (part.foldl ifaHashStep h) := by
  induction part generalizing h with
  | nil => exact bound
  | cons c part ih => exact ih (hashBound_step c bound)

theorem hashBound_part (part : Bytes) : HashBound (part.foldl ifaHashStep 0) :=
  hashBound_foldl part ⟨by norm_num, by simpa using carryDigits_zero, by norm_num⟩

theorem ifaHash_nonneg (key : Bytes) (stop1 stop2 : UInt8) : 0 ≤ (ifaHash key stop1 stop2).1 := by
  obtain ⟨hlt, digits, _⟩ := hashBound_part (key.takeWhile (ifaHashReads stop1 stop2))
  have top := carryDigits_lt digits (Nat.div_lt_of_lt_mul (by norm_num at hlt ⊢; exact hlt))
  have small : (key.takeWhile (ifaHashReads stop1 stop2)).foldl ifaHashStep 0 < 2 ^ 63 := by
    norm_num at top ⊢
    omega
  unfold ifaHash asLong
  dsimp only
  rw [if_pos small]
  exact Int.natCast_nonneg _

end Coast.Anything
