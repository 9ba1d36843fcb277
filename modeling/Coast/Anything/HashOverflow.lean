import Coast.Anything.ArrayInvariant

/-!
# Overflow of the key hash

`IFAHash` folds bits 28 to 31 of its accumulator back, as a `long` of 32 bits needs. What a character
carries into bit 32 of a longer one is never folded. It moves up with every character behind it, and
the eighth of them takes it out of the `long`.
-/

namespace Coast.Anything

/-- `(h << 4) + c` is a `long`. -/
def StepFits (h : Nat) (c : UInt8) : Prop := -2 ^ 63 ≤ 16 * asLong h + c.toNat ∧ 16 * asLong h + c.toNat < 2 ^ 63

def StepsFit (part : Bytes) : Prop := ∀ a c b, part = a ++ c :: b → StepFits (a.foldl ifaHashStep 0) c

def hash32 (part : Bytes) : Nat := part.foldl (fun h c => foldNibble ((16 * h + c.toNat) % 2 ^ 32)) 0

/-- Behind the text `a` the character `c` is too much for 32 bits. -/
def Carries (a : Bytes) (c : UInt8) : Prop := 2 ^ 32 ≤ 16 * hash32 a + c.toNat

/-! ### The lower half -/

theorem hash32_concat (a : Bytes) (c : UInt8) : hash32 (a ++ [c]) = foldNibble ((16 * hash32 a + c.toNat) % 2 ^ 32) := by
  rw [hash32, List.foldl_append]
  rfl

theorem foldl_mod (part : Bytes) : part.foldl ifaHashStep 0 % 2 ^ 32 = hash32 part := by
  induction part using List.reverseRecOn with
  | nil => rfl
  | append_singleton a c ih =>
    rw [List.foldl_append, List.foldl_cons, List.foldl_nil, hash32_concat, ← ih, ifaHashStep_eq, foldNibble_mod,
      Nat.shiftLeft_eq]
    congr 1
    norm_num
    omega

/-! ### The upper half -/

def carried (a : Bytes) (c : UInt8) : Nat := (16 * hash32 a + c.toNat) / 2 ^ 32

def upper (part : Bytes) : Nat := part.foldl ifaHashStep 0 / 2 ^ 32

theorem upper_concat (a : Bytes) (c : UInt8) : upper (a ++ [c]) = (16 * upper a + carried a c) % 2 ^ 32 := by
  rw [upper, List.foldl_append, List.foldl_cons, List.foldl_nil, ifaHashStep_div, foldl_mod]
  rfl

theorem carried_le_one (a : Bytes) (c : UInt8) : carried a c ≤ 1 := by
  refine carry_le_one c ?_
  rw [← foldl_mod]
  exact (hashBound_part a).2.2

theorem carried_eq_zero (a : Bytes) (c : UInt8) : carried a c = 0 ↔ ¬Carries a c := by
  rw [carried, Carries, Nat.div_eq_zero_iff]
  omega

theorem upper_digit_last (a : Bytes) (c : UInt8) : upper (a ++ [c]) / 16 ^ 0 % 16 = carried a c := by
  have small := carried_le_one a c
  rw [upper_concat, digit_mod (by decide), pow_zero, Nat.div_one]
  omega

theorem upper_digit_succ (a : Bytes) (c : UInt8) {i : Nat} (below : i + 1 < 8) :
    upper (a ++ [c]) / 16 ^ (i + 1) % 16 = upper a / 16 ^ i % 16 := by
  have small := carried_le_one a c
  rw [upper_concat, digit_mod below, pow_succ', ← Nat.div_div_eq_div_mul, show (16 * upper a + carried a c) / 16 = upper a by omega]

theorem upper_digit (a : Bytes) (c : UInt8) {b : Bytes} (below : b.length < 8) :
    upper (a ++ c :: b) / 16 ^ b.length % 16 = carried a c := by
  induction b using List.reverseRecOn with
  | nil => exact upper_digit_last a c
  | append_singleton b d ih =>
    rw [List.length_append, List.length_singleton] at below ⊢
    rw [← List.cons_append, ← List.append_assoc, upper_digit_succ _ d below]
    exact ih (by omega)

theorem upper_digit_short {b : Bytes} {i : Nat} (short : b.length ≤ i) (below : i < 8) : upper b / 16 ^ i % 16 = 0 := by
  induction b using List.reverseRecOn generalizing i with
  | nil => simp [upper]
  | append_singleton b d ih =>
    rw [List.length_append, List.length_singleton] at short
    obtain ⟨i, rfl⟩ := Nat.exists_eq_add_of_le' (show 1 ≤ i by omega)
    rw [upper_digit_succ b d below]
    exact ih (by omega) (by omega)

theorem stepFits_iff (part : Bytes) (c : UInt8) :
    StepFits (part.foldl ifaHashStep 0) c ↔ upper part / 16 ^ 7 % 16 = 0 := by
  obtain ⟨hlt, digits, low⟩ := hashBound_part part
  have top := carryDigits_lt digits (Nat.div_lt_of_lt_mul (by norm_num at hlt ⊢; exact hlt))
  have next := digits 6
  have hc := c.toNat_lt
  unfold upper StepFits asLong
  generalize part.foldl ifaHashStep 0 = h at hlt digits low top next ⊢
  norm_num at hlt low top next hc ⊢
  rw [if_pos (by omega)]
  omega

theorem exists_cut {a : Bytes} {n : Nat} (inside : n < a.length) : ∃ front c rest, a = front ++ c :: rest ∧ front.length = n :=
  ⟨a.take n, a[n], a.drop (n + 1), by rw [List.getElem_cons_drop, List.take_append_drop], by rw [List.length_take]; omega⟩

theorem stepsFit_iff (part : Bytes) : StepsFit part ↔ ∀ a c b, part = a ++ c :: b → Carries a c → b.length < 8 := by
  unfold StepsFit
  simp only [stepFits_iff]
  constructor
  · intro fits a c b whole carries
    by_contra long
    obtain ⟨front, d, rest, rfl, seven⟩ := exists_cut (a := b) (n := 7) (by omega)
    have clear := fits (a ++ c :: front) d rest (by rw [whole]; simp)
    have digit := upper_digit a c (b := front) (by omega)
    rw [seven, clear] at digit
    exact (carried_eq_zero a c).mp digit.symm carries
  · intro few a c b whole
    by_cases short : a.length ≤ 7
    · exact upper_digit_short short (by decide)
    · obtain ⟨front, d, rest, rfl, length⟩ := exists_cut (a := a) (n := a.length - 8) (by omega)
      have seven : rest.length = 7 := by
        rw [List.length_append, List.length_cons] at length short
        omega
      have digit := upper_digit front d (b := rest) (by omega)
      rw [seven] at digit
      rw [digit, carried_eq_zero]
      intro carries
      have bound := few front d (rest ++ c :: b) (by rw [whole]; simp) carries
      rw [List.length_append, seven, List.length_cons] at bound
      omega

/-! ### Short texts -/

/-! ### Indices -/

/-- The remainder in `DoHash` is an index of a table with such a capacity. -/
def IndexFits (hashval : Int) (fCapacity : Nat) : Prop := 0 ≤ hashval.tmod fCapacity ∧ hashval.tmod fCapacity < fCapacity

theorem indexFits {hashval : Int} (nonneg : 0 ≤ hashval) (cap : Nat) : IndexFits hashval (AnyKeyTable.initTable cap).fCapacity := by
  have least : AnyKeyTable.cInitCapacity ≤ (AnyKeyTable.initTable cap).fCapacity := by
    refine le_trans ?_ (le_ifaNextPrime _)
    split <;> omega
  have pos : (0 : Int) < ((AnyKeyTable.initTable cap).fCapacity : Nat) := by
    unfold AnyKeyTable.cInitCapacity at least
    omega
  exact ⟨Int.tmod_nonneg _ nonneg, Int.tmod_lt_of_pos _ pos⟩

/-- No step overflows, the result is not negative and every table has an index for it, if and only if
fewer than eight characters are read behind each character that carries. -/
theorem ifaHash_fits_iff (key : Bytes) (stop1 stop2 : UInt8) :
    (StepsFit (key.takeWhile (ifaHashReads stop1 stop2)) ∧ 0 ≤ (ifaHash key stop1 stop2).1 ∧
      ∀ cap, IndexFits (ifaHash key stop1 stop2).1 (AnyKeyTable.initTable cap).fCapacity) ↔
    ∀ a c b, key.takeWhile (ifaHashReads stop1 stop2) = a ++ c :: b → Carries a c → b.length < 8 := by
  rw [← stepsFit_iff]
  have nonneg := ifaHash_nonneg key stop1 stop2
  exact ⟨fun fits => fits.1, fun fits => ⟨fits, nonneg, indexFits nonneg⟩⟩

/-- Six bytes fill the lower half, the seventh carries, and the last of eight more overflows. -/
def carryingKey : Bytes := [0xf0, 0xf0, 0xf0, 0xf0, 0xf0, 0xff, 0xff, 1, 1, 1, 1, 1, 1, 1, 1]

theorem ifaHash_carryingKey :
    carryingKey.takeWhile (ifaHashReads 0 0) = carryingKey.take 14 ++ [1] ∧
      2 ^ 64 ≤ 16 * asLong ((carryingKey.take 14).foldl ifaHashStep 0) + 1 ∧
      ¬StepsFit (carryingKey.takeWhile (ifaHashReads 0 0)) := by
  have read : carryingKey.takeWhile (ifaHashReads 0 0) = carryingKey.take 14 ++ [1] := by decide +kernel
  have exceeds : 2 ^ 64 ≤ 16 * asLong ((carryingKey.take 14).foldl ifaHashStep 0) + 1 := by decide +kernel
  refine ⟨read, exceeds, ?_⟩
  intro fits
  have step := (fits (carryingKey.take 14) 1 [] read).2
  exact absurd exceeds (not_le_of_gt (step.trans (by norm_num)))

end Coast.Anything
