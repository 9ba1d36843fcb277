import Coast.Security.TableLossless

/-!
# The numeration of short keys

`CalcKey` writes an index in base 52 without a zero digit: in front of the last letter stands the key
of `index / 52 - 1`, so a key of two letters begins where the keys of one letter end.
-/

namespace Coast.Security

def isLetter (c : UInt8) : Bool := isupper c || islower c

/-- The recursion of `CalcKey` for so many calls, `none` if it needs more. -/
def calcKeyWithin : Nat → Nat → Option Bytes
  | 0, _ => none
  | calls + 1, index =>
    if index / 52 > 0 then (calcKeyWithin calls (index / 52 - 1)).map (· ++ [keyAt (index % 52)])
    else some [keyAt (index % 52)]

theorem calcKeyWithin_eq (i : Nat) : ∀ {calls : Nat}, i < calls → calcKeyWithin calls i = some (calcKey i) := by
  induction i using Nat.strongRecOn with
  | ind i ih =>
    intro calls enough
    obtain ⟨calls, rfl⟩ := Nat.exists_eq_succ_of_ne_zero (Nat.ne_of_gt (Nat.zero_lt_of_lt enough))
    rw [calcKeyWithin, calcKey_eq]
    split
    · rw [ih (i / 52 - 1) (by omega) (by omega)]
      rfl
    · rfl

/-! ### Letters and digits -/

theorem isLetter_keyAt (i : Nat) : isLetter (keyAt (i % 52)) = true := by
  have letters : ∀ d < 52, isLetter (keyAt d) = true := by decide
  exact letters (i % 52) (Nat.mod_lt i (by decide))

theorem keyAt_eq {d : Nat} (below : d < 52) :
    keyAt d = if d < 26 then UInt8.ofNat (d + 97) else UInt8.ofNat (d + 65 - 26) := by
  simp only [keyAt, if_neg (Nat.not_le.mpr below)]

theorem exists_keyAt {c : UInt8} (letter : isLetter c = true) : ∃ d < 52, keyAt d = c := by
  simp only [isLetter, isupper, islower, Bool.or_eq_true, Bool.and_eq_true, decide_eq_true_eq, UInt8.le_iff_toNat_le] at letter
  rcases letter with ⟨low, high⟩ | ⟨low, high⟩ <;> simp only [UInt8.reduceToNat] at low high
  · refine ⟨c.toNat - 65 + 26, by omega, ?_⟩
    rw [keyAt_eq (by omega), if_neg (by omega), show c.toNat - 65 + 26 + 65 - 26 = c.toNat by omega, UInt8.ofNat_toNat]
  · refine ⟨c.toNat - 97, by omega, ?_⟩
    rw [keyAt_eq (by omega), if_pos (by omega), Nat.sub_add_cancel low, UInt8.ofNat_toNat]

/-! ### Keys -/

theorem isLetter_of_mem_calcKey (i : Nat) : ∀ c ∈ calcKey i, isLetter c = true := by
  induction i using Nat.strongRecOn with
  | ind i ih =>
    intro c mem
    rw [calcKey_eq, List.mem_append, List.mem_singleton] at mem
    rcases mem with front | rfl
    · split at front
      · exact ih (i / 52 - 1) (by omega) c front
      · cases front
    · exact isLetter_keyAt i

theorem calcKey_digit (j : Nat) {d : Nat} (below : d < 52) : calcKey (52 * (j + 1) + d) = calcKey j ++ [keyAt d] := by
  have above : (52 * (j + 1) + d) / 52 = j + 1 := by omega
  have digit : (52 * (j + 1) + d) % 52 = d := by omega
  rw [calcKey_eq, above, digit, if_pos (Nat.succ_pos j), Nat.add_sub_cancel]

theorem calcKey_single {d : Nat} (below : d < 52) : calcKey d = [keyAt d] := by
  rw [calcKey_eq, Nat.div_eq_of_lt below, Nat.mod_eq_of_lt below]
  rfl

theorem exists_calcKey (s : Bytes) (nonempty : s ≠ []) (letters : ∀ c ∈ s, isLetter c = true) : ∃ i, calcKey i = s := by
  induction s using List.reverseRecOn with
  | nil => exact absurd rfl nonempty
  | append_singleton front c ih =>
    obtain ⟨d, below, rfl⟩ := exists_keyAt (letters c (by simp))
    by_cases single : front = []
    · exact ⟨d, by rw [single, calcKey_single below, List.nil_append]⟩
    · obtain ⟨j, key⟩ := ih single fun c mem => letters c (List.mem_append_left _ mem)
      exact ⟨52 * (j + 1) + d, by rw [calcKey_digit j below, key]⟩

/-- The recursion ends for every index, no two indices share a key, and the keys are the texts of
letters that are not empty, each of exactly one index. -/
theorem calcKey_numeration :
    (∀ i calls, i < calls → calcKeyWithin calls i = some (calcKey i)) ∧
    Function.Injective calcKey ∧
    ∀ s, (s ≠ [] ∧ ∀ c ∈ s, isLetter c = true) ↔ ∃! i, calcKey i = s := by
  refine ⟨fun i calls enough => calcKeyWithin_eq i enough, fun i j => calcKey_injective, fun s => ⟨?_, ?_⟩⟩
  · rintro ⟨nonempty, letters⟩
    obtain ⟨i, key⟩ := exists_calcKey s nonempty letters
    exact ⟨i, key, fun j same => calcKey_injective (same.trans key.symm)⟩
  · rintro ⟨i, rfl, -⟩
    exact ⟨calcKey_ne_nil i, isLetter_of_mem_calcKey i⟩

end Coast.Security
