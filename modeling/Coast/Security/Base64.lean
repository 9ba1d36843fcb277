import Coast.Base.Number

/-!
# Base64

Two encoders that differ in their alphabets; the table for decoding knows both. It marks the characters of
neither with `XX`, which nothing looks at: every text of the right length is decoded.
-/

namespace Coast.Security

def XX : UInt8 := 127

def index64 : List UInt8 :=
  List.replicate 36 XX ++ [63] ++ List.replicate 6 XX ++ [62, XX, 62, XX, 63] ++ (List.range 10).map (fun i => UInt8.ofNat (52 + i)) ++
    List.replicate 7 XX ++ (List.range 26).map UInt8.ofNat ++ List.replicate 6 XX ++
    (List.range 26).map (fun i => UInt8.ofNat (26 + i)) ++ List.replicate 133 XX

def char64 (c : UInt8) : UInt8 := index64.getD c.toNat XX

inductive Base64 where
  | base64
  | base64Regular
  deriving DecidableEq

namespace Base64

def doGetBasis : Base64 → Bytes
  | base64 => ascii "ABCDEFGHIJKLMNOPQRSTUVWXYZabcdefghijklmnopqrstuvwxyz0123456789-$"
  | base64Regular => ascii "ABCDEFGHIJKLMNOPQRSTUVWXYZabcdefghijklmnopqrstuvwxyz0123456789+/"

def basis64 (o : Base64) (i : UInt8) : UInt8 := o.doGetBasis.getD i.toNat 0

/-- The blocks of `DoEncode`, and the bytes that remain. -/
def encodeBlocks (o : Base64) : Bytes → Bytes
  | c1 :: c2 :: c3 :: rest =>
    o.basis64 (c1 >>> 2) :: o.basis64 ((c1 &&& 0x3) <<< 4 ||| (c2 &&& 0xF0) >>> 4) ::
      o.basis64 ((c2 &&& 0xF) <<< 2 ||| (c3 &&& 0xC0) >>> 6) :: o.basis64 (c3 &&& 0x3F) :: o.encodeBlocks rest
  | [c1, c2] =>
    [o.basis64 (c1 >>> 2), o.basis64 ((c1 &&& 0x3) <<< 4 ||| (c2 &&& 0xF0) >>> 4),
      o.basis64 ((c2 &&& 0xF) <<< 2 ||| ((0 : UInt8) &&& 0xC0) >>> 6), '='.toUInt8]
  | [c1] => [o.basis64 (c1 >>> 2), o.basis64 ((c1 &&& 0x3) <<< 4 ||| ((0 : UInt8) &&& 0xF0) >>> 4), '='.toUInt8, '='.toUInt8]
  | [] => []

def doEncode (o : Base64) (encStr str : Bytes) : Bytes := encStr ++ o.encodeBlocks str

/-- The bytes of one block of `DoDecode`. -/
def decodeBlock (cr1 cr2 cr3 cr4 : UInt8) : Bytes :=
  let c1 := char64 cr1
  let c2 := char64 cr2
  let c3 := if cr3 = '='.toUInt8 then 0 else char64 cr3
  let c4 := if cr4 = '='.toUInt8 then 0 else char64 cr4
  (c1 <<< 2 ||| (c2 &&& 0x30) >>> 4) ::
    if cr3 = '='.toUInt8 then []
    else ((c2 &&& 0x0F) <<< 4 ||| (c3 &&& 0x3C) >>> 2) :: if cr4 ≠ '='.toUInt8 then [(c3 &&& 0x03) <<< 6 ||| c4] else []

def decodeBlocks : Bytes → Bytes
  | cr1 :: cr2 :: cr3 :: cr4 :: rest => decodeBlock cr1 cr2 cr3 cr4 ++ decodeBlocks rest
  | _ => []

/-- `DoDecode`: the text that it appends to, and whether the length was right. -/
def doDecode (str encStr : Bytes) : Bytes × Bool := (str ++ decodeBlocks encStr, encStr.length % 4 == 0)

/-! ### Decoding what was encoded -/

theorem sextet_lt {e : UInt8} (masked : e &&& 0x3F = e) : e.toNat < 64 := by
  have kept := congrArg UInt8.toNat masked
  rw [UInt8.toNat_and] at kept
  have bound : e.toNat &&& (0x3F : UInt8).toNat ≤ (0x3F : UInt8).toNat := Nat.and_le_right
  rw [kept] at bound
  exact Nat.lt_succ_of_le bound

set_option maxRecDepth 4000 in
theorem basis64_spec (o : Base64) (i : Fin 64) :
    char64 (o.basis64 (UInt8.ofNat i)) = UInt8.ofNat i ∧ o.basis64 (UInt8.ofNat i) ≠ '='.toUInt8 := by
  revert i
  cases o with
  | base64 => decide
  | base64Regular => decide

theorem char64_basis64 (o : Base64) {e : UInt8} (masked : e &&& 0x3F = e) : char64 (o.basis64 e) = e := by
  have here := (o.basis64_spec ⟨e.toNat, sextet_lt masked⟩).1
  rwa [UInt8.ofNat_toNat] at here

theorem basis64_ne_padding (o : Base64) {e : UInt8} (masked : e &&& 0x3F = e) : o.basis64 e ≠ '='.toUInt8 := by
  have here := (o.basis64_spec ⟨e.toNat, sextet_lt masked⟩).2
  rwa [UInt8.ofNat_toNat] at here

/-! The four groups of six bits, and the three bytes that they are put together to. -/

theorem sextet_high (c1 : UInt8) : (c1 >>> 2) &&& (0x3F : UInt8) = c1 >>> 2 := by
  rw [← UInt8.toBitVec_inj]
  refine BitVec.eq_of_getLsbD_eq fun i inside => ?_
  rcases i with _ | _ | _ | _ | _ | _ | _ | _ | i <;> simp

theorem sextet_upper (c1 c2 : UInt8) :
    ((c1 &&& 0x3) <<< 4 ||| (c2 &&& 0xF0) >>> 4) &&& (0x3F : UInt8) = (c1 &&& 0x3) <<< 4 ||| (c2 &&& 0xF0) >>> 4 := by
  rw [← UInt8.toBitVec_inj]
  refine BitVec.eq_of_getLsbD_eq fun i inside => ?_
  rcases i with _ | _ | _ | _ | _ | _ | _ | _ | i <;> simp

theorem sextet_lower (c2 c3 : UInt8) :
    ((c2 &&& 0xF) <<< 2 ||| (c3 &&& 0xC0) >>> 6) &&& (0x3F : UInt8) = (c2 &&& 0xF) <<< 2 ||| (c3 &&& 0xC0) >>> 6 := by
  rw [← UInt8.toBitVec_inj]
  refine BitVec.eq_of_getLsbD_eq fun i inside => ?_
  rcases i with _ | _ | _ | _ | _ | _ | _ | _ | i <;> simp

theorem sextet_low (c3 : UInt8) : (c3 &&& 0x3F) &&& (0x3F : UInt8) = c3 &&& 0x3F := by
  rw [UInt8.and_assoc, UInt8.and_self]

theorem byte1_eq (c1 c2 : UInt8) :
    (c1 >>> 2) <<< 2 ||| (((c1 &&& 0x3) <<< 4 ||| (c2 &&& 0xF0) >>> 4) &&& 0x30) >>> 4 = c1 := by
  rw [← UInt8.toBitVec_inj]
  refine BitVec.eq_of_getLsbD_eq fun i inside => ?_
  rcases i with _ | _ | _ | _ | _ | _ | _ | _ | i <;> simp

theorem byte2_eq (c1 c2 c3 : UInt8) :
    (((c1 &&& 0x3) <<< 4 ||| (c2 &&& 0xF0) >>> 4) &&& 0x0F) <<< 4 |||
      (((c2 &&& 0xF) <<< 2 ||| (c3 &&& 0xC0) >>> 6) &&& 0x3C) >>> 2 = c2 := by
  rw [← UInt8.toBitVec_inj]
  refine BitVec.eq_of_getLsbD_eq fun i inside => ?_
  rcases i with _ | _ | _ | _ | _ | _ | _ | _ | i <;> simp

theorem byte3_eq (c2 c3 : UInt8) :
    (((c2 &&& 0xF) <<< 2 ||| (c3 &&& 0xC0) >>> 6) &&& 0x03) <<< 6 ||| (c3 &&& 0x3F) = c3 := by
  rw [← UInt8.toBitVec_inj]
  refine BitVec.eq_of_getLsbD_eq fun i inside => ?_
  rcases i with _ | _ | _ | _ | _ | _ | _ | _ | i <;> simp

@[simp]
theorem decodeBlocks_nil : decodeBlocks [] = [] := by
  simp [decodeBlocks]

theorem decodeBlocks_encodeBlocks (o : Base64) (s : Bytes) : decodeBlocks (o.encodeBlocks s) = s := by
  induction s using encodeBlocks.induct with
  | case1 c1 c2 c3 rest ih =>
    rw [encodeBlocks, decodeBlocks, ih, decodeBlock, if_neg (o.basis64_ne_padding (sextet_lower c2 c3)),
      if_neg (o.basis64_ne_padding (sextet_low c3)), if_neg (o.basis64_ne_padding (sextet_lower c2 c3)),
      if_pos (o.basis64_ne_padding (sextet_low c3)), char64_basis64 o (sextet_high c1), char64_basis64 o (sextet_upper c1 c2),
      char64_basis64 o (sextet_lower c2 c3), char64_basis64 o (sextet_low c3), byte1_eq, byte2_eq, byte3_eq]
    rfl
  | case2 c1 c2 =>
    rw [encodeBlocks, decodeBlocks, decodeBlocks_nil, decodeBlock, if_neg (o.basis64_ne_padding (sextet_lower c2 0)),
      if_neg (o.basis64_ne_padding (sextet_lower c2 0)), char64_basis64 o (sextet_high c1), char64_basis64 o (sextet_upper c1 c2),
      char64_basis64 o (sextet_lower c2 0), byte1_eq, byte2_eq]
    simp
  | case3 c1 =>
    rw [encodeBlocks, decodeBlocks, decodeBlocks_nil, decodeBlock, char64_basis64 o (sextet_high c1), char64_basis64 o (sextet_upper c1 0),
      byte1_eq]
    simp
  | case4 => simp [encodeBlocks]

theorem length_encodeBlocks (o : Base64) (s : Bytes) : (o.encodeBlocks s).length % 4 = 0 := by
  induction s using encodeBlocks.induct with
  | case1 c1 c2 c3 rest ih =>
    simp only [encodeBlocks, List.length_cons]
    omega
  | case2 c1 c2 => simp [encodeBlocks]
  | case3 c1 => simp [encodeBlocks]
  | case4 => simp [encodeBlocks]

/-- Every text comes back from its encoding. -/
theorem doDecode_doEncode (o : Base64) (s str : Bytes) : doDecode str (o.doEncode [] s) = (str ++ s, true) := by
  rw [doDecode, doEncode, List.nil_append, decodeBlocks_encodeBlocks, length_encodeBlocks]
  rfl

/-! ### Texts that are no encoding -/

def WellFormed (o : Base64) (encStr : Bytes) : Prop :=
  encStr.length % 4 = 0 ∧
    ∃ text pad, encStr = text ++ List.replicate pad '='.toUInt8 ∧ pad ≤ 2 ∧ ∀ c ∈ text, c ∈ o.doGetBasis

/-- At no place stands a foreign character, or a sign for padding with anything but one such sign behind it. -/
def Unspoiled (o : Base64) (encStr : Bytes) : Prop :=
  ∀ front c behind, encStr = front ++ c :: behind → c ∈ o.doGetBasis ∨ c = '='.toUInt8 ∧ (behind = [] ∨ behind = ['='.toUInt8])

theorem Unspoiled.tail {o : Base64} {c : UInt8} {rest : Bytes} (here : o.Unspoiled (c :: rest)) : o.Unspoiled rest := by
  intro front d behind split
  exact here (c :: front) d behind (by rw [split, List.cons_append])

theorem padding_split {pad : Nat} {front behind : Bytes} {c : UInt8} (few : pad ≤ 2)
    (split : List.replicate pad '='.toUInt8 = front ++ c :: behind) : c = '='.toUInt8 ∧ (behind = [] ∨ behind = ['='.toUInt8]) := by
  have signs : ∀ d ∈ front ++ c :: behind, d = '='.toUInt8 := by
    rw [← split]
    intro d found
    exact List.eq_of_mem_replicate found
  have size := congrArg List.length split
  simp only [List.length_replicate, List.length_append, List.length_cons] at size
  refine ⟨signs c (by simp), ?_⟩
  rcases behind with _ | ⟨d, _ | ⟨e, more⟩⟩
  · left
    rfl
  · right
    rw [signs d (by simp)]
  · simp only [List.length_cons] at size
    omega

theorem Unspoiled.text {o : Base64} {encStr : Bytes} (unspoiled : o.Unspoiled encStr) :
    ∃ text pad, encStr = text ++ List.replicate pad '='.toUInt8 ∧ pad ≤ 2 ∧ ∀ c ∈ text, c ∈ o.doGetBasis := by
  induction encStr with
  | nil => exact ⟨[], 0, rfl, by decide, by simp⟩
  | cons c rest ih =>
    rcases unspoiled [] c rest rfl with known | ⟨rfl, rfl | rfl⟩
    · obtain ⟨text, pad, rfl, few, all⟩ := ih unspoiled.tail
      exact ⟨c :: text, pad, rfl, few, by simpa using ⟨known, all⟩⟩
    · exact ⟨[], 1, rfl, by decide, by simp⟩
    · exact ⟨[], 2, rfl, by decide, by simp⟩

theorem unspoiled_padded {o : Base64} {text : Bytes} {pad : Nat} (few : pad ≤ 2) (known : ∀ c ∈ text, c ∈ o.doGetBasis) :
    o.Unspoiled (text ++ List.replicate pad '='.toUInt8) := by
  intro front c behind split
  rcases List.append_eq_append_iff.mp split with ⟨rest, -, padding⟩ | ⟨rest, whole, padding⟩
  · right
    exact padding_split few padding
  · rcases rest with _ | ⟨d, rest⟩
    · right
      have signs : List.replicate pad '='.toUInt8 = [] ++ c :: behind := padding.symm
      exact padding_split few signs
    · left
      obtain ⟨rfl, -⟩ := List.cons.inj padding
      exact known c (by simp [whole])

theorem wellFormed_iff (o : Base64) (encStr : Bytes) : o.WellFormed encStr ↔ encStr.length % 4 = 0 ∧ o.Unspoiled encStr := by
  constructor
  · rintro ⟨whole, text, pad, rfl, few, known⟩
    exact ⟨whole, unspoiled_padded few known⟩
  · rintro ⟨whole, unspoiled⟩
    exact ⟨whole, unspoiled.text⟩

/-- Every text comes back. Beyond the length nothing is checked: an answer of `true` means an encoding for the texts without
foreign characters and early padding, and only for them. -/
theorem doDecode_accepts_iff (o : Base64) :
    (∀ s str, doDecode str (o.doEncode [] s) = (str ++ s, true)) ∧
      ∀ str encStr, ((doDecode str encStr).2 = true → o.WellFormed encStr) ↔ (encStr.length % 4 ≠ 0 ∨ o.Unspoiled encStr) := by
  refine ⟨o.doDecode_doEncode, fun str encStr => ?_⟩
  rw [wellFormed_iff, doDecode, beq_iff_eq]
  by_cases whole : encStr.length % 4 = 0
  · simp [whole]
  · simp [whole]

/-- Marks of exclamation are in no alphabet. -/
theorem doDecode_accepts_marks : (doDecode [] (ascii "!!!!")).2 = true ∧ ¬ base64.WellFormed (ascii "!!!!") := by
  refine ⟨by simp [doDecode, ascii], ?_⟩
  rw [wellFormed_iff]
  rintro ⟨-, unspoiled⟩
  rcases unspoiled [] 33 (ascii "!!!") (by simp [ascii]) with known | ⟨padding, -⟩
  · simp [doGetBasis, ascii] at known
  · exact absurd padding (by decide)

end Base64

end Coast.Security
