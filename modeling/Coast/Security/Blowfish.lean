import Coast.Base.Number
import Coast.Lib.Ciphers

/-!
# The Blowfish scramblers

`BlowfishScrambler` pads the text with zeros and encrypts each block for itself. `BlowfishCBCScrambler`
pads it in front with random bytes and chains the blocks. The digits with which the tables start are the
parameter `bf_init`; nothing below depends on them.
-/

namespace Coast.Security

abbrev BFLong := UInt32

def bfRounds : Nat := 16
def bfBlock : Nat := 8

structure BlowfishKey where
  P : Vector BFLong 18
  S : Vector BFLong 1024

/-! ### Words and bytes -/

def n2l (bs : Bytes) : BFLong :=
  (bs.getD 0 0).toUInt32 <<< 24 ||| (bs.getD 1 0).toUInt32 <<< 16 ||| (bs.getD 2 0).toUInt32 <<< 8 ||| (bs.getD 3 0).toUInt32

def l2n (l : BFLong) : Bytes :=
  [(l >>> 24 &&& 0xff).toUInt8, (l >>> 16 &&& 0xff).toUInt8, (l >>> 8 &&& 0xff).toUInt8, (l &&& 0xff).toUInt8]

theorem toNat_n2l (a b c d : UInt8) (rest : Bytes) :
    (n2l (a :: b :: c :: d :: rest)).toNat = a.toNat * 2 ^ 24 + b.toNat * 2 ^ 16 + c.toNat * 2 ^ 8 + d.toNat := by
  have ha := a.toNat_lt
  have hb := b.toNat_lt
  have hc := c.toNat_lt
  have hd := d.toNat_lt
  have low : c.toNat <<< 8 ||| d.toNat = c.toNat <<< 8 + d.toNat := (Nat.shiftLeft_add_eq_or_of_lt hd _).symm
  have middle : b.toNat <<< 16 ||| (c.toNat <<< 8 + d.toNat) = b.toNat <<< 16 + (c.toNat <<< 8 + d.toNat) :=
    (Nat.shiftLeft_add_eq_or_of_lt (by rw [Nat.shiftLeft_eq]; omega) _).symm
  have high : a.toNat <<< 24 ||| (b.toNat <<< 16 + (c.toNat <<< 8 + d.toNat)) =
      a.toNat <<< 24 + (b.toNat <<< 16 + (c.toNat <<< 8 + d.toNat)) :=
    (Nat.shiftLeft_add_eq_or_of_lt (by rw [Nat.shiftLeft_eq, Nat.shiftLeft_eq]; omega) _).symm
  have fits : ∀ x k, x < 2 ^ 8 → k ≤ 24 → x <<< k % 4294967296 = x <<< k := by
    intro x k small shift
    rw [Nat.shiftLeft_eq]
    refine Nat.mod_eq_of_lt (Nat.lt_of_lt_of_le ((Nat.mul_lt_mul_right (Nat.two_pow_pos k)).mpr small) ?_)
    rw [← Nat.pow_add]
    exact Nat.pow_le_pow_right (n := 2) Nat.two_pos (show 8 + k ≤ 32 by omega)
  simp only [n2l, List.getD_cons_zero, List.getD_cons_succ, UInt32.toNat_or, UInt32.toNat_shiftLeft, UInt8.toNat_toUInt32]
  simp only [UInt32.reduceToNat, Nat.reduceMod, Nat.reducePow, fits, ha, hb, hc, Nat.or_assoc, low, middle, high, Nat.reduceLeDiff]
  simp only [Nat.shiftLeft_eq]
  omega

theorem l2n_eq (l : BFLong) : l2n l =
    [UInt8.ofNat (l.toNat / 2 ^ 24), UInt8.ofNat (l.toNat / 2 ^ 16), UInt8.ofNat (l.toNat / 2 ^ 8), UInt8.ofNat l.toNat] := by
  have byte : ∀ x : UInt32, (x &&& 0xff).toUInt8 = UInt8.ofNat x.toNat := by
    intro x
    apply UInt8.toNat_inj.mp
    have masked := Nat.and_two_pow_sub_one_eq_mod x.toNat 8
    simp only [Nat.reducePow, Nat.reduceSub] at masked
    simp only [UInt32.toNat_toUInt8, UInt32.toNat_and, UInt32.reduceToNat, masked, UInt8.toNat_ofNat', Nat.reducePow, Nat.mod_mod]
  simp only [l2n, byte, UInt32.toNat_shiftRight, Nat.shiftRight_eq_div_pow]
  rfl

theorem n2l_l2n (l : BFLong) (rest : Bytes) : n2l (l2n l ++ rest) = l := by
  apply UInt32.toNat_inj.mp
  have bound := l.toNat_lt
  simp only [l2n_eq, List.cons_append, List.nil_append, toNat_n2l, UInt8.toNat_ofNat']
  omega

theorem l2n_n2l (a b c d : UInt8) (rest : Bytes) : l2n (n2l (a :: b :: c :: d :: rest)) = [a, b, c, d] := by
  have ha := a.toNat_lt
  have hb := b.toNat_lt
  have hc := c.toNat_lt
  have hd := d.toNat_lt
  simp only [l2n_eq, toNat_n2l, List.cons.injEq, and_true, ← UInt8.toNat_inj, UInt8.toNat_ofNat']
  omega

def blocks : Ciphers.Codec UInt8 (BFLong × BFLong) where
  size := bfBlock
  load in' := (n2l in', n2l (in'.drop 4))
  store d := l2n d.1 ++ l2n d.2
  length_store _ := rfl
  load_store d := Prod.ext (n2l_l2n d.1 _) (n2l_l2n d.2 [])
  store_load bs eight := by
    match bs, eight with
    | [a, b, c, d, a', b', c', d'], _ => exact congrArg₂ (· ++ ·) (l2n_n2l a b c d _) (l2n_n2l a' b' c' d' [])

/-! ### The cipher -/

namespace BlowfishKey

variable (fKey : BlowfishKey)

/-- The entry of the table at `start` to which the masked byte offset points. -/
def sbox (start : Nat) (offset : BFLong) : BFLong := fKey.S.toList.getD (start + (offset &&& 0x3fc).toNat / 4) 0

/-- `BF_ENC`, the new value of `ll`. -/
def bfEnc (ll r p : BFLong) : BFLong :=
  let ll := ll ^^^ p
  ll ^^^ (((fKey.sbox 0 (r >>> 22) + fKey.sbox 256 (r >>> 14)) ^^^ fKey.sbox 512 (r >>> 6)) + fKey.sbox 768 (r <<< 2))

def bfEncrypt (data : BFLong × BFLong) : BFLong × BFLong :=
  let p := fKey.P
  let l := data.1
  let r := data.2
  let l := l ^^^ p[0]
  let r := fKey.bfEnc r l p[1]
  let l := fKey.bfEnc l r p[2]
  let r := fKey.bfEnc r l p[3]
  let l := fKey.bfEnc l r p[4]
  let r := fKey.bfEnc r l p[5]
  let l := fKey.bfEnc l r p[6]
  let r := fKey.bfEnc r l p[7]
  let l := fKey.bfEnc l r p[8]
  let r := fKey.bfEnc r l p[9]
  let l := fKey.bfEnc l r p[10]
  let r := fKey.bfEnc r l p[11]
  let l := fKey.bfEnc l r p[12]
  let r := fKey.bfEnc r l p[13]
  let l := fKey.bfEnc l r p[14]
  let r := fKey.bfEnc r l p[15]
  let l := fKey.bfEnc l r p[16]
  let r := r ^^^ p[17]
  (r &&& 0xffffffff, l &&& 0xffffffff)

def bfDecrypt (data : BFLong × BFLong) : BFLong × BFLong :=
  let p := fKey.P
  let l := data.1
  let r := data.2
  let l := l ^^^ p[17]
  let r := fKey.bfEnc r l p[16]
  let l := fKey.bfEnc l r p[15]
  let r := fKey.bfEnc r l p[14]
  let l := fKey.bfEnc l r p[13]
  let r := fKey.bfEnc r l p[12]
  let l := fKey.bfEnc l r p[11]
  let r := fKey.bfEnc r l p[10]
  let l := fKey.bfEnc l r p[9]
  let r := fKey.bfEnc r l p[8]
  let l := fKey.bfEnc l r p[7]
  let r := fKey.bfEnc r l p[6]
  let l := fKey.bfEnc l r p[5]
  let r := fKey.bfEnc r l p[4]
  let l := fKey.bfEnc l r p[3]
  let r := fKey.bfEnc r l p[2]
  let l := fKey.bfEnc l r p[1]
  let r := r ^^^ p[0]
  (r &&& 0xffffffff, l &&& 0xffffffff)

/-! ### Decryption undoes encryption -/

theorem xor_cancel (x y : BFLong) : x ^^^ y ^^^ y = x := by
  rw [UInt32.xor_assoc, UInt32.xor_self, UInt32.xor_zero]

theorem mask_word (x : BFLong) : x &&& 0xffffffff = x := UInt32.and_neg_one

def feistel (p r ll : BFLong) : BFLong := fKey.bfEnc ll r p

theorem feistel_involutive (p r : BFLong) : Function.Involutive (fKey.feistel p r) := by
  intro ll
  simp only [feistel, bfEnc]
  generalize (fKey.sbox 0 (r >>> 22) + fKey.sbox 256 (r >>> 14) ^^^ fKey.sbox 512 (r >>> 6)) + fKey.sbox 768 (r <<< 2) = f
  calc ll ^^^ p ^^^ f ^^^ p ^^^ f = ll ^^^ p ^^^ p ^^^ f ^^^ f := by
        rw [UInt32.xor_assoc (ll ^^^ p), UInt32.xor_comm f, ← UInt32.xor_assoc (ll ^^^ p)]
    _ = ll := by rw [xor_cancel, xor_cancel]

def roundKeys : List BFLong :=
  let p := fKey.P
  [p[1], p[2], p[3], p[4], p[5], p[6], p[7], p[8], p[9], p[10], p[11], p[12], p[13], p[14], p[15], p[16]]

theorem bfEncrypt_eq (data : BFLong × BFLong) : fKey.bfEncrypt data =
    let out := Ciphers.rounds fKey.feistel fKey.roundKeys (data.1 ^^^ fKey.P[0], data.2)
    (out.2 ^^^ fKey.P[17], out.1) := by
  simp only [bfEncrypt, mask_word, Ciphers.rounds, Ciphers.round, roundKeys, feistel, List.foldl_cons, List.foldl_nil]

theorem bfDecrypt_eq (data : BFLong × BFLong) : fKey.bfDecrypt data =
    let out := Ciphers.rounds fKey.feistel fKey.roundKeys.reverse (data.1 ^^^ fKey.P[17], data.2)
    (out.2 ^^^ fKey.P[0], out.1) := by
  simp only [bfDecrypt, mask_word, Ciphers.rounds, Ciphers.round, roundKeys, feistel, List.reverse_cons, List.reverse_nil,
    List.nil_append, List.cons_append, List.foldl_cons, List.foldl_nil]

theorem bfDecrypt_bfEncrypt : Function.LeftInverse fKey.bfDecrypt fKey.bfEncrypt := by
  intro data
  have back := Ciphers.rounds_reverse fKey.feistel_involutive fKey.roundKeys (data.1 ^^^ fKey.P[0], data.2)
  rw [bfEncrypt_eq, bfDecrypt_eq]
  simp only [xor_cancel]
  rw [Prod.swap_prod_mk] at back
  rw [back, Prod.swap_prod_mk]
  simp only [xor_cancel]

end BlowfishKey

/-! ### The key schedule -/

section InitKey

variable (bf_init : BlowfishKey)

/-- The key is read round and round; an empty one is its terminator. -/
def keyByte (keyin : Bytes) (i : Nat) : BFLong :=
  let len := min keyin.length ((bfRounds + 2) * 4)
  (keyin.getD (i % len) 0).toUInt32

def keyWord (keyin : Bytes) (i : Nat) : BFLong :=
  let ri := keyByte keyin (4 * i)
  let ri := ri <<< 8 ||| keyByte keyin (4 * i + 1)
  let ri := ri <<< 8 ||| keyByte keyin (4 * i + 2)
  ri <<< 8 ||| keyByte keyin (4 * i + 3)

/-- `P` is replaced pair by pair with what the key encrypts to so far. -/
def schedulePairs : Nat → Nat → BlowfishKey × (BFLong × BFLong) → BlowfishKey × (BFLong × BFLong)
  | 0, _, state => state
  | n + 1, i, (fKey, in') =>
    let out := fKey.bfEncrypt in'
    schedulePairs n (i + 2) ({ fKey with P := (fKey.P.setIfInBounds i out.1).setIfInBounds (i + 1) out.2 }, out)

def scheduleBoxes : Nat → Nat → BlowfishKey × (BFLong × BFLong) → BlowfishKey × (BFLong × BFLong)
  | 0, _, state => state
  | n + 1, i, (fKey, in') =>
    let out := fKey.bfEncrypt in'
    scheduleBoxes n (i + 2) ({ fKey with S := (fKey.S.setIfInBounds i out.1).setIfInBounds (i + 1) out.2 }, out)

def initKey (keyin : Bytes) : BlowfishKey :=
  let fKey := { bf_init with P := bf_init.P.mapFinIdx fun i p _ => p ^^^ keyWord keyin i }
  (scheduleBoxes 512 0 (schedulePairs 9 0 (fKey, (0, 0)))).1

end InitKey

/-! ### Padding and modes -/

/-- What a scrambler overrides. -/
structure BlowfishHooks where
  padToBlockSize : Bytes → Bytes
  unPad : Bytes → Option Bytes
  doBlowfishEncrypt : Bytes → Bytes
  doBlowfishDecrypt : Bytes → Option Bytes

namespace BlowfishHooks

variable (hooks : BlowfishHooks)

def doEncode (cleartext : Bytes) : Bytes := hooks.doBlowfishEncrypt (hooks.padToBlockSize cleartext)

def doDecode (scrambledText : Bytes) : Option Bytes := (hooks.doBlowfishDecrypt scrambledText).bind hooks.unPad

theorem doDecode_doEncode_of {cleartext : Bytes}
    (mode : hooks.doBlowfishDecrypt (hooks.doEncode cleartext) = some (hooks.padToBlockSize cleartext))
    (padding : hooks.unPad (hooks.padToBlockSize cleartext) = some cleartext) :
    hooks.doDecode (hooks.doEncode cleartext) = some cleartext := by
  rw [doDecode, mode, Option.bind_some, padding]

end BlowfishHooks

def padCount (length : Nat) : Nat := (length / bfBlock + 1) * bfBlock - length

theorem padCount_pos (length : Nat) : 0 < padCount length := by
  simp only [padCount, bfBlock]
  omega

theorem padCount_le (length : Nat) : padCount length ≤ bfBlock := by
  simp only [padCount, bfBlock]
  omega

theorem padCount_aligned (length : Nat) : (length + padCount length) % bfBlock = 0 := by
  simp only [padCount, bfBlock]
  omega

theorem blocks_enough (length : Nat) : length / bfBlock * blocks.size ≤ length := Nat.div_mul_le_self length 8

namespace BlowfishScrambler

variable (fKey : BlowfishKey)

def doECBMultipleBlockEncrypt (work : Bytes) (length : UInt32) : Bytes :=
  if length.toNat % bfBlock ≠ 0 then work else blocks.eachBlock fKey.bfEncrypt (length.toNat / bfBlock) work

def doECBMultipleBlockDecrypt (work : Bytes) (length : UInt32) : Option Bytes :=
  if length.toNat % bfBlock ≠ 0 then none else some (blocks.eachBlock fKey.bfDecrypt (length.toNat / bfBlock) work)

def padToBlockSize (cleartext : Bytes) : Bytes :=
  let pads := padCount cleartext.length
  cleartext ++ List.replicate (pads - 1) 0 ++ [UInt8.ofNat pads]

def unPad (cleartext : Bytes) : Option Bytes :=
  let length := cleartext.length
  let pads := charInt (cleartext.getD (length - 1) 0)
  if 0 < pads ∧ pads ≤ bfBlock then some (cleartext.take (length - pads.toNat))
  else if length = 8 then some cleartext
  else none

/-- The length of the text is passed on as an `unsigned int`. -/
def new : BlowfishHooks where
  padToBlockSize := padToBlockSize
  unPad := unPad
  doBlowfishEncrypt padded := doECBMultipleBlockEncrypt fKey padded (UInt32.ofNat padded.length)
  doBlowfishDecrypt padded := doECBMultipleBlockDecrypt fKey padded (UInt32.ofNat padded.length)

theorem length_padToBlockSize (cleartext : Bytes) :
    (padToBlockSize cleartext).length = cleartext.length + padCount cleartext.length := by
  have positive := padCount_pos cleartext.length
  simp only [padToBlockSize, List.length_append, List.length_replicate, List.length_singleton]
  omega

theorem unPad_padToBlockSize (cleartext : Bytes) : unPad (padToBlockSize cleartext) = some cleartext := by
  have positive := padCount_pos cleartext.length
  have small := padCount_le cleartext.length
  simp only [bfBlock] at small
  have length := length_padToBlockSize cleartext
  have last : (padToBlockSize cleartext).getD ((padToBlockSize cleartext).length - 1) 0 = UInt8.ofNat (padCount cleartext.length) := by
    rw [List.getD_eq_getElem?_getD, ← List.getLast?_eq_getElem?, padToBlockSize, List.getLast?_concat]
    rfl
  have count : charInt (UInt8.ofNat (padCount cleartext.length)) = padCount cleartext.length := by
    rw [charInt, UInt8.toNat_ofNat', if_pos (by omega), Nat.mod_eq_of_lt (by omega)]
  rw [unPad, last, count, if_pos (by simp only [bfBlock]; omega), length, Int.toNat_natCast, Nat.add_sub_cancel, padToBlockSize,
    List.append_assoc, List.take_left]

theorem doDecode_doEncode (cleartext : Bytes) : (new fKey).doDecode ((new fKey).doEncode cleartext) = some cleartext := by
  refine BlowfishHooks.doDecode_doEncode_of _ ?_ (unPad_padToBlockSize cleartext)
  have aligned : (UInt32.ofNat (padToBlockSize cleartext).length).toNat % bfBlock = 0 := by
    have whole := padCount_aligned cleartext.length
    rw [length_padToBlockSize, UInt32.toNat_ofNat']
    simp only [bfBlock] at whole ⊢
    omega
  have enough : (UInt32.ofNat (padToBlockSize cleartext).length).toNat / bfBlock * blocks.size ≤ (padToBlockSize cleartext).length := by
    refine Nat.le_trans (blocks_enough _) ?_
    rw [UInt32.toNat_ofNat']
    exact Nat.mod_le _ _
  have same := blocks.eachBlock_inverse fKey.bfDecrypt_bfEncrypt enough
  simp only [BlowfishHooks.doEncode, new, doECBMultipleBlockEncrypt, doECBMultipleBlockDecrypt, aligned, ne_eq, not_true_eq_false,
    if_false, blocks.length_eachBlock _ enough, same]

end BlowfishScrambler

namespace BlowfishCBCScrambler

variable (fKey : BlowfishKey) (fIvec : BFLong × BFLong) (generateRandomString : Nat → Bytes)

def padToBlockSize (cleartext : Bytes) : Bytes :=
  let pads := padCount cleartext.length
  let result := generateRandomString pads
  ((result.headD 0 &&& 0xf0 ||| UInt8.ofNat pads &&& 0x0f) :: result.tail) ++ cleartext

def unPad (cleartext : Bytes) : Option Bytes :=
  let pads := (cleartext.getD 0 0 &&& 0x0f).toNat
  if 0 < pads ∧ pads ≤ bfBlock then some (cleartext.drop pads) else none

def combine (x y : BFLong × BFLong) : BFLong × BFLong := (x.1 ^^^ y.1, x.2 ^^^ y.2)

def doBlowfishEncrypt (padded : Bytes) : Bytes :=
  blocks.chainEncrypt combine fKey.bfEncrypt (padded.length / bfBlock) fIvec padded

def doBlowfishDecrypt (padded : Bytes) : Option Bytes :=
  if padded.length % bfBlock ≠ 0 then none
  else some (blocks.chainDecrypt combine fKey.bfDecrypt (padded.length / bfBlock) fIvec padded)

def new : BlowfishHooks where
  padToBlockSize := padToBlockSize generateRandomString
  unPad := unPad
  doBlowfishEncrypt := doBlowfishEncrypt fKey fIvec
  doBlowfishDecrypt := doBlowfishDecrypt fKey fIvec

theorem combine_cancel (x y : BFLong × BFLong) : combine (combine x y) y = x :=
  Prod.ext (BlowfishKey.xor_cancel x.1 y.1) (BlowfishKey.xor_cancel x.2 y.2)

section Random

variable {generateRandomString : Nat → Bytes} (random : ∀ n, (generateRandomString n).length = n)
include random

theorem length_padToBlockSize (cleartext : Bytes) :
    (padToBlockSize generateRandomString cleartext).length = cleartext.length + padCount cleartext.length := by
  have positive := padCount_pos cleartext.length
  have length := random (padCount cleartext.length)
  simp only [padToBlockSize, List.length_append, List.length_cons, List.length_tail]
  omega

theorem unPad_padToBlockSize (cleartext : Bytes) : unPad (padToBlockSize generateRandomString cleartext) = some cleartext := by
  have positive := padCount_pos cleartext.length
  have small := padCount_le cleartext.length
  have length := random (padCount cleartext.length)
  simp only [bfBlock] at small
  have count : ∀ first : UInt8, ∀ n ≤ 8, ((first &&& 0xf0 ||| UInt8.ofNat n &&& 0x0f) &&& 0x0f).toNat = n :=
    forall_byte (by decide +kernel)
  have front : ((generateRandomString (padCount cleartext.length)).tail).length + 1 = padCount cleartext.length := by
    rw [List.length_tail]
    omega
  simp only [unPad, padToBlockSize, List.cons_append, List.getD_cons_zero, count _ _ small]
  rw [if_pos (by simp only [bfBlock]; omega)]
  generalize generateRandomString (padCount cleartext.length) = result at front
  rw [← front, List.drop_succ_cons, List.drop_left]

theorem doDecode_doEncode (cleartext : Bytes) :
    (new fKey fIvec generateRandomString).doDecode ((new fKey fIvec generateRandomString).doEncode cleartext) = some cleartext := by
  refine BlowfishHooks.doDecode_doEncode_of _ ?_ (unPad_padToBlockSize random cleartext)
  have aligned : (padToBlockSize generateRandomString cleartext).length % bfBlock = 0 := by
    rw [length_padToBlockSize random]
    exact padCount_aligned cleartext.length
  have enough := blocks_enough (padToBlockSize generateRandomString cleartext).length
  have same := blocks.chain_inverse combine_cancel fKey.bfDecrypt_bfEncrypt fIvec enough
  simp only [BlowfishHooks.doEncode, new, doBlowfishEncrypt, doBlowfishDecrypt, blocks.length_chainEncrypt _ _ _ enough, aligned,
    ne_eq, not_true_eq_false, if_false, same]

end Random

end BlowfishCBCScrambler

/-- Every text comes back from both scramblers, under every key, initialisation vector and random padding. -/
theorem blowfish_decodes (bf_init : BlowfishKey) (key : Bytes) (fIvec : BFLong × BFLong) {generateRandomString : Nat → Bytes}
    (random : ∀ n, (generateRandomString n).length = n) (cleartext : Bytes) :
    let ecb := BlowfishScrambler.new (initKey bf_init key)
    let cbc := BlowfishCBCScrambler.new (initKey bf_init key) fIvec generateRandomString
    ecb.doDecode (ecb.doEncode cleartext) = some cleartext ∧ cbc.doDecode (cbc.doEncode cleartext) = some cleartext :=
  ⟨BlowfishScrambler.doDecode_doEncode _ cleartext, BlowfishCBCScrambler.doDecode_doEncode _ fIvec random cleartext⟩

theorem blowfish_decodes_text :
    let fKey := initKey ⟨Vector.replicate 18 0, Vector.replicate 1024 0⟩ (ascii "key")
    let ecb := BlowfishScrambler.new fKey
    let cbc := BlowfishCBCScrambler.new fKey (1, 2) fun n => List.replicate n 0x5a
    ecb.doDecode (ecb.doEncode (ascii "text")) = some (ascii "text") ∧
      cbc.doDecode (cbc.doEncode (ascii "text")) = some (ascii "text") :=
  blowfish_decodes _ (ascii "key") (1, 2) (fun _ => List.length_replicate) (ascii "text")

end Coast.Security
