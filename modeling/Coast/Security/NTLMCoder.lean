import Coast.Regex.Program
import Coast.Security.Base64

/-!
# NTLM messages

The messages are binary, with lengths and offsets of 16 bits, and travel in Base64. DES is a parameter,
from the eight bytes of a key and a block to a block; it sees to the parity of the key itself. The
encoders and `StripUtf16` also tell whether the assertions in them hold.
-/

namespace Coast.Security.NTLMCoder

open Regex (subString cstr)

/-- The conversion to `unsigned short`. -/
def toUShort (n : Int) : Nat := (n % 2 ^ 16).toNat

/-- The conversion to `short`. -/
def toShort (n : Int) : Int := (n + 2 ^ 15) % 2 ^ 16 - 2 ^ 15

def decodeshort (dm : Bytes) (pos : Nat) : Nat := (dm.getD pos 0).toNat + (dm.getD (pos + 1) 0).toNat <<< 8

def shortBytes (val : Nat) : Bytes := [UInt8.ofNat (val &&& 0xff), UInt8.ofNat (val >>> 8)]

def appendshort (buff : Bytes) (val : Int) : Bytes := buff ++ shortBytes (toUShort val)

def makeBase64 (buff : Bytes) : Bytes := Base64.base64Regular.doEncode [] buff

def decodeBase64 (result input : Bytes) : Bytes × Bool := Base64.doDecode result input

/-- `String::ToUpper`, which ends at a NUL. -/
def toUpper (s : Bytes) : Bytes := (cstr s).map toupper ++ s.drop (cstr s).length

/-! ### The first message of the client -/

def decodeClientMsg (base64msg : Bytes) : Option (Bytes × Bytes) :=
  let (dm, good) := decodeBase64 [] base64msg
  if good && cstr (subString dm 0 7) == ascii "NTLMSSP" && dm.getD 8 0 == 0x01 && dm.getD 12 0 == 0x03 && dm.getD 13 0 == 0xb2 then
    let dlen := decodeshort dm 16
    let doff := decodeshort dm 20
    let hlen := decodeshort dm 24
    let hoff := decodeshort dm 28
    some (subString dm doff dlen, subString dm hoff hlen)
  else none

def clientStart : Bytes := ascii "NTLMSSP" ++ [0, 0x01, 0, 0, 0, 0x03, 0xb2, 0, 0]

def clientFields (domain host : Bytes) : List Int :=
  let dlen := toUShort domain.length
  let hlen := toUShort host.length
  let doff := toUShort (32 + hlen)
  [dlen, dlen, doff, 0, hlen, hlen, 0x20, 0]

/-- The binary message of `EncodeClientMsg`. -/
def clientMsg (domain host : Bytes) : Bytes :=
  (clientFields domain host).foldl appendshort clientStart ++ toUpper host ++ toUpper domain

def encodeClientMsg (domain host : Bytes) : Bytes × Bool :=
  (makeBase64 (clientMsg domain host),
    ((clientFields domain host).foldl appendshort clientStart).length == 32 &&
      (clientMsg domain host).length == 32 + toUShort host.length + toUShort domain.length)

/-! ### The response -/

abbrev Block := Vector UInt8 8

section Response

variable (des : Block → Block → Block)

/-- A key of 56 bits in eight bytes, before `DES_set_odd_parity`. -/
def setupDesKey (keystr : Bytes) : Block :=
  let key56 i := keystr.getD i 0
  #v[key56 0, key56 0 <<< 7 ||| key56 1 >>> 1, key56 1 <<< 6 ||| key56 2 >>> 2, key56 2 <<< 5 ||| key56 3 >>> 3,
    key56 3 <<< 4 ||| key56 4 >>> 4, key56 4 <<< 3 ||| key56 5 >>> 5, key56 5 <<< 2 ||| key56 6 >>> 6, key56 6 <<< 1]

def calculateNonceHash (keys plaintext : Bytes) : Bytes :=
  let pt8 : Block := Vector.ofFn fun i => plaintext.getD i 0
  let encrypt start := (des (setupDesKey (subString keys start 7)) pt8).toList
  encrypt 0 ++ encrypt 7 ++ encrypt 14

def makeUtf16 (input : Bytes) : Bytes := input.flatMap fun c => [c, 0]

def makeUtf16Upper (input : Bytes) : Bytes := makeUtf16 (toUpper input)

def stripUtf16 : Bytes → Bytes × Bool
  | c :: d :: rest => (c :: (stripUtf16 rest).1, d == 0 && (stripUtf16 rest).2)
  | rest => (rest, true)

def cutfrommessage (dm : Bytes) (lengthpos : Nat) : Bytes :=
  subString dm (decodeshort dm (lengthpos + 4)) (decodeshort dm lengthpos)

/-- What `DecodeResponse` stores, whether it returns true, and whether the assertions hold. -/
structure Response where
  domain : Bytes
  host : Bytes
  user : Bytes
  result : Bool
  asserts : Bool
  deriving DecidableEq, Repr

def decodeResponse (base64msg nonce lmhash nthash : Bytes) : Option Response :=
  let (dm, good) := decodeBase64 [] base64msg
  if good && cstr (subString dm 0 7) == ascii "NTLMSSP" && dm.getD 8 0 == 0x03 && dm.getD 60 0 == 0x01 && dm.getD 61 0 == 0x82 &&
      dm.length == decodeshort dm 56 then
    let domain := stripUtf16 (cutfrommessage dm 28)
    let user := stripUtf16 (cutfrommessage dm 36)
    let host := stripUtf16 (cutfrommessage dm 44)
    some {
      domain := domain.1
      host := host.1
      user := user.1
      result := calculateNonceHash des lmhash nonce == cutfrommessage dm 12 &&
        calculateNonceHash des nthash nonce == cutfrommessage dm 20
      asserts := domain.2 && user.2 && host.2 }
  else none

/-- The fields of `appendlenoff`. -/
def lenoff (length off : Int) : List Int := [length, length, toShort off, 0]

def responseStart : Bytes := ascii "NTLMSSP" ++ [0, 0x03, 0, 0, 0]

variable (nonce lmhash nthash domain host user : Bytes)

def uoff : Int := toShort (64 + (makeUtf16Upper domain).length)

def hoff : Int := toShort (uoff domain + (makeUtf16 user).length)

def lmoff : Int := toShort (hoff domain user + (makeUtf16Upper host).length)

def msglen : Int := toShort (lmoff domain host user + 24 + 24)

def responseFields : List Int :=
  let lmresp := calculateNonceHash des lmhash nonce
  let ntresp := calculateNonceHash des nthash nonce
  lenoff lmresp.length (lmoff domain host user) ++ lenoff ntresp.length (lmoff domain host user + lmresp.length) ++
    lenoff (makeUtf16Upper domain).length 64 ++ lenoff (makeUtf16 user).length (uoff domain) ++
    lenoff (makeUtf16Upper host).length (hoff domain user) ++ lenoff 0 (msglen domain host user) ++ [0x8201, 0]

/-- The binary message of `EncodeResponse`. -/
def responseMsg : Bytes :=
  (responseFields des nonce lmhash nthash domain host user).foldl appendshort responseStart ++
    makeUtf16Upper domain ++ makeUtf16 user ++ makeUtf16Upper host ++
    calculateNonceHash des lmhash nonce ++ calculateNonceHash des nthash nonce

def encodeResponse : Bytes × Bool :=
  (makeBase64 (responseMsg des nonce lmhash nthash domain host user),
    ((responseFields des nonce lmhash nthash domain host user).foldl appendshort responseStart).length == 64 &&
      msglen domain host user == (responseMsg des nonce lmhash nthash domain host user).length)

end Response

end Coast.Security.NTLMCoder
