import Coast.Security.NTLMCoder

/-!
# NTLM messages on the wire

All numbers are written as 16 bits, so it does no harm that offsets are computed as `short`, except
where one is compared with a length.
-/

namespace Coast.Security.NTLMCoder

open Regex (subString cstr cstr_of_plain)

/-! ### Numbers of 16 bits -/

theorem toUShort_lt (n : Int) : toUShort n < 2 ^ 16 := by
  unfold toUShort
  omega

theorem toUShort_of_lt {n : Nat} (small : n < 2 ^ 16) : toUShort n = n := by
  unfold toUShort
  omega

theorem toUShort_toShort (n : Int) : toUShort (toShort n) = toUShort n := by
  unfold toUShort toShort
  omega

theorem toShort_add (a b : Int) : toShort (toShort a + b) = toShort (a + b) := by
  unfold toShort
  omega

theorem toShort_eq_iff {n : Nat} (small : n < 2 ^ 16) : toShort n = n ↔ n < 2 ^ 15 := by
  unfold toShort
  omega

/-! ### Fields -/

theorem foldl_appendshort (vals : List Int) (buff : Bytes) :
    vals.foldl appendshort buff = buff ++ vals.flatMap fun val => shortBytes (toUShort val) := by
  induction vals generalizing buff with
  | nil => simp
  | cons val vals ih => rw [List.foldl_cons, ih, appendshort, List.append_assoc, List.flatMap_cons]

theorem length_fields (vals : List Int) : (vals.flatMap fun val => shortBytes (toUShort val)).length = 2 * vals.length := by
  induction vals with
  | nil => rfl
  | cons val vals ih =>
    rw [List.flatMap_cons, List.length_append, ih, List.length_cons]
    simp only [shortBytes, List.length_cons, List.length_nil]
    omega

theorem getD_field (start : Bytes) {vals : List Int} {k : Nat} {val : Int} (field : vals[k]? = some val) (rest : Bytes) {pos : Nat}
    (at_k : pos = start.length + 2 * k) :
    (vals.foldl appendshort start ++ rest).getD pos 0 = UInt8.ofNat (toUShort val &&& 0xff) ∧
      (vals.foldl appendshort start ++ rest).getD (pos + 1) 0 = UInt8.ofNat (toUShort val >>> 8) := by
  subst at_k
  rw [foldl_appendshort, List.append_assoc, Nat.add_assoc]
  simp only [List.getD_eq_getElem?_getD, List.getElem?_append_right (Nat.le_add_right _ _), Nat.add_sub_cancel_left]
  induction vals generalizing k with
  | nil => cases field
  | cons first vals ih =>
    cases k with
    | zero =>
      obtain rfl := Option.some.inj field
      exact ⟨rfl, rfl⟩
    | succ k => exact ih (k := k) field

theorem decodeshort_field (start : Bytes) {vals : List Int} {k : Nat} {val : Int} (field : vals[k]? = some val) (rest : Bytes)
    {pos : Nat} (at_k : pos = start.length + 2 * k) : decodeshort (vals.foldl appendshort start ++ rest) pos = toUShort val := by
  obtain ⟨low, high⟩ := getD_field start field rest at_k
  have small := toUShort_lt val
  rw [decodeshort, low, high]
  generalize toUShort val = n at small
  rw [UInt8.toNat_ofNat', UInt8.toNat_ofNat', Nat.shiftLeft_eq, Nat.shiftRight_eq_div_pow, Nat.and_two_pow_sub_one_eq_mod n 8]
  omega

theorem getD_start {start : Bytes} {i : Nat} (inside : i < start.length) (vals : List Int) (rest : Bytes) :
    (vals.foldl appendshort start ++ rest).getD i 0 = start.getD i 0 := by
  rw [foldl_appendshort, List.append_assoc, List.getD_eq_getElem?_getD, List.getElem?_append_left inside,
    ← List.getD_eq_getElem?_getD]

theorem signature {start : Bytes} (long : 7 ≤ start.length) (name : start.take 7 = ascii "NTLMSSP") (vals : List Int) (rest : Bytes) :
    cstr (subString (vals.foldl appendshort start ++ rest) 0 7) = ascii "NTLMSSP" := by
  rw [subString, List.drop_zero, foldl_appendshort, List.append_assoc, List.take_append_of_le_length long, name]
  rfl

theorem subString_between (front part rest : Bytes) : subString (front ++ part ++ rest) front.length part.length = part := by
  rw [subString, List.append_assoc, List.drop_left, List.take_left]

/-! ### Texts -/

theorem length_toUpper (s : Bytes) : (toUpper s).length = s.length := by
  have front : (cstr s).length ≤ s.length := by
    rw [cstr]
    exact List.Sublist.length_le (List.takeWhile_sublist _)
  rw [toUpper, List.length_append, List.length_map, List.length_drop]
  omega

theorem length_makeUtf16 (input : Bytes) : (makeUtf16 input).length = 2 * input.length := by
  induction input with
  | nil => rfl
  | cons c input ih =>
    rw [makeUtf16, List.flatMap_cons, List.length_append, ← makeUtf16, ih, List.length_cons]
    simp only [List.length_cons, List.length_nil]
    omega

theorem length_makeUtf16Upper (input : Bytes) : (makeUtf16Upper input).length = 2 * input.length := by
  rw [makeUtf16Upper, length_makeUtf16, length_toUpper]

theorem stripUtf16_makeUtf16 (input : Bytes) : stripUtf16 (makeUtf16 input) = (input, true) := by
  induction input with
  | nil => rfl
  | cons c input ih =>
    rw [makeUtf16, List.flatMap_cons, ← makeUtf16]
    show stripUtf16 (c :: 0 :: makeUtf16 input) = _
    rw [stripUtf16, ih]
    rfl

theorem decodeBase64_makeBase64 (buff : Bytes) : decodeBase64 [] (makeBase64 buff) = (buff, true) :=
  Base64.base64Regular.doDecode_doEncode buff []

/-! ### The first message of the client -/

section Client

variable (domain host : Bytes)

theorem length_clientMsg : (clientMsg domain host).length = 32 + host.length + domain.length := by
  rw [clientMsg, foldl_appendshort, List.length_append, List.length_append, List.length_append, length_fields, length_toUpper,
    length_toUpper]
  rfl

def ClientSurvives : Prop :=
  (clientMsg domain host).length ≤ 65535 →
    (encodeClientMsg domain host).2 = true ∧
      decodeClientMsg (encodeClientMsg domain host).1 = some (toUpper domain, toUpper host)

theorem clientSurvives : ClientSurvives domain host := by
  intro small
  rw [length_clientMsg] at small
  have hlen : toUShort host.length = host.length := toUShort_of_lt (by omega)
  have dlen : toUShort domain.length = domain.length := toUShort_of_lt (by omega)
  have doff : toUShort (32 + (host.length : Nat)) = 32 + host.length := toUShort_of_lt (n := 32 + host.length) (by omega)
  have fields : clientFields domain host =
      [(domain.length : Int), domain.length, (32 + host.length : Nat), 0, host.length, host.length, 0x20, 0] := by
    rw [clientFields, hlen, dlen, doff]
  have whole : clientMsg domain host = (clientFields domain host).foldl appendshort clientStart ++ (toUpper host ++ toUpper domain) :=
    List.append_assoc ..
  have length : ((clientFields domain host).foldl appendshort clientStart).length = 32 := by
    rw [foldl_appendshort, List.length_append, length_fields]
    rfl
  have field : ∀ {k pos val : Nat}, (clientFields domain host)[k]? = some (val : Int) → pos = 16 + 2 * k → val < 2 ^ 16 →
      decodeshort (clientMsg domain host) pos = val := by
    intro k pos val value at_k fits
    rw [whole, decodeshort_field clientStart value _ at_k, toUShort_of_lt fits]
  have read : decodeshort (clientMsg domain host) 16 = domain.length ∧ decodeshort (clientMsg domain host) 20 = 32 + host.length ∧
      decodeshort (clientMsg domain host) 24 = host.length ∧ decodeshort (clientMsg domain host) 28 = 32 := by
    refine ⟨field (k := 0) ?_ rfl (by omega), field (k := 2) ?_ rfl (by omega), field (k := 4) ?_ rfl (by omega),
      field (k := 6) ?_ rfl (by decide)⟩ <;> rw [fields] <;> rfl
  have hostPart : subString (clientMsg domain host) 32 host.length = toUpper host := by
    have between := subString_between ((clientFields domain host).foldl appendshort clientStart) (toUpper host) (toUpper domain)
    rwa [length, length_toUpper] at between
  have domainPart : subString (clientMsg domain host) (32 + host.length) domain.length = toUpper domain := by
    have between := subString_between ((clientFields domain host).foldl appendshort clientStart ++ toUpper host) (toUpper domain) []
    rwa [List.length_append, length, length_toUpper, length_toUpper, List.append_nil] at between
  have start : ∀ i < 16, (clientMsg domain host).getD i 0 = clientStart.getD i 0 := by
    intro i inside
    rw [whole]
    exact getD_start inside _ _
  have named : cstr (subString (clientMsg domain host) 0 7) = ascii "NTLMSSP" := by
    rw [whole]
    exact signature (by decide) rfl _ _
  constructor
  · rw [encodeClientMsg, length, length_clientMsg, hlen, dlen]
    simp
  · rw [encodeClientMsg, decodeClientMsg, decodeBase64_makeBase64]
    simp only [named, start 8 (by decide), start 12 (by decide), start 13 (by decide), read, hostPart, domainPart]
    rfl

end Client

/-! ### The response -/

section Response

variable (des : Block → Block → Block) (nonce lmhash nthash domain host user : Bytes)

theorem length_calculateNonceHash (keys plaintext : Bytes) : (calculateNonceHash des keys plaintext).length = 24 := by
  simp [calculateNonceHash]

def responseSize : Nat := 112 + 2 * (domain.length + user.length + host.length)

theorem length_responseFields : (responseFields des nonce lmhash nthash domain host user).length = 26 := rfl

def responseHead : Bytes := (responseFields des nonce lmhash nthash domain host user).foldl appendshort responseStart

theorem length_responseHead : (responseHead des nonce lmhash nthash domain host user).length = 64 := by
  rw [responseHead, foldl_appendshort, List.length_append, length_fields, length_responseFields]
  rfl

theorem length_responseMsg : (responseMsg des nonce lmhash nthash domain host user).length = responseSize domain host user := by
  rw [responseMsg, ← responseHead]
  simp only [List.length_append, length_responseHead, length_makeUtf16Upper, length_makeUtf16, length_calculateNonceHash]
  unfold responseSize
  omega

/-! The offsets, as far as a `short` goes. -/

theorem uoff_eq : uoff domain = toShort (64 + 2 * domain.length : Nat) := by
  rw [uoff, length_makeUtf16Upper]
  rfl

theorem hoff_eq : hoff domain user = toShort (64 + 2 * domain.length + 2 * user.length : Nat) := by
  rw [hoff, uoff_eq, toShort_add, length_makeUtf16]
  rfl

theorem lmoff_eq : lmoff domain host user = toShort (64 + 2 * domain.length + 2 * user.length + 2 * host.length : Nat) := by
  rw [lmoff, hoff_eq, toShort_add, length_makeUtf16Upper]
  rfl

theorem msglen_eq : msglen domain host user = toShort (responseSize domain host user : Nat) := by
  rw [msglen, lmoff_eq, Int.add_assoc, toShort_add]
  congr 1
  unfold responseSize
  omega

theorem lenoff_toShort (length off : Int) : lenoff length (toShort off) = lenoff length off := by
  have twice := toShort_add off 0
  rw [Int.add_zero, Int.add_zero] at twice
  rw [lenoff, twice, lenoff]

theorem responseFields_eq : responseFields des nonce lmhash nthash domain host user =
    lenoff (24 : Nat) (64 + 2 * domain.length + 2 * user.length + 2 * host.length : Nat) ++
      lenoff (24 : Nat) (64 + 2 * domain.length + 2 * user.length + 2 * host.length + 24 : Nat) ++
      lenoff (2 * domain.length : Nat) (64 : Nat) ++ lenoff (2 * user.length : Nat) (64 + 2 * domain.length : Nat) ++
      lenoff (2 * host.length : Nat) (64 + 2 * domain.length + 2 * user.length : Nat) ++
      lenoff (0 : Nat) (responseSize domain host user : Nat) ++ [0x8201, 0] := by
  rw [responseFields]
  simp only [length_calculateNonceHash, length_makeUtf16Upper, length_makeUtf16, uoff_eq, hoff_eq, msglen_eq, lenoff_toShort]
  rw [lmoff_eq, lenoff_toShort, ← lenoff_toShort (24 : Nat) (toShort _ + _), toShort_add, lenoff_toShort]
  rfl

theorem cutfrommessage_field {start : Bytes} {vals : List Int} {k pos len off : Nat} (length : vals[k]? = some (len : Int))
    (offset : vals[k + 2]? = some (toShort off)) (at_k : pos = start.length + 2 * k) (fits : off + len < 2 ^ 16) (rest : Bytes) :
    cutfrommessage (vals.foldl appendshort start ++ rest) pos = subString (vals.foldl appendshort start ++ rest) off len := by
  rw [cutfrommessage, decodeshort_field start length rest at_k, decodeshort_field start offset rest (by omega), toUShort_toShort,
    toUShort_of_lt (by omega), toUShort_of_lt (by omega)]

theorem subString_part {msg front part rest : Bytes} {off len : Nat} (whole : msg = front ++ part ++ rest)
    (start : off = front.length) (length : len = part.length) : subString msg off len = part := by
  subst whole start length
  exact subString_between front part rest

theorem cutfrommessage_part {k pos len off : Nat} (front part rest : Bytes)
    (length : (responseFields des nonce lmhash nthash domain host user)[k]? = some (len : Int))
    (offset : (responseFields des nonce lmhash nthash domain host user)[k + 2]? = some (toShort off)) (at_k : pos = 12 + 2 * k)
    (fits : off + len < 2 ^ 16) (whole : responseMsg des nonce lmhash nthash domain host user = front ++ part ++ rest)
    (before : front.length = off) (size : part.length = len) :
    cutfrommessage (responseMsg des nonce lmhash nthash domain host user) pos = part := by
  refine Eq.trans ?_ (subString_part whole before.symm size.symm)
  simp only [responseMsg, List.append_assoc]
  exact cutfrommessage_field length offset at_k fits _

theorem cutfrommessage_responseMsg (small : responseSize domain host user ≤ 65535) :
    cutfrommessage (responseMsg des nonce lmhash nthash domain host user) 12 = calculateNonceHash des lmhash nonce ∧
      cutfrommessage (responseMsg des nonce lmhash nthash domain host user) 20 = calculateNonceHash des nthash nonce ∧
      cutfrommessage (responseMsg des nonce lmhash nthash domain host user) 28 = makeUtf16Upper domain ∧
      cutfrommessage (responseMsg des nonce lmhash nthash domain host user) 36 = makeUtf16 user ∧
      cutfrommessage (responseMsg des nonce lmhash nthash domain host user) 44 = makeUtf16Upper host := by
  have fields := responseFields_eq des nonce lmhash nthash domain host user
  have head := length_responseHead des nonce lmhash nthash domain host user
  have cut := @cutfrommessage_part des nonce lmhash nthash domain host user
  have hash := fun keys => length_calculateNonceHash des keys nonce
  have domainSize := length_makeUtf16Upper domain
  have userSize := length_makeUtf16 user
  have hostSize := length_makeUtf16Upper host
  unfold responseSize at small
  refine ⟨?lm, ?nt, ?domain, ?user, ?host⟩
  case domain =>
    refine cut (k := 8) (responseHead des nonce lmhash nthash domain host user) _
      (makeUtf16 user ++ makeUtf16Upper host ++ calculateNonceHash des lmhash nonce ++ calculateNonceHash des nthash nonce)
      ?_ ?_ rfl ?_ ?_ head domainSize
    · rw [fields]; rfl
    · rw [fields]; rfl
    · omega
    · simp only [responseMsg, responseHead, List.append_assoc]
  case user =>
    refine @cut 12 _ _ (64 + 2 * domain.length)
      (responseHead des nonce lmhash nthash domain host user ++ makeUtf16Upper domain) _
      (makeUtf16Upper host ++ calculateNonceHash des lmhash nonce ++ calculateNonceHash des nthash nonce)
      ?_ ?_ rfl ?_ ?_ ?_ userSize
    · rw [fields]; rfl
    · rw [fields]; rfl
    · omega
    · simp only [responseMsg, responseHead, List.append_assoc]
    · rw [List.length_append, head, domainSize]
  case host =>
    refine @cut 16 _ _ (64 + 2 * domain.length + 2 * user.length)
      (responseHead des nonce lmhash nthash domain host user ++ makeUtf16Upper domain ++ makeUtf16 user) _
      (calculateNonceHash des lmhash nonce ++ calculateNonceHash des nthash nonce) ?_ ?_ rfl ?_ ?_ ?_ hostSize
    · rw [fields]; rfl
    · rw [fields]; rfl
    · omega
    · simp only [responseMsg, responseHead, List.append_assoc]
    · rw [List.length_append, List.length_append, head, domainSize, userSize]
  case lm =>
    refine @cut 0 _ _ (64 + 2 * domain.length + 2 * user.length + 2 * host.length)
      (responseHead des nonce lmhash nthash domain host user ++ makeUtf16Upper domain ++ makeUtf16 user ++
        makeUtf16Upper host) _
      (calculateNonceHash des nthash nonce) ?_ ?_ rfl ?_ rfl ?_ (hash lmhash)
    · rw [fields]; rfl
    · rw [fields]; rfl
    · omega
    · rw [List.length_append, List.length_append, List.length_append, head, domainSize, userSize, hostSize]
  case nt =>
    refine @cut 4 _ _ (64 + 2 * domain.length + 2 * user.length + 2 * host.length + 24)
      (responseHead des nonce lmhash nthash domain host user ++ makeUtf16Upper domain ++ makeUtf16 user ++
        makeUtf16Upper host ++ calculateNonceHash des lmhash nonce) _ [] ?_ ?_ rfl ?_ (List.append_nil _).symm ?_ (hash nthash)
    · rw [fields]; rfl
    · rw [fields]; rfl
    · omega
    · rw [List.length_append, List.length_append, List.length_append, List.length_append, head, domainSize, userSize,
        hostSize, hash]

theorem decodeResponse_encodeResponse (small : responseSize domain host user ≤ 65535) :
    decodeResponse des (encodeResponse des nonce lmhash nthash domain host user).1 nonce lmhash nthash =
      some { domain := toUpper domain, host := toUpper host, user := user, result := true, asserts := true } := by
  obtain ⟨lm, nt, domainPart, userPart, hostPart⟩ := cutfrommessage_responseMsg des nonce lmhash nthash domain host user small
  have fields := responseFields_eq des nonce lmhash nthash domain host user
  obtain ⟨rest, whole⟩ : ∃ rest, responseMsg des nonce lmhash nthash domain host user =
      (responseFields des nonce lmhash nthash domain host user).foldl appendshort responseStart ++ rest :=
    ⟨_, by simp only [responseMsg, List.append_assoc]; rfl⟩
  have named : cstr (subString (responseMsg des nonce lmhash nthash domain host user) 0 7) = ascii "NTLMSSP" := by
    rw [whole]
    exact signature (by decide) rfl _ _
  have kind : (responseMsg des nonce lmhash nthash domain host user).getD 8 0 = 0x03 := by
    rw [whole]
    exact getD_start (by decide) _ _
  have flags : (responseMsg des nonce lmhash nthash domain host user).getD 60 0 = 0x01 ∧
      (responseMsg des nonce lmhash nthash domain host user).getD 61 0 = 0x82 := by
    have field : (responseFields des nonce lmhash nthash domain host user)[24]? = some 0x8201 := by
      rw [fields]
      rfl
    rw [whole]
    exact getD_field responseStart field rest rfl
  have size : decodeshort (responseMsg des nonce lmhash nthash domain host user) 56 = responseSize domain host user := by
    have field : (responseFields des nonce lmhash nthash domain host user)[22]? =
        some (toShort (responseSize domain host user : Nat)) := by
      rw [fields]
      rfl
    rw [whole]
    refine (decodeshort_field responseStart field rest rfl).trans ?_
    rw [toUShort_toShort, toUShort_of_lt (by omega)]
  rw [encodeResponse, decodeResponse, decodeBase64_makeBase64]
  simp only [named, kind, flags, size, length_responseMsg, lm, nt, domainPart, userPart, hostPart, makeUtf16Upper,
    stripUtf16_makeUtf16, beq_self_eq_true, Bool.and_self, if_true]

theorem encodeResponse_asserts (small : responseSize domain host user ≤ 65535) :
    (encodeResponse des nonce lmhash nthash domain host user).2 = true ↔ responseSize domain host user ≤ 32767 := by
  rw [encodeResponse, ← responseHead, length_responseHead, length_responseMsg, msglen_eq, beq_self_eq_true,
    Bool.true_and, beq_iff_eq, toShort_eq_iff (by omega)]
  omega

/-- Within 16 bits the assertions hold and the names and hashes come back. -/
def ResponseSurvives : Prop :=
  (responseMsg des nonce lmhash nthash domain host user).length ≤ 65535 →
    (encodeResponse des nonce lmhash nthash domain host user).2 = true ∧
      decodeResponse des (encodeResponse des nonce lmhash nthash domain host user).1 nonce lmhash nthash =
        some { domain := toUpper domain, host := toUpper host, user := user, result := true, asserts := true }

theorem responseSurvives_iff : ResponseSurvives des nonce lmhash nthash domain host user ↔
    responseSize domain host user ≤ 32767 ∨ 65535 < responseSize domain host user := by
  rw [ResponseSurvives, length_responseMsg]
  constructor
  · intro survives
    by_cases small : responseSize domain host user ≤ 65535
    · exact .inl ((encodeResponse_asserts des nonce lmhash nthash domain host user small).mp (survives small).1)
    · exact .inr (Nat.lt_of_not_le small)
  · intro bound small
    have short : responseSize domain host user ≤ 32767 := by omega
    exact ⟨(encodeResponse_asserts des nonce lmhash nthash domain host user small).mpr short,
      decodeResponse_encodeResponse des nonce lmhash nthash domain host user small⟩

end Response

/-- The messages survive the wire if and only if the response is not too long for a `short` and yet within
the 16 bits of the format. -/
theorem messages_survive_iff (des : Block → Block → Block) (nonce : Block) (lmhash nthash : Vector UInt8 21)
    (domain host user : Bytes) :
    (ClientSurvives domain host ∧ ResponseSurvives des nonce.toList lmhash.toList nthash.toList domain host user) ↔
      ¬(32768 ≤ 112 + 2 * (domain.length + user.length + host.length) ∧
        112 + 2 * (domain.length + user.length + host.length) ≤ 65535) := by
  rw [responseSurvives_iff, responseSize]
  constructor
  · rintro ⟨-, bound⟩
    omega
  · intro bound
    exact ⟨clientSurvives domain host, by omega⟩

def longDomain : Bytes := List.replicate 16328 65

theorem longDomain_fails : longDomain.length = 16328 ∧
    ∀ (des : Block → Block → Block) (nonce : Block) (lmhash nthash : Vector UInt8 21),
      msglen longDomain [] [] = -32768 ∧ ¬ResponseSurvives des nonce.toList lmhash.toList nthash.toList longDomain [] [] := by
  have length : longDomain.length = 16328 := List.length_replicate
  refine ⟨length, fun des nonce lmhash nthash => ⟨?_, ?_⟩⟩
  · rw [msglen_eq, responseSize, length]
    decide
  · rw [responseSurvives_iff, responseSize, length]
    decide

end Coast.Security.NTLMCoder
