import Coast.Http.URLUtils

/-!
# Escaping for URLs and for HTML

Both encoders escape byte by byte. Neither escape can run into what follows it: the one for URLs has a
fixed length, the one for HTML ends with a semicolon.
-/

namespace Coast.Http

/-! ### URLs -/

def convert (str : Bytes) : Bytes := str.map fun c => if c = '+'.toUInt8 then ' '.toUInt8 else c

/-- `urlDecode` with its flag. -/
def urlDecodeWith (replacePlusByBlank : Bool) (instr : Bytes) : Bytes × URLCheckStatus :=
  let str := if replacePlusByBlank then convert instr else instr
  if instr.contains '%'.toUInt8 then urlDecodeFrom 0 str else (str, .eOk)

/-- `%` and `AppendAsHex`. -/
def escapeChar (c : UInt8) : Bytes := ['%'.toUInt8, hexDigit (c >>> 4 &&& 15), hexDigit (c &&& 15)]

/-- `DoUrlEncode` without `doCheck`. -/
def urlEncode (str exclusionSet : Bytes) : Bytes :=
  str.flatMap fun c => if needsEscape c && !exclusionSet.contains c then escapeChar c else [c]

theorem urlDecode_eq_with (instr : Bytes) : urlDecode instr = urlDecodeWith false instr := rfl

theorem convert_append (a b : Bytes) : convert (a ++ b) = convert a ++ convert b := List.map_append

theorem length_convert (str : Bytes) : (convert str).length = str.length := List.length_map _

theorem convert_eq_self {str : Bytes} : convert str = str ↔ '+'.toUInt8 ∉ str := by
  induction str with
  | nil => simp [convert]
  | cons c str ih =>
    simp only [convert, List.map_cons, List.cons.injEq, List.mem_cons, not_or] at ih ⊢
    rw [ih]
    split
    · rename_i plus
      exact ⟨fun same => absurd (same.1.trans plus) (by decide), fun other => absurd plus.symm other.1⟩
    · rename_i other
      exact and_congr_left' ⟨fun _ => fun plus => other plus.symm, fun _ => rfl⟩

theorem contains_percent_convert (str : Bytes) : (convert str).contains '%'.toUInt8 = str.contains '%'.toUInt8 := by
  induction str with
  | nil => rfl
  | cons c str ih =>
    rw [convert, List.map_cons, ← convert, List.contains_cons, List.contains_cons, ih]
    split
    · rename_i plus
      rw [plus]
      rfl
    · rfl

theorem urlDecodeFrom_of_no_percent {text : Bytes} (none : text.contains '%'.toUInt8 = false) :
    urlDecodeFrom 0 text = (text, .eOk) := by
  induction text with
  | nil => rfl
  | cons c rest ih =>
    rw [List.contains_cons, Bool.or_eq_false_iff] at none
    have plain : c ≠ '%'.toUInt8 := fun eq => by simp [eq] at none
    rw [urlDecodeFrom, if_neg plain, ih none.2]

theorem urlDecodeWith_eq (replacePlusByBlank : Bool) (instr : Bytes) :
    urlDecodeWith replacePlusByBlank instr = urlDecodeFrom 0 (if replacePlusByBlank then convert instr else instr) := by
  rw [urlDecodeWith]
  split
  · rfl
  · rename_i shortcut
    rw [Bool.not_eq_true] at shortcut
    have none : (if replacePlusByBlank then convert instr else instr).contains '%'.toUInt8 = false := by
      cases replacePlusByBlank
      · exact shortcut
      · exact (contains_percent_convert instr).trans shortcut
    rw [urlDecodeFrom_of_no_percent none]

theorem xdigit_ne {c d : UInt8} (digit : isxdigit c = true) (other : isxdigit d = false) : c ≠ d :=
  fun eq => by simp [eq, other] at digit

theorem decodeEscape_hex {high low : UInt8} (h : isxdigit high = true) (l : isxdigit low = true) (rest : Bytes) :
    decodeEscape (high :: low :: rest) = ⟨[twoHexAsChar high low], 2, .eOk⟩ := by
  have lower : high ≠ 'u'.toUInt8 := xdigit_ne h (by decide)
  have upper : high ≠ 'U'.toUInt8 := xdigit_ne h (by decide)
  simp [decodeEscape, lower, upper, h, l]

theorem urlDecodeFrom_escapeChar (c : UInt8) (rest : Bytes) :
    (urlDecodeFrom 0 (escapeChar c ++ rest)).1 = c :: (urlDecodeFrom 0 rest).1 := by
  obtain ⟨high, low, value⟩ := hexCode_byte c
  rw [escapeChar, List.cons_append, List.cons_append, List.cons_append, List.nil_append, urlDecodeFrom_percent,
    decodeEscape_hex high low, value]
  rfl

theorem convert_escapeChar (c : UInt8) : convert (escapeChar c) = escapeChar c := by
  obtain ⟨high, low, -⟩ := hexCode_byte c
  have mark : '+'.toUInt8 ≠ '%'.toUInt8 := by decide
  rw [convert_eq_self]
  simp [escapeChar, mark, (xdigit_ne high (show isxdigit '+'.toUInt8 = false by decide)).symm,
    (xdigit_ne low (show isxdigit '+'.toUInt8 = false by decide)).symm]

theorem urlDecodeFrom_urlEncode (s : Bytes) : (urlDecodeFrom 0 (convert (urlEncode s []))).1 = convert s := by
  induction s with
  | nil => rfl
  | cons c s ih =>
    rw [urlEncode, List.flatMap_cons, ← urlEncode, convert_append]
    by_cases special : needsEscape c = true
    · have plus : c ≠ '+'.toUInt8 := fun eq => by rw [eq] at special; exact absurd special (by decide)
      rw [if_pos (by simp [special]), convert_escapeChar, urlDecodeFrom_escapeChar, ih]
      simp [convert, plus]
    · have plain : c ≠ '%'.toUInt8 := fun eq => special (by rw [eq]; decide)
      have read : (if c = '+'.toUInt8 then ' '.toUInt8 else c) ≠ '%'.toUInt8 := by
        split
        · decide
        · exact plain
      rw [if_neg (by simp [special])]
      simp only [convert, List.map_cons, List.map_nil, List.cons_append, List.nil_append] at ih ⊢
      rw [urlDecodeFrom_plain read, ih]

/-- The encoder leaves plus signs as they are, and the decoder takes them for blanks. -/
theorem urlDecode_urlEncode (s : Bytes) : (urlDecodeWith true (urlEncode s [])).1 = convert s ∧
    ((urlDecodeWith true (urlEncode s [])).1 = s ↔ '+'.toUInt8 ∉ s) := by
  have decoded : (urlDecodeWith true (urlEncode s [])).1 = convert s := by
    rw [urlDecodeWith_eq, if_pos rfl, urlDecodeFrom_urlEncode]
  exact ⟨decoded, by rw [decoded, convert_eq_self]⟩

theorem urlDecode_plus : (urlDecodeWith true (urlEncode (ascii "+") [])).1 ≠ ascii "+" := by
  decide

/-! ### HTML -/

def extractDecimal (body : Bytes) : Bytes :=
  if digitsValue 10 body ≤ 255 then [UInt8.ofNat (digitsValue 10 body)] else []

/-- What is between `&#` and the semicolon, for each of the lengths that `DecodeSpecialHTMLChars` knows. -/
def decodeEntity (body : Bytes) : Bytes :=
  let hexMark (x : UInt8) := x == 'x'.toUInt8 || x == 'X'.toUInt8
  match body with
  | [x, a, b, high, low] =>
    if hexMark x && isxdigit a && isxdigit b && isxdigit high && isxdigit low then
      if a == '0'.toUInt8 && b == '0'.toUInt8 then [twoHexAsChar high low] else []
    else []
  | [x, a, high, low] =>
    if hexMark x && isxdigit a && isxdigit high && isxdigit low then
      if a == '0'.toUInt8 then [twoHexAsChar high low] else []
    else if body.all isdigit then extractDecimal body else []
  | [x, high, low] =>
    if hexMark x && isxdigit high && isxdigit low then [twoHexAsChar high low]
    else if body.all isdigit then extractDecimal body else []
  | [x, low] =>
    if hexMark x && isxdigit low then [twoHexAsChar '0'.toUInt8 low]
    else if body.all isdigit then extractDecimal body else []
  | [_] => if body.all isdigit then extractDecimal body else []
  | _ => []

/-- At the character `c` with `rest` behind it. The distance to the semicolon counts from `c`. -/
def decodeSpecialHTMLChars (c : UInt8) (rest : Bytes) : Escape :=
  match (c :: rest).findIdx? (· == ';'.toUInt8) with
  | none => ⟨[c], 0, .eOk⟩
  | some delta =>
    if c != '&'.toUInt8 || rest.head? != some '#'.toUInt8 || 7 < delta then ⟨[c], 0, .eOk⟩
    else ⟨decodeEntity ((rest.take (delta - 1)).drop 1), delta, .eOk⟩

/-- `moves` is how many bytes the last entity still covers. -/
def htmlDecodeFrom : Nat → Bytes → Bytes
  | _, [] => []
  | moves + 1, _ :: rest => htmlDecodeFrom moves rest
  | 0, c :: rest =>
    (decodeSpecialHTMLChars c rest).out ++ htmlDecodeFrom (decodeSpecialHTMLChars c rest).moves rest

/-- `HTMLDecode`, which leaves a text without an ampersand alone. -/
def htmlDecode (instr : Bytes) : Bytes := if instr.contains '&'.toUInt8 then htmlDecodeFrom 0 instr else instr

def htmlEscape (toEscape : Bytes) : Bytes :=
  toEscape.flatMap fun work => if isalnum work then [work] else ascii "&#" ++ decimalText work.toNat ++ ascii ";"

theorem decodeSpecialHTMLChars_plain {c : UInt8} (plain : c ≠ '&'.toUInt8) (rest : Bytes) :
    decodeSpecialHTMLChars c rest = ⟨[c], 0, .eOk⟩ := by
  rw [decodeSpecialHTMLChars]
  split
  · rfl
  · rw [if_pos (by simp [plain])]

theorem htmlDecodeFrom_plain {c : UInt8} (plain : c ≠ '&'.toUInt8) (rest : Bytes) :
    htmlDecodeFrom 0 (c :: rest) = c :: htmlDecodeFrom 0 rest := by
  rw [htmlDecodeFrom, decodeSpecialHTMLChars_plain plain]
  rfl

theorem htmlDecodeFrom_of_no_ampersand {text : Bytes} (none : text.contains '&'.toUInt8 = false) :
    htmlDecodeFrom 0 text = text := by
  induction text with
  | nil => rfl
  | cons c rest ih =>
    rw [List.contains_cons, Bool.or_eq_false_iff] at none
    have plain : c ≠ '&'.toUInt8 := fun eq => by simp [eq] at none
    rw [htmlDecodeFrom_plain plain, ih none.2]

theorem htmlDecode_eq (instr : Bytes) : htmlDecode instr = htmlDecodeFrom 0 instr := by
  rw [htmlDecode]
  split
  · rfl
  · rename_i shortcut
    rw [Bool.not_eq_true] at shortcut
    rw [htmlDecodeFrom_of_no_ampersand shortcut]

theorem htmlDecodeFrom_skip (covered rest : Bytes) : htmlDecodeFrom covered.length (covered ++ rest) = htmlDecodeFrom 0 rest := by
  induction covered with
  | nil => rfl
  | cons c covered ih => exact ih

theorem decodeSpecialHTMLChars_entity {body : Bytes} (inner : ';'.toUInt8 ∉ body) (short : body.length ≤ 5) (rest : Bytes) :
    decodeSpecialHTMLChars '&'.toUInt8 ('#'.toUInt8 :: body ++ ';'.toUInt8 :: rest) =
      ⟨decodeEntity body, body.length + 2, .eOk⟩ := by
  have others : body.findIdx? (· == ';'.toUInt8) = none := by
    rw [List.findIdx?_eq_none_iff]
    intro c mem
    exact beq_eq_false_iff_ne.mpr fun eq => inner (eq ▸ mem)
  have distance : ('&'.toUInt8 :: '#'.toUInt8 :: (body ++ ';'.toUInt8 :: rest)).findIdx? (· == ';'.toUInt8) =
      some (body.length + 2) := by
    have marks : ('&'.toUInt8 == ';'.toUInt8) = false ∧ ('#'.toUInt8 == ';'.toUInt8) = false := by decide
    simp [List.findIdx?_cons, List.findIdx?_append, others, marks]
  have near : ('&'.toUInt8 != '&'.toUInt8 || ('#'.toUInt8 :: (body ++ ';'.toUInt8 :: rest)).head? != some '#'.toUInt8 ||
      decide (7 < body.length + 2)) = false := by
    simp
    omega
  rw [List.cons_append, decodeSpecialHTMLChars, distance]
  simp only [near, Bool.false_eq_true, if_false]
  simp

theorem htmlDecodeFrom_entity {body : Bytes} (inner : ';'.toUInt8 ∉ body) (short : body.length ≤ 5) (rest : Bytes) :
    htmlDecodeFrom 0 (ascii "&#" ++ body ++ ';'.toUInt8 :: rest) = decodeEntity body ++ htmlDecodeFrom 0 rest := by
  have start : ascii "&#" ++ body ++ ';'.toUInt8 :: rest =
      '&'.toUInt8 :: ('#'.toUInt8 :: body ++ ';'.toUInt8 :: rest) := rfl
  have skipped := htmlDecodeFrom_skip ('#'.toUInt8 :: body ++ [';'.toUInt8]) rest
  rw [List.append_assoc, List.singleton_append] at skipped
  rw [start, htmlDecodeFrom, decodeSpecialHTMLChars_entity inner short, ← skipped]
  simp

theorem decodeEntity_digits {body : Bytes} (digits : ∀ c ∈ body, isdigit c = true) (some : body ≠ [])
    (short : body.length ≤ 4) : decodeEntity body = extractDecimal body := by
  have all : body.all isdigit = true := List.all_eq_true.mpr digits
  have mark : ∀ x ∈ body, (x == 'x'.toUInt8 || x == 'X'.toUInt8) = false := by
    intro x mem
    have digit := digits x mem
    rw [Bool.or_eq_false_iff, beq_eq_false_iff_ne, beq_eq_false_iff_ne]
    exact ⟨fun eq => absurd (eq ▸ digit) (by decide), fun eq => absurd (eq ▸ digit) (by decide)⟩
  match body, some, short with
  | [a], _, _ => simp only [decodeEntity, all, if_true]
  | [a, b], _, _ => simp only [decodeEntity, all, mark a (by simp), Bool.false_and, Bool.false_eq_true, if_false, if_true]
  | [a, b, c], _, _ => simp only [decodeEntity, all, mark a (by simp), Bool.false_and, Bool.false_eq_true, if_false, if_true]
  | [a, b, c, d], _, _ => simp only [decodeEntity, all, mark a (by simp), Bool.false_and, Bool.false_eq_true, if_false, if_true]

theorem length_decimalText_byte (c : UInt8) : (decimalText c.toNat).length ≤ 3 := by
  have small := c.toNat_lt
  by_cases one : c.toNat < 10
  · simp [decimalText_lt one]
  · rw [decimalText_ge (by omega), decimalText_lt (Nat.mod_lt _ (by decide))]
    by_cases two : c.toNat / 10 < 10
    · simp [decimalText_lt two]
    · rw [decimalText_ge (by omega), decimalText_lt (Nat.mod_lt _ (by decide)), decimalText_lt (n := c.toNat / 10 / 10) (by omega)]
      simp

theorem decodeEntity_decimalText (c : UInt8) : decodeEntity (decimalText c.toNat) = [c] := by
  have small := c.toNat_lt
  have short := length_decimalText_byte c
  have some : decimalText c.toNat ≠ [] := by
    obtain ⟨d, digits, shape, -⟩ := decimalText_cons c.toNat
    rw [shape]
    exact List.cons_ne_nil d digits
  rw [decodeEntity_digits (isdigit_of_mem_decimalText (n := c.toNat)) some (by omega), extractDecimal, digitsValue_decimalText,
    if_pos (by omega), UInt8.ofNat_toNat]

/-- What was escaped for HTML is decoded again. -/
theorem htmlDecode_htmlEscape (s : Bytes) : htmlDecode (htmlEscape s) = s := by
  rw [htmlDecode_eq]
  induction s with
  | nil => rfl
  | cons c s ih =>
    rw [htmlEscape, List.flatMap_cons, ← htmlEscape]
    split
    · rename_i plain
      have kept : c ≠ '&'.toUInt8 := fun eq => by rw [eq] at plain; exact absurd plain (by decide)
      rw [List.singleton_append, htmlDecodeFrom_plain kept, ih]
    · have short := length_decimalText_byte c
      have inner : ';'.toUInt8 ∉ decimalText c.toNat := fun mem =>
        absurd (isdigit_of_mem_decimalText _ mem) (by decide)
      have whole : ascii "&#" ++ decimalText c.toNat ++ ascii ";" ++ htmlEscape s =
          ascii "&#" ++ decimalText c.toNat ++ ';'.toUInt8 :: htmlEscape s := by
        rw [List.append_assoc _ (ascii ";")]
        rfl
      rw [whole, htmlDecodeFrom_entity inner (by omega), decodeEntity_decimalText, ih]
      rfl

example : htmlDecode (ascii "a&#x4A;&#0065;&#300;&#038;#39;b") = ascii "aJA&#39;b" := by decide

end Coast.Http
