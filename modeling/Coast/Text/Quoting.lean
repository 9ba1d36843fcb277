import Coast.Base.Number

/-!
# The input stream and quoted strings

A stream is the text that is left and whether a read has failed. `IntPrintOn` masks what is not
printable, `IntReadFrom` accepts more than that: octal codes, masked line breaks, unknown escapes.
-/

namespace Coast

structure InputContext where
  rest : Bytes
  good : Bool := true
  deriving DecidableEq

namespace InputContext

/-- `Get`; `none` is a failed read, which sets the character to 0 and the stream to bad. -/
def get (is : InputContext) : Option UInt8 × InputContext :=
  match is.good, is.rest with
  | true, c :: cs => (some c, ⟨cs, true⟩)
  | _, rest => (none, ⟨rest, false⟩)

/-- `istream::get(c)`, which leaves `c` as it is when it fails. -/
def getInto (is : InputContext) (c : UInt8) : UInt8 × InputContext := (is.get.1.getD c, is.get.2)

def putback (is : InputContext) (c : UInt8) : InputContext := if is.good then ⟨c :: is.rest, true⟩ else is

def read (is : InputContext) (length : Nat) : Bytes × InputContext :=
  if is.good then (is.rest.take length, ⟨is.rest.drop length, decide (length ≤ is.rest.length)⟩) else ([], is)

@[simp] theorem get_cons (c : UInt8) (cs : Bytes) : get ⟨c :: cs, true⟩ = (some c, ⟨cs, true⟩) := rfl

@[simp] theorem get_nil : get ⟨[], true⟩ = (none, ⟨[], false⟩) := rfl

@[simp] theorem getInto_cons (c d : UInt8) (cs : Bytes) : getInto ⟨c :: cs, true⟩ d = (c, ⟨cs, true⟩) := rfl

@[simp] theorem putback_good (c : UInt8) (cs : Bytes) : putback ⟨cs, true⟩ c = ⟨c :: cs, true⟩ := rfl

@[simp] theorem putback_bad (c : UInt8) (cs : Bytes) : putback ⟨cs, false⟩ c = ⟨cs, false⟩ := rfl

end InputContext

/-! ### Writing -/

def hexDigit (n : UInt8) : UInt8 := if n < 10 then n + 48 else n + 55

def maskChar (quote c : UInt8) : Bytes :=
  if isprint c then
    if c == quote || c == '\\'.toUInt8 then ['\\'.toUInt8, c] else [c]
  else if c == '\n'.toUInt8 then ['\\'.toUInt8, 'n'.toUInt8]
  else ['\\'.toUInt8, 'x'.toUInt8, hexDigit (c >>> 4 &&& 15), hexDigit (c &&& 15)]

/-- `String::IntPrintOn` with a quote character. -/
def intPrintOn (text : Bytes) (quote : UInt8 := '"'.toUInt8) : Bytes :=
  quote :: text.flatMap (maskChar quote) ++ [quote]

/-! ### Reading -/

def hexValue (c : UInt8) : UInt8 := if isdigit c then c - 48 else if 97 ≤ c then c - 87 else c - 55

/-- `AppendTwoHexAsChar` for two hexadecimal digits. -/
def twoHexAsChar (high low : UInt8) : UInt8 := 16 * hexValue high + hexValue low

def isOctal (c : UInt8) : Bool := 48 ≤ c && c ≤ 55

/-- What follows `\x`. At the end of the input the source looks at a byte it never set, here 0. -/
def readHexCode (text : Bytes) (is : InputContext) : Bytes × InputContext :=
  let (high, is) := is.getInto 0
  if isxdigit high then
    let (low, is) := is.getInto 0
    if isxdigit low then (text ++ [twoHexAsChar high low], is)
    else (text ++ [twoHexAsChar '0'.toUInt8 high], is.putback low)
  else (text ++ ['\\'.toUInt8, 'x'.toUInt8], is.putback high)

def readOctalCode (text : Bytes) (c : UInt8) (is : InputContext) : Bytes × InputContext :=
  let value := c - 48
  let (c, is) := is.getInto c
  if isOctal c then
    let value := value * 8 + (c - 48)
    let (c, is) := is.getInto c
    if isOctal c then (text ++ [value * 8 + (c - 48)], is) else (text ++ [value], is.putback c)
  else (text ++ [value], is.putback c)

/-- The characters after a backslash; the number counts the line breaks. -/
def readMasked (quote : UInt8) (text : Bytes) (is : InputContext) : Bytes × Nat × InputContext :=
  let (c, is) := is.getInto '\\'.toUInt8
  if c == '\\'.toUInt8 || c == quote then (text ++ [c], 0, is)
  else if c == 'x'.toUInt8 then ((readHexCode text is).1, 0, (readHexCode text is).2)
  else if isOctal c then ((readOctalCode text c is).1, 0, (readOctalCode text c is).2)
  else if c == 'n'.toUInt8 then (text ++ ['\n'.toUInt8], 0, is)
  else if c == 'r'.toUInt8 then (text ++ ['\r'.toUInt8], 0, is)
  else if c == '\r'.toUInt8 then
    let (d, is) := is.getInto c
    (text, 1, if d == '\n'.toUInt8 then is else is.putback d)
  else if c == '\n'.toUInt8 then (text, 1, is)
  else (text ++ ['\\'.toUInt8, c], 0, is)

def joinLineBreak (c : UInt8) (is : InputContext) : UInt8 × InputContext :=
  if c == '\r'.toUInt8 then
    let (d, is) := is.getInto c
    ('\n'.toUInt8, if d == '\n'.toUInt8 then is else is.putback d)
  else (c, is)

/-- The loop of `IntReadFrom`: the text, the line breaks that were read and the stream. The count is
negative if a line break ended the string. -/
def intReadLoop (quote : UInt8) : Nat → Bytes → Nat → InputContext → Bytes × Int × InputContext
  | 0, text, breaks, is => (text, breaks, is)
  | fuel + 1, text, breaks, is =>
    match is.get with
    | (none, is) => (text, breaks, is)
    | (some c, is) =>
      if c == quote then (text, breaks, is)
      else if c == '\\'.toUInt8 then
        let (text, n, is) := readMasked quote text is
        intReadLoop quote fuel text (breaks + n) is
      else
        let (c, is) := joinLineBreak c is
        if c == '\n'.toUInt8 then (text, -(breaks + 1), is) else intReadLoop quote fuel (text ++ [c]) breaks is

/-- `String::IntReadFrom` with a quote character, which the caller has left on the stream. -/
def intReadFrom (quote : UInt8) (is : InputContext) : Bytes × Int × InputContext :=
  match is.get with
  | (none, is) => ([], 0, is)
  | (some _, is) => intReadLoop quote (is.rest.length + 1) [] 0 is

/-! ### A quoted string is read back -/

theorem hexCode_byte (c : UInt8) :
    isxdigit (hexDigit (c >>> 4 &&& 15)) = true ∧ isxdigit (hexDigit (c &&& 15)) = true ∧
      twoHexAsChar (hexDigit (c >>> 4 &&& 15)) (hexDigit (c &&& 15)) = c := by
  exact forall_byte (by decide) c

theorem print_not_break {c : UInt8} (printable : isprint c = true) :
    (c == '\r'.toUInt8) = false ∧ (c == '\n'.toUInt8) = false := by
  revert printable
  exact forall_byte (by decide) c

theorem intReadLoop_plain {quote c : UInt8} (fuel : Nat) (text : Bytes) (breaks : Nat) (rest : Bytes)
    (unquoted : (c == quote) = false) (unmasked : (c == '\\'.toUInt8) = false) (cr : (c == '\r'.toUInt8) = false)
    (lf : (c == '\n'.toUInt8) = false) :
    intReadLoop quote (fuel + 1) text breaks ⟨c :: rest, true⟩ = intReadLoop quote fuel (text ++ [c]) breaks ⟨rest, true⟩ := by
  simp [intReadLoop, joinLineBreak, unquoted, unmasked, cr, lf]

theorem intReadLoop_masked {quote : UInt8} (fuel : Nat) (text : Bytes) (breaks : Nat) (rest : Bytes)
    (other : ('\\'.toUInt8 == quote) = false) :
    intReadLoop quote (fuel + 1) text breaks ⟨'\\'.toUInt8 :: rest, true⟩ =
      intReadLoop quote fuel (readMasked quote text ⟨rest, true⟩).1 (breaks + (readMasked quote text ⟨rest, true⟩).2.1)
        (readMasked quote text ⟨rest, true⟩).2.2 := by
  simp [intReadLoop, other]

theorem intReadLoop_maskChar (fuel : Nat) (text : Bytes) (breaks : Nat) (c : UInt8) (rest : Bytes) :
    intReadLoop '"'.toUInt8 (fuel + 1) text breaks ⟨maskChar '"'.toUInt8 c ++ rest, true⟩ =
      intReadLoop '"'.toUInt8 fuel (text ++ [c]) breaks ⟨rest, true⟩ := by
  rw [maskChar]
  split
  · rename_i printable
    obtain ⟨cr, lf⟩ := print_not_break printable
    split
    · rename_i special
      rw [List.cons_append, intReadLoop_masked fuel text breaks _ (by decide)]
      have same : (c == '\\'.toUInt8 || c == '"'.toUInt8) = true := by rw [Bool.or_comm]; exact special
      simp only [readMasked, List.cons_append, List.nil_append, InputContext.getInto_cons, same, if_true, Nat.add_zero]
    · rename_i special
      rw [Bool.not_eq_true, Bool.or_eq_false_iff] at special
      exact intReadLoop_plain fuel text breaks rest special.1 special.2 cr lf
  · split
    · rename_i newline
      rw [eq_of_beq newline]
      exact intReadLoop_masked fuel text breaks _ (by decide)
    · obtain ⟨high, low, value⟩ := hexCode_byte c
      rw [List.cons_append, intReadLoop_masked fuel text breaks _ (by decide)]
      have code : readHexCode text ⟨hexDigit (c >>> 4 &&& 15) :: hexDigit (c &&& 15) :: rest, true⟩ =
          (text ++ [c], ⟨rest, true⟩) := by
        simp only [readHexCode, InputContext.getInto_cons, high, low, value, if_true]
      have masked : readMasked '"'.toUInt8 text
          ⟨'x'.toUInt8 :: hexDigit (c >>> 4 &&& 15) :: hexDigit (c &&& 15) :: rest, true⟩ = (text ++ [c], 0, ⟨rest, true⟩) :=
        congrArg (fun r => (r.1, 0, r.2)) code
      simp only [List.cons_append, List.nil_append, masked, Nat.add_zero]

theorem intReadLoop_string (s text : Bytes) (fuel : Nat) (enough : s.length < fuel) (rest : Bytes) :
    intReadLoop '"'.toUInt8 fuel text 0 ⟨s.flatMap (maskChar '"'.toUInt8) ++ '"'.toUInt8 :: rest, true⟩ =
      (text ++ s, 0, ⟨rest, true⟩) := by
  induction s generalizing text fuel with
  | nil =>
    obtain ⟨fuel, rfl⟩ := Nat.exists_eq_succ_of_ne_zero (Nat.ne_of_gt enough)
    simp [intReadLoop]
  | cons c s ih =>
    obtain ⟨fuel, rfl⟩ := Nat.exists_eq_succ_of_ne_zero (Nat.ne_of_gt (Nat.lt_of_le_of_lt (Nat.zero_le _) enough))
    rw [List.flatMap_cons, List.append_assoc, intReadLoop_maskChar, ih _ _ (Nat.lt_of_succ_lt_succ enough),
      List.append_assoc, List.singleton_append]

theorem length_le_flatMap_mask (quote : UInt8) (s : Bytes) : s.length ≤ (s.flatMap (maskChar quote)).length := by
  induction s with
  | nil => exact Nat.le_refl 0
  | cons c s ih =>
    have some : 1 ≤ (maskChar quote c).length := by
      rw [maskChar]
      split
      · split <;> simp
      · split <;> simp
    rw [List.flatMap_cons, List.length_append, List.length_cons]
    omega

theorem intReadFrom_intPrintOn (s rest : Bytes) :
    intReadFrom '"'.toUInt8 ⟨intPrintOn s ++ rest, true⟩ = (s, 0, ⟨rest, true⟩) := by
  have masked := length_le_flatMap_mask '"'.toUInt8 s
  rw [intPrintOn, List.cons_append, List.cons_append, List.append_assoc, intReadFrom]
  simp only [InputContext.get_cons, List.cons_append, List.nil_append]
  rw [intReadLoop_string s [] _ (by rw [List.length_append]; omega), List.nil_append]

end Coast
