import Coast.Text.Quoting

/-!
# Tokens

The scanner of the text format. It reads one character ahead and puts it back; at the end of the input
the character is 0 and putting it back has no effect.
-/

namespace Coast

inductive Tok where
  | lbrace
  | rbrace
  | star
  | nullSym
  | decimalNumber
  | octalNumber
  | hexNumber
  | floatNumber
  | string
  | binaryBuf
  | index
  | ref
  | include
  | object
  | stringError
  | error
  deriving DecidableEq

structure AnythingToken where
  fToken : Tok
  fText : Bytes
  deriving DecidableEq

structure Scan where
  fToken : Tok
  fText : Bytes
  c : UInt8
  context : InputContext
  deriving DecidableEq

namespace AnythingToken

def isNameDelimiter (c : UInt8) : Bool :=
  isspace c || c == '/'.toUInt8 || c == '#'.toUInt8 || c == '&'.toUInt8 || c == '*'.toUInt8 || c == '{'.toUInt8 ||
    c == '}'.toUInt8 || c == '['.toUInt8 || c == '"'.toUInt8 || c == 0 || c == '%'.toUInt8 || c == '!'.toUInt8

/-- `while (context.Get(c))` up to the first character that is not wanted, which is consumed and
returned; 0 at the end of the input. -/
def collect (wanted : UInt8 → Bool) : Bytes → Bytes → Bytes × UInt8 × InputContext
  | text, [] => (text, 0, ⟨[], false⟩)
  | text, c :: cs => if wanted c then collect wanted (text ++ [c]) cs else (text, c, ⟨cs, true⟩)

def collectFrom (wanted : UInt8 → Bool) (context : InputContext) (text : Bytes) : Bytes × UInt8 × InputContext :=
  if context.good then collect wanted text context.rest else (text, 0, context)

def doReadName (context : InputContext) (text : Bytes) (firstchar : UInt8) : Scan :=
  let (text, c, context) := collectFrom (fun c => !isNameDelimiter c) context (text ++ [firstchar])
  ⟨.string, text, c, context⟩

def doReadDigits (context : InputContext) (text : Bytes) : Bytes × UInt8 × InputContext := collectFrom isdigit context text

def readSign (context : InputContext) (text : Bytes) (c : UInt8) : Bytes × UInt8 × InputContext :=
  if c == '+'.toUInt8 || c == '-'.toUInt8 then
    let (next, context) := context.get
    (text ++ [c], next.getD 0, context)
  else (text, c, context)

def readInteger (context : InputContext) (text : Bytes) (c : UInt8) : Bool × Bytes × UInt8 × InputContext :=
  if isdigit c then (true, doReadDigits context (text ++ [c])) else (false, text, c, context)

def readFraction (context : InputContext) (text : Bytes) (c : UInt8) : Bool × Bytes × UInt8 × InputContext :=
  if c == '.'.toUInt8 then (true, doReadDigits context (text ++ [c])) else (false, text, c, context)

/-- The flags say whether there is an `E` and whether digits follow it. -/
def readExponent (context : InputContext) (text : Bytes) (c : UInt8) :
    Bool × Bool × Bytes × UInt8 × InputContext :=
  if toupper c == 'E'.toUInt8 then
    let (next, context) := context.get
    let (text, c, context) := readSign context (text ++ [c]) (next.getD 0)
    (true, readInteger context text c)
  else (false, false, text, c, context)

def numberKind (intpart fraction echar exponent : Bool) : Tok :=
  if (!intpart && !fraction && !exponent) || (echar && !exponent) then .error
  else if fraction || exponent then .floatNumber
  else .decimalNumber

def doReadNumber (context : InputContext) (text : Bytes) (firstchar : UInt8) : Scan :=
  if context.good then
    let (text, c, context) := readSign context text firstchar
    let (intpart, text, c, context) := readInteger context text c
    let (fraction, text, c, context) := readFraction context text c
    let (echar, exponent, text, c, context) := readExponent context text c
    ⟨numberKind intpart fraction echar exponent, text, c, context⟩
  else ⟨numberKind (isdigit firstchar) false false false, text ++ [firstchar], 0, context⟩

def isDecimalMark (c : UInt8) : Bool :=
  c == '8'.toUInt8 || c == '9'.toUInt8 || c == '.'.toUInt8 || toupper c == 'E'.toUInt8

/-- The digits after `0x`; a name that only starts like a number gets its `0x` back. -/
def readHexDigits (saveXcase : UInt8) : Bytes → Bytes → Scan
  | text, [] => ⟨.hexNumber, text, 0, ⟨[], false⟩⟩
  | text, c :: cs =>
    if isxdigit c then readHexDigits saveXcase (text ++ [c]) cs
    else if !isNameDelimiter c then ⟨.hexNumber, '0'.toUInt8 :: saveXcase :: text, c, ⟨cs, true⟩⟩
    else ⟨.hexNumber, text, c, ⟨cs, true⟩⟩

def readOctalDigits : Bytes → Bytes → Scan
  | text, [] => ⟨.octalNumber, text, 0, ⟨[], false⟩⟩
  | text, c :: cs =>
    if isDecimalMark c then doReadNumber ⟨cs, true⟩ text c
    else if isOctal c then readOctalDigits (text ++ [c]) cs
    else ⟨.octalNumber, text, c, ⟨cs, true⟩⟩

def doReadOctalOrHex (context : InputContext) (text : Bytes) : Scan :=
  match context.get with
  | (none, context) => ⟨.octalNumber, text, 0, context⟩
  | (some c, context) =>
    if toupper c == 'X'.toUInt8 then readHexDigits c text context.rest
    else if isOctal c then readOctalDigits (text ++ ['0'.toUInt8, c]) context.rest
    else if isDecimalMark c then doReadNumber (context.putback c) text '0'.toUInt8
    else ⟨.octalNumber, text ++ ['0'.toUInt8], c, context⟩

/-- The stream must still hold the opening quote; the line count is not kept. -/
def doReadString (context : InputContext) (firstchar : UInt8) : AnythingToken × InputContext :=
  let (text, breaks, context) := intReadFrom firstchar (context.putback firstchar)
  (⟨if breaks < 0 then .stringError else .string, text⟩, context)

/-- `istream >> long`. -/
def extractLong (is : InputContext) : Int × InputContext :=
  let (negative, rest) := splitSign (is.rest.dropWhile isspace)
  let digits := rest.takeWhile isdigit
  let rest := rest.dropWhile isdigit
  let n := digits.foldl (fun n c => n * 10 + digitValue c) 0
  if digits.isEmpty then (0, ⟨rest, false⟩)
  else if negative then
    if n ≤ 2 ^ 63 then (-n, ⟨rest, !rest.isEmpty⟩) else (-2 ^ 63, ⟨rest, false⟩)
  else if n < 2 ^ 63 then (n, ⟨rest, !rest.isEmpty⟩) else (2 ^ 63 - 1, ⟨rest, false⟩)

/-- `while (']' != c && context.Get(c))`. -/
def skipToBracket (c : UInt8) (context : InputContext) : InputContext :=
  if c == ']'.toUInt8 then context else (collectFrom (fun c => c != ']'.toUInt8) context []).2.2

def doReadBinBuf (context : InputContext) : AnythingToken × InputContext :=
  let (length, is) := extractLong context
  let formatted := is.good
  let (c, is) := InputContext.get ⟨is.rest, true⟩
  if c.getD 0 == ';'.toUInt8 then
    let (text, is) := is.read length.toNat
    let (c, is) := is.get
    (⟨if formatted && (text.length : Int) == length && c.getD 0 == ']'.toUInt8 then .binaryBuf else .error, text⟩,
      skipToBracket (c.getD 0) is)
  else (⟨.error, []⟩, skipToBracket (c.getD 0) is)

def settle (scan : Scan) : AnythingToken × InputContext :=
  (⟨scan.fToken, scan.fText⟩, if scan.c == 0 then scan.context else scan.context.putback scan.c)

/-- The name or string after `/`, `%` or `!`. -/
def readMark (mark : Tok) (context : InputContext) : AnythingToken × InputContext :=
  match context.get with
  | (none, context) => (⟨.error, []⟩, context)
  | (some c, context) =>
    if c == '"'.toUInt8 then
      let (token, context) := doReadString context c
      (⟨if token.fText.length > 0 then mark else .error, token.fText⟩, context)
    else if !isNameDelimiter c then
      let (token, context) := settle (doReadName context [] c)
      (⟨if token.fText.length > 0 then mark else .error, token.fText⟩, context)
    else (⟨.error, []⟩, if c == 0 then context else context.putback c)

/-- An object pointer; if no number follows, everything up to white space belongs to the error. -/
def readObject (context : InputContext) : AnythingToken × InputContext :=
  let (_, c, context) := collectFrom isspace context []
  let scan := doReadNumber context [] c
  if scan.fToken = .decimalNumber then (⟨.object, scan.fText⟩, scan.context.putback scan.c)
  else if isspace scan.c then (⟨.error, scan.fText ++ [scan.c]⟩, scan.context)
  else
    let (text, c, context) := collectFrom (fun c => !isspace c) scan.context (scan.fText ++ [scan.c])
    (⟨.error, if isspace c then text ++ [c] else text⟩, context)

def numberOrName (scan : Scan) (invalid : Bool) : AnythingToken × InputContext :=
  if !isNameDelimiter scan.c || invalid then settle (doReadName scan.context scan.fText scan.c) else settle scan

/-- `SkipToEOL`, with the second character of a line break of two. -/
def skipToEOL (context : InputContext) : InputContext :=
  let (_, c, context) := collectFrom (fun c => c != '\n'.toUInt8 && c != '\r'.toUInt8) context []
  if c == '\n'.toUInt8 || c == '\r'.toUInt8 then
    match context.get with
    | (none, context) => context
    | (some crnl, context) =>
      if (c == '\n'.toUInt8 && crnl == '\r'.toUInt8) || (c == '\r'.toUInt8 && crnl == '\n'.toUInt8) then context
      else context.putback crnl
  else context

/-- The labels of the `switch` over the first character, its default branch split in three. -/
inductive First where
  | single (token : Tok)
  | object
  | mark (token : Tok)
  | quote
  | bracket
  | zero
  | number
  | comment
  | name
  | space
  | invalid
  deriving DecidableEq

def first (c : UInt8) : First :=
  if c == '{'.toUInt8 then .single .lbrace
  else if c == '}'.toUInt8 then .single .rbrace
  else if c == '*'.toUInt8 then .single .star
  else if c == '&'.toUInt8 then .object
  else if c == '/'.toUInt8 then .mark .index
  else if c == '%'.toUInt8 then .mark .ref
  else if c == '!'.toUInt8 then .mark .include
  else if c == '"'.toUInt8 then .quote
  else if c == '['.toUInt8 then .bracket
  else if c == '0'.toUInt8 then .zero
  else if c == '+'.toUInt8 || c == '-'.toUInt8 || c == '.'.toUInt8 || isdigit c then .number
  else if c == '#'.toUInt8 then .comment
  else if isalnum c || c == '_'.toUInt8 then .name
  else if isspace c then .space
  else .invalid

/-- The constructor of `AnythingToken`: one turn for every skipped character or comment. -/
def tokenLoop : Nat → InputContext → AnythingToken × InputContext
  | 0, context => (⟨.nullSym, []⟩, context)
  | fuel + 1, context =>
    match context.get with
    | (none, context) => (⟨.nullSym, []⟩, context)
    | (some c, context) =>
      match first c with
      | .single token => (⟨token, [c]⟩, context)
      | .object => readObject context
      | .mark token => readMark token context
      | .quote => doReadString context c
      | .bracket => doReadBinBuf context
      | .zero => numberOrName (doReadOctalOrHex context []) false
      | .number => numberOrName (doReadNumber context [] c) ((doReadNumber context [] c).fToken = .error)
      | .comment => tokenLoop fuel (skipToEOL context)
      | .name => settle (doReadName context [] c)
      | .space => tokenLoop fuel context
      | .invalid => (⟨.error, [c]⟩, context)

def next (context : InputContext) : AnythingToken × InputContext := tokenLoop (context.rest.length + 1) context

/-! ### Scanning a run of characters -/

theorem collect_run {wanted : UInt8 → Bool} {run : Bytes} (text : Bytes) (all : ∀ c ∈ run, wanted c = true) (rest : Bytes)
    (stop : wanted (rest.headD 0) = false) :
    collect wanted text (run ++ rest) = (text ++ run, rest.headD 0, ⟨rest.tail, !rest.isEmpty⟩) := by
  induction run generalizing text with
  | nil =>
    rcases rest with _ | ⟨d, rest⟩
    · simp [collect]
    · simp only [List.headD_cons] at stop
      simp [collect, stop]
  | cons c run ih =>
    rw [List.cons_append, collect, if_pos (all c (List.mem_cons_self ..)),
      ih (text ++ [c]) (fun d mem => all d (List.mem_cons_of_mem _ mem)), List.append_assoc, List.singleton_append]

def Delimited (rest : Bytes) : Prop := isNameDelimiter (rest.headD 0) = true ∧ rest.head? ≠ some 0

/-- The stream once `rest` has been looked at. -/
def lookedAt (rest : Bytes) : InputContext := ⟨rest, !rest.isEmpty⟩

theorem settle_rest (token : Tok) (text rest : Bytes) (text' : rest.head? ≠ some 0) :
    settle ⟨token, text, rest.headD 0, ⟨rest.tail, !rest.isEmpty⟩⟩ = (⟨token, text⟩, lookedAt rest) := by
  rcases rest with _ | ⟨d, rest⟩
  · rfl
  · have some : (d == 0) = false := by
      rw [beq_eq_false_iff_ne]
      intro zero
      exact text' (congrArg _ zero)
    simp [settle, lookedAt, some]

def endsNumber (d : UInt8) : Bool := !isdigit d && !(d == '.'.toUInt8) && !(toupper d == 'E'.toUInt8)

theorem doReadNumber_digits {c : UInt8} {digits : Bytes} (text : Bytes) (digit : isdigit c = true)
    (all : ∀ c ∈ digits, isdigit c = true) (rest : Bytes) (stop : endsNumber (rest.headD 0) = true) :
    doReadNumber ⟨digits ++ rest, true⟩ text c =
      ⟨.decimalNumber, text ++ c :: digits, rest.headD 0, ⟨rest.tail, !rest.isEmpty⟩⟩ := by
  obtain ⟨-, minus, plus⟩ := digit_not_mark digit
  simp only [endsNumber, Bool.and_eq_true, Bool.not_eq_true'] at stop
  obtain ⟨⟨digitStop, dot⟩, e⟩ := stop
  have run := collect_run (text ++ [c]) all rest digitStop
  simp only [doReadNumber, if_true, readSign, plus, minus, Bool.or_false, Bool.false_eq_true, if_false, readInteger, digit,
    doReadDigits, collectFrom, run, readFraction, dot, readExponent, e, List.append_assoc, List.singleton_append]
  rfl

theorem doReadNumber_sign {c : UInt8} (digit : isdigit c = true) (rest : Bytes) :
    doReadNumber ⟨c :: rest, true⟩ [] '-'.toUInt8 = doReadNumber ⟨rest, true⟩ ['-'.toUInt8] c := by
  obtain ⟨-, minus, plus⟩ := digit_not_mark digit
  rw [doReadNumber, doReadNumber]
  simp only [if_true, readSign, plus, minus]
  rfl

theorem doReadNumber_minus {c : UInt8} {digits : Bytes} (digit : isdigit c = true) (all : ∀ c ∈ digits, isdigit c = true)
    (rest : Bytes) (stop : endsNumber (rest.headD 0) = true) :
    doReadNumber ⟨c :: digits ++ rest, true⟩ [] '-'.toUInt8 =
      ⟨.decimalNumber, '-'.toUInt8 :: c :: digits, rest.headD 0, ⟨rest.tail, !rest.isEmpty⟩⟩ :=
  (doReadNumber_sign digit (digits ++ rest)).trans (doReadNumber_digits ['-'.toUInt8] digit all rest stop)

theorem delimiter_ends {d : UInt8} (delimiter : isNameDelimiter d = true) :
    endsNumber d = true ∧ (toupper d == 'X'.toUInt8) = false ∧ isOctal d = false ∧ isDecimalMark d = false := by
  revert delimiter
  exact forall_byte (by decide) d

theorem first_digit {c : UInt8} (digit : isdigit c = true) (nonzero : c ≠ '0'.toUInt8) : first c = .number := by
  revert digit nonzero
  exact forall_byte (by decide) c

theorem first_space {c : UInt8} (space : isspace c = true) : first c = .space := by
  revert space
  exact forall_byte (by decide) c

/-! ### The tokens of a printed text -/

theorem next_space {c : UInt8} (space : isspace c = true) (rest : Bytes) : next ⟨c :: rest, true⟩ = next ⟨rest, true⟩ := by
  rw [next, tokenLoop]
  simp only [InputContext.get_cons, first_space space]
  rfl

theorem next_spaces {spaces : Bytes} (all : ∀ c ∈ spaces, isspace c = true) (rest : Bytes) :
    next ⟨spaces ++ rest, true⟩ = next ⟨rest, true⟩ := by
  induction spaces with
  | nil => rfl
  | cons c spaces ih =>
    rw [List.cons_append, next_space (all c (List.mem_cons_self ..)), ih fun d mem => all d (List.mem_cons_of_mem _ mem)]

theorem next_string (s rest : Bytes) : next ⟨intPrintOn s ++ rest, true⟩ = (⟨.string, s⟩, ⟨rest, true⟩) := by
  have read := intReadFrom_intPrintOn s rest
  rw [intPrintOn, List.cons_append, List.cons_append] at read ⊢
  rw [next, tokenLoop]
  show doReadString _ _ = _
  rw [doReadString, InputContext.putback_good, read]
  rfl

theorem next_zero {rest : Bytes} (delimited : Delimited rest) :
    next ⟨'0'.toUInt8 :: rest, true⟩ = (⟨.octalNumber, if rest.isEmpty then [] else ['0'.toUInt8]⟩, lookedAt rest) := by
  have scanned : doReadOctalOrHex ⟨rest, true⟩ [] = ⟨.octalNumber, if rest.isEmpty then [] else ['0'.toUInt8], rest.headD 0,
      ⟨rest.tail, !rest.isEmpty⟩⟩ := by
    rcases rest with _ | ⟨d, rest⟩
    · rfl
    · obtain ⟨-, x, octal, mark⟩ := delimiter_ends delimited.1
      simp only [List.headD_cons] at x octal mark
      simp [doReadOctalOrHex, x, octal, mark]
  rw [next, tokenLoop]
  show numberOrName (doReadOctalOrHex ⟨rest, true⟩ []) false = _
  rw [scanned, numberOrName, delimited.1]
  exact settle_rest _ _ rest delimited.2

theorem next_positive {n : Nat} (some : n ≠ 0) {rest : Bytes} (delimited : Delimited rest) :
    next ⟨decimalText n ++ rest, true⟩ = (⟨.decimalNumber, decimalText n⟩, lookedAt rest) := by
  obtain ⟨c, digits, shape, digit, all, nonzero⟩ := decimalText_cons n
  have scanned := doReadNumber_digits [] digit all rest (delimiter_ends delimited.1).1
  rw [shape, List.cons_append, next, tokenLoop]
  simp only [InputContext.get_cons, first_digit digit (nonzero some)]
  rw [scanned, numberOrName, delimited.1]
  exact settle_rest _ _ rest delimited.2

theorem next_negative (n : Nat) {rest : Bytes} (delimited : Delimited rest) :
    next ⟨'-'.toUInt8 :: decimalText n ++ rest, true⟩ = (⟨.decimalNumber, '-'.toUInt8 :: decimalText n⟩, lookedAt rest) := by
  obtain ⟨c, digits, shape, digit, all, -⟩ := decimalText_cons n
  have scanned := doReadNumber_minus digit all rest (delimiter_ends delimited.1).1
  rw [shape, List.cons_append, next, tokenLoop]
  show numberOrName (doReadNumber ⟨c :: digits ++ rest, true⟩ [] '-'.toUInt8) _ = _
  rw [scanned, numberOrName, delimited.1]
  exact settle_rest _ _ rest delimited.2

theorem next_object {digits : Bytes} (some : digits ≠ []) (all : ∀ c ∈ digits, isdigit c = true) {rest : Bytes}
    (stop : endsNumber (rest.headD 0) = true) :
    next ⟨'&'.toUInt8 :: digits ++ rest, true⟩ = (⟨.object, digits⟩, lookedAt rest) := by
  rcases digits with _ | ⟨c, digits⟩
  · exact absurd rfl some
  · have digit := all c (List.mem_cons_self ..)
    obtain ⟨space, -, -⟩ := digit_not_mark digit
    have scanned := doReadNumber_digits [] digit (fun d mem => all d (List.mem_cons_of_mem _ mem)) rest stop
    have skipped : collectFrom isspace ⟨c :: digits ++ rest, true⟩ [] = ([], c, ⟨digits ++ rest, true⟩) := by
      simp [collectFrom, collect, space]
    rw [List.cons_append, next, tokenLoop]
    show readObject ⟨c :: digits ++ rest, true⟩ = _
    simp only [readObject, skipped, scanned, if_true, List.nil_append]
    rcases rest with _ | ⟨d, rest⟩ <;> rfl

theorem extractLong_decimalText {n : Nat} (fits : n < 2 ^ 63) {d : UInt8} (stop : isdigit d = false) (rest : Bytes) :
    extractLong ⟨decimalText n ++ d :: rest, true⟩ = ((n : Int), ⟨d :: rest, true⟩) := by
  have digits := isdigit_of_mem_decimalText (n := n)
  have value := foldl_decimalText n
  obtain ⟨c, cs, shape, digit, -⟩ := decimalText_cons n
  obtain ⟨space, minus, plus⟩ := digit_not_mark digit
  have unsigned : splitSign ((decimalText n ++ d :: rest).dropWhile isspace) = (false, decimalText n ++ d :: rest) := by
    rw [shape, List.cons_append, List.dropWhile_cons_of_neg (by simp [space])]
    simp [splitSign, minus, plus]
  have taken : (decimalText n ++ d :: rest).takeWhile isdigit = decimalText n := by
    rw [List.takeWhile_append_of_pos digits, List.takeWhile_cons_of_neg (by simp [stop]), List.append_nil]
  have dropped : (decimalText n ++ d :: rest).dropWhile isdigit = d :: rest := by
    rw [List.dropWhile_append_of_pos digits, List.dropWhile_cons_of_neg (by simp [stop])]
  have some : (decimalText n).isEmpty = false := by rw [shape]; rfl
  simp only [extractLong, unsigned, taken, dropped, value, some, Bool.false_eq_true, if_false, if_pos fits]
  rfl

theorem next_binary {s : Bytes} (fits : s.length < 2 ^ 63) (rest : Bytes) :
    next ⟨'['.toUInt8 :: decimalText s.length ++ ';'.toUInt8 :: s ++ ']'.toUInt8 :: rest, true⟩ =
      (⟨.binaryBuf, s⟩, ⟨rest, true⟩) := by
  have length := extractLong_decimalText fits (d := ';'.toUInt8) (by decide) (s ++ ']'.toUInt8 :: rest)
  have contents : InputContext.read ⟨s ++ ']'.toUInt8 :: rest, true⟩ s.length = (s, ⟨']'.toUInt8 :: rest, true⟩) := by
    simp [InputContext.read]
  rw [List.cons_append, List.cons_append, List.append_assoc, next, tokenLoop]
  show doReadBinBuf ⟨decimalText s.length ++ ';'.toUInt8 :: (s ++ ']'.toUInt8 :: rest), true⟩ = _
  simp only [doReadBinBuf, length, InputContext.get_cons, Option.getD_some, beq_self_eq_true, if_true, Int.toNat_natCast,
    contents, Bool.and_self, skipToBracket]

theorem next_quotedName {name : Bytes} (some : name ≠ []) (rest : Bytes) :
    next ⟨'/'.toUInt8 :: intPrintOn name ++ rest, true⟩ = (⟨.index, name⟩, ⟨rest, true⟩) := by
  have read := intReadFrom_intPrintOn name rest
  have nonempty : 0 < name.length := List.length_pos_iff.mpr some
  rw [intPrintOn, List.cons_append, List.cons_append] at read
  rw [intPrintOn, List.cons_append, List.cons_append, List.cons_append, next, tokenLoop]
  show readMark .index ⟨'"'.toUInt8 :: _, true⟩ = _
  simp only [readMark, InputContext.get_cons, beq_self_eq_true, if_true, doReadString, InputContext.putback_good, read,
    gt_iff_lt, nonempty]

theorem next_plainName {name : Bytes} (some : name ≠ []) (plain : ∀ c ∈ name, isNameDelimiter c = false) {rest : Bytes}
    (delimited : Delimited rest) :
    next ⟨'/'.toUInt8 :: name ++ rest, true⟩ = (⟨.index, name⟩, lookedAt rest) := by
  rcases name with _ | ⟨c, cs⟩
  · exact absurd rfl some
  · have own := plain c (List.mem_cons_self ..)
    have unquoted : (c == '"'.toUInt8) = false := by
      rw [beq_eq_false_iff_ne]
      rintro rfl
      exact absurd own (by decide)
    have run : collect (fun c => !isNameDelimiter c) [c] (cs ++ rest) =
        ([c] ++ cs, rest.headD 0, ⟨rest.tail, !rest.isEmpty⟩) :=
      collect_run [c] (fun d mem => by rw [plain d (List.mem_cons_of_mem _ mem)]; rfl) rest (by rw [delimited.1]; rfl)
    have scanned : doReadName ⟨cs ++ rest, true⟩ [] c =
        ⟨.string, c :: cs, rest.headD 0, ⟨rest.tail, !rest.isEmpty⟩⟩ := by
      simp only [doReadName, collectFrom, if_true, List.nil_append, run]
      rfl
    rw [List.cons_append, List.cons_append, next, tokenLoop]
    show readMark .index ⟨c :: (cs ++ rest), true⟩ = _
    simp only [readMark, InputContext.get_cons, unquoted, own, scanned, settle_rest _ _ rest delimited.2, Bool.not_false,
      if_true, Bool.false_eq_true, if_false, List.length_cons, gt_iff_lt, Nat.zero_lt_succ]

end AnythingToken

end Coast
