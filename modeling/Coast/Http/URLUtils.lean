import Coast.Base.SystemFile
import Coast.Text.Quoting

/-!
# Checking and decoding URLs
-/

namespace Coast.Http

open Regex (cstr)

def firstCharOf (text charSet : Bytes) : Option Nat :=
  let n := ((cstr text).takeWhile fun c => !charSet.contains c).length
  if text.length ≤ n then none else some n

/-- `LastCharOf`: how many bytes of `charSet` the text begins with. -/
def lastCharOf (text charSet : Bytes) : Option Nat :=
  let n := ((cstr text).takeWhile fun c => charSet.contains c).length
  if n = 0 then none else some n

/-! ### Checks -/

/-- The characters that `DoUrlEncode` escapes. A negative `char` becomes a large `unsigned int`. -/
def needsEscape (c : UInt8) : Bool :=
  c ≤ 0x20 || 0x7F ≤ c || (ascii "\"#%;<>?[\\]^\x60\x7b/\x7d~").contains c

/-- `DoUrlEncode` with `doCheck`. -/
def checkUrlEncoding (str exclusionSet : Bytes) : Bool :=
  let exclusionSetModified := exclusionSet ++ ascii "%;?/"
  str.all fun c => !needsEscape c || exclusionSetModified.contains c

def urlArgBase : Bytes := ascii "ABCDEFGHIJKLMNOPQRSTUVWXYZabcdefghijklmnopqrstuvwxyz0123456789"

def checkUrlArgEncoding (str override : Bytes) : Bool :=
  let base := urlArgBase ++ if override.isEmpty then ascii "%;/?:@&=$-_.+!*'()," else override
  lastCharOf str base == some str.length || str.isEmpty

def containsCharAbove (str : Bytes) (highMark : UInt8) (excludeSet : Bytes) : Option Nat :=
  str.findIdx? fun c => highMark < c && !excludeSet.contains c

def checkUrlPathContainsUnsafeChars (str overrideUnsafe overrideAscii : Bytes) (asciiExtended : Bool) : Bool :=
  let base := if overrideUnsafe.isEmpty then ascii "<>\"#%\x7b\x7d|\\^~[]\x60" else overrideUnsafe
  let containsExtendedAscii := asciiExtended && (containsCharAbove str 127 overrideAscii).isSome
  (firstCharOf str base).isSome || containsExtendedAscii

/-! ### Decoding -/

inductive URLCheckStatus where
  | eOk
  | eSuspiciousChar
  deriving DecidableEq, Repr

structure Escape where
  out : Bytes
  moves : Nat
  status : URLCheckStatus := .eOk

/-- `rest` is what follows the percent sign, which stands for itself where nothing else fits. -/
def decodeSpecialChars (rest : Bytes) (offset : Nat) : Escape :=
  match rest[offset - 1]? with
  | some c => if (ascii " \"%&?/").contains c then ⟨[c], offset, .eOk⟩ else ⟨['%'.toUInt8], 0, .eOk⟩
  | none => ⟨['%'.toUInt8], 0, .eOk⟩

def decodeEscape (rest : Bytes) : Escape :=
  if rest.head? == some 'u'.toUInt8 || rest.head? == some 'U'.toUInt8 then
    match rest with
    | _ :: a :: b :: high :: low :: _ =>
      if isxdigit a && isxdigit b && isxdigit high && isxdigit low then
        if a == '0'.toUInt8 && b == '0'.toUInt8 then ⟨[twoHexAsChar high low], 5, .eOk⟩ else ⟨[], 5, .eSuspiciousChar⟩
      else decodeSpecialChars rest 2
    | _ => decodeSpecialChars rest 2
  else
    match rest with
    | high :: low :: _ => if isxdigit high && isxdigit low then ⟨[twoHexAsChar high low], 2, .eOk⟩ else decodeSpecialChars rest 1
    | _ => decodeSpecialChars rest 1

/-- `moves` is how many bytes the last escape still covers. -/
def urlDecodeFrom : Nat → Bytes → Bytes × URLCheckStatus
  | _, [] => ([], .eOk)
  | moves + 1, _ :: rest => urlDecodeFrom moves rest
  | 0, c :: rest =>
    if c = '%'.toUInt8 then
      let escape := decodeEscape rest
      let decoded := urlDecodeFrom escape.moves rest
      (escape.out ++ decoded.1, if escape.status = .eSuspiciousChar then .eSuspiciousChar else decoded.2)
    else
      let decoded := urlDecodeFrom 0 rest
      (c :: decoded.1, decoded.2)

/-- `urlDecode` without the replacement of plus signs. -/
def urlDecode (instr : Bytes) : Bytes × URLCheckStatus :=
  if instr.contains '%'.toUInt8 then urlDecodeFrom 0 instr else (instr, .eOk)

def exhaustiveRounds : Nat → Bytes → Bytes → URLCheckStatus → Bytes × URLCheckStatus
  | 0, _, current, eUrlCheckStatus => (current, eUrlCheckStatus)
  | fuel + 1, previous, current, eUrlCheckStatus =>
    if previous = current then (current, eUrlCheckStatus)
    else
      let round := urlDecode current
      exhaustiveRounds fuel current round.1 (if round.2 = .eSuspiciousChar then .eSuspiciousChar else eUrlCheckStatus)

def exhaustiveUrlDecode (instr : Bytes) : Bytes × URLCheckStatus := exhaustiveRounds (instr.length + 2) [] instr .eOk

def cleanUpUriPath (name : Bytes) : Bytes := System.resolvePath name

example : urlDecode (ascii "/%2e%252e%u002f%%") = (ascii "/.%2e/%", .eOk) := by decide

example : (exhaustiveUrlDecode (ascii "%25252e")).1 = ascii "." := by decide

/-! ### The rounds of the decoder -/

/-- An escape covers what is there, adds at most one byte, and one that covers nothing adds the percent sign. -/
def Escape.Shrinks (escape : Escape) (rest : Bytes) : Prop :=
  escape.moves ≤ rest.length ∧ escape.out.length ≤ 1 ∧ (escape.moves = 0 → escape.out = ['%'.toUInt8])

theorem decodeSpecialChars_shrinks (rest : Bytes) {offset : Nat} (some : 0 < offset) :
    (decodeSpecialChars rest offset).Shrinks rest := by
  unfold decodeSpecialChars
  split
  · rename_i c there
    obtain ⟨inside, -⟩ := List.getElem?_eq_some_iff.mp there
    split
    · exact ⟨by simp only; omega, Nat.le_refl _, fun none => absurd none (Nat.ne_of_gt some)⟩
    · exact ⟨Nat.zero_le _, Nat.le_refl _, fun _ => rfl⟩
  · exact ⟨Nat.zero_le _, Nat.le_refl _, fun _ => rfl⟩

theorem decodeEscape_shrinks (rest : Bytes) : (decodeEscape rest).Shrinks rest := by
  unfold decodeEscape
  split
  · split
    · split
      · split <;> refine ⟨?_, by simp, by simp⟩ <;> simp
      · exact decodeSpecialChars_shrinks _ (by decide)
    · exact decodeSpecialChars_shrinks _ (by decide)
  · split
    · split
      · exact ⟨by simp, by simp, by simp⟩
      · exact decodeSpecialChars_shrinks _ (by decide)
    · exact decodeSpecialChars_shrinks _ (by decide)

theorem urlDecodeFrom_percent (rest : Bytes) : (urlDecodeFrom 0 ('%'.toUInt8 :: rest)).1 =
    (decodeEscape rest).out ++ (urlDecodeFrom (decodeEscape rest).moves rest).1 := by
  rw [urlDecodeFrom, if_pos rfl]

theorem urlDecodeFrom_plain {c : UInt8} (plain : c ≠ '%'.toUInt8) (rest : Bytes) :
    (urlDecodeFrom 0 (c :: rest)).1 = c :: (urlDecodeFrom 0 rest).1 := by
  rw [urlDecodeFrom, if_neg plain]

theorem length_urlDecodeFrom_le (moves : Nat) (text : Bytes) : (urlDecodeFrom moves text).1.length ≤ text.length - moves := by
  induction text generalizing moves with
  | nil => exact Nat.zero_le _
  | cons c rest ih =>
    cases moves with
    | succ moves =>
      have tail := ih moves
      rw [urlDecodeFrom, List.length_cons]
      omega
    | zero =>
      by_cases percent : c = '%'.toUInt8
      · subst percent
        obtain ⟨-, short, -⟩ := decodeEscape_shrinks rest
        have tail := ih (decodeEscape rest).moves
        rw [urlDecodeFrom_percent, List.length_append, List.length_cons]
        omega
      · rw [urlDecodeFrom_plain percent]
        exact Nat.succ_le_succ (ih 0)

theorem urlDecodeFrom_percent_of_length {rest : Bytes}
    (kept : (urlDecodeFrom 0 ('%'.toUInt8 :: rest)).1.length = rest.length + 1) :
    (decodeEscape rest).moves = 0 ∧ (urlDecodeFrom 0 ('%'.toUInt8 :: rest)).1 = '%'.toUInt8 :: (urlDecodeFrom 0 rest).1 := by
  obtain ⟨inside, short, same⟩ := decodeEscape_shrinks rest
  have tail := length_urlDecodeFrom_le (decodeEscape rest).moves rest
  rw [urlDecodeFrom_percent, List.length_append] at kept
  have none : (decodeEscape rest).moves = 0 := by omega
  refine ⟨none, ?_⟩
  rw [urlDecodeFrom_percent, same none, none]
  rfl

theorem urlDecodeFrom_eq_of_length {text : Bytes} (kept : (urlDecodeFrom 0 text).1.length = text.length) :
    (urlDecodeFrom 0 text).1 = text := by
  induction text with
  | nil => rfl
  | cons c rest ih =>
    by_cases percent : c = '%'.toUInt8
    · subst percent
      obtain ⟨-, same⟩ := urlDecodeFrom_percent_of_length kept
      rw [same] at kept ⊢
      rw [ih (Nat.succ.inj kept)]
    · rw [urlDecodeFrom_plain percent] at kept ⊢
      rw [ih (Nat.succ.inj kept)]

theorem exhaustiveRounds_next {previous current : Bytes} (differ : previous ≠ current) (fuel : Nat) (status : URLCheckStatus) :
    exhaustiveRounds (fuel + 1) previous current status = exhaustiveRounds fuel current (urlDecode current).1
      (if (urlDecode current).2 = .eSuspiciousChar then .eSuspiciousChar else status) := by
  rw [exhaustiveRounds, if_neg differ]

theorem exhaustiveRounds_done (fuel : Nat) (current : Bytes) (status : URLCheckStatus) :
    exhaustiveRounds fuel current current status = (current, status) := by
  cases fuel with
  | zero => rfl
  | succ fuel => rw [exhaustiveRounds, if_pos rfl]

/-! ### What decoding keeps -/

theorem urlDecode_cons {c : UInt8} (plain : c ≠ '%'.toUInt8) (rest : Bytes) : ∃ more, (urlDecode (c :: rest)).1 = c :: more := by
  unfold urlDecode
  split
  · exact ⟨_, urlDecodeFrom_plain plain rest⟩
  · exact ⟨rest, rfl⟩

theorem exhaustiveRounds_cons {c : UInt8} (plain : c ≠ '%'.toUInt8) (fuel : Nat) (previous rest : Bytes)
    (status : URLCheckStatus) : ∃ more, (exhaustiveRounds fuel previous (c :: rest) status).1 = c :: more := by
  induction fuel generalizing previous rest status with
  | zero => exact ⟨rest, rfl⟩
  | succ fuel ih =>
    by_cases same : previous = c :: rest
    · subst same
      rw [exhaustiveRounds_done]
      exact ⟨rest, rfl⟩
    · obtain ⟨more, eq⟩ := urlDecode_cons plain rest
      rw [exhaustiveRounds_next same, eq]
      exact ih _ more _

end Coast.Http
