import Coast.Http.Fields
import Coast.Lib.Streams
import Coast.Regex.Compiler

/-!
# Headers

`MIMEHeader` without its log messages. A header is read line by line, and the lines without a name are
left out.
-/

namespace Coast.Http

open AnythingParser (assignKey)
open Regex (cstr)
open Value
open IStream (Round)

variable {D : Type}

/-! ### Lines -/

/-- What `String::Append(is, length, delim)` appends. -/
def appendUntil (is : IStream UInt8) (length : Nat) (delim : UInt8) : Bytes × IStream UInt8 :=
  if length = 0 then ([], is)
  else
    match is.peek with
    | (c, is) => if c = some delim then ([], is) else is.getUntil length delim

structure SizeExceededException where
  fMessage : Bytes
  fLine : Bytes
  fMaxSize : Nat
  fActualSize : Nat
  deriving DecidableEq

def sizeExceeded (msg line : Bytes) (lMaxSize lActualSize : Nat) : SizeExceededException :=
  ⟨msg ++ ascii "; max: " ++ decimalText lMaxSize ++ ascii " actual: " ++ decimalText lActualSize, line, lMaxSize, lActualSize⟩

inductive HeaderException where
  | streamNotGood
  | lineSizeExceeded (e : SizeExceededException)
  | requestSizeExceeded (e : SizeExceededException)
  deriving DecidableEq

def appendNext (line : Bytes) (is : IStream UInt8) : Bytes × IStream UInt8 :=
  match is.peek with
  | (none, is) => (line, is)
  | (some _, is) =>
    match is.get with
    | (some c, is) => (line ++ [c], is)
    | (none, is) => (line, is)

def getLineFromStream (is : IStream UInt8) (maxlinelen : Nat) : Except HeaderException (Bytes × IStream UInt8) :=
  if is.good then
    let (line, is) := appendUntil is maxlinelen lf
    let (line, is) := appendNext line is
    if line.length > maxlinelen then
      .error (.lineSizeExceeded (sizeExceeded (ascii "Line size exceeded") line maxlinelen line.length))
    else .ok (line, is)
  else .error .streamNotGood

/-! ### Fields -/

def splitFieldsRegularExpression : Bytes :=
  ascii ("^(accept|allow|cache-control|connection|content-(encoding|language)|expect|If-None-Match|pragma|Proxy-" ++
    "Authenticate|TE$|trailer|Transfer-Encoding|upgrade|vary|via|warning|WWW-Authenticate)")

/-- Whether `splitFieldsRegularExpression` is contained in a key. It has no loops, so the number of nodes
visited does not depend on the key. -/
def multivalue (key : Bytes) : Bool :=
  match Regex.compile splitFieldsRegularExpression 100 with
  | some (some re, _) => ((Regex.Matcher.mk re.program ⟨true, false, false⟩ key).containedIn re.fPrefix 100 0).any Option.isSome
  | _ => false

def contentDispositionSlotname : Bytes := ascii "CONTENT-DISPOSITION"

def contentTypeSlotname : Bytes := ascii "CONTENT-TYPE"

def contentLengthSlotname : Bytes := ascii "CONTENT-LENGTH"

def boundarySlotname : Bytes := ascii "BOUNDARY"

def contentTypeAnything : Bytes := ascii "application/x-coast-anything"

def contentTypeMultipart : Bytes := ascii "multipart/part"

def boundaryToken : Bytes := ascii "boundary="

def storeKeyValue (headers : Slots D) (strKey strValue : Bytes) : Slots D :=
  let values := (lookup headers strKey).getD .null
  if multivalue strKey then assignKey headers strKey (split strValue ','.toUInt8 values ','.toUInt8 .eUpshift)
  else if cstr strKey = contentDispositionSlotname then
    assignKey headers strKey (split strValue ';'.toUInt8 values '='.toUInt8 .eUpshift)
  else if cstr strKey = boundarySlotname then assignKey headers strKey (.string strValue)
  else slotsOf (appendValueTo (ofSlots headers) strKey strValue)

def checkMultipartBoundary (contenttype : Bytes) (header : Slots D) (shiftFlag : NormalizeTag) : Slots D :=
  if 9 ≤ contenttype.length ∧ (indexOf contenttype (ascii "multipart")).isSome then
    match indexOf contenttype boundaryToken with
    | some (index + 1) =>
      assignKey header (normalize boundarySlotname shiftFlag) (.string (contenttype.drop (index + 1 + boundaryToken.length)))
    | _ => header
  else header

def splitAndAddHeaderLine (headers : Slots D) (line : Bytes) (normTag : NormalizeTag) : Slots D :=
  match strChr line ':'.toUInt8 0 with
  | some (pos + 1) =>
    let fieldname := normalize (line.take (pos + 1)) normTag
    let fieldvalue := line.drop (pos + 2)
    let headers := if fieldvalue.isEmpty then headers else storeKeyValue headers fieldname (trimBlanks fieldvalue)
    if fieldname = normalize contentTypeSlotname normTag then
      checkMultipartBoundary (trimBlanks fieldvalue) headers normTag
    else headers
  | _ => headers

/-! ### Headers -/

/-- A header to which nothing was added has no slots. -/
structure MIMEHeader (D : Type) where
  fHeader : Slots D := []
  fParsedHeaderLength : Nat := 0
  fNormalizeKey : NormalizeTag := .eUpshift

namespace MIMEHeader

def parseLine (maxlinelen maxheaderlen : Nat) (h : MIMEHeader D) (is : IStream UInt8) :
    Round UInt8 (MIMEHeader D) (Except HeaderException (MIMEHeader D)) :=
  match getLineFromStream is maxlinelen with
  | .error e => .done (.error e) is
  | .ok (line, is) =>
    let h := { h with fParsedHeaderLength := h.fParsedHeaderLength + line.length }
    let line := trimENDL line
    if line.isEmpty then .done (.ok h) is
    else if h.fParsedHeaderLength > maxheaderlen then
      .done (.error (.requestSizeExceeded (sizeExceeded (ascii "Header size exceeded") line maxheaderlen h.fParsedHeaderLength))) is
    else .again { h with fHeader := splitAndAddHeaderLine h.fHeader line h.fNormalizeKey } is

/-- At the end of the stream `getLineFromStream` throws. -/
def parseHeaders (h : MIMEHeader D) (is : IStream UInt8) (maxlinelen maxheaderlen : Nat) :
    Except HeaderException (MIMEHeader D × IStream UInt8) :=
  match IStream.loop (parseLine maxlinelen maxheaderlen) h is with
  | .done (.ok h) is => .ok (h, is)
  | .done (.error e) _ => .error e
  | .again _ _ => .error .streamNotGood

/-- `Lookup`, for a key without the delimiters of a path. -/
def lookup (h : MIMEHeader D) (key : Bytes) : Option (AnyTree D) := Value.lookup h.fHeader (normalize key h.fNormalizeKey)

def getBoundary (env : Environment D) (h : MIMEHeader D) : Bytes := asString env ((h.lookup boundarySlotname).getD .null)

def isMultiPart (env : Environment D) (h : MIMEHeader D) : Bool := !(h.getBoundary env).isEmpty

/-- The values of a header are texts, and arrays of texts, which are no number. -/
def getContentLength (h : MIMEHeader D) : Int64 :=
  match h.lookup contentLengthSlotname with
  | some (.string s) =>
    if isdigit ((splitSign ((cstr s).dropWhile isspace)).2.headD 0) then (strtol (cstr s) 10).1 else -1
  | _ => -1

end MIMEHeader

end Coast.Http
