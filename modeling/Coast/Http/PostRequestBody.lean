import Coast.Http.MIMEHeader

/-!
# The body of a request

`HTTPPostRequestBodyParser`. The body of a part is parsed as the body of a request is, with the headers
of the part.
-/

namespace Coast.Http

open AnythingParser (assignKey)
open Regex (cstr)
open Value
open IStream (Round)

variable {D : Type}

structure HTTPPostRequestBodyParser (D : Type) where
  fHeader : MIMEHeader D
  fContent : AnyTree D := .null
  fUnparsedContent : Bytes := []

/-! ### Reading to a boundary -/

/-- The text that `DoReadToBoundary` reads in one round, and whether the line ends there. -/
def readPiece (input : IStream UInt8) : Bytes × Bool × IStream UInt8 :=
  match appendUntil input 4096 lf with
  | (line, input) =>
    match input.peek with
    | (c, input) =>
      if c = some lf then
        match input.get with
        | (_, input) => (line, input.good, input)
      else (line, false, input)

/-- The variables of `DoReadToBoundary`. -/
structure Reading where
  body : Bytes
  newLineFoundLastLine : Bool
  fUnparsedContent : Bytes

/-- What `DoReadToBoundary` does with a line that has the boundary: the result it returns, if it does. -/
def atBoundary (bound line body : Bytes) (nextDoubleDash boundPos : Nat) : Option Bool :=
  if nextDoubleDash + 2 ≤ boundPos ∧ body ≠ [] then
    match strChr line '-'.toUInt8 (nextDoubleDash + bound.length + 2) with
    | some nextDoubleDash => some ((line)[nextDoubleDash + 1]? == some '-'.toUInt8)
    | none => some false
  else if boundPos + bound.length ≤ nextDoubleDash then some true
  else none

def readLine (bound : Bytes) (s : Reading) (input : IStream UInt8) : Round UInt8 Reading (Bool × Reading) :=
  match readPiece input with
  | (line, newLineFoundThisLine, input) =>
    let unparsed := s.fUnparsedContent ++ line ++ if newLineFoundThisLine then [lf] else []
    let body := if s.newLineFoundLastLine ∧ s.body ≠ [] then s.body ++ [lf] ++ line else s.body ++ line
    match indexOf line (ascii "--"), indexOf line bound with
    | some nextDoubleDash, some boundPos =>
      match atBoundary bound line s.body nextDoubleDash boundPos with
      | some endReached => .done (endReached, ⟨trimENDL s.body, s.newLineFoundLastLine, unparsed⟩) input
      | none =>
        let boundaryseen := decide (nextDoubleDash + 2 ≤ boundPos)
        .again ⟨if boundaryseen then s.body else body, newLineFoundThisLine, unparsed⟩ input
    | _, _ => .again ⟨body, newLineFoundThisLine, unparsed⟩ input

def doReadToBoundary (input : IStream UInt8) (bound body fUnparsedContent : Bytes) : Bool × Reading × IStream UInt8 :=
  match IStream.loop (readLine bound) ⟨body, false, fUnparsedContent⟩ input with
  | .done (endReached, s) input => (endReached, s, input)
  | .again s input => (false, s, input)

/-! ### A body that is no multipart -/

def decode (str : Bytes) (result : AnyTree D) : AnyTree D :=
  decodeAll (split (trimENDL str) '&'.toUInt8 result '='.toUInt8 .eUntouched)

def readBlock (fUnparsedContent : Bytes) (input : IStream UInt8) : Round UInt8 Bytes Empty :=
  match input.read 4096 with
  | (block, input) => .again (fUnparsedContent ++ block) input

def readAll (fUnparsedContent : Bytes) (input : IStream UInt8) : Bytes × IStream UInt8 :=
  match IStream.loop readBlock fUnparsedContent input with
  | .again fUnparsedContent input => (fUnparsedContent, input)

def formNames (env : Environment D) (header : MIMEHeader D) : Bytes × Bytes :=
  match header.lookup contentDispositionSlotname with
  | some contentdisp =>
    if contains env (ascii "form-data") contentdisp then
      let named tag := asString env ((lookup (slotsOf contentdisp) (ascii tag)).getD .null)
      (named "NAME", named "FILENAME")
    else ([], [])
  | none => ([], [])

namespace HTTPPostRequestBodyParser

-- `importAny` is `Anything::Import`, with a value where it succeeds
variable (env : Environment D) (importAny : IStream UInt8 → Option (AnyTree D) × IStream UInt8)

/-- What `DoParseBody` makes of the body that has been read. -/
def storeBody (p : HTTPPostRequestBodyParser D) : HTTPPostRequestBodyParser D :=
  let (name, filename) := formNames env p.fHeader
  if name ≠ [] ∧ filename ≠ [] then { p with fContent := append p.fContent (.string p.fUnparsedContent) }
  else if p.fUnparsedContent ≠ [] then { p with fContent := decode p.fUnparsedContent p.fContent }
  else p

def doParseBody (p : HTTPPostRequestBodyParser D) (input : IStream UInt8) :
    Bool × HTTPPostRequestBodyParser D × IStream UInt8 :=
  let contenttype := (p.fHeader.lookup contentTypeSlotname).map (asString env)
  if (contenttype.bind fun text => indexOf text contentTypeAnything).isSome then
    match importAny input with
    | (none, input) | (some .null, input) => (false, p, input)
    | (some a, input) => (true, { p with fContent := append p.fContent a }, input)
  else
    let contentLength := p.fHeader.getContentLength.toInt
    if 0 ≤ contentLength then
      let (block, input) := if contentLength = 0 then ([], input) else input.read contentLength.toNat
      let p := { p with fUnparsedContent := p.fUnparsedContent ++ block }
      (decide ((p.fUnparsedContent.length : Int) = contentLength), p.storeBody env, input)
    else
      let (fUnparsedContent, input) := readAll p.fUnparsedContent input
      let p := { p with fUnparsedContent := fUnparsedContent }
      (input.eofbit, p.storeBody env, input)

/-! ### Parts -/

abbrev Parse (D : Type) := HTTPPostRequestBodyParser D → IStream UInt8 →
  Except HeaderException (Bool × HTTPPostRequestBodyParser D × IStream UInt8)

/-- Where there is no content type, there is one now; a header without slots is not shared with its owner. -/
def withContentType (h : MIMEHeader D) : MIMEHeader D :=
  if (lookup h.fHeader contentTypeSlotname).isSome ∨ h.fHeader = [] then h
  else { h with fHeader := assignKey h.fHeader contentTypeSlotname (.string contentTypeMultipart) }

/-- What `DoParseMultiPart` appends for the body of a part. -/
def partInfo (parse : Parse D) (body : Bytes) : Except HeaderException (AnyTree D) :=
  match MIMEHeader.parseHeaders {} (IStream.on body) 1024 4096 with
  | .error e => .error e
  | .ok (hinner, innerpart) =>
    let hinner := withContentType hinner
    match parse { fHeader := hinner } innerpart with
    | .error e => .error e
    | .ok (_, part, _) =>
      .ok (.array (assignKey (assignKey [] (ascii "header") (ofSlots hinner.fHeader)) (ascii "body") part.fContent))

/-- The body of the loop in `DoParseMultiPart`. A part whose headers do not end is left out. -/
def readPart (parse : Parse D) (bound : Bytes) (p : HTTPPostRequestBodyParser D) (input : IStream UInt8) :
    Round UInt8 (HTTPPostRequestBodyParser D) (Except HeaderException (HTTPPostRequestBodyParser D)) :=
  match doReadToBoundary input bound [] p.fUnparsedContent with
  | (endReached, s, input) =>
    let p := { p with fUnparsedContent := s.fUnparsedContent }
    let next (p : HTTPPostRequestBodyParser D) :=
      if endReached then Round.done (Except.ok p) input else .again p input
    if s.body = [] then next p
    else
      match partInfo parse s.body with
      | .ok info => next { p with fContent := append p.fContent info }
      | .error .streamNotGood => next p
      | .error e => .done (.error e) input

def doParseMultiPart (parse : Parse D) (p : HTTPPostRequestBodyParser D) (input : IStream UInt8) (bound : Bytes) :
    Except HeaderException (Bool × HTTPPostRequestBodyParser D × IStream UInt8) :=
  match IStream.loop (readPart parse bound) p input with
  | .done (.ok p) input => .ok (true, p, input)
  | .done (.error e) _ => .error e
  | .again p input => .ok (false, p, input)

/-- `Parse`, with parts nested to some depth. -/
def parseNested : Nat → Parse D
  | 0, p, input => .ok (doParseBody env importAny p input)
  | depth + 1, p, input =>
    if p.fHeader.isMultiPart env then doParseMultiPart (parseNested depth) p input (p.fHeader.getBoundary env)
    else .ok (doParseBody env importAny p input)

def parse : Parse D := fun p input => parseNested env importAny (input.rest.length + 1) p input

end HTTPPostRequestBodyParser

end Coast.Http
