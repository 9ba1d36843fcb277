import Coast.Anything.SlotPutter
import Coast.Http.FileUpload

/-!
# Reading a request

The limits on the lines, on the `URI` and on the whole of a request bound what `DoReadRequest` takes from its
stream. Whatever is thrown on the way ends up as one message in the context.
-/

namespace Coast.Http

open AnythingParser (assignKey)
open IStream (on piece)
open Value (slotsOf)

structure HTTPRequestReader (D : Type) where
  fRequest : Slots D := []
  fHeader : MIMEHeader D := {}
  fRequestBufferSize : Nat := 0

namespace HTTPRequestReader

variable {D : Type}

/-! ### Exceptions -/

inductive ExceptionClass where
  | invalidLine
  | sizeExceeded
  | lineSizeExceeded
  | requestSizeExceeded
  | uriSizeExceeded
  | invalidLineWithCode
  | streamNotGood
  deriving DecidableEq, Repr

def ExceptionClass.bases : ExceptionClass → List ExceptionClass
  | .invalidLine => [.invalidLine]
  | .sizeExceeded => [.sizeExceeded, .invalidLine]
  | .lineSizeExceeded => [.lineSizeExceeded, .sizeExceeded, .invalidLine]
  | .requestSizeExceeded => [.requestSizeExceeded, .sizeExceeded, .invalidLine]
  | .uriSizeExceeded => [.uriSizeExceeded, .sizeExceeded, .invalidLine]
  | .invalidLineWithCode => [.invalidLineWithCode, .invalidLine]
  | .streamNotGood => [.streamNotGood]

/-- An exception, with what `what()` tells. -/
structure Thrown where
  cls : ExceptionClass
  fMessage : Bytes
  fLine : Bytes := []
  fCode : Nat := 0
  deriving DecidableEq

def Thrown.ofHeader : HeaderException → Thrown
  | .streamNotGood => { cls := .streamNotGood, fMessage := ascii "Stream not good" }
  | .lineSizeExceeded e => { cls := .lineSizeExceeded, fMessage := e.fMessage, fLine := e.fLine }
  | .requestSizeExceeded e => { cls := .requestSizeExceeded, fMessage := e.fMessage, fLine := e.fLine }

def invalidLine (msg line : Bytes) : Thrown := { cls := .invalidLine, fMessage := msg, fLine := line }

def invalidLineWithCode (msg line : Bytes) (code : Nat) : Thrown :=
  { cls := .invalidLineWithCode, fMessage := msg, fLine := line, fCode := code }

def uriSizeExceeded (msg line : Bytes) (lMaxSize lActualSize : Nat) : Thrown :=
  { cls := .uriSizeExceeded, fMessage := (Http.sizeExceeded msg line lMaxSize lActualSize).fMessage, fLine := line }

/-! ### The context -/

inductive Simple where
  | long (n : Nat)
  | string (s : Bytes)
  deriving DecidableEq

structure Context where
  lineSizeLimit : Nat := 4096
  requestSizeLimit : Nat := 5120
  uriSizeLimit : Nat := 512
  enforceCRLFTerminatedURI : Bool := false
  requestProcessorErrorSlot : Bytes := ascii "HTTPProcessor.Error"
  fTmpStore : Any Simple Unit

def statusCodeMap : List (Nat × String) :=
  [(100, "Continue"), (101, "Switching Protocols"), (200, "OK"), (201, "Created"), (202, "Accepted"),
   (203, "Non-Authoritative Information"), (204, "No Content"), (205, "Reset Content"), (206, "Partial Content"),
   (300, "Multiple Choices"), (301, "Moved Permanently"), (302, "Found"), (303, "See Other"), (304, "Not Modified"),
   (305, "Use Proxy"), (307, "Temporary Redirect"), (400, "Bad Request"), (401, "Unauthorized"), (402, "Payment Required"),
   (403, "Forbidden"), (404, "Not Found"), (405, "Method Not Allowed"), (406, "Not Acceptable"),
   (407, "Proxy Authentication Required"), (408, "Request Time-out"), (409, "Conflict"), (410, "Gone"),
   (411, "Length Required"), (412, "Precondition Failed"), (413, "Request Entity Too Large"), (414, "Request-URI Too Large"),
   (415, "Unsupported Media Type"), (416, "Requested range not satisfiable"), (417, "Expectation Failed"),
   (500, "Internal Server Error"), (501, "Not Implemented"), (502, "Bad Gateway"), (503, "Service Unavailable"),
   (504, "Gateway Time-out"), (505, "HTTP Version not supported")]

def defaultReasonPhrase (status : Nat) : Bytes := ascii ((statusCodeMap.lookup status).getD "Unknown Error")

def generateErrorMessageAny (errorcode : Nat) (msg content component : Bytes) : Any Simple Unit :=
  .array () [(some (ascii "Component"), .simple (.string component)),
    (some (ascii "ResponseCode"), .simple (.long errorcode)),
    (some (ascii "ResponseMsg"), .simple (.string (defaultReasonPhrase errorcode))),
    (some (ascii "ErrorMessage"), .simple (.string msg)),
    (some (ascii "FaultyContent"), .simple (.string content))]

def putErrorMessageIntoContext (ctx : Context) (errorcode : Nat) (msg content component : Bytes) : Context :=
  { ctx with
    fTmpStore := SlotPutter.operate () (generateErrorMessageAny errorcode msg content component) ctx.fTmpStore
      ctx.requestProcessorErrorSlot true }

example (msg content component : Bytes) :
    (putErrorMessageIntoContext { fTmpStore := .null } 400 msg content component).fTmpStore.lookupPath '.'.toUInt8 ':'.toUInt8
      (ascii "HTTPProcessor.Error") = some (.array () [(none, generateErrorMessageAny 400 msg content component)]) := by
  rfl

/-! ### The request line -/

/-- `AsString` of a slot that holds a text. -/
def textAt (any : Slots D) (i : Nat) : Bytes :=
  match any[i]? with
  | some (_, .string s) => s
  | _ => []

def parseRequestLine (ctx : Context) (request : Slots D) (line : Bytes) : Except Thrown Unit × Slots D :=
  let anyRequest : Slots D := slotsOf (split line ' '.toUInt8 .null ' '.toUInt8 .eUntouched)
  if anyRequest.length ≠ 3 then
    (.error (invalidLine (ascii "Bad request structure or simple HTTP/0.9 request") line), request)
  else
    let tok := (textAt anyRequest 0).map toupper
    if tok = ascii "GET" ∨ tok = ascii "POST" then
      let request := assignKey request (ascii "REQUEST_METHOD") (.string tok)
      let tok := textAt anyRequest 1
      if tok.length > ctx.uriSizeLimit then
        (.error (uriSizeExceeded (ascii "Request-URI too long") line ctx.uriSizeLimit tok.length), request)
      else
        let request := assignKey request (ascii "REQUEST_URI") (.string tok)
        let tok := textAt anyRequest 2
        if (ascii "HTTP/").isPrefixOf tok then (.ok (), assignKey request (ascii "SERVER_PROTOCOL") (.string tok))
        else (.error (invalidLineWithCode (ascii "Invalid server protocol") line 400), request)
    else (.error (invalidLineWithCode (ascii "Method Not Allowed") line 405), request)

def handleFirstLine (ctx : Context) (request : Slots D) (line : Bytes) : Except Thrown Unit × Slots D :=
  let trimmed := trimENDL line
  if trimmed.isEmpty then (.error (invalidLine (ascii "Empty request line") trimmed), request)
  else if trimmed.length + 2 > line.length ∧ ctx.enforceCRLFTerminatedURI = true then
    (.error (invalidLine (ascii "Invalid request line termination") line), request)
  else parseRequestLine ctx request trimmed

/-! ### The request -/

/-- Where `getLineFromStream` leaves the stream, also when it throws. -/
def lineRead (is : IStream UInt8) (maxlinelen : Nat) : IStream UInt8 :=
  if is.good then (appendNext (appendUntil is maxlinelen lf).1 (appendUntil is maxlinelen lf).2).2 else is

/-- `ParseHeaders` in so many turns of its loop, with the stream as it leaves it. A turn that finds a line too
long has read it. -/
def parseHeaders (fuel : Nat) (h : MIMEHeader D) (is : IStream UInt8) (maxlinelen maxheaderlen : Nat) :
    Option (Except HeaderException (MIMEHeader D) × IStream UInt8) :=
  match IStream.whileGood (MIMEHeader.parseLine maxlinelen maxheaderlen) fuel h is with
  | .done (.error (.lineSizeExceeded e)) is => some (.error (.lineSizeExceeded e), lineRead is maxlinelen)
  | .done r is => some (r, is)
  | .again _ is => if is.good then none else some (.error .streamNotGood, is)

/-- The block of `DoReadRequest` from which exceptions are caught. -/
def tryRead (fuel : Nat) (ctx : Context) (reader : HTTPRequestReader D) (is : IStream UInt8) :
    Option (Except Thrown (HTTPRequestReader D) × IStream UInt8) :=
  match getLineFromStream is ctx.lineSizeLimit with
  | .error e => some (.error (.ofHeader e), lineRead is ctx.lineSizeLimit)
  | .ok (line, is) =>
    let size := reader.fRequestBufferSize + line.length
    if size > ctx.requestSizeLimit then
      some (.error (.ofHeader (.requestSizeExceeded (sizeExceeded (ascii "RequestSizeLimit exceeded") line ctx.requestSizeLimit size))), is)
    else
      match handleFirstLine ctx reader.fRequest line with
      | (.error e, _) => some (.error e, is)
      | (.ok (), request) =>
        match parseHeaders fuel reader.fHeader is ctx.lineSizeLimit (ctx.requestSizeLimit - size) with
        | none => none
        | some (.error e, is) => some (.error (.ofHeader e), is)
        | some (.ok h, is) =>
          if size + h.fParsedHeaderLength = 0 then some (.error (invalidLineWithCode (ascii "Empty request") line 400), is)
          else some (.ok ⟨request, h, size + h.fParsedHeaderLength⟩, is)

structure Handler where
  cls : ExceptionClass
  errorcode : Thrown → Nat
  hint : Bytes := []
  content : Thrown → Bytes := Thrown.fLine

/-- The handlers of `DoReadRequest` in their order. -/
def handlers : List Handler :=
  [{ cls := .lineSizeExceeded, errorcode := fun _ => 413, hint := ascii " => check setting of [LineSizeLimit]" },
   { cls := .requestSizeExceeded, errorcode := fun _ => 413, hint := ascii " => check setting of [RequestSizeLimit]" },
   { cls := .uriSizeExceeded, errorcode := fun _ => 414, hint := ascii " => check setting of [URISizeLimit]" },
   { cls := .invalidLineWithCode, errorcode := Thrown.fCode },
   { cls := .invalidLine, errorcode := fun _ => 400 },
   { cls := .streamNotGood, errorcode := fun _ => 400, content := fun _ => [] }]

def handle (ctx : Context) (e : Thrown) : Except Thrown Context :=
  match handlers.find? fun handler => e.cls.bases.contains handler.cls with
  | some handler =>
    .ok (putErrorMessageIntoContext ctx (handler.errorcode e) (e.fMessage ++ handler.hint) (handler.content e)
      (ascii "HTTPRequestReader::DoReadRequest"))
  | none => .error e

structure Outcome (D : Type) where
  /-- The reader where `true` is returned, nothing where `false` is, and an exception that no handler takes. -/
  returned : Except Thrown (Option (HTTPRequestReader D))
  ctx : Context
  stream : IStream UInt8

def doReadRequest (fuel : Nat) (ctx : Context) (reader : HTTPRequestReader D) (is : IStream UInt8) : Option (Outcome D) :=
  match tryRead fuel ctx reader is with
  | none => none
  | some (.ok reader, is) => some ⟨.ok (some reader), ctx, is⟩
  | some (.error e, is) =>
    match handle ctx e with
    | .ok ctx => some ⟨.ok none, ctx, is⟩
    | .error e => some ⟨.error e, ctx, is⟩

/-! ### Lines of a text -/

def lines : Bytes → List Bytes
  | [] => []
  | c :: rest =>
    if c = lf then [lf] :: lines rest
    else
      match lines rest with
      | [] => [[c]]
      | line :: more => (c :: line) :: more

theorem lines_line {line : Bytes} (free : lf ∉ line) (rest : Bytes) :
    lines (line ++ lf :: rest) = (line ++ [lf]) :: lines rest := by
  induction line with
  | nil => rw [List.nil_append, lines, if_pos rfl, List.nil_append]
  | cons c line ih =>
    obtain ⟨other, free⟩ := not_or.mp (mt List.mem_cons.mpr free)
    rw [List.cons_append, lines, if_neg (Ne.symm other), ih free]
    rfl

theorem lines_last {line : Bytes} (free : lf ∉ line) (some : line ≠ []) : lines line = [line] := by
  induction line with
  | nil => exact absurd rfl some
  | cons c line ih =>
    obtain ⟨other, free⟩ := not_or.mp (mt List.mem_cons.mpr free)
    rw [lines, if_neg (Ne.symm other)]
    cases line with
    | nil => rfl
    | cons d line => rw [ih free (List.cons_ne_nil d line)]

def headerLines (text : Bytes) : List Bytes := (lines text).takeWhile fun line => !(trimENDL line).isEmpty

/-! ### Reading a line -/

/-- What a line that was read has to do with the text. At the end of the text the line is empty. -/
structure LineOf (text line : Bytes) (is : IStream UInt8) (maxlinelen : Nat) : Prop where
  parts : text = line ++ is.rest
  fits : line.length ≤ maxlinelen
  next : line ≠ [] → lines text = line :: lines is.rest
  ended : is.good = false → is.rest = []
  empty : line = [] → text = []

theorem appendNext_on (text : Bytes) (maxlinelen : Nat) :
    ∃ line is, appendNext (appendUntil (on text) maxlinelen lf).1 (appendUntil (on text) maxlinelen lf).2 = (line, is) ∧
      text = line ++ is.rest ∧ line.length ≤ maxlinelen + 1 ∧ (line.length ≤ maxlinelen → LineOf text line is maxlinelen) := by
  cases maxlinelen with
  | zero =>
    cases text with
    | nil => exact ⟨[], _, rfl, rfl, Nat.zero_le _, fun fits => ⟨rfl, fits, fun some => absurd rfl some, fun _ => rfl, fun _ => rfl⟩⟩
    | cons c rest => exact ⟨[c], on rest, rfl, rfl, le_refl 1, fun fits => absurd fits (Nat.not_succ_le_zero 0)⟩
  | succ n =>
    have free : lf ∉ piece (n + 1) lf text := IStream.delim_notMem_piece
    have fits : (piece (n + 1) lf text).length ≤ n + 1 := IStream.piece_length_le
    obtain ⟨whole, is, is', read, peek, bad, empty⟩ | ⟨rest, stop, read⟩ | ⟨full, c, rest, other, stop, read⟩ :=
      appendUntil_on (n + 1) (Nat.succ_pos n) lf text
    · rw [← whole] at read free fits
      refine ⟨text, is', by rw [read, appendNext, peek], by rw [empty, List.append_nil], Nat.le_succ_of_le fits, fun fits => ?_⟩
      refine ⟨by rw [empty, List.append_nil], fits, fun some => ?_, fun _ => empty, id⟩
      rw [empty]
      exact lines_last free some
    · refine ⟨piece (n + 1) lf text ++ [lf], on rest, by rw [read]; rfl, ?_, ?_, fun fits => ⟨?_, fits, fun _ => ?_, fun bad => (by cases bad), fun none => ?_⟩⟩
      · rw [List.append_assoc]
        exact stop
      · rw [List.length_append]
        exact Nat.succ_le_succ fits
      · rw [List.append_assoc]
        exact stop
      · have first := lines_line free rest
        rw [← stop] at first
        exact first
      · simp at none
    · refine ⟨piece (n + 1) lf text ++ [c], on rest, by rw [read]; rfl, ?_, ?_, fun fits => ?_⟩
      · rw [List.append_assoc]
        exact stop
      · rw [List.length_append, full]
        exact le_refl _
      · rw [List.length_append, full] at fits
        exact absurd fits (Nat.not_succ_le_self _)

theorem getLineFromStream_on (text : Bytes) (maxlinelen : Nat) :
    (∃ line is, getLineFromStream (on text) maxlinelen = .ok (line, is) ∧ LineOf text line is maxlinelen) ∨
    (∃ e, getLineFromStream (on text) maxlinelen = .error (.lineSizeExceeded e) ∧
      ∃ taken, text = taken ++ (lineRead (on text) maxlinelen).rest ∧ taken.length ≤ maxlinelen + 1) := by
  obtain ⟨line, is, read, parts, bound, whole⟩ := appendNext_on text maxlinelen
  rw [getLineFromStream, lineRead, IStream.good_on, if_pos rfl, if_pos rfl]
  dsimp only
  rw [read]
  dsimp only
  by_cases long : line.length > maxlinelen
  · rw [if_pos long]
    exact .inr ⟨_, rfl, line, parts, bound⟩
  · rw [if_neg long]
    exact .inl ⟨line, is, rfl, whole (Nat.le_of_not_lt long)⟩

/-! ### Reading the header -/

section Headers

variable {maxlinelen maxheaderlen : Nat} {h : MIMEHeader D} {is : IStream UInt8}

theorem parseHeaders_stop (fuel : Nat) (bad : is.good = false) :
    parseHeaders fuel h is maxlinelen maxheaderlen = some (.error .streamNotGood, is) := by
  rw [parseHeaders, IStream.whileGood_stop fuel h bad]
  dsimp only
  rw [bad]
  rfl

theorem parseHeaders_again (fuel : Nat) (good : is.good = true) {h' : MIMEHeader D} {is' : IStream UInt8}
    (next : MIMEHeader.parseLine maxlinelen maxheaderlen h is = .again h' is') :
    parseHeaders (fuel + 1) h is maxlinelen maxheaderlen = parseHeaders fuel h' is' maxlinelen maxheaderlen := by
  rw [parseHeaders, parseHeaders, IStream.whileGood, if_pos good, next]

theorem parseHeaders_done (fuel : Nat) (good : is.good = true) {r : Except HeaderException (MIMEHeader D)} {is' : IStream UInt8}
    (left : MIMEHeader.parseLine maxlinelen maxheaderlen h is = .done r is') (short : ∀ e, r ≠ .error (.lineSizeExceeded e)) :
    parseHeaders (fuel + 1) h is maxlinelen maxheaderlen = some (r, is') := by
  rw [parseHeaders, IStream.whileGood, if_pos good, left]
  cases r with
  | ok h' => rfl
  | error e =>
    cases e with
    | lineSizeExceeded e => exact absurd rfl (short e)
    | _ => rfl

theorem parseHeaders_long (fuel : Nat) (good : is.good = true) {e : SizeExceededException}
    (read : getLineFromStream is maxlinelen = .error (.lineSizeExceeded e)) :
    parseHeaders (fuel + 1) h is maxlinelen maxheaderlen = some (.error (.lineSizeExceeded e), lineRead is maxlinelen) := by
  rw [parseHeaders, IStream.whileGood, if_pos good, MIMEHeader.parseLine, read]

theorem parseLine_read {line : Bytes} {is' : IStream UInt8} (read : getLineFromStream is maxlinelen = .ok (line, is')) :
    MIMEHeader.parseLine maxlinelen maxheaderlen h is =
      if (trimENDL line).isEmpty then .done (.ok { h with fParsedHeaderLength := h.fParsedHeaderLength + line.length }) is'
      else if h.fParsedHeaderLength + line.length > maxheaderlen then
        .done (.error (.requestSizeExceeded (sizeExceeded (ascii "Header size exceeded") (trimENDL line) maxheaderlen
          (h.fParsedHeaderLength + line.length)))) is'
      else .again { h with
        fHeader := splitAndAddHeaderLine h.fHeader (trimENDL line) h.fNormalizeKey
        fParsedHeaderLength := h.fParsedHeaderLength + line.length } is' := by
  rw [MIMEHeader.parseLine, read]

theorem headerLines_cons {text line rest : Bytes} (first : lines text = line :: lines rest) (some : (trimENDL line).isEmpty = false) :
    headerLines text = line :: headerLines rest := by
  rw [headerLines, first, List.takeWhile_cons, some]
  rfl

theorem headerLines_empty {text line rest : Bytes} (first : lines text = line :: lines rest) (empty : (trimENDL line).isEmpty = true) :
    headerLines text = [] := by
  rw [headerLines, first, List.takeWhile_cons, empty]
  rfl

/-- What becomes of the loop from one of its turns on: the induction is on the turns, and the budget goes from one to the next. -/
theorem parseHeaders_on (fuel maxlinelen maxheaderlen : Nat) (h : MIMEHeader D) (is : IStream UInt8) (enough : is.rest.length < fuel)
    (budget : h.fParsedHeaderLength ≤ maxheaderlen) :
    ∃ r is', parseHeaders fuel h is maxlinelen maxheaderlen = some (r, is') ∧
      (∃ taken, is.rest = taken ++ is'.rest ∧ h.fParsedHeaderLength + taken.length ≤ maxheaderlen + maxlinelen + 1) ∧
      ∀ h', r = .ok h' → (∀ line ∈ (lines is.rest).take ((headerLines is.rest).length + 1), line.length ≤ maxlinelen) ∧
        h.fParsedHeaderLength + (headerLines is.rest).flatten.length ≤ maxheaderlen := by
  induction fuel generalizing h is with
  | zero => exact absurd enough (Nat.not_lt_zero _)
  | succ fuel ih =>
    cases good : is.good with
    | false => exact ⟨_, is, parseHeaders_stop _ good, ⟨[], rfl, Nat.le_succ_of_le (Nat.le_add_right_of_le budget)⟩, nofun⟩
    | true =>
      obtain ⟨text, rfl⟩ : ∃ text, is = on text := ⟨is.rest, IStream.eq_on good⟩
      obtain ⟨line, is', read, whole⟩ | ⟨e, read, taken, parts, bound⟩ := getLineFromStream_on text maxlinelen
      · have parts := whole.parts
        have size := congrArg List.length parts
        have fits := whole.fits
        rw [List.length_append] at size
        rw [IStream.rest_on] at enough ⊢
        have turn := @parseLine_read D maxlinelen maxheaderlen h (on text) line is' read
        cases empty : (trimENDL line).isEmpty with
        | true =>
          rw [empty, if_pos rfl] at turn
          refine ⟨_, is', parseHeaders_done fuel good turn nofun, ⟨line, parts, by omega⟩, fun h' _ => ?_⟩
          by_cases none : line = []
          · rw [whole.empty none]
            exact ⟨nofun, budget⟩
          · rw [headerLines_empty (whole.next none) empty, whole.next none]
            refine ⟨fun l mem => ?_, budget⟩
            obtain rfl := List.mem_singleton.mp mem
            exact fits
        | false =>
          have some : line ≠ [] := by
            rintro rfl
            cases empty
          rw [empty, if_neg Bool.false_ne_true] at turn
          by_cases large : h.fParsedHeaderLength + line.length > maxheaderlen
          · rw [if_pos large] at turn
            exact ⟨_, is', parseHeaders_done fuel good turn nofun, ⟨line, parts, by omega⟩, nofun⟩
          · rw [if_neg large] at turn
            have pos := List.length_pos_iff.mpr some
            obtain ⟨h₁, size₁, turn⟩ : ∃ h₁ : MIMEHeader D, h₁.fParsedHeaderLength = h.fParsedHeaderLength + line.length ∧
              MIMEHeader.parseLine maxlinelen maxheaderlen h (on text) = .again h₁ is' := ⟨_, rfl, turn⟩
            obtain ⟨r, is'', parsed, ⟨taken, rest, bound⟩, limits⟩ := ih h₁ is' (by omega) (by omega)
            refine ⟨r, is'', (parseHeaders_again fuel good turn).trans parsed, ⟨line ++ taken, ?_, ?_⟩, fun h' ok => ?_⟩
            · rw [parts, rest, List.append_assoc]
            · rw [List.length_append]
              omega
            · obtain ⟨short, total⟩ := limits h' ok
              rw [headerLines_cons (whole.next some) empty, whole.next some, List.flatten_cons, List.length_append]
              refine ⟨fun l mem => ?_, by omega⟩
              rw [List.length_cons, List.take_succ_cons] at mem
              obtain rfl | later := List.mem_cons.mp mem
              · exact fits
              · exact short l later
      · exact ⟨_, _, parseHeaders_long fuel good read, ⟨taken, parts, by omega⟩, nofun⟩

end Headers

/-! ### Reading the request -/

theorem parseRequestLine_ok {ctx : Context} {line : Bytes} {request : Slots D} (read : parseRequestLine ctx [] line = (.ok (), request)) :
    ∃ uri, Value.lookup request (ascii "REQUEST_URI") = some (.string uri) ∧ uri.length ≤ ctx.uriSizeLimit ∧
      uri = textAt (slotsOf (split line ' '.toUInt8 .null ' '.toUInt8 .eUntouched : AnyTree D)) 1 := by
  rw [parseRequestLine] at read
  dsimp only at read
  split at read
  · cases congrArg Prod.fst read
  · split at read
    · split at read
      · cases congrArg Prod.fst read
      · rename_i _ _ fits
        split at read
        · have same := congrArg Prod.snd read
          dsimp only at same
          exact ⟨_, by rw [← same]; rfl, Nat.le_of_not_lt fits, rfl⟩
        · cases congrArg Prod.fst read
    · cases congrArg Prod.fst read

theorem handleFirstLine_ok {ctx : Context} {line : Bytes} {request : Slots D} (read : handleFirstLine ctx [] line = (.ok (), request)) :
    (trimENDL line).isEmpty = false ∧ parseRequestLine ctx [] (trimENDL line) = (.ok (), request) := by
  rw [handleFirstLine] at read
  split at read
  · cases congrArg Prod.fst read
  · split at read
    · cases congrArg Prod.fst read
    · rename_i some _
      exact ⟨Bool.eq_false_of_not_eq_true some, read⟩

theorem handle_ok (ctx : Context) (e : Thrown) : ∃ errorcode msg content,
    handle ctx e = .ok (putErrorMessageIntoContext ctx errorcode msg content (ascii "HTTPRequestReader::DoReadRequest")) := by
  obtain ⟨cls, fMessage, fLine, fCode⟩ := e
  cases cls <;> exact ⟨_, _, _, rfl⟩

/-- The request line, the lines of the header and the `URI` are within the limits. -/
def WithinLimits (ctx : Context) (text : Bytes) (reader : HTTPRequestReader D) : Prop :=
  ∃ line rest uri, text = line ++ rest ∧ lines text = line :: lines rest ∧ line.length ≤ ctx.lineSizeLimit ∧
    (∀ l ∈ (lines rest).take ((headerLines rest).length + 1), l.length ≤ ctx.lineSizeLimit) ∧
    line.length + (headerLines rest).flatten.length ≤ ctx.requestSizeLimit ∧
    Value.lookup reader.fRequest (ascii "REQUEST_URI") = some (.string uri) ∧ uri.length ≤ ctx.uriSizeLimit ∧
    uri = textAt (slotsOf (split (trimENDL line) ' '.toUInt8 .null ' '.toUInt8 .eUntouched : AnyTree D)) 1

theorem tryRead_limits (fuel : Nat) (ctx : Context) (is : IStream UInt8) (enough : is.rest.length < fuel) :
    ∃ r is', tryRead (D := D) fuel ctx {} is = some (r, is') ∧
      (∃ taken, is.rest = taken ++ is'.rest ∧ taken.length ≤ ctx.requestSizeLimit + ctx.lineSizeLimit + 1) ∧
      ∀ reader, r = .ok reader → WithinLimits ctx is.rest reader := by
  rw [tryRead]
  cases good : is.good with
  | false =>
    have failed : getLineFromStream is ctx.lineSizeLimit = .error .streamNotGood := by
      rw [getLineFromStream, good]
      rfl
    have kept : lineRead is ctx.lineSizeLimit = is := by
      rw [lineRead, good]
      rfl
    rw [failed]
    exact ⟨_, _, rfl, ⟨[], by rw [kept]; rfl, Nat.zero_le _⟩, nofun⟩
  | true =>
    obtain ⟨text, rfl⟩ : ∃ text, is = on text := ⟨is.rest, IStream.eq_on good⟩
    obtain ⟨line, is', read, whole⟩ | ⟨e, read, taken, parts, bound⟩ := getLineFromStream_on text ctx.lineSizeLimit
    · have parts := whole.parts
      have size := congrArg List.length parts
      have fits := whole.fits
      rw [List.length_append] at size
      rw [IStream.rest_on] at enough ⊢
      rw [read]
      dsimp only
      rw [Nat.zero_add]
      by_cases large : line.length > ctx.requestSizeLimit
      · rw [if_pos large]
        exact ⟨_, is', rfl, ⟨line, parts, by omega⟩, nofun⟩
      · rw [if_neg large]
        cases first : handleFirstLine (D := D) ctx [] line with
        | mk r request =>
          cases r with
          | error e => exact ⟨_, is', rfl, ⟨line, parts, by omega⟩, nofun⟩
          | ok _ =>
            obtain ⟨some, request_ok⟩ := handleFirstLine_ok first
            obtain ⟨uri, found, uriFits, isUri⟩ := parseRequestLine_ok request_ok
            obtain ⟨r, is'', parsed, ⟨taken, rest, bound⟩, limits⟩ :=
              parseHeaders_on fuel ctx.lineSizeLimit (ctx.requestSizeLimit - line.length) ({} : MIMEHeader D) is' (by omega) (Nat.zero_le _)
            have start : ({} : MIMEHeader D).fParsedHeaderLength = 0 := rfl
            rw [start] at bound limits
            have taken' : text = (line ++ taken) ++ is''.rest := by rw [List.append_assoc, ← rest]; exact parts
            have bound' : (line ++ taken).length ≤ ctx.requestSizeLimit + ctx.lineSizeLimit + 1 := by
              rw [List.length_append]
              omega
            dsimp only
            rw [parsed]
            cases r with
            | error e => exact ⟨_, is'', rfl, ⟨line ++ taken, taken', bound'⟩, nofun⟩
            | ok h =>
              dsimp only
              by_cases none : line.length + h.fParsedHeaderLength = 0
              · rw [if_pos none]
                exact ⟨_, is'', rfl, ⟨line ++ taken, taken', bound'⟩, nofun⟩
              · rw [if_neg none]
                refine ⟨_, is'', rfl, ⟨line ++ taken, taken', bound'⟩, fun reader same => ?_⟩
                cases same
                obtain ⟨short, total⟩ := limits h rfl
                have named : line ≠ [] := by
                  rintro rfl
                  cases some
                exact ⟨line, is'.rest, uri, parts, whole.next named, fits, short, by omega, found, uriFits, isUri⟩
    · rw [read]
      exact ⟨_, _, rfl, ⟨taken, parts, by omega⟩, nofun⟩

theorem tryRead_enough {fuel more : Nat} (le : fuel ≤ more) (ctx : Context) (reader : HTTPRequestReader D) {is : IStream UInt8}
    (enough : is.rest.length < fuel) : tryRead more ctx reader is = tryRead fuel ctx reader is := by
  have turns : ∀ line is', getLineFromStream is ctx.lineSizeLimit = .ok (line, is') → ∀ h maxheaderlen,
      parseHeaders (D := D) more h is' ctx.lineSizeLimit maxheaderlen = parseHeaders fuel h is' ctx.lineSizeLimit maxheaderlen := by
    intro line is' read h maxheaderlen
    have shorter : is'.rest.length ≤ is.rest.length := by
      cases good : is.good with
      | false =>
        rw [getLineFromStream, good] at read
        cases read
      | true =>
        rw [IStream.eq_on good] at read
        obtain ⟨line', is'', read', whole⟩ | ⟨e, failed, -⟩ := getLineFromStream_on is.rest ctx.lineSizeLimit
        · obtain ⟨-, rfl⟩ := Prod.mk.inj (Except.ok.inj (read.symm.trans read'))
          rw [whole.parts, List.length_append]
          exact Nat.le_add_left _ _
        · cases read.symm.trans failed
    rw [parseHeaders, parseHeaders,
      IStream.whileGood_enough (parseLine_advances ctx.lineSizeLimit maxheaderlen) le h (Nat.lt_of_le_of_lt shorter enough)]
  rw [tryRead, tryRead]
  cases read : getLineFromStream is ctx.lineSizeLimit with
  | error e => rfl
  | ok pair =>
    obtain ⟨line, is'⟩ := pair
    dsimp only
    rw [turns line is' read]

end HTTPRequestReader

end Coast.Http
