import Coast.Anything.SlotCleaner
import Coast.Lib.Streams
import Coast.Text.Quoting

/-!
# The parser for XML

`GenericXMLParser` reads a stream with one character of lookahead and makes a tree of `Anything`s. It goes on behind
errors, which it notes in the slot `Errors` of the tree that it is about to return. The loops are given a number of
rounds; a run that needs more has no result.
-/

/-- `putback`, which also forgets that the end has been seen. -/
def IStream.putback {α : Type*} (is : IStream α) (c : α) : IStream α :=
  if is.failbit then { is with eofbit := false } else { is with rest := c :: is.rest, eofbit := false }

namespace Coast.Xml

abbrev Tree := Any Bytes Unit

structure GenericXMLParser where
  fParseTree : Tree
  fReader : IStream UInt8
  fFileName : Bytes
  fLine : Int

abbrev ParserM := StateT GenericXMLParser Option

def unended {α : Type} : ParserM α := fun _ => none

/-! ### Characters -/

def isalpha (c : UInt8) : Bool := isupper c || islower c

def tolower (c : UInt8) : UInt8 := if isupper c then c + 32 else c

/-- `char(c)`; `none` is `EOF`. -/
def toChar (c : Option UInt8) : UInt8 := c.getD 255

def isValidNameChar (c : Option UInt8) : Bool :=
  c.any fun c => isalpha c || c == '-'.toUInt8 || c == '_'.toUInt8 || c == '.'.toUInt8 || c == ':'.toUInt8

/-- `AppendAsHex`. -/
def asHex (c : UInt8) : Bytes := [hexDigit (c >>> 4 &&& 15), hexDigit (c &&& 15)]

def Tree.named (key : Bytes) (value : Tree) : Tree := Any.withName () key (fun _ => value) .null

namespace GenericXMLParser

def get : ParserM (Option UInt8) := fun p =>
  if p.fReader.eofbit then some (some 0, p)
  else
    some (p.fReader.get.1, { p with
      fReader := p.fReader.get.2
      fLine := if p.fReader.get.1 = some '\n'.toUInt8 then p.fLine + 1 else p.fLine })

def peek : ParserM (Option UInt8) := fun p =>
  if p.fReader.eofbit then some (some 0, p) else some (p.fReader.peek.1, { p with fReader := p.fReader.peek.2 })

def putBack (c : UInt8) : ParserM Unit := fun p =>
  some ((), { p with fReader := p.fReader.putback c, fLine := if c = '\n'.toUInt8 then p.fLine - 1 else p.fLine })

def isEof : ParserM Bool := fun p => some (!p.fReader.good, p)

def error (msg : Bytes) : ParserM Unit := fun p =>
  let m : Bytes := ascii " " ++ p.fFileName ++ ascii ".xml:" ++ longText p.fLine ++ ascii " " ++ msg.takeWhile (· != 0)
  some ((), { p with fParseTree := p.fParseTree.withName () (ascii "Errors") fun errors => Any.append () (.simple m) errors })

/-! ### Names and values -/

def skipWhitespace : Nat → ParserM Unit
  | 0 => unended
  | fuel + 1 => do
    if ← isEof then pure ()
    else do
      let c ← peek
      if c.any isspace then do
        let _ ← get
        skipWhitespace fuel
      else pure ()

/-- `ParseName`, with what has been read of the name. -/
def parseName : Nat → Bytes → ParserM Bytes
  | 0, _ => unended
  | fuel + 1, theName => do
    if ← isEof then pure theName
    else do
      let c ← peek
      if isValidNameChar c || (c.any isdigit && !theName.isEmpty) then do
        let c ← get
        parseName fuel (theName ++ [toChar c])
      else pure theName

def readUpTo (stop : Option UInt8) : Nat → Bytes → ParserM Bytes
  | 0, _ => unended
  | fuel + 1, value => do
    if ← isEof then pure value
    else do
      let c ← get
      if c = stop then pure value else readUpTo stop fuel (value ++ [toChar c])

def parseToSemicolon (fuel : Nat) : ParserM Bytes := readUpTo (some ';'.toUInt8) fuel []

def parseQuotedString (fuel : Nat) : ParserM Bytes := do
  skipWhitespace fuel
  let quote ← get
  readUpTo quote fuel []

def readWhile (more : UInt8 → Bool) : Nat → Bytes → ParserM Bytes
  | 0, _ => unended
  | fuel + 1, value => do
    let c ← get
    let next ← peek
    if next.any more then readWhile more fuel (value ++ [toChar c]) else pure (value ++ [toChar c])

def parseValue (fuel : Nat) : ParserM Bytes := do
  let c ← peek
  if c = some '\''.toUInt8 ∨ c = some '"'.toUInt8 then parseQuotedString fuel
  else if isValidNameChar c then parseName fuel []
  else if c.any isdigit then readWhile (fun c => isdigit c || c == '%'.toUInt8) fuel []
  else if c = some '#'.toUInt8 then readWhile isxdigit fuel []
  else pure []

def parseAttribute (fuel : Nat) : ParserM (Bool × Bytes × Bytes) := do
  let name ← parseName fuel []
  skipWhitespace fuel
  let c ← peek
  if c = some '='.toUInt8 then do
    let _ ← get
    skipWhitespace fuel
    let value ← parseValue fuel
    pure (true, name.map tolower, value)
  else pure (false, name.map tolower, [])

/-- What `ParseTag` does with what is neither the end of the tag nor of the input. A character that cannot be used leaves an
empty text: it is taken for the capacity of one. -/
def parseTagItem (fuel : Nat) (tag : Bytes) (tagAttributes : Tree) : ParserM Tree := do
  let item ← parseAttribute fuel
  if item.1 then pure (tagAttributes.withName () item.2.1 fun _ => .simple item.2.2)
  else if 0 < item.2.1.length then pure (Any.append () (.simple item.2.1) tagAttributes)
  else do
    let c ← get
    error (ascii "Unexpected character <" ++ asHex (toChar c) ++ ascii "> near " ++ tag)
    pure (Any.append () (.simple []) tagAttributes)

def parseTagLoop (tag : Bytes) : Nat → Tree → ParserM (Bool × Tree)
  | 0, _ => unended
  | fuel + 1, tagAttributes => do
    if ← isEof then do
      error (ascii "unexpected EOF in Tag")
      pure (false, tagAttributes)
    else do
      skipWhitespace (fuel + 1)
      let c ← peek
      if c = some '>'.toUInt8 then do
        let _ ← get
        pure (true, tagAttributes)
      else if c = some '/'.toUInt8 then do
        let _ ← get
        let c ← peek
        if c = some '>'.toUInt8 then do
          let _ ← get
          pure (false, tagAttributes)
        else do
          putBack '/'.toUInt8
          let tagAttributes ← parseTagItem (fuel + 1) tag tagAttributes
          parseTagLoop tag fuel tagAttributes
      else do
        let tagAttributes ← parseTagItem (fuel + 1) tag tagAttributes
        parseTagLoop tag fuel tagAttributes

def parseTag (fuel : Nat) : ParserM (Bool × Bytes × Tree) := do
  let tag ← parseName fuel []
  let read ← parseTagLoop tag fuel .null
  pure (read.1, tag, read.2)

/-! ### Declarations -/

def skipToClosing : Nat → Bytes → ParserM Bytes
  | 0, _ => unended
  | fuel + 1, result => do
    let c ← get
    if c = none ∨ c = some 0 ∨ c = some '>'.toUInt8 then pure result else skipToClosing fuel (result ++ [toChar c])

def skipToClosingAngleBracket (fuel : Nat) : ParserM Bytes := skipToClosing fuel []

/-- The value up to the end of the instruction, or none at the end of the input. -/
def readInstruction : Nat → Bytes → ParserM (Option Bytes)
  | 0, _ => unended
  | fuel + 1, value => do
    let c ← get
    if c = none ∨ c = some 0 then pure none
    else if c = some '?'.toUInt8 then do
      let next ← peek
      if next = some '>'.toUInt8 then do
        let _ ← get
        pure (some value)
      else readInstruction fuel (value ++ [toChar c])
    else readInstruction fuel (value ++ [toChar c])

def parseXmlOrProcessingInstruction (fuel : Nat) : ParserM Tree := do
  let c ← get
  let name ← parseName fuel []
  let value ← readInstruction fuel []
  match value with
  | some value => pure (Tree.named (toChar c :: name) (.simple value))
  | none => do
    error (ascii "unexpected EOF in processing instruction " ++ (toChar c :: name))
    let _ ← skipToClosingAngleBracket fuel
    pure .null

/-- The `]` after the first two, and the character behind them. -/
def skipExceeding : Nat → Bytes → ParserM (Option UInt8 × Bytes)
  | 0, _ => unended
  | fuel + 1, result => do
    let c ← get
    if c = some ']'.toUInt8 then skipExceeding fuel (result ++ [']'.toUInt8]) else pure (c, result)

def skipToCdata : Nat → Bytes → ParserM Bytes
  | 0, _ => unended
  | fuel + 1, result => do
    let c ← get
    if c = none ∨ c = some 0 then do
      error (ascii "unexpected EOF in <![CDATA[")
      pure result
    else if c = some ']'.toUInt8 then do
      let next ← peek
      if next = some ']'.toUInt8 then do
        let _ ← get
        let behind ← skipExceeding (fuel + 1) result
        if behind.1 = some '>'.toUInt8 then pure behind.2
        else skipToCdata fuel (behind.2 ++ [']'.toUInt8, ']'.toUInt8, toChar behind.1])
      else skipToCdata fuel (result ++ [toChar c])
    else skipToCdata fuel (result ++ [toChar c])

def skipToCdataClosing (fuel : Nat) : ParserM Bytes := skipToCdata fuel []

def parseCdata (fuel : Nat) : ParserM Tree := do
  let _ ← get
  skipWhitespace fuel
  let name ← parseName fuel []
  skipWhitespace fuel
  let key := ascii "![" ++ name
  let c ← get
  if c = some '['.toUInt8 then do
    if key = ascii "![CDATA" then do
      let text ← skipToCdataClosing fuel
      pure (Tree.named key (.simple text))
    else do
      error (ascii "wrong key (not CDATA) in <![:" ++ key)
      let text ← skipToClosingAngleBracket fuel
      pure (Tree.named key (.simple text))
  else do
    error (ascii "unexpected characer in <![ (not [)")
    let text ← skipToClosingAngleBracket fuel
    pure (Tree.named key (.simple text))

/-- `GSR`: the character that is read and the comment with it. -/
def gsr (comment : Bytes) : ParserM (Option UInt8 × Bytes) := do
  let c ← get
  pure (c, comment ++ [toChar c])

def skipCommentSpace : Nat → Bytes → ParserM (Option UInt8 × Bytes)
  | 0, _ => unended
  | fuel + 1, comment => do
    let read ← gsr comment
    if read.1.any isspace then skipCommentSpace fuel read.2 else pure read

/-- `while (c == '-')`. -/
def skipDashes : Nat → Option UInt8 × Bytes → ParserM (Option UInt8 × Bytes)
  | 0, _ => unended
  | fuel + 1, read =>
    if read.1 = some '-'.toUInt8 then do
      let read ← gsr read.2
      skipDashes fuel read
    else pure read

def skipComment : Nat → Option UInt8 × Bytes → ParserM Bytes
  | 0, _ => unended
  | fuel + 1, read =>
    if read.1 = none ∨ read.1 = some 0 then pure read.2
    else if read.1 = some '-'.toUInt8 then do
      let read ← gsr read.2
      if read.1 = some '-'.toUInt8 then do
        let read ← gsr read.2
        let read ← skipDashes (fuel + 1) read
        if read.1 = some '>'.toUInt8 then pure read.2
        else do
          let read ← gsr read.2
          skipComment fuel read
      else do
        let read ← gsr read.2
        skipComment fuel read
    else do
      let read ← gsr read.2
      skipComment fuel read

/-- What `ParseComment` does with a character that does not open a comment. -/
def parseNoComment (fuel : Nat) (c : Option UInt8) : ParserM Tree := do
  error (ascii "Unexpected character or EOF in Comment: " ++ [toChar c])
  if c = some '>'.toUInt8 then pure (Tree.named (ascii "!--") (.simple []))
  else do
    let comment ← skipToClosingAngleBracket fuel
    pure (Tree.named (ascii "!--") (.simple comment))

def parseComment (fuel : Nat) : ParserM Tree := do
  let c ← get
  if c = some '-'.toUInt8 then do
    let c ← get
    if c = some '-'.toUInt8 then do
      let read ← skipCommentSpace fuel []
      let comment ← skipComment (fuel + 1) read
      pure (Tree.named (ascii "!--") (.simple (comment.take (comment.length - 3))))
    else parseNoComment fuel c
  else parseNoComment fuel c

def parseExternalId (fuel : Nat) : ParserM Tree := do
  let systemOrPublic ← parseName fuel []
  skipWhitespace fuel
  if systemOrPublic = ascii "PUBLIC" then do
    let id ← parseQuotedString fuel
    let location ← parseQuotedString fuel
    pure ((Tree.named systemOrPublic (.simple id)).withName () systemOrPublic fun ids => Any.append () (.simple location) ids)
  else do
    let location ← parseQuotedString fuel
    pure (Any.withName () systemOrPublic (fun ids => Any.append () (.simple location) ids) .null)

/-- `error:` in `ParseCommentCdataOrDtd`. -/
def parseUnexpected (fuel : Nat) (c : Option UInt8) : ParserM Tree := do
  error (ascii "unexpected character in <! element: " ++ [toChar c])
  let text ← skipToClosingAngleBracket fuel
  pure (Tree.named (ascii "!") (.simple text))

/-- `ParseCommentCdataOrDtd(true)`. -/
def parseCommentOrDtd (fuel : Nat) : ParserM Tree := do
  let c ← get
  let next ← peek
  if next = some '-'.toUInt8 then parseComment fuel
  else if next = some 'E'.toUInt8 ∨ next = some 'A'.toUInt8 ∨ next = some 'N'.toUInt8 then do
    let name ← parseName fuel []
    let text ← skipToClosingAngleBracket fuel
    pure (Tree.named (ascii "!" ++ name) (.simple text))
  else parseUnexpected fuel c

def parseDtdElementsLoop : Nat → Option UInt8 → Tree → ParserM Tree
  | 0, _, _ => unended
  | fuel + 1, c, result => do
    if ← isEof then pure result
    else if c = some ']'.toUInt8 then pure result
    else do
      skipWhitespace (fuel + 1)
      let c ← get
      if c = some '%'.toUInt8 then do
        let peref ← parseToSemicolon (fuel + 1)
        parseDtdElementsLoop fuel c (Any.append () (.simple (ascii "%" ++ peref ++ ascii ";")) result)
      else if c = some '<'.toUInt8 then do
        let next ← peek
        if next = some '?'.toUInt8 then do
          let element ← parseXmlOrProcessingInstruction (fuel + 1)
          parseDtdElementsLoop fuel c (Any.append () element result)
        else if next = some '!'.toUInt8 then do
          let element ← parseCommentOrDtd (fuel + 1)
          parseDtdElementsLoop fuel c (Any.append () element result)
        else do
          error (ascii "invalid < character seqence within DTD")
          let text ← skipToClosingAngleBracket (fuel + 1)
          parseDtdElementsLoop fuel c (Any.append () (.simple text) result)
      else if c = some ']'.toUInt8 then parseDtdElementsLoop fuel c result
      else do
        error (ascii "invalid character within DTD ignored")
        parseDtdElementsLoop fuel c result

def parseDtdElements (fuel : Nat) : ParserM Tree := do
  let c ← get
  parseDtdElementsLoop fuel c .null

/-- The end of `ParseDtd`. -/
def parseDtdEnd (fuel : Nat) (result : Tree) : ParserM Tree := do
  skipWhitespace fuel
  let c ← peek
  if c = some '>'.toUInt8 then do
    let _ ← get
    pure result
  else do
    error (ascii "DTD syntax error")
    let text ← skipToClosingAngleBracket fuel
    pure (Any.append () (.simple text) result)

/-- `ParseDtd` behind the external id. -/
def parseDtdBody (fuel : Nat) (result : Tree) : ParserM Tree := do
  skipWhitespace fuel
  let c ← peek
  if c = some '['.toUInt8 then do
    let elements ← parseDtdElements fuel
    parseDtdEnd fuel (Any.append () elements result)
  else parseDtdEnd fuel result

def parseDtd (fuel : Nat) : ParserM Tree := do
  let name ← parseName fuel []
  let doctype := ascii "!" ++ name
  if doctype = ascii "!DOCTYPE" then do
    skipWhitespace fuel
    let rootnodename ← parseName fuel []
    let result := Tree.named doctype (.simple rootnodename)
    skipWhitespace fuel
    let c ← peek
    if c = some 'S'.toUInt8 ∨ c = some 'P'.toUInt8 then do
      let externalid ← parseExternalId fuel
      parseDtdBody fuel (Any.append () externalid result)
    else parseDtdBody fuel (Any.append () .null result)
  else do
    error (ascii "invalid <! tag")
    let text ← skipToClosingAngleBracket fuel
    pure (Tree.named doctype (.simple text))

def parseCommentCdataOrDtd (fuel : Nat) : ParserM Tree := do
  let c ← get
  let next ← peek
  if next = some '-'.toUInt8 then parseComment fuel
  else if next = some '['.toUInt8 then parseCdata fuel
  else if next = some 'D'.toUInt8 then parseDtd fuel
  else parseUnexpected fuel c

/-! ### Texts and tags -/

/-- `tagbody.Append(body)`; `none` is the tree of the parser. -/
def appendTo (tagbody : Option Tree) (body : Tree) : ParserM (Option Tree) :=
  match tagbody with
  | some tagbody => pure (some (Any.append () body tagbody))
  | none => fun p => some (none, { p with fParseTree := Any.append () body p.fParseTree })

/-- `Store` of a text. -/
def storeText (tagbody : Option Tree) (literal : Bytes) : ParserM (Option Tree) :=
  if 0 < literal.length then appendTo tagbody (.simple literal) else pure tagbody

/-- `Store` of an `Anything`. -/
def store (tagbody : Option Tree) (body : Tree) : ParserM (Option Tree) :=
  if body.isNull then pure tagbody else appendTo tagbody body

def doParseLoop : Nat → Bytes → Option Tree → Bytes → ParserM (Option Tree)
  | 0, _, _, _ => unended
  | fuel + 1, theTag, tagbody, reply => do
    let c ← get
    if c = none ∨ c = some 0 then storeText tagbody reply
    else if c = some '<'.toUInt8 then do
      let tagbody ← storeText tagbody reply
      let lookahead ← peek
      if lookahead = some '!'.toUInt8 then do
        let body ← parseCommentCdataOrDtd (fuel + 1)
        let tagbody ← store tagbody body
        doParseLoop fuel theTag tagbody []
      else if lookahead = some '/'.toUInt8 then do
        let _ ← get
        let tagname ← parseName (fuel + 1) []
        let c ← peek
        if c = some '>'.toUInt8 ∧ tagname = theTag then do
          let _ ← get
          pure tagbody
        else do
          error (ascii "Unexpected character <x" ++ asHex (toChar c) ++ ascii "> or mismatched tag: " ++ tagname ++
            ascii " expected: " ++ theTag)
          doParseLoop fuel theTag tagbody (ascii "</" ++ tagname)
      else if lookahead = some '?'.toUInt8 then do
        let body ← parseXmlOrProcessingInstruction (fuel + 1)
        let tagbody ← store tagbody body
        doParseLoop fuel theTag tagbody []
      else if isValidNameChar lookahead then do
        let tag ← parseTag (fuel + 1)
        let subTag := Tree.named tag.2.1 tag.2.2
        if tag.1 then do
          let subTag ← doParseLoop fuel tag.2.1 (some subTag) []
          let tagbody ← store tagbody (subTag.getD .null)
          doParseLoop fuel theTag tagbody []
        else do
          let tagbody ← store tagbody subTag
          doParseLoop fuel theTag tagbody []
      else doParseLoop fuel theTag tagbody (ascii "<")
    else if c = some '\r'.toUInt8 then do
      let next ← peek
      if next = some '\n'.toUInt8 then do
        let _ ← get
        doParseLoop fuel theTag tagbody (reply ++ ['\n'.toUInt8])
      else doParseLoop fuel theTag tagbody (reply ++ ['\n'.toUInt8])
    else doParseLoop fuel theTag tagbody (reply ++ [toChar c])

/-- `DoParse` of the tree of the parser. -/
def doParse (fuel : Nat) (theTag : Bytes) : ParserM (Option Tree) := doParseLoop fuel theTag none []

/-- The tree that `Parse` returns, and the parser behind the input. -/
def parse (fuel : Nat) (reader : IStream UInt8) (filename : Bytes) (startline : Int) : Option (Tree × GenericXMLParser) :=
  (doParse fuel [] ⟨.null, reader, filename, startline⟩).map fun run => (run.2.fParseTree, run.2)

end GenericXMLParser

end Coast.Xml
