import Coast.Anything.AnyMerge
import Coast.Regex.Program
import Coast.Xml.Parser

/-!
# The parser for HTML templates

`TemplateParser` copies the HTML of a template and takes the macros in it apart. It looks ahead by reading on and putting back
what it takes to have read. The loops are given a number of rounds; a run that needs more has no result. What is only written
to the log is left out.
-/

namespace Coast.Renderer

open Regex (cstr caselessEq)
open Xml (isalpha tolower toChar isValidNameChar)

inductive Simple where
  | text (t : Bytes)
  | other (t : Bytes)

abbrev Value := Any Simple Unit

def literal (t : Bytes) : Value := .simple (.text t)

def Simple.asText : Simple → Bytes
  | text t => t
  | other t => t

def conversions : Conversions Simple := ⟨Simple.asText, Simple.asText, fun s k => s.asText == k⟩

/-- The text of a value of the type `AnyCharPtrType`. -/
def charPtr : Value → Option Bytes
  | .simple (.text t) => some t
  | _ => none

/-- The slots as they are counted by `GetSize`. -/
def slots : Value → List (Option Bytes × Value)
  | .null => []
  | .simple s => [(none, .simple s)]
  | .array _ slots => slots

/-- What the parser finds around it: the reading of an `Anything`, the renderers, whether the action of a form is an action, a
token of a role or a slot of the page, and whether a stream buffer puts another character in the place of the one behind
what it is given. -/
structure Environment where
  importAny : Bytes → Value
  findRenderer : Bytes → Bool
  findAction : Bytes → Bool
  replaces : Bytes → Bool

def Environment.inMemory (env : Environment) : Environment := { env with replaces := fun _ => false }

/-- The parser, with what its stream has read, last first, and the `AttrNameCase` that is configured for a tag. -/
structure TemplateParser where
  fCache : List Value
  fReader : IStream UInt8
  passed : Bytes
  attrNameCase : Bytes → Bytes

abbrev ParserM := StateT TemplateParser Option

def unended {α : Type} : ParserM α := fun _ => none

def storeInto (cache : Value) (literal : Bytes) : Value :=
  if 0 < literal.length then Any.append () (.simple (.text literal)) cache else cache

/-- `CompactHTMLBlocks`, with the block that is not stored yet. -/
def compactHTMLBlocks : Bytes → List Value → List Value
  | htmlBlock, [] => if 0 < htmlBlock.length then [literal htmlBlock] else []
  | htmlBlock, a :: cache =>
    match charPtr a with
    | some text => compactHTMLBlocks (htmlBlock ++ cstr text) cache
    | none => (if 0 < htmlBlock.length then [literal htmlBlock] else []) ++ a :: compactHTMLBlocks [] cache

/-- The cache as an `Anything`, to which its values have been appended. -/
def asAnything (cache : List Value) : Value := cache.foldl (fun c value => Any.append () value c) .null

def literals (cache : List Value) : Bytes := cache.flatMap fun a => (charPtr a).getD []

/-- `?` and `%`. -/
def isMark (c : Option UInt8) : Bool := c == some '?'.toUInt8 || c == some '%'.toUInt8

namespace TemplateParser

def get : ParserM (Option UInt8) := fun p =>
  if p.fReader.good then
    some (p.fReader.get.1, { p with fReader := p.fReader.get.2, passed := p.fReader.get.1.toList ++ p.passed })
  else some (some 0, p)

def peek : ParserM (Option UInt8) := fun p =>
  if p.fReader.good then some (p.fReader.peek.1, { p with fReader := p.fReader.peek.2 }) else some (some 0, p)

def putBack (env : Environment) (c : UInt8) : ParserM Unit := fun p =>
  match p.passed with
  | last :: passed =>
    if p.fReader.failbit ∨ last = c ∨ env.replaces passed then
      some ((), { p with fReader := p.fReader.putback c, passed := if p.fReader.failbit then p.passed else passed })
    else some ((), { p with fReader := { p.fReader with eofbit := false, failbit := true } })
  | [] => some ((), { p with fReader := { p.fReader with eofbit := false, failbit := true } })

def isGood : ParserM Bool := fun p => some (!p.fReader.good, p)

/-- `Store` of a text. -/
def storeText (literal : Bytes) : ParserM Unit := fun p =>
  some ((), if 0 < literal.length then { p with fCache := p.fCache ++ [.simple (.text literal)] } else p)

/-- `Store` of an `Anything`. -/
def store (rendererspec : Value) : ParserM Unit := fun p =>
  some ((), if rendererspec.isNull then p else { p with fCache := p.fCache ++ [rendererspec] })

/-! ### Names and white space -/

def skipWhitespace : Nat → ParserM Unit
  | 0 => unended
  | fuel + 1 => do
    if ← isGood then pure ()
    else do
      let c ← peek
      if c.any isspace then do
        let _ ← get
        skipWhitespace fuel
      else pure ()

/-- `ParseName`, with what has been read of the name. -/
def parseName : Nat → Bytes → ParserM Bytes
  | 0, _ => unended
  | fuel + 1, theName => do
    if ← isGood then pure theName
    else do
      let c ← peek
      if isValidNameChar c || (c.any isdigit && !theName.isEmpty) then do
        let c ← get
        parseName fuel (theName ++ [toChar c])
      else pure theName

/-- A single `]` is dropped. -/
def parseUpToWhitespaceOrMacroEnd (env : Environment) : Nat → Bytes → ParserM Bytes
  | 0, _ => unended
  | fuel + 1, theName => do
    if ← isGood then pure theName
    else do
      let c ← peek
      if c = none ∨ c = some 0 ∨ c.any isspace then pure theName
      else if c = some ']'.toUInt8 then do
        let _ ← get
        let next ← peek
        if next = some ']'.toUInt8 then do
          putBack env ']'.toUInt8
          pure theName
        else do
          let c ← get
          parseUpToWhitespaceOrMacroEnd env fuel (theName ++ [toChar c])
      else do
        let c ← get
        parseUpToWhitespaceOrMacroEnd env fuel (theName ++ [toChar c])

/-! ### Macros -/

def processArgs (env : Environment) (renderer args : Bytes) : Value :=
  let readit := env.importAny args
  let aargs : Value :=
    if 0 < args.length then
      if readit.isArray then readit else (Any.atIndex () 0 .null).modifyChild 0 fun _ => readit
    else .null
  if env.findRenderer renderer then Any.withName () renderer (fun _ => aargs) .null
  else if renderer.length = 0 then Any.append () aargs .null
  else literal (ascii "**** TemplateParser: Renderer " ++ renderer ++ ascii " not found ****")

/-- The arguments up to `]]`. -/
def readMacroArgs : Nat → Bytes → ParserM Bytes
  | 0, _ => unended
  | fuel + 1, args => do
    if ← isGood then pure args
    else do
      let c ← get
      if c = none ∨ c = some 0 then pure args
      else if c = some ']'.toUInt8 then do
        let next ← peek
        if next = some ']'.toUInt8 then do
          let _ ← get
          pure args
        else readMacroArgs fuel (args ++ [toChar c])
      else readMacroArgs fuel (args ++ [toChar c])

/-- A macro behind `[[#wd`. -/
def macroBody (env : Environment) (fuel : Nat) : ParserM Value := do
  skipWhitespace fuel
  let c ← peek
  if c = some '/'.toUInt8 then do
    let _ ← get
    let key ← parseUpToWhitespaceOrMacroEnd env fuel []
    skipWhitespace fuel
    let args ← readMacroArgs fuel []
    pure (processArgs env key args)
  else do
    let key ← parseUpToWhitespaceOrMacroEnd env fuel []
    skipWhitespace fuel
    let args ← readMacroArgs fuel []
    pure (processArgs env key args)

/-- `Macro`, behind a `[`. -/
def parseMacro (env : Environment) (fuel : Nat) : ParserM Value := do
  let c ← get
  if c = some '['.toUInt8 then do
    let c ← get
    if c = some '#'.toUInt8 then do
      let interpreter ← parseName fuel []
      if interpreter.map tolower = ascii "wd" then macroBody env fuel
      else pure (literal (ascii "[[#" ++ interpreter.map tolower))
    else pure (literal (ascii "[[" ++ [toChar c]))
  else pure (literal (ascii "[" ++ [toChar c]))

/-- Whether white space follows, or `wd` with white space behind it. The letters go back as small ones. -/
def isEmptyOrWd (env : Environment) : ParserM Bool := do
  let c ← peek
  if c.any isspace then pure true
  else if c.map tolower = some 'w'.toUInt8 then do
    let _ ← get
    let c ← peek
    if c.map tolower = some 'd'.toUInt8 then do
      let _ ← get
      let c ← peek
      if c.any isspace then pure true
      else do
        putBack env 'd'.toUInt8
        putBack env 'w'.toUInt8
        pure false
    else do
      putBack env 'w'.toUInt8
      pure false
  else pure false

def readHTMLAsString (env : Environment) : Nat → Option UInt8 → Bytes → ParserM (Bytes × Option UInt8)
  | 0, _, _ => unended
  | fuel + 1, endChar, result => do
    if ← isGood then pure (result, endChar)
    else do
      let c ← get
      if c = none ∨ c = some 0 then pure (result, endChar)
      else if c = some '<'.toUInt8 then do
        let lookahead ← peek
        if isMark lookahead then do
          let c ← get
          if ← isEmptyOrWd env then pure (result, c)
          else readHTMLAsString env fuel endChar (result ++ ['<'.toUInt8, toChar c])
        else readHTMLAsString env fuel endChar (result ++ [toChar c])
      else readHTMLAsString env fuel endChar (result ++ [toChar c])

/-- The inner loops of `ParseAnythingAndReturn`: the last character that was read, and what has been collected. In a string the
character behind a backslash is taken as it is. -/
def collectUpTo (stop : UInt8) (escapes : Bool) : Nat → Option UInt8 → Bytes → ParserM (Option UInt8 × Bytes)
  | 0, _, _ => unended
  | fuel + 1, c, collectany => do
    if ← isGood then pure (c, collectany)
    else do
      let c ← get
      if c = some 0 ∨ c = some stop then pure (c, collectany)
      else if escapes = true ∧ c = some '\\'.toUInt8 then do
        let next ← get
        collectUpTo stop escapes fuel c (collectany ++ [toChar c, toChar next])
      else collectUpTo stop escapes fuel c (collectany ++ [toChar c])

def braces (c : Option UInt8) : Int :=
  if c = some '\x7b'.toUInt8 then 1 else if c = some '\x7d'.toUInt8 then -1 else 0

/-- The loop of `ParseAnythingAndReturn`, with the mark that ends it and the number of open braces. -/
def collectAnything (env : Environment) : Nat → Option UInt8 → Int → Bytes → ParserM Bytes
  | 0, _, _, _ => unended
  | fuel + 1, endChar, bl, collectany => do
    if ← isGood then pure collectany
    else do
      let c ← get
      if c = some 0 then pure collectany
      else do
        let closes ← if c = endChar then peek else pure none
        if closes = some '>'.toUInt8 then do
          let _ ← get
          if 0 < bl then do
            let res ← readHTMLAsString env (fuel + 1) endChar []
            collectAnything env fuel res.2 bl (collectany ++ intPrintOn res.1)
          else pure collectany
        else if c = some '"'.toUInt8 then do
          let read ← collectUpTo '"'.toUInt8 true (fuel + 1) c (collectany ++ [toChar c])
          collectAnything env fuel endChar bl (read.2 ++ [toChar read.1])
        else if c = some '#'.toUInt8 then do
          let read ← collectUpTo '\n'.toUInt8 false (fuel + 1) c (collectany ++ [toChar c])
          collectAnything env fuel endChar bl (read.2 ++ [toChar read.1])
        else collectAnything env fuel endChar (bl + braces c) (collectany ++ [toChar c])

def parseAnythingAndReturn (env : Environment) (fuel : Nat) (endChar : Option UInt8) : ParserM Value := do
  let collectany ← collectAnything env fuel endChar 0 ['\x7b'.toUInt8]
  pure (env.importAny (collectany ++ ['\x7d'.toUInt8]))

/-- `ParseAsStringUpToEndTag`, with what has been read. -/
def parseAsStringUpToEndTag (tagName : Bytes) : Nat → Bytes → ParserM Bytes
  | 0, _ => unended
  | fuel + 1, result => do
    if ← isGood then pure result
    else do
      let c ← get
      if c = some 0 then pure result
      else if c = some '<'.toUInt8 then do
        let lookahead ← peek
        if lookahead = some '/'.toUInt8 then do
          let _ ← get
          let foundname ← parseName (fuel + 1) []
          if caselessEq tagName foundname then do
            let next ← peek
            if next = some '>'.toUInt8 then do
              let _ ← get
              pure result
            else parseAsStringUpToEndTag tagName fuel (result ++ ascii "</" ++ foundname)
          else parseAsStringUpToEndTag tagName fuel (result ++ ascii "</" ++ foundname)
        else parseAsStringUpToEndTag tagName fuel (result ++ [toChar c])
      else parseAsStringUpToEndTag tagName fuel (result ++ [toChar c])

/-! ### Tags -/

def readQuoted (env : Environment) (quote : Option UInt8) : Nat → Value → Bytes → ParserM (Value × Bytes)
  | 0, _, _ => unended
  | fuel + 1, result, value => do
    if ← isGood then pure (result, value)
    else do
      let c ← get
      if c = quote then pure (result, value)
      else if c = some '['.toUInt8 then do
        let next ← peek
        if next = some '['.toUInt8 then do
          let subvalue ← parseMacro env (fuel + 1)
          readQuoted env quote fuel (Any.append () subvalue (storeInto result value)) []
        else readQuoted env quote fuel result (value ++ [toChar c])
      else if c = some '<'.toUInt8 then do
        let next ← peek
        if isMark next then do
          let cT ← get
          if ← isEmptyOrWd env then do
            let subvalue ← parseAnythingAndReturn env (fuel + 1) cT
            readQuoted env quote fuel (Any.append () subvalue (storeInto result value)) []
          else do
            -- The `<` is not taken into the value.
            putBack env (toChar cT)
            readQuoted env quote fuel result value
        else readQuoted env quote fuel result (value ++ [toChar c])
      else readQuoted env quote fuel result (value ++ [toChar c])

def readWhile (more : UInt8 → Bool) : Nat → Bytes → ParserM Bytes
  | 0, _ => unended
  | fuel + 1, value => do
    let c ← get
    let next ← peek
    if next.any more then readWhile more fuel (value ++ [toChar c]) else pure (value ++ [toChar c])

def parseValue (env : Environment) (fuel : Nat) : ParserM Value := do
  let c ← peek
  if c = some '['.toUInt8 then do
    let _ ← get
    parseMacro env fuel
  else if c = some '\''.toUInt8 ∨ c = some '"'.toUInt8 then do
    let quote ← get
    let read ← readQuoted env quote fuel .null []
    pure (if read.1.isNull then literal read.2 else storeInto read.1 read.2)
  else if isValidNameChar c then do
    let value ← parseName fuel []
    pure (literal value)
  else if c.any isdigit then do
    let value ← readWhile (fun c => isdigit c || c == '%'.toUInt8) fuel []
    pure (literal value)
  else if c = some '#'.toUInt8 then do
    let value ← readWhile isxdigit fuel []
    pure (literal value)
  else pure (literal [])

def adjustCase (strCase name : Bytes) : Bytes :=
  if strCase.map tolower = [] ∨ strCase.map tolower = ascii "lower" then name.map tolower
  else if strCase.map tolower = ascii "upper" then name.map toupper
  else name

def configuredCase (tagName : Bytes) : ParserM Bytes := fun p => some (p.attrNameCase tagName, p)

def parseAttribute (env : Environment) (fuel : Nat) (tagName : Bytes) : ParserM (Bool × Bytes × Value) := do
  let name ← parseName fuel []
  let strCase ← configuredCase tagName
  skipWhitespace fuel
  let c ← peek
  if c = some '='.toUInt8 then do
    let _ ← get
    let value ← parseValue env fuel
    pure (true, adjustCase strCase name, value)
  else pure (false, adjustCase strCase name, literal [])

/-- The `default` of `ParseTag`, and whether the tag has to be rendered for it. -/
def parseTagItem (env : Environment) (fuel : Nat) (tagName : Bytes) (tagAttributes : Value) : ParserM (Bool × Value) := do
  let item ← parseAttribute env fuel tagName
  if item.1 then pure (item.2.2.isArray, tagAttributes.withName () item.2.1 fun _ => item.2.2)
  else if 0 < item.2.1.length then pure (false, Any.append () (literal item.2.1) tagAttributes)
  else do
    let c ← get
    pure (false, Any.append () (literal [toChar c]) tagAttributes)

def parseTagMacro (env : Environment) (fuel : Nat) : ParserM Value := do
  let a ← parseMacro env fuel
  skipWhitespace fuel
  let c ← peek
  if c = some '='.toUInt8 then do
    let _ ← get
    let value ← parseValue env fuel
    pure (Any.append () value (Any.append () (literal (ascii "=")) a))
  else pure a

/-- The loop of `ParseTag`: whether the tag has to be rendered, and its attributes. -/
def parseTagLoop (env : Environment) (tagName : Bytes) : Nat → Bool → Value → ParserM (Bool × Value)
  | 0, _, _ => unended
  | fuel + 1, needsrendering, tagAttributes => do
    if ← isGood then pure (needsrendering, tagAttributes)
    else do
      skipWhitespace (fuel + 1)
      let c ← peek
      if c = some '['.toUInt8 then do
        let _ ← get
        let a ← parseTagMacro env (fuel + 1)
        parseTagLoop env tagName fuel true (Any.append () a tagAttributes)
      else if c = some '>'.toUInt8 then do
        let _ ← get
        pure (needsrendering, tagAttributes)
      else if c = some '/'.toUInt8 then do
        let _ ← get
        let next ← peek
        if next = some '>'.toUInt8 then do
          let _ ← get
          pure (needsrendering, Any.append () (literal (ascii "/")) tagAttributes)
        else do
          putBack env '/'.toUInt8
          let item ← parseTagItem env (fuel + 1) tagName tagAttributes
          parseTagLoop env tagName fuel (needsrendering || item.1) item.2
      else do
        let item ← parseTagItem env (fuel + 1) tagName tagAttributes
        parseTagLoop env tagName fuel (needsrendering || item.1) item.2

def parseTag (env : Environment) (fuel : Nat) : ParserM (Bool × Bytes × Value) := do
  let tagName ← parseName fuel []
  let read ← parseTagLoop env tagName fuel false .null
  pure (read.1, tagName, read.2)

end TemplateParser

/-! ### What is stored for a tag -/

def processTag (tagName : Bytes) (tagAttributes : Value) : Value :=
  let result := Any.append () (literal (ascii "<" ++ tagName)) .null
  let result := Any.withName () (ascii "OptionsPrinter") (fun _ => tagAttributes) result
  Any.append () (literal (ascii ">")) result

/-- What is written for an attribute. Of a value that is no text only the name is written. -/
def renderAttribute (slot : Option Bytes × Value) : Bytes :=
  match slot.1 with
  | some name =>
    match charPtr slot.2 with
    | some text => ascii " " ++ name ++ ascii "=\"" ++ cstr text ++ ascii "\""
    | none => ascii " " ++ name
  | none => ascii " " ++ cstr (slot.2.asCharPtr conversions)

def renderTagAsLiteral (tagName : Bytes) (tagAttributes : Value) : Bytes :=
  ascii "<" ++ tagName ++ (slots tagAttributes).flatMap renderAttribute ++ ascii ">"

namespace TemplateParser

/-! ### The parsers -/

/-- `GSR`: the character that is read and the comment with it. -/
def gsr (comment : Bytes) : ParserM (Option UInt8 × Bytes) := do
  let c ← get
  pure (c, comment ++ [toChar c])

def gsrWhile (belongs : UInt8 → Bool) : Nat → Bytes → Bytes → ParserM (Option UInt8 × Bytes × Bytes)
  | 0, _, _ => unended
  | fuel + 1, together, comment => do
    let read ← gsr comment
    if belongs (toChar read.1) then gsrWhile belongs fuel (together ++ [toChar read.1]) read.2
    else pure (read.1, together, read.2)

/-- `while (c == '-')`. -/
def gsrDashes : Nat → Option UInt8 × Bytes → ParserM (Option UInt8 × Bytes)
  | 0, _ => unended
  | fuel + 1, read =>
    if read.1 = some '-'.toUInt8 then do
      let read ← gsr read.2
      gsrDashes fuel read
    else pure read

def gsrComment : Nat → Option UInt8 × Bytes → ParserM Bytes
  | 0, _ => unended
  | fuel + 1, read =>
    if read.1 = none ∨ read.1 = some 0 then pure read.2
    else if read.1 = some '-'.toUInt8 then do
      let read ← gsr read.2
      if read.1 = some '-'.toUInt8 then do
        let read ← gsr read.2
        let read ← gsrDashes (fuel + 1) read
        if read.1 = some '>'.toUInt8 then pure read.2
        else do
          let read ← gsr read.2
          gsrComment fuel read
      else do
        let read ← gsr read.2
        gsrComment fuel read
    else do
      let read ← gsr read.2
      gsrComment fuel read

def gsrMacro (fuel : Nat) (read : Option UInt8 × Bytes × Bytes) : ParserM (Option UInt8 × Bytes × Bytes) :=
  if read.1 = some '#'.toUInt8 then gsrWhile isalnum fuel [] read.2.2 else pure (read.1, [], read.2.2)

def skipRead : Nat → Option UInt8 → ParserM (Option UInt8)
  | 0, _ => unended
  | fuel + 1, c =>
    if isspace (toChar c) then do
      let c ← get
      skipRead fuel c
    else pure c

def oldStyleArgs : Nat → Option UInt8 → Bytes → ParserM Bytes
  | 0, _, _ => unended
  | fuel + 1, c, args =>
    if c = none ∨ c = some 0 then pure args
    else if c = some '-'.toUInt8 then do
      let read ← gsr (args ++ [toChar c])
      if read.1 = some '-'.toUInt8 then do
        let read ← gsr read.2
        let read ← gsrDashes (fuel + 1) read
        if read.1 = some '>'.toUInt8 then pure read.2
        else do
          let c ← get
          oldStyleArgs fuel c read.2
      else do
        let c ← get
        oldStyleArgs fuel c read.2
    else do
      let next ← get
      oldStyleArgs fuel next (args ++ [toChar c])

/-- `OldStyleComment` behind `<!--`. -/
def oldStyleBody (env : Environment) (fuel : Nat) (comment : Bytes) : ParserM Value := do
  let read ← gsrWhile isspace fuel [] comment
  let read ← gsrMacro fuel read
  if read.2.1 = ascii "wd" then do
    let key ← gsrWhile isalnum fuel [] read.2.2
    let c ← skipRead fuel key.1
    let args ← oldStyleArgs fuel c []
    pure (processArgs env key.2.1 args)
  else do
    let comment ← gsrComment fuel (read.1, read.2.2)
    pure (literal comment)

def oldStyleComment (env : Environment) (fuel : Nat) : ParserM Value := do
  let read ← gsr (ascii "<")
  if read.1 = some '!'.toUInt8 then do
    let read ← gsr read.2
    if read.1 = some '-'.toUInt8 then do
      let read ← gsr read.2
      if read.1 = some '-'.toUInt8 then oldStyleBody env fuel read.2 else pure (literal read.2)
    else pure (literal read.2)
  else pure (literal read.2)

/-- The loop of `DoParse`, with the text that is not stored yet and what is done with a tag. -/
def doParseLoop (env : Environment) (storeTag : Nat → Bool × Bytes × Value → ParserM Unit) : Nat → Bytes → ParserM Unit
  | 0, _ => unended
  | fuel + 1, reply => do
    let c ← get
    if c = none ∨ c = some 0 then storeText reply
    else if c = some '<'.toUInt8 then do
      storeText reply
      let lookahead ← peek
      if lookahead = some '!'.toUInt8 then do
        let cE ← get
        let cN ← peek
        putBack env (toChar cE)
        -- A DOCTYPE is no comment.
        if cN = some '-'.toUInt8 then do
          let comment ← oldStyleComment env (fuel + 1)
          store comment
          doParseLoop env storeTag fuel []
        else doParseLoop env storeTag fuel (ascii "<")
      else if lookahead = some '/'.toUInt8 then do
        let _ ← get
        let tagname ← parseName (fuel + 1) []
        let c ← peek
        if c = some '>'.toUInt8 then do
          let _ ← get
          doParseLoop env storeTag fuel (ascii "</" ++ tagname ++ ascii ">")
        else doParseLoop env storeTag fuel (ascii "</" ++ tagname)
      else if isMark lookahead then do
        let cT ← get
        if ← isEmptyOrWd env then do
          let value ← parseAnythingAndReturn env (fuel + 1) cT
          store value
          doParseLoop env storeTag fuel []
        else do
          putBack env (toChar cT)
          doParseLoop env storeTag fuel (ascii "<")
      else if isValidNameChar lookahead then do
        let tag ← parseTag env (fuel + 1)
        storeTag (fuel + 1) tag
        doParseLoop env storeTag fuel []
      else doParseLoop env storeTag fuel (ascii "<")
    else if c = some '['.toUInt8 then do
      let lookahead ← peek
      if lookahead = some '['.toUInt8 then do
        storeText reply
        let value ← parseMacro env (fuel + 1)
        store value
        doParseLoop env storeTag fuel []
      else doParseLoop env storeTag fuel (reply ++ [toChar c])
    else doParseLoop env storeTag fuel (reply ++ [toChar c])

def plainTag (mustrender : Bool) (tagName : Bytes) (tagAttributes : Value) : Value :=
  if mustrender then processTag tagName tagAttributes else literal (renderTagAsLiteral tagName tagAttributes)

/-- What `Parse` returns, given `DoParse`. -/
def parseWith (doParse : ParserM Unit) (attrNameCase : Bytes → Bytes) (reader : IStream UInt8) : Option (List Value) :=
  (doParse ⟨[], reader, [], attrNameCase⟩).map fun run => compactHTMLBlocks [] run.2.fCache

def noConfig : Bytes → Bytes := fun _ => ascii "lower"

end TemplateParser

open TemplateParser

/-! ### FormTemplateParser -/

namespace FormTemplateParser

def FR_FIELDPREFIX : Bytes := ascii "fld_"

def FR_BUTTONPREFIX : Bytes := ascii "b_"

def FR_IMAGEPREFIX : Bytes := ascii "i_"

def isSpecialTag (tagName : Bytes) : Bool :=
  let tag := tagName.map tolower
  tag == ascii "input" || tag == ascii "textarea" || tag == ascii "select" || tag == ascii "button"

def fieldPrefix (tagAttributes : Value) : Bytes :=
  let type := ((tagAttributes.named (ascii "type")).asString conversions).map tolower
  if tagAttributes.isDefined (ascii "type") = false then FR_FIELDPREFIX
  else if type = ascii "submit" then FR_BUTTONPREFIX
  else if type = ascii "image" then FR_IMAGEPREFIX
  else FR_FIELDPREFIX

def nameFields (tag : Bytes) (tagAttributes : Value) : Value :=
  let name := (tagAttributes.named (ascii "name")).asString conversions
  let rename (theName : Bytes) : Value := tagAttributes.withName () (ascii "name") fun _ => literal (theName ++ name)
  if tagAttributes.isDefined (ascii "name") = false then tagAttributes
  else if tag = ascii "button" then if FR_BUTTONPREFIX.isPrefixOf name then tagAttributes else rename FR_BUTTONPREFIX
  else if FR_FIELDPREFIX.isPrefixOf name then tagAttributes
  else rename (fieldPrefix tagAttributes)

/-- `IsSpecialTag` and `ProcessSpecialTag`. -/
def storeTag (_ : Nat) (tag : Bool × Bytes × Value) : ParserM Unit :=
  if isSpecialTag tag.2.1 then
    store (plainTag tag.1 (tag.2.1.map tolower) (nameFields (tag.2.1.map tolower) tag.2.2))
  else store (plainTag tag.1 tag.2.1 tag.2.2)

def parse (env : Environment) (fuel : Nat) (body : Bytes) : Option (List Value) :=
  parseWith (doParseLoop env.inMemory storeTag fuel []) noConfig (.on body)

end FormTemplateParser

/-! ### ScriptTemplateParser -/

namespace ScriptTemplateParser

def doParseLoop (env : Environment) : Nat → Bytes → ParserM Unit
  | 0, _ => unended
  | fuel + 1, reply => do
    let c ← TemplateParser.get
    if c = none ∨ c = some 0 then storeText reply
    else if c = some '<'.toUInt8 then do
      storeText reply
      let lookahead ← peek
      if isMark lookahead then do
        let cT ← TemplateParser.get
        if ← isEmptyOrWd env then do
          let value ← parseAnythingAndReturn env (fuel + 1) cT
          store value
          doParseLoop env fuel []
        else do
          putBack env (toChar cT)
          doParseLoop env fuel (ascii "<")
      else doParseLoop env fuel (ascii "<")
    else if c = some '['.toUInt8 then do
      let lookahead ← peek
      if lookahead = some '['.toUInt8 then do
        storeText reply
        let value ← parseMacro env (fuel + 1)
        store value
        doParseLoop env fuel []
      else doParseLoop env fuel (reply ++ [toChar c])
    else doParseLoop env fuel (reply ++ [toChar c])

def parse (env : Environment) (fuel : Nat) (body : Bytes) : Option (List Value) :=
  parseWith (doParseLoop env.inMemory fuel []) noConfig (.on body)

end ScriptTemplateParser

namespace TemplateParser

/-! ### The special tags -/

def isSpecialTag (env : Environment) (tagName : Bytes) (tagAttributes : Value) : Bool :=
  let action := tagAttributes.named (ascii "action")
  caselessEq tagName (ascii "script") ||
    (caselessEq tagName (ascii "form") && tagAttributes.isDefined (ascii "action") &&
      !(action.asString conversions).isEmpty && env.findAction (cstr (action.asCharPtr conversions)))

/-- `MVATTR`: moves an attribute to the form, or puts its default there. -/
def mvAttr (name dflt : Bytes) (form : Value × Value) : Value × Value :=
  let lowername := name.map tolower
  if form.2.isDefined lowername then
    (form.1.withName () name fun _ => form.2.named lowername, form.2.removeName lowername)
  else if 0 < dflt.length then (form.1.withName () name fun _ => literal dflt, form.2.removeName lowername)
  else form

def formAttributes (tagAttributes : Value) : Value × Value :=
  mvAttr (ascii "BaseAddr") [] (mvAttr (ascii "Target") [] (mvAttr (ascii "EncType") [] (mvAttr (ascii "Action") []
    (mvAttr (ascii "Method") (ascii "GET") (.null, tagAttributes)))))

def processFormTag (tagAttributes : Value) (layout : List Value) : Value :=
  let form := formAttributes tagAttributes
  let formrenderer := if form.2.isNull then form.1 else form.1.withName () (ascii "Options") fun _ => form.2
  Any.withName () (ascii "FormRenderer") (fun _ => formrenderer.withName () (ascii "Layout") fun _ => asAnything layout)
    (.array () [])

def processScriptTag (tagName : Bytes) (tagAttributes : Value) (body : List Value) : Value :=
  Any.append () (literal (ascii "</" ++ tagName ++ ascii ">"))
    (Any.append () (asAnything body) (processTag tagName tagAttributes))

def parsed (cache : Option (List Value)) : ParserM (List Value) := fun p => cache.map fun cache => (cache, p)

def processSpecialTag (env : Environment) (fuel : Nat) (tagName : Bytes) (tagAttributes : Value) : ParserM Value := do
  let tagName := tagName.map tolower
  let body ← parseAsStringUpToEndTag tagName fuel []
  if tagName = ascii "script" then do
    let cache ← parsed (ScriptTemplateParser.parse env fuel body)
    pure (processScriptTag tagName tagAttributes cache)
  else do
    let layout ← parsed (FormTemplateParser.parse env fuel body)
    pure (processFormTag tagAttributes layout)

/-- `IsSpecialTag` and what is stored for the tag. -/
def storeTag (env : Environment) (fuel : Nat) (tag : Bool × Bytes × Value) : ParserM Unit :=
  if isSpecialTag env tag.2.1 tag.2.2 then do
    let value ← processSpecialTag env fuel tag.2.1 tag.2.2
    store value
  else store (plainTag tag.1 tag.2.1 tag.2.2)

def doParse (env : Environment) (fuel : Nat) : ParserM Unit := doParseLoop env (storeTag env) fuel []

/-- `Parse`: the cache that is returned. -/
def parse (env : Environment) (attrNameCase : Bytes → Bytes) (fuel : Nat) (reader : IStream UInt8) : Option (List Value) :=
  parseWith (doParse env fuel) attrNameCase reader

end TemplateParser

end Coast.Renderer
