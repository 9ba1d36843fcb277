import Coast.Text.Compact
import Coast.Text.Value

/-!
# The table compressor

`TableCompressor` with the tables that `Init` makes from a configuration. An `Anything` is what
`GetSize`, `SlotName` and `operator[]` show of it.
-/

namespace Coast.Security

open Anything (Key Entries)
open AnythingParser (assignKey)
open Regex (cstr)
open Value

variable {D : Type}

/-! ### Short keys -/

def keyAt (index : Nat) : UInt8 :=
  let index := if 52 ≤ index then 51 else index
  if index < 26 then UInt8.ofNat (index + 97) else UInt8.ofNat (index + 65 - 26)

def calcKeyLoop : Nat → Nat → Bytes
  | 0, _ => []
  | fuel + 1, index =>
    if index / 52 > 0 then calcKeyLoop fuel (index / 52 - 1) ++ [keyAt (index % 52)] else [keyAt (index % 52)]

def calcKey (index : Nat) : Bytes := calcKeyLoop (index + 1) index

/-! ### Tables -/

section Tables

-- `lookupPath` is `ROAnything::LookupPath`
variable (env : Environment D) (lookupPath : AnyTree D → Bytes → Option (AnyTree D))

def atIndex (state : Slots D) (index : Nat) (text : Bytes) : Slots D :=
  Entries.apply (.atSlot index (some (.string text))) state

mutual

def installConfig (index : Nat) (state : Slots D) : AnyTree D → Slots D
  | .array slots => installSlots index state slots
  | .string s => atIndex state index (cstr s)
  | _ => state

def installSlots (index : Nat) (state : Slots D) : Slots D → Slots D
  | [] => state
  | (some slotname, part) :: rest =>
    installSlots (index + 1) (installConfig (index + 1) (atIndex state index slotname.text) part) rest
  | (none, .string s) :: rest => installSlots (index + 1) (atIndex state index (cstr s)) rest
  | (none, _) :: rest => installSlots index state rest

end

def expandConfig (config : AnyTree D) (index : Nat) (state : Slots D) : Slots D :=
  match state[index]? with
  | some (_, .array ((some tag, v) :: _)) =>
    if tag.text = ascii "Expand" then
      match lookupPath config (asCharPtr env v) with
      | some toExpand => installConfig index (Entries.apply (.remove index) state) toExpand
      | none => state
    else state
  | _ => state

def expandSlots (config : AnyTree D) : Nat → Slots D → Slots D
  | 0, state => state
  | i + 1, state => expandSlots config i (expandConfig env lookupPath config i state)

def addKey (state map : Slots D) (i : Nat) : Slots D :=
  match state[i]? with
  | some (_, .string s) => assignKey map (cstr s) (.string (calcKey i))
  | _ => map

/-- The size is the one before `ExpandConfig`. -/
def makeTable (baseState config : AnyTree D) : Slots D :=
  let state := slotsOf baseState
  let sz := state.length
  (List.range sz).foldl (addKey (expandSlots env lookupPath config sz state)) []

def makeReverseTable (state : Slots D) : Slots D :=
  state.foldl (fun revKeyTable e => assignKey revKeyTable (asCharPtr env e.2) (.string (e.1.elim [] Key.text))) []

structure TableCompressor (D : Type) where
  key2UriMap : Slots D
  uri2KeyMap : Slots D
  val2UriMap : Slots D
  uri2ValMap : Slots D
  valMapTags : AnyTree D

def init (config : AnyTree D) : Option (TableCompressor D) :=
  (lookupPath config (ascii "SecurityModule.TableCompressor")).map fun tableCompressorConfig =>
    let part tag := (lookup (slotsOf tableCompressorConfig) (ascii tag)).getD .null
    let key2UriMap := makeTable env lookupPath (part "Key2UriMap") config
    let val2UriMap := makeTable env lookupPath (part "Val2UriMap") config
    { key2UriMap := key2UriMap
      uri2KeyMap := makeReverseTable env key2UriMap
      val2UriMap := val2UriMap
      uri2ValMap := makeReverseTable env val2UriMap
      valMapTags := part "ValMapTags" }

end Tables

/-! ### Compression -/

namespace TableCompressor

variable (env : Environment D) (t : TableCompressor D)

def compressSlot (dataOut : Slots D) : Option Key × AnyTree D → Slots D
  | (some slotname, v) =>
    match lookup t.key2UriMap slotname.text with
    | some extSlotname =>
      let intVal := asCharPtr env v
      if intVal.length > 0 then
        if contains env slotname.text t.valMapTags then
          match lookup t.val2UriMap intVal with
          | some extVal => assignKey dataOut (asCharPtr env extSlotname) (.string (asCharPtr env extVal))
          | none => assignKey dataOut (asCharPtr env extSlotname) v
        else assignKey dataOut (asCharPtr env extSlotname) v
      else dataOut
    | none => assignKey dataOut slotname.text v
  | (none, v) => dataOut ++ [(none, v)]

/-- The text that `DoCompress` writes. -/
def doCompress (dataIn : Slots D) : Bytes := printOn env (ofSlots (dataIn.foldl (t.compressSlot env) [])) false

def expandSlot (dataOut : Slots D) : Option Key × AnyTree D → Slots D
  | (some slotname, v) =>
    match lookup t.uri2KeyMap slotname.text with
    | some intSlotname =>
      if contains env (asCharPtr env intSlotname) t.valMapTags then
        match lookup t.uri2ValMap (asCharPtr env v) with
        | some intVal => assignKey dataOut (asCharPtr env intSlotname) (.string (asCharPtr env intVal))
        | none => assignKey dataOut (asCharPtr env intSlotname) v
      else assignKey dataOut (asCharPtr env intSlotname) v
    | none => assignKey dataOut slotname.text v
  | (none, v) => dataOut ++ [(none, v)]

/-- `DoExpand` into an empty `dataOut`, which stays empty where `Import` fails. There is no result for a
text with references, which `Import` would still have to patch. -/
def doExpand (erange : Bool) (scrambledText : Bytes) : Option (Slots D) :=
  match AnythingParser.doParse env { context := ⟨scrambledText, true⟩, erange := erange } with
  | some (true, dataIn, st) => if st.xrefs = [] then some ((slotsOf dataIn).foldl (t.expandSlot env) []) else none
  | some (false, _, _) => some []
  | none => none

end TableCompressor

end Coast.Security
