import Coast.Graph.Import
import Coast.Text.Progress

/-!
# Included files

`!file` in the text imports another file, which may include files in turn, or itself. Each import keeps
the stream of its file open, so that files include each other only as deep as streams can be opened.
-/

namespace Coast

open AnythingToken AnythingParser

variable {D : Type}

def splitUrl (url : Bytes) : Option (Bytes × Bytes) :=
  let colonpos := url.findIdx? (· == ':'.toUInt8)
  let protocol := url.take (colonpos.getD 0)
  let fileName := url.drop (colonpos.elim 0 (· + 1))
  if protocol.isEmpty || (protocol.takeWhile (· != 0)).map toupper == ascii "FILE" then
    let queryIdx := fileName.findIdx? (· == '?'.toUInt8)
    let queryString := queryIdx.elim [] fun i => fileName.drop (i + 1)
    let fileName := fileName.take (queryIdx.getD fileName.length)
    some (if (ascii "///").isPrefixOf fileName then fileName.drop 3 else fileName, queryString)
  else none

/-- What the import of files takes from elsewhere. -/
structure Files (D : Type) where
  strtod : Bytes → D × Bool
  doubleText : D → Bytes
  /-- `OpenStream`: what is in the file, if it is found -/
  openStream : Bytes → Option Bytes
  /-- the value at a place of an imported value, once its references are patched -/
  resolve : AnyTree D → List Patch → List Level → AnyTree D

/-- `Import` of the text of a stream that was just opened. -/
def importStream (env : Environment D) (text : Bytes) (erange : Bool) : Bool × AnyTree D × ParserState :=
  (doParse env { context := ⟨text, true⟩, erange := erange }).get (doParse_isSome env _)

namespace Files

/-- `ImportIncludeAny`, given the import of a stream if one can be opened. -/
def importIncludeAny (files : Files D) (stream : Option (Bytes → Bool → Bool × AnyTree D × ParserState)) (url : Bytes)
    (erange : Bool) : AnyTree D × Bool :=
  match splitUrl url, stream with
  | some (fileName, queryString), some stream =>
    match files.openStream (fileName.takeWhile (· != 0)) with
    | some text =>
      let (ok, element, st) := stream text erange
      let (level, erange) := if ok && !queryString.isEmpty then Level.ofPath st.erange queryString else ([], st.erange)
      (files.resolve element st.xrefs level, erange)
    | none => (.null, erange)
  | _, _ => (.null, erange)

def environment (files : Files D) : Nat → Environment D
  | 0 => ⟨files.strtod, files.doubleText, files.importIncludeAny none⟩
  | streams + 1 => ⟨files.strtod, files.doubleText, files.importIncludeAny (some (importStream (files.environment streams)))⟩

end Files

/-! ### Termination -/

theorem importAny_isSome (env : Environment D) (st : ParserState) : (importAny env st).isSome = true := by
  obtain ⟨⟨ok, v, st'⟩, done⟩ := Option.isSome_iff_exists.mp (doParse_isSome env st)
  rw [importAny, done]
  rfl

theorem next_mem_loop (context : InputContext) : AnythingToken.next context ∈ Loops.loop tokenTurn context := by
  refine Loops.mem_loop_of_fuel tokenLoop_turns tokenTurn_falls ?_
  have flag := Bool.toNat_le context.good
  simp only [InputContext.left]
  omega

theorem intReadLoop_mem_loop (quote : UInt8) (text : Bytes) (breaks : Nat) (is : InputContext) :
    intReadLoop quote (is.rest.length + 1) text breaks is ∈ Loops.loop (readTurn quote) (text, breaks, is) := by
  refine Loops.mem_loop_of_fuel (intReadLoop_turns quote) (readTurn_falls quote) ?_
  have flag := Bool.toNat_le is.good
  simp only [InputContext.left]
  omega

/-- Import ends on every stream, with whatever included files. A sequence is read to its end, and no turn of
the loops inside goes on without having used up input. -/
theorem import_terminates (files : Files D) (streams : Nat) (st : ParserState) :
    (importAny (files.environment streams) st).isSome = true ∧
    (∀ tok any ok, ∃ result, result.2.2.context.left ≤ st.context.left ∧ ∀ fuel ≥ st.context.left + 2,
      doParseSequence (files.environment streams) fuel tok any ok st = some result) ∧
    (st.next.1.fToken = .nullSym ∨ st.next.2.context.left < st.context.left) ∧
    (AnythingToken.next st.context ∈ Loops.loop tokenTurn st.context ∧
      ∀ context, tokenTurn st.context = .inr context → context.left < st.context.left) ∧
    (∀ quote text breaks, intReadLoop quote (st.context.rest.length + 1) text breaks st.context ∈
        Loops.loop (readTurn quote) (text, breaks, st.context) ∧
      ∀ s, readTurn quote (text, breaks, st.context) = .inr s → s.2.2.left < st.context.left) ∧
    (st.context.good = true → (doReadBinBuf st.context).2.left ≤ st.context.left) := by
  refine ⟨importAny_isSome _ st, fun tok any ok => returns_doParseSequence _ tok any ok st, (next_progress st).imp_left And.left,
    ⟨next_mem_loop st.context, fun context goes => ?_⟩, fun quote text breaks => ⟨intReadLoop_mem_loop .., fun s goes => ?_⟩,
    left_doReadBinBuf⟩
  · have falls := tokenTurn_falls _ _ goes
    dsimp only at falls
    omega
  · have falls := readTurn_falls quote _ _ goes
    dsimp only at falls
    omega

end Coast
