import Coast.Text.Level

/-!
# The parser

`DoParse` and `DoParseSequence`. A reference is left as a placeholder and noted as a patch, to be made
when the whole value has been read. Error messages only go to the log and are left out.
-/

namespace Coast

open Anything (Key Entries Edit Built)

/-- The key that `operator[]` looks up: the text up to the first NUL, none if that is empty. -/
def Anything.Key.ofText (text : Bytes) : Option Key :=
  if nonempty : text.takeWhile (· != 0) ≠ [] then
    some ⟨text.takeWhile (· != 0), nonempty, fun zero => absurd (List.mem_takeWhile_imp zero) (by decide)⟩
  else none

/-- A slot whose value is still a placeholder: the level of its array, and its name or index there. -/
structure Patch where
  level : List Level
  slot : Level
  deriving DecidableEq

structure ParserState where
  context : InputContext
  /-- whether `errno` is `ERANGE` -/
  erange : Bool
  level : List Level := []
  xrefs : List Patch := []
  deriving DecidableEq

namespace ParserState

def next (st : ParserState) : AnythingToken × ParserState :=
  ((AnythingToken.next st.context).1, { st with context := (AnythingToken.next st.context).2 })

def definePatchRef (st : ParserState) (slot : Level) : ParserState := { st with xrefs := st.xrefs ++ [⟨st.level, slot⟩] }

def push (st : ParserState) (l : Level) : ParserState := { st with level := st.level ++ [l] }

end ParserState

namespace AnythingParser

variable {D : Type}

/-- A binary buffer; the scanner never collects more bytes than a `long` can count. -/
def bufferOf (text : Bytes) : AnyTree D := if fits : text.length < 2 ^ 63 then .vbuf ⟨text, fits⟩ else .null

/-- Whether the token is a value, the value, and `errno`. A number that is refused for its range leaves
null, and counts as a value. -/
def makeSimpleAny (env : Environment D) (erange : Bool) (tok : AnythingToken) : Bool × AnyTree D × Bool :=
  match tok.fToken with
  | .star => (true, .null, erange)
  | .stringError => if tok.fText.isEmpty then (false, .null, erange) else (true, .string tok.fText, erange)
  | .string => (true, .string tok.fText, erange)
  | .decimalNumber =>
    let (number, erange) := strToL erange tok.fText
    (true, number.elim .null .long, erange)
  | .octalNumber =>
    let (number, erange) := strToUL erange tok.fText 8
    (true, number.elim .null fun n => .long n.toInt64, erange)
  | .hexNumber =>
    let (number, erange) := strToUL erange tok.fText 16
    (true, number.elim .null fun n => .long n.toInt64, erange)
  | .floatNumber =>
    let (number, erange) := checkErrno erange (env.strtod tok.fText)
    (true, number.elim .null .double, erange)
  | .binaryBuf => (true, bufferOf tok.fText, erange)
  | .object =>
    let (number, erange) := strToUL erange tok.fText 10
    (true, number.elim .null .object, erange)
  | _ => (false, .null, erange)

/-- `any[key] = element`. -/
def assignKey (any : Slots D) (key : Bytes) (element : AnyTree D) : Slots D :=
  match Key.ofText key with
  | some k => Entries.apply (.atKey k (some element)) any
  | none => Entries.apply (.append element) any

/-- What `DoParseSequence` returns: whether all was well, the array, and the state. -/
abbrev Parsed (D : Type) := Option (Bool × Slots D × ParserState)

/-- The loop body of `DoParseSequence` from `restart` on, given the rest of the loop. -/
abbrev Parse (D : Type) := AnythingToken → Slots D → Bool → ParserState → Parsed D

/-- `while (fContext.IsGood())`. -/
def loop (parse : Parse D) (any : Slots D) (ok : Bool) (st : ParserState) : Parsed D :=
  if st.context.good then parse st.next.1 any ok st.next.2 else some (false, any, st)

def parseNested (parse : Parse D) (key : Option Bytes) (any : Slots D) (ok : Bool) (st : ParserState) : Parsed D :=
  match key with
  | some key =>
    let inner := (st.push (.key key)).next
    (parse inner.1 [] true inner.2).bind fun (lastok, element, st') =>
      loop parse (assignKey any key (.array element)) (ok && lastok) { st' with level := st.level }
  | none =>
    let lIdx := any.length
    let any := Entries.apply (.append .null) any
    let inner := (st.push (.index (Int64.ofNat lIdx))).next
    (parse inner.1 [] true inner.2).bind fun (lastok, element, st') =>
      loop parse (Entries.apply (.atSlot lIdx (some (.array element))) any) (ok && lastok) { st' with level := st.level }

def parseValue (env : Environment D) (parse : Parse D) (key : Option Bytes) (tok : AnythingToken) (any : Slots D)
    (ok : Bool) (st : ParserState) : Parsed D :=
  if tok.fToken = .lbrace then parseNested parse key any ok st
  else
    let (lastok, element, erange) := makeSimpleAny env st.erange tok
    let any :=
      match key with
      | some key => assignKey any key element
      | none => if lastok then Entries.apply (.append element) any else any
    loop parse any (ok && lastok) { st with erange := erange }

def parseKeyed (env : Environment D) (parse : Parse D) (key : Bytes) (tok : AnythingToken) (any : Slots D) (ok : Bool)
    (st : ParserState) : Parsed D :=
  match tok.fToken with
  | .ref =>
    let (path, erange) := Level.ofPath st.erange tok.fText
    loop parse (assignKey any key (Level.toAny path)) ok ({ st with erange := erange }.definePatchRef (.key key))
  | .include =>
    let (element, erange) := env.importIncludeAny tok.fText st.erange
    loop parse (assignKey any key element) ok { st with erange := erange }
  | .index => parse tok (assignKey any key .null) ok st
  | _ => parseValue env parse (some key) tok any ok st

def parseToken (env : Environment D) (parse : Parse D) (tok : AnythingToken) (any : Slots D) (ok : Bool)
    (st : ParserState) : Parsed D :=
  match tok.fToken with
  | .rbrace => some (ok, any, st)
  | .error => loop parse any false st
  | .nullSym => some (false, any, st)
  | .include =>
    let (element, erange) := env.importIncludeAny tok.fText st.erange
    loop parse (Entries.apply (.append element) any) ok { st with erange := erange }
  | .ref =>
    let (path, erange) := Level.ofPath st.erange tok.fText
    loop parse (Entries.apply (.append (Level.toAny path)) any) ok
      ({ st with erange := erange }.definePatchRef (.index (Int64.ofNat any.length)))
  | .index => parseKeyed env parse tok.fText st.next.1 any ok st.next.2
  | _ => parseValue env parse none tok any ok st

def doParseSequence (env : Environment D) : Nat → Parse D
  | 0 => fun _ _ _ _ => none
  | fuel + 1 => parseToken env (doParseSequence env fuel)

/-- `DoParse` up to the patches: whether all was well, the value, and the state with the patches. -/
def doParse (env : Environment D) (st : ParserState) : Option (Bool × AnyTree D × ParserState) :=
  let (tok, st') := st.next
  if tok.fToken = .lbrace then do
    let (ok, slots, st') ← doParseSequence env (st.context.rest.length + 1) st'.next.1 [] true st'.next.2
    return (ok, .array slots, st')
  else
    let (ok, any, erange) := makeSimpleAny env st'.erange tok
    some (ok, any, { st' with erange := erange })

/-! ### The arrays of the parser -/

def KeepsBuilt (parse : Parse D) : Prop :=
  ∀ tok any ok st result, Built any → parse tok any ok st = some result → Built result.2.1

theorem built_append {any : Slots D} (built : Built any) (element : AnyTree D) :
    Built (Entries.apply (.append element) any) := .step built trivial

theorem built_assignKey {any : Slots D} (built : Built any) (key : Bytes) (element : AnyTree D) :
    Built (assignKey any key element) := by
  rw [assignKey]
  split
  · exact .step built trivial
  · exact built_append built element

theorem built_loop {parse : Parse D} (keeps : KeepsBuilt parse) {any : Slots D} (built : Built any) {ok : Bool} {st : ParserState}
    {result : Bool × Slots D × ParserState} (done : loop parse any ok st = some result) : Built result.2.1 := by
  rw [loop] at done
  split at done
  · exact keeps _ any _ _ _ built done
  · cases done
    exact built

theorem built_parseNested {parse : Parse D} (keeps : KeepsBuilt parse) {any : Slots D} (built : Built any) {key : Option Bytes}
    {ok : Bool} {st : ParserState} {result : Bool × Slots D × ParserState}
    (done : parseNested parse key any ok st = some result) : Built result.2.1 := by
  cases key with
  | some key =>
    obtain ⟨_, -, continued⟩ := Option.bind_eq_some_iff.mp done
    exact built_loop keeps (built_assignKey built _ _) continued
  | none =>
    obtain ⟨_, -, continued⟩ := Option.bind_eq_some_iff.mp done
    have present : any.length < (Entries.apply (.append .null) any).length := by simp [Entries.apply]
    have placed : ∀ v, Anything.Builds (.atSlot any.length v) (Entries.apply (.append .null) any) := fun _ => present
    exact built_loop keeps (.step (built_append built .null) (placed _)) continued

theorem built_parseValue (env : Environment D) {parse : Parse D} (keeps : KeepsBuilt parse) {any : Slots D} (built : Built any)
    {key : Option Bytes} {tok : AnythingToken} {ok : Bool} {st : ParserState} {result : Bool × Slots D × ParserState}
    (done : parseValue env parse key tok any ok st = some result) : Built result.2.1 := by
  rw [parseValue] at done
  split at done
  · exact built_parseNested keeps built done
  · generalize makeSimpleAny env st.erange tok = simple at done
    obtain ⟨lastok, element, erange⟩ := simple
    refine built_loop keeps ?_ done
    cases key with
    | some key => exact built_assignKey built _ _
    | none =>
      cases lastok with
      | true => exact built_append built _
      | false => exact built

theorem built_parseKeyed (env : Environment D) {parse : Parse D} (keeps : KeepsBuilt parse) {any : Slots D} (built : Built any)
    {key : Bytes} {tok : AnythingToken} {ok : Bool} {st : ParserState} {result : Bool × Slots D × ParserState}
    (done : parseKeyed env parse key tok any ok st = some result) : Built result.2.1 := by
  rw [parseKeyed] at done
  split at done
  · exact built_loop keeps (built_assignKey built _ _) done
  · exact built_loop keeps (built_assignKey built _ _) done
  · exact keeps _ _ _ _ _ (built_assignKey built _ _) done
  · exact built_parseValue env keeps built done

theorem built_parseToken (env : Environment D) {parse : Parse D} (keeps : KeepsBuilt parse) : KeepsBuilt (parseToken env parse) := by
  intro tok any ok st result built done
  rw [parseToken] at done
  split at done
  · cases done
    exact built
  · exact built_loop keeps built done
  · cases done
    exact built
  · exact built_loop keeps (built_append built _) done
  · exact built_loop keeps (built_append built _) done
  · exact built_parseKeyed env keeps built done
  · exact built_parseValue env keeps built done

theorem built_doParseSequence (env : Environment D) (fuel : Nat) : KeepsBuilt (doParseSequence env fuel) := by
  induction fuel with
  | zero =>
    intro tok any ok st result _ done
    cases done
  | succ fuel ih => exact built_parseToken env ih

theorem bufferOf_ne_array (text : Bytes) (slots : Slots D) : bufferOf text ≠ .array slots := by
  unfold bufferOf
  by_cases fits : text.length < 2 ^ 63
  · rw [dif_pos fits]
    nofun
  · rw [dif_neg fits]
    nofun

theorem makeSimpleAny_ne_array (env : Environment D) (erange : Bool) (tok : AnythingToken) (slots : Slots D) :
    (makeSimpleAny env erange tok).2.1 ≠ .array slots := by
  have elim : ∀ {α : Type} (number : Option α) (f : α → AnyTree D), (∀ a, f a ≠ .array slots) → number.elim .null f ≠ .array slots := by
    intro α number f simple
    cases number with
    | none => nofun
    | some a => exact simple a
  unfold makeSimpleAny
  split
  case h_2 => split <;> nofun
  case h_8 => exact bufferOf_ne_array _ slots
  case h_1 | h_3 | h_10 => nofun
  all_goals exact elim _ _ nofun

/-- Whatever the text, an array that is read is one that the implementation holds slot by slot. -/
theorem doParse_held (env : Environment D) {st st' : ParserState} {ok : Bool} {slots : Slots D}
    (done : doParse env st = some (ok, .array slots, st')) :
    ∃ edits, ∃ a : Anything.AnyArrayImpl (AnyTree D), Runs.run (Edit.apply Anything.AnyArrayImpl.Key.asText) edits .new = .ok a ∧
      a.observe = .ok (slots.map fun e => (e.1.map Key.text, e.2)) := by
  unfold doParse at done
  dsimp only at done
  split at done
  · obtain ⟨⟨ok', slots', st''⟩, parsed, same⟩ := Option.bind_eq_some_iff.mp done
    cases same
    obtain ⟨edits, a, reached, -, shown⟩ := Anything.AnyArrayImpl.built_observe (built_doParseSequence env _ _ _ _ _ _ .empty parsed)
    exact ⟨edits, a, reached, shown⟩
  · have simple := makeSimpleAny_ne_array env st.next.2.erange st.next.1 slots
    exact absurd (congrArg (fun r => r.2.1) (Option.some.inj done)) simple

/-- The text `{*` has no end. -/
theorem doParse_held_null : ∃ edits, ∃ a : Anything.AnyArrayImpl (AnyTree Unit),
    Runs.run (Edit.apply Anything.AnyArrayImpl.Key.asText) edits .new = .ok a ∧ a.observe = .ok [(none, .null)] := by
  have done : doParse bareEnvironment { context := ⟨[123, 42], true⟩, erange := false } = some (false, .array [(none, .null)], _) := rfl
  exact doParse_held bareEnvironment done

end AnythingParser

end Coast
