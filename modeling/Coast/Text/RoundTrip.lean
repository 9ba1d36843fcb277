import Coast.Text.Parser

/-!
# Reading back a printed value

The parser on the text of either printer. `asRead` says what becomes of the value: the value itself,
except that a first number that meets an old `ERANGE` in `errno` is lost. Without white space between
the slots a number must not touch the one before it.
-/

namespace Coast

open Anything (Key Entries Edit)
open AnythingToken AnythingParser

variable {D : Type}

/-- A number as it is read: null if `errno` is `ERANGE`, which is cleared then. -/
def readNumber (erange : Bool) (v : AnyTree D) : AnyTree D × Bool := (if erange then .null else v, false)

mutual

/-- What an import makes of a value, and `errno` after it. -/
def asRead (erange : Bool) : AnyTree D → AnyTree D × Bool
  | .long n => readNumber erange (.long n)
  | .object p => readNumber erange (.object p)
  | .array slots => (.array (asReadSlots erange slots).1, (asReadSlots erange slots).2)
  | .null => (.null, erange)
  | .double d => (.double d, erange)
  | .string s => (.string s, erange)
  | .vbuf b => (.vbuf b, erange)

def asReadSlots (erange : Bool) : Slots D → Slots D × Bool
  | [] => ([], erange)
  | (key, v) :: slots =>
    let (v, erange) := asRead erange v
    let (slots, erange) := asReadSlots erange slots
    ((key, v) :: slots, erange)

end

/-! ### Simple values -/

def isSimple : Tok → Bool
  | .star => true
  | .decimalNumber => true
  | .octalNumber => true
  | .string => true
  | .binaryBuf => true
  | .object => true
  | _ => false

def Follows (rest : Bytes) : AnyTree D → Prop
  | .long _ => Delimited rest
  | .object _ => endsNumber (rest.headD 0) = true
  | _ => True

theorem lookedAt_ne_nil {rest : Bytes} (more : rest ≠ []) : lookedAt rest = ⟨rest, true⟩ := by
  rcases rest with _ | ⟨c, rest⟩
  · exact absurd rfl more
  · rfl

theorem next_long (n : Int64) {rest : Bytes} (delimited : Delimited rest) :
    ∃ tok : AnythingToken, next ⟨longText n.toInt ++ rest, true⟩ = (tok, lookedAt rest) ∧ isSimple tok.fToken = true ∧
      ∀ (env : Environment D) (erange : Bool),
        makeSimpleAny env erange tok = (true, readNumber erange (.long n)) := by
  have number : ∀ (env : Environment D) (erange : Bool),
      makeSimpleAny env erange ⟨.decimalNumber, longText n.toInt⟩ = (true, readNumber erange (.long n)) := by
    intro env erange
    simp only [makeSimpleAny, strToL, strtol_longText]
    cases erange <;> rfl
  by_cases zero : n = 0
  · subst zero
    refine ⟨_, next_zero delimited, rfl, ?_⟩
    intro env erange
    rcases rest with _ | ⟨c, rest⟩ <;> cases erange <;> rfl
  · have nonzero : n.toInt.natAbs ≠ 0 := by
      intro none
      exact zero (Int64.toInt_inj.mp (Int.natAbs_eq_zero.mp none))
    by_cases negative : n.toInt < 0
    · rw [longText, if_pos negative] at number ⊢
      exact ⟨_, next_negative _ delimited, rfl, number⟩
    · rw [longText, if_neg negative] at number ⊢
      exact ⟨_, next_positive nonzero delimited, rfl, number⟩

theorem next_pointer (p : UInt64) {rest : Bytes} (stop : endsNumber (rest.headD 0) = true) :
    ∃ tok : AnythingToken, next ⟨printObject p ++ rest, true⟩ = (tok, lookedAt rest) ∧ isSimple tok.fToken = true ∧
      ∀ (env : Environment D) (erange : Bool),
        makeSimpleAny env erange tok = (true, readNumber erange (.object p)) := by
  refine ⟨_, next_object (decimalText_ne_nil p.toNat) isdigit_of_mem_decimalText stop, rfl, ?_⟩
  intro env erange
  simp only [makeSimpleAny, strToUL, strtoul_decimalText]
  cases erange <;> rfl

theorem next_simple (env : Environment D) (pretty : Bool) (level : Nat) {v : AnyTree D} (printable : Printable v)
    (simple : ∀ slots, v ≠ .array slots) {rest : Bytes} (follows : Follows rest v) :
    ∃ tok context, next ⟨printAny env pretty level v ++ rest, true⟩ = (tok, context) ∧
      (rest ≠ [] → context = ⟨rest, true⟩) ∧ isSimple tok.fToken = true ∧
      ∀ erange : Bool, makeSimpleAny env erange tok = (true, asRead erange v) := by
  cases printable with
  | null => exact ⟨_, _, rfl, fun _ => rfl, rfl, fun _ => rfl⟩
  | long n =>
    obtain ⟨tok, scanned, kind, value⟩ := next_long n follows
    exact ⟨tok, _, scanned, lookedAt_ne_nil, kind, value env⟩
  | string s => exact ⟨_, _, next_string s rest, fun _ => rfl, rfl, fun _ => rfl⟩
  | vbuf b =>
    have scanned := next_binary b.fits rest
    refine ⟨⟨.binaryBuf, b.bytes⟩, _, ?_, fun _ => rfl, rfl, ?_⟩
    · rw [printAny, printBuffer, List.append_assoc, List.singleton_append]
      exact scanned
    · intro erange
      simp only [makeSimpleAny, bufferOf, dif_pos b.fits, asRead]
  | object p =>
    obtain ⟨tok, scanned, kind, value⟩ := next_pointer p follows
    exact ⟨tok, _, scanned, lookedAt_ne_nil, kind, value env⟩
  | array => exact absurd rfl (simple _)

/-! ### Slots -/

theorem ofText_text (k : Key) : Key.ofText k.text = some k := by
  have whole : k.text.takeWhile (· != 0) = k.text := by
    rw [List.takeWhile_eq_self_iff]
    intro c mem
    rw [bne_iff_ne]
    rintro rfl
    exact k.plain mem
  simp only [Key.ofText, whole, dif_pos k.nonempty]

theorem ofText_iff {text : Bytes} (plain : 0 ∉ text) {k : Key} : Key.ofText text = some k ↔ text = k.text := by
  constructor
  · intro named
    by_cases empty : text = []
    · subst empty
      cases named
    · exact congrArg Key.text (Option.some.inj ((ofText_text ⟨text, empty, plain⟩).symm.trans named))
  · rintro rfl
    exact ofText_text k

theorem position_none {any : Slots D} {k : Key} (fresh : k ∉ any.filterMap Prod.fst) : Entries.position any k = none := by
  rw [Entries.position, List.findIdx?_eq_none_iff]
  intro e mem
  rw [beq_eq_false_iff_ne]
  intro named
  exact fresh (List.mem_filterMap.mpr ⟨e, mem, named⟩)

theorem assignKey_new {any : Slots D} {k : Key} (fresh : k ∉ any.filterMap Prod.fst) (element : AnyTree D) :
    assignKey any k.text element = any ++ [(some k, element)] := by
  rw [assignKey, ofText_text]
  simp only [Entries.apply, position_none fresh, Option.getD_some]

theorem append_then_put (any : Slots D) (element : AnyTree D) :
    Entries.apply (.atSlot any.length (some element)) (Entries.apply (.append .null) any) = any ++ [(none, element)] := by
  have padded : any.length + 1 - (any ++ [((none : Option Key), (AnyTree.null : AnyTree D))]).length = 0 := by simp
  simp only [Entries.apply, padded, List.replicate_zero, List.append_nil, Entries.put_last, Option.getD_some]

theorem delimited_cons {d : UInt8} (delimiter : isNameDelimiter d = true) (some : d ≠ 0) (rest : Bytes) :
    Delimited (d :: rest) := by
  refine ⟨delimiter, ?_⟩
  intro zero
  exact some (Option.some.inj zero)

theorem next_name (k : Key) (rest : Bytes) :
    next ⟨printKey k.text ++ rest, true⟩ = (⟨.index, k.text⟩, ⟨' '.toUInt8 :: rest, true⟩) := by
  rw [printKey]
  split
  · rw [List.append_assoc]
    exact next_quotedName k.nonempty _
  · rename_i plain
    rw [Bool.not_eq_true, needQuote, Bool.or_eq_false_iff] at plain
    rw [List.append_assoc]
    refine next_plainName k.nonempty ?_ (delimited_cons (by decide) (by decide) rest)
    intro c mem
    exact Bool.eq_false_iff.mpr fun delimiter => by simp_all

theorem tab_spaces (pretty : Bool) (level : Nat) : ∀ c ∈ tab pretty level, isspace c = true := by
  intro c mem
  rw [tab] at mem
  split at mem
  · rw [List.eq_of_mem_replicate mem]
    rfl
  · cases mem

theorem newline_spaces (pretty : Bool) : ∀ c ∈ newline pretty, isspace c = true := by
  cases pretty with
  | false => nofun
  | true => simp only [newline, if_true, List.mem_singleton, forall_eq]; decide

def touches : AnyTree D → Option Key × AnyTree D → Bool
  | .long _, (none, .long _) => true
  | .object _, (none, .long n) => 0 ≤ n
  | _, _ => false

/-- No slot of an array touches the one before it. -/
inductive Separated : AnyTree D → Prop
  | leaf {v : AnyTree D} (simple : ∀ slots, v ≠ .array slots) : Separated v
  | array {slots : Slots D} (apart : slots.IsChain fun a b => touches a.2 b = false)
    (each : ∀ e ∈ slots, Separated e.2) : Separated (.array slots)

theorem delimited_print (env : Environment D) (pretty : Bool) (level : Nat) {v : AnyTree D} (printable : Printable v)
    (rest : Bytes) : Delimited (printAny env pretty level v ++ rest) ∨ ∃ n, v = .long n := by
  cases printable with
  | long n => exact Or.inr ⟨n, rfl⟩
  | null => exact Or.inl (delimited_cons (by decide) (by decide) _)
  | string s => exact Or.inl (delimited_cons (by decide) (by decide) _)
  | vbuf b => exact Or.inl (delimited_cons (by decide) (by decide) _)
  | object p => exact Or.inl (delimited_cons (by decide) (by decide) _)
  | array => exact Or.inl (delimited_cons (by decide) (by decide) _)

theorem follows_slots (env : Environment D) {pretty : Bool} (level close : Nat) {v : AnyTree D} {slots : Slots D}
    (printable : ∀ e ∈ slots, Printable e.2) (apart : pretty = true ∨ ∀ e ∈ slots.head?, touches v e = false) (rest : Bytes) :
    Follows (newline pretty ++ (printSlots env pretty level slots ++ (tab pretty close ++ '}'.toUInt8 :: rest))) v := by
  have ends : ∀ {text : Bytes}, Delimited text → Follows text v := by
    intro text delimited
    cases v with
    | long n => exact delimited
    | object p => exact (delimiter_ends delimited.1).1
    | _ => trivial
  cases pretty with
  | true => exact ends (delimited_cons (by decide) (by decide) _)
  | false =>
    rcases slots with _ | ⟨⟨key, w⟩, slots⟩
    · exact ends (delimited_cons (by decide) (by decide) rest)
    · rcases key with _ | k
      · have own := apart.resolve_left (by decide) _ rfl
        rw [printSlots]
        simp only [newline_false, tab_false, printName, List.nil_append, List.append_nil, List.append_assoc]
        rcases delimited_print env false level (printable _ (List.mem_cons_self ..))
          (printSlots env false level slots ++ '}'.toUInt8 :: rest) with delimited | ⟨n, rfl⟩
        · exact ends delimited
        · cases v with
          | long m => cases own
          | object p =>
            have negative : n.toInt < 0 := by
              have small := of_decide_eq_false own
              rw [Int64.le_iff_toInt_le] at small
              exact Int.not_le.mp small
            rw [printAny, longText, if_pos negative]
            exact (by decide : endsNumber '-'.toUInt8 = true)
          | _ => trivial
      · exact ends (delimited_cons (by decide) (by decide) _)

/-! ### Arrays -/

theorem ParserState.next_eq {st : ParserState} {tok : AnythingToken} {context : InputContext}
    (scanned : AnythingToken.next st.context = (tok, context)) : st.next = (tok, { st with context := context }) := by
  rw [ParserState.next, scanned]

theorem ParserState.next_spaces {st : ParserState} {spaces rest : Bytes} (all : ∀ c ∈ spaces, isspace c = true)
    (here : st.context = ⟨spaces ++ rest, true⟩) : st.next = { st with context := ⟨rest, true⟩ }.next := by
  rw [ParserState.next, ParserState.next, here, AnythingToken.next_spaces all]

theorem loop_spaces (parse : Parse D) (any : Slots D) (ok : Bool) {st : ParserState} {spaces rest : Bytes}
    (all : ∀ c ∈ spaces, isspace c = true) (here : st.context = ⟨spaces ++ rest, true⟩) :
    loop parse any ok st = parse { st with context := ⟨rest, true⟩ }.next.1 any ok { st with context := ⟨rest, true⟩ }.next.2 := by
  rw [loop, if_pos (by rw [here]), ParserState.next_spaces all here]

def Reads (env : Environment D) (pretty : Bool) (slots : Slots D) : Prop :=
  ∀ (level close : Nat) (any : Slots D) (ok : Bool) (st : ParserState) (fuel : Nat) (rest : Bytes),
    ((any ++ slots).filterMap Prod.fst).Nodup →
    st.context = ⟨printSlots env pretty level slots ++ (tab pretty close ++ '}'.toUInt8 :: rest), true⟩ →
    (printSlots env pretty level slots).length < fuel →
    doParseSequence env fuel st.next.1 any ok st.next.2 =
      some (ok, any ++ (asReadSlots st.erange slots).1,
        { st with context := ⟨rest, true⟩, erange := (asReadSlots st.erange slots).2 })

theorem printAny_array_append (env : Environment D) (pretty : Bool) (level : Nat) (slots : Slots D) (rest : Bytes) :
    printAny env pretty level (.array slots) ++ rest = '{'.toUInt8 :: (newline pretty ++
      (printSlots env pretty (level + 1) slots ++ (tab pretty level ++ '}'.toUInt8 :: rest))) := by
  simp only [printAny, List.append_assoc, List.cons_append, List.nil_append]

def slotLevel (key : Option Key) (any : Slots D) : Level :=
  match key with
  | some k => .key k.text
  | none => .index (Int64.ofNat any.length)

theorem parseNested_inside {parse : Parse D} {key : Option Key} {any : Slots D} (ok : Bool) {st : ParserState}
    (fresh : ∀ k ∈ key, k ∉ any.filterMap Prod.fst) {slots : Slots D} {context : InputContext} {erange : Bool}
    {xrefs : List Patch}
    (inside : parse (st.push (slotLevel key any)).next.1 [] true (st.push (slotLevel key any)).next.2 =
      some (true, slots, { st.push (slotLevel key any) with context := context, erange := erange, xrefs := xrefs })) :
    parseNested parse (key.map Key.text) any ok st =
      loop parse (any ++ [(key, .array slots)]) ok { st with context := context, erange := erange, xrefs := xrefs } := by
  rcases key with _ | k
  · simp only [slotLevel] at inside
    simp only [Option.map_none, parseNested, inside, Option.bind_some, append_then_put, Bool.and_true]
  · simp only [slotLevel] at inside
    simp only [Option.map_some, parseNested, inside, Option.bind_some, assignKey_new (fresh k rfl), Bool.and_true]

theorem parseValue_simple (env : Environment D) (parse : Parse D) {key : Option Key} {any : Slots D} (ok : Bool)
    {st : ParserState} (fresh : ∀ k ∈ key, k ∉ any.filterMap Prod.fst) {tok : AnythingToken} {context : InputContext}
    (scanned : AnythingToken.next st.context = (tok, context)) (kind : isSimple tok.fToken = true) {w : AnyTree D}
    {erange : Bool} (value : makeSimpleAny env st.erange tok = (true, w, erange)) :
    parseValue env parse (key.map Key.text) st.next.1 any ok st.next.2 =
      loop parse (any ++ [(key, w)]) ok { st with context := context, erange := erange } := by
  have notBrace : tok.fToken ≠ .lbrace := by
    intro brace
    rw [brace] at kind
    cases kind
  rw [ParserState.next_eq scanned, parseValue, if_neg notBrace]
  simp only [value]
  rcases key with _ | k
  · simp [Entries.apply]
  · simp [assignKey_new (fresh k rfl)]

theorem parseValue_print (env : Environment D) {pretty : Bool} {level : Nat} {key : Option Key} {v : AnyTree D}
    (printable : Printable v) (inner : ∀ slots, v = .array slots → Reads env pretty slots) {any : Slots D} (ok : Bool)
    (st : ParserState) (fuel : Nat) {rest : Bytes} (fresh : ∀ k ∈ key, k ∉ any.filterMap Prod.fst) (more : rest ≠ [])
    (follows : Follows rest v) (here : st.context = ⟨printAny env pretty level v ++ rest, true⟩)
    (enough : (printAny env pretty level v).length ≤ fuel + 1) :
    (isSimple st.next.1.fToken = true ∨ st.next.1.fToken = .lbrace) ∧
    parseValue env (doParseSequence env fuel) (key.map Key.text) st.next.1 any ok st.next.2 =
      loop (doParseSequence env fuel) (any ++ [(key, (asRead st.erange v).1)]) ok
        { st with context := ⟨rest, true⟩, erange := (asRead st.erange v).2 } := by
  by_cases array : ∃ slots, v = .array slots
  · obtain ⟨slots, rfl⟩ := array
    cases printable with
    | array distinct each =>
      rw [printAny_array_append] at here
      have brace : st.next = (⟨.lbrace, ['{'.toUInt8]⟩, { st with context := ⟨newline pretty ++
          (printSlots env pretty (level + 1) slots ++ (tab pretty level ++ '}'.toUInt8 :: rest)), true⟩ }) :=
        ParserState.next_eq (by rw [here]; rfl)
      have shorter : (printSlots env pretty (level + 1) slots).length < fuel := by
        simp only [printAny, List.length_append, List.length_cons] at enough
        omega
      rw [brace]
      refine ⟨Or.inr rfl, ?_⟩
      rw [parseValue, if_pos rfl, asRead]
      refine parseNested_inside ok fresh ?_
      rw [ParserState.next_spaces (newline_spaces pretty) rfl]
      exact inner slots rfl (level + 1) level [] true _ fuel rest distinct rfl shorter
  · have simple : ∀ slots, v ≠ .array slots := fun slots same => array ⟨slots, same⟩
    obtain ⟨tok, context, scanned, left, kind, value⟩ := next_simple env pretty level printable simple follows
    rw [← here, left more] at scanned
    refine ⟨?_, parseValue_simple env _ ok fresh scanned kind (value st.erange)⟩
    rw [ParserState.next_eq scanned]
    exact Or.inl kind

theorem parseToken_value (env : Environment D) (parse : Parse D) {tok : AnythingToken}
    (kind : isSimple tok.fToken = true ∨ tok.fToken = .lbrace) (any : Slots D) (ok : Bool) (st : ParserState) :
    parseToken env parse tok any ok st = parseValue env parse none tok any ok st ∧
      ∀ key, parseKeyed env parse key tok any ok st = parseValue env parse (some key) tok any ok st := by
  obtain ⟨token, text⟩ := tok
  cases token <;> simp_all [isSimple, parseToken, parseKeyed]

theorem parseToken_name (env : Environment D) (parse : Parse D) (k : Key) (text : Bytes) (any : Slots D) (ok : Bool)
    (st : ParserState) :
    parseToken env parse { st with context := ⟨printKey k.text ++ text, true⟩ }.next.1 any ok
      { st with context := ⟨printKey k.text ++ text, true⟩ }.next.2 =
    parseKeyed env parse k.text { st with context := ⟨text, true⟩ }.next.1 any ok
      { st with context := ⟨text, true⟩ }.next.2 := by
  have named : { st with context := ⟨printKey k.text ++ text, true⟩ }.next =
      (⟨.index, k.text⟩, { st with context := ⟨[' '.toUInt8] ++ text, true⟩ }) := ParserState.next_eq (next_name k text)
  have skipped : { st with context := ⟨[' '.toUInt8] ++ text, true⟩ }.next = { st with context := ⟨text, true⟩ }.next :=
    ParserState.next_spaces (by simp only [List.mem_singleton, forall_eq]; rfl) rfl
  rw [named, ← skipped]
  rfl

theorem doParseSequence_slot (env : Environment D) (pretty : Bool) (level : Nat) (key : Option Key) (text : Bytes)
    (any : Slots D) (ok : Bool) {st : ParserState} (fuel : Nat)
    (here : st.context = ⟨tab pretty level ++ (printName key ++ text), true⟩)
    (kind : isSimple { st with context := ⟨text, true⟩ }.next.1.fToken = true ∨
      { st with context := ⟨text, true⟩ }.next.1.fToken = .lbrace) :
    doParseSequence env (fuel + 1) st.next.1 any ok st.next.2 =
      parseValue env (doParseSequence env fuel) (key.map Key.text) { st with context := ⟨text, true⟩ }.next.1 any ok
        { st with context := ⟨text, true⟩ }.next.2 := by
  rw [ParserState.next_spaces (tab_spaces pretty level) here, doParseSequence]
  rcases key with _ | k
  · rw [printName, List.nil_append, (parseToken_value env _ kind any ok _).1]
    rfl
  · rw [printName, parseToken_name, (parseToken_value env _ kind any ok _).2]
    rfl

theorem printAny_ne_nil (env : Environment D) (pretty : Bool) (level : Nat) {v : AnyTree D} (printable : Printable v) :
    0 < (printAny env pretty level v).length := by
  cases printable with
  | long n =>
    obtain ⟨c, digits, shape, -⟩ := decimalText_cons n.toInt.natAbs
    rw [printAny, longText]
    split <;> simp [shape]
  | _ => simp [printAny, printBuffer, printObject, intPrintOn]

theorem reads_slots (env : Environment D) {pretty : Bool} {slots : Slots D} (printable : ∀ e ∈ slots, Printable e.2)
    (inner : ∀ e ∈ slots, ∀ inner, e.2 = .array inner → Reads env pretty inner)
    (apart : pretty = true ∨ slots.IsChain fun a b => touches a.2 b = false) : Reads env pretty slots := by
  induction slots with
  | nil =>
    intro level close any ok st fuel rest distinct here enough
    obtain ⟨fuel, rfl⟩ := Nat.exists_eq_succ_of_ne_zero (Nat.ne_of_gt enough)
    rw [ParserState.next_spaces (tab_spaces pretty close) here, asReadSlots, List.append_nil]
    rfl
  | cons e slots ih =>
    obtain ⟨key, v⟩ := e
    intro level close any ok st fuel rest distinct here enough
    obtain ⟨fuel, rfl⟩ := Nat.exists_eq_succ_of_ne_zero (Nat.ne_of_gt (Nat.lt_of_le_of_lt (Nat.zero_le _) enough))
    have own : Printable v := printable (key, v) (List.mem_cons_self ..)
    have others : ∀ e ∈ slots, Printable e.2 := fun e mem => printable e (List.mem_cons_of_mem _ mem)
    have nonempty := printAny_ne_nil env pretty level own
    simp only [printSlots, List.length_append] at enough
    simp only [printSlots, List.append_assoc] at here
    generalize behind : newline pretty ++ (printSlots env pretty level slots ++ (tab pretty close ++ '}'.toUInt8 :: rest)) =
      text at here
    have follows : Follows text v := by
      rw [← behind]
      refine follows_slots env level close others ?_ rest
      rcases apart with pretty | chain
      · exact Or.inl pretty
      · exact Or.inr (List.isChain_cons.mp chain).1
    have more : text ≠ [] := by
      rw [← behind]
      simp
    have fresh : ∀ k ∈ key, k ∉ any.filterMap Prod.fst := by
      rintro k rfl mem
      rw [List.filterMap_append] at distinct
      exact List.disjoint_of_nodup_append distinct mem (by simp)
    -- the value, once its token is the next one
    obtain ⟨kind, value⟩ := parseValue_print env own (inner (key, v) (List.mem_cons_self ..)) ok
      { st with context := ⟨printAny env pretty level v ++ text, true⟩ } fuel fresh more follows rfl (by omega)
    have names : ((any ++ [(key, (asRead st.erange v).1)]) ++ slots).filterMap Prod.fst =
        (any ++ (key, v) :: slots).filterMap Prod.fst := by
      cases key <;> simp [List.filterMap_append]
    have continued := ih others (fun e mem => inner e (List.mem_cons_of_mem _ mem))
      (apart.imp id fun chain => (List.isChain_cons.mp chain).2) level close (any ++ [(key, (asRead st.erange v).1)]) ok
      { st with
        context := ⟨printSlots env pretty level slots ++ (tab pretty close ++ '}'.toUInt8 :: rest), true⟩
        erange := (asRead st.erange v).2 } fuel rest (by rw [names]; exact distinct) rfl (by omega)
    rw [doParseSequence_slot env pretty level key _ any ok fuel here kind, value, ← behind,
      loop_spaces _ _ _ (newline_spaces pretty) rfl, continued]
    simp only [asReadSlots, List.append_assoc, List.singleton_append]

theorem reads_any (env : Environment D) (pretty : Bool) (v : AnyTree D) :
    Printable v → (pretty = true ∨ Separated v) → ∀ slots, v = .array slots → Reads env pretty slots := by
  induction v using AnyTree.induct with
  | leaf v simple =>
    intro _ _ slots same
    exact absurd same (simple slots)
  | array slots ih =>
    rintro (_ | _ | _ | _ | _ | ⟨distinct, printable⟩) separated _ ⟨⟩
    refine reads_slots env printable ?_ ?_
    · intro e mem
      refine ih e mem (printable e mem) (separated.imp id ?_)
      rintro (simple | ⟨apart, each⟩)
      · exact absurd rfl (simple slots)
      · exact each e mem
    · refine separated.imp id ?_
      rintro (simple | ⟨apart, each⟩)
      · exact absurd rfl (simple slots)
      · exact apart

theorem doParse_array (env : Environment D) {pretty : Bool} {slots : Slots D} (printable : Printable (.array slots))
    (separated : pretty = true ∨ Separated (.array slots)) (erange : Bool) (rest : Bytes) :
    doParse env { context := ⟨printOn env (.array slots) pretty ++ rest, true⟩, erange := erange } =
      some (true, (asRead erange (.array slots)).1,
        { context := ⟨rest, true⟩, erange := (asRead erange (.array slots)).2 }) := by
  have inner := reads_any env pretty _ printable separated slots rfl
  have text := printAny_array_append env pretty 0 slots rest
  have brace : ParserState.next { context := ⟨printOn env (.array slots) pretty ++ rest, true⟩, erange := erange } =
      (⟨.lbrace, ['{'.toUInt8]⟩, { context := ⟨newline pretty ++ (printSlots env pretty 1 slots ++
        (tab pretty 0 ++ '}'.toUInt8 :: rest)), true⟩, erange := erange }) :=
    ParserState.next_eq (by rw [printOn, text]; rfl)
  cases printable with
  | array distinct each =>
    rw [doParse, brace]
    simp only [if_true]
    rw [ParserState.next_spaces (newline_spaces pretty) rfl, inner 1 0 [] true _ _ rest distinct rfl]
    · rfl
    · simp only [printOn, printAny, List.length_append, List.length_cons, Nat.zero_add]
      omega

theorem doParse_simple (env : Environment D) (pretty : Bool) {v : AnyTree D} (printable : Printable v)
    (simple : ∀ slots, v ≠ .array slots) (erange : Bool) {rest : Bytes} (follows : Follows rest v) :
    ∃ context, doParse env { context := ⟨printOn env v pretty ++ rest, true⟩, erange := erange } =
      some (true, (asRead erange v).1, { context := context, erange := (asRead erange v).2 }) := by
  obtain ⟨tok, context, scanned, -, kind, value⟩ := next_simple env pretty 0 printable simple follows
  refine ⟨context, ?_⟩
  rw [doParse, ParserState.next_eq scanned]
  have notBrace : tok.fToken ≠ .lbrace := by
    intro brace
    rw [brace] at kind
    cases kind
  simp only [if_neg notBrace, value]

theorem follows_nil (v : AnyTree D) : Follows [] v := by
  cases v with
  | long n => exact ⟨by decide, by decide⟩
  | object p => exact (by decide : endsNumber 0 = true)
  | _ => trivial

theorem doParse_print (env : Environment D) {pretty : Bool} {v : AnyTree D} (printable : Printable v)
    (separated : pretty = true ∨ Separated v) (erange : Bool) :
    ∃ context, doParse env { context := ⟨printOn env v pretty, true⟩, erange := erange } =
      some (true, (asRead erange v).1, { context := context, erange := (asRead erange v).2 }) := by
  by_cases array : ∃ slots, v = .array slots
  · obtain ⟨slots, rfl⟩ := array
    have read := doParse_array env printable separated erange []
    rw [List.append_nil] at read
    exact ⟨_, read⟩
  · have read := doParse_simple env pretty printable (fun slots same => array ⟨slots, same⟩) erange (follows_nil v)
    rw [List.append_nil] at read
    exact read

/-! ### What is lost -/

mutual

def hasNumber : AnyTree D → Bool
  | .long _ => true
  | .object _ => true
  | .array slots => anyNumber slots
  | _ => false

def anyNumber : Slots D → Bool
  | [] => false
  | (_, v) :: slots => hasNumber v || anyNumber slots

end

theorem asRead_false (v : AnyTree D) : asRead false v = (v, false) := by
  induction v using AnyTree.induct with
  | leaf v simple =>
    cases v with
    | array slots => exact absurd rfl (simple slots)
    | _ => rfl
  | array slots ih =>
    have all : asReadSlots false slots = (slots, false) := by
      induction slots with
      | nil => rfl
      | cons e slots ihs =>
        have own := ih e (List.mem_cons_self ..)
        simp only [asReadSlots, own, ihs fun e mem => ih e (List.mem_cons_of_mem _ mem)]
    simp only [asRead, all]

theorem asReadSlots_false (slots : Slots D) : asReadSlots false slots = (slots, false) := by
  have whole := asRead_false (.array slots)
  simp only [asRead, Prod.mk.injEq, AnyTree.array.injEq] at whole
  exact Prod.ext whole.1 whole.2

theorem asRead_true (v : AnyTree D) :
    (hasNumber v = false → asRead true v = (v, true)) ∧
      (hasNumber v = true → (asRead true v).1 ≠ v ∧ (asRead true v).2 = false) := by
  induction v using AnyTree.induct with
  | leaf v simple =>
    cases v with
    | array slots => exact absurd rfl (simple slots)
    | long n => exact ⟨nofun, fun _ => ⟨nofun, rfl⟩⟩
    | object p => exact ⟨nofun, fun _ => ⟨nofun, rfl⟩⟩
    | _ => exact ⟨fun _ => rfl, nofun⟩
  | array slots ih =>
    have all : (anyNumber slots = false → asReadSlots true slots = (slots, true)) ∧
        (anyNumber slots = true → (asReadSlots true slots).1 ≠ slots ∧ (asReadSlots true slots).2 = false) := by
      induction slots with
      | nil => exact ⟨fun _ => rfl, nofun⟩
      | cons e slots ihs =>
        obtain ⟨key, v⟩ := e
        have own := ih (key, v) (List.mem_cons_self ..)
        have others := ihs fun e mem => ih e (List.mem_cons_of_mem _ mem)
        simp only at own
        cases number : hasNumber v with
        | true =>
          obtain ⟨lost, cleared⟩ := own.2 number
          refine ⟨by simp [anyNumber, number], fun _ => ?_⟩
          simp only [asReadSlots, cleared, asReadSlots_false, ne_eq, List.cons.injEq, Prod.mk.injEq, true_and, and_true]
          exact lost
        | false =>
          simp only [anyNumber, number, Bool.false_or, asReadSlots, own.1 number]
          refine ⟨fun none => by rw [others.1 none], fun some => ⟨?_, (others.2 some).2⟩⟩
          intro same
          exact (others.2 some).1 (List.cons.inj same).2
    simp only [hasNumber, asRead]
    refine ⟨fun none => by rw [all.1 none], fun some => ⟨?_, (all.2 some).2⟩⟩
    intro same
    exact (all.2 some).1 (AnyTree.array.inj same)

theorem asRead_eq_iff (erange : Bool) (v : AnyTree D) : (asRead erange v).1 = v ↔ erange = false ∨ hasNumber v = false := by
  cases erange with
  | false => simp [asRead_false]
  | true =>
    cases number : hasNumber v with
    | true => simp [((asRead_true v).2 number).1]
    | false => simp [(asRead_true v).1 number]

def selfDelimiting : AnyTree D → Bool
  | .array _ => true
  | .string _ => true
  | _ => false

/-- Import of the pretty text returns true and the value, with no reference to patch; of an array or a
string it consumes exactly the text, whatever follows. -/
def PrettyRoundTrip (env : Environment D) (erange : Bool) (v : AnyTree D) : Prop :=
  (∃ st, doParse env { context := ⟨printOn env v true, true⟩, erange := erange } = some (true, v, st) ∧ st.xrefs = []) ∧
    (selfDelimiting v = true → ∀ rest, ∃ st,
      doParse env { context := ⟨printOn env v true ++ rest, true⟩, erange := erange } = some (true, v, st) ∧
        st.xrefs = [] ∧ st.context = ⟨rest, true⟩)

/-- The value is read back if and only if no old `ERANGE` is in `errno` when its first number is
converted. -/
theorem import_pretty_iff (env : Environment D) (erange : Bool) {v : AnyTree D} (printable : Printable v) :
    PrettyRoundTrip env erange v ↔ erange = false ∨ hasNumber v = false := by
  obtain ⟨context, read⟩ := doParse_print env printable (Or.inl rfl : true = true ∨ Separated v) erange
  rw [← asRead_eq_iff]
  constructor
  · rintro ⟨⟨st, same, -⟩, -⟩
    rw [read] at same
    exact (Prod.mk.inj (Prod.mk.inj (Option.some.inj same)).2).1
  · intro same
    rw [same] at read
    refine ⟨⟨_, read, rfl⟩, ?_⟩
    intro own rest
    cases v with
    | array slots =>
      have whole := doParse_array env printable (Or.inl rfl : true = true ∨ Separated (.array slots)) erange rest
      rw [same] at whole
      exact ⟨_, whole, rfl, rfl⟩
    | string s =>
      refine ⟨{ context := ⟨rest, true⟩, erange := erange }, ?_, rfl, rfl⟩
      rw [doParse, ParserState.next_eq (next_string s rest)]
      rfl
    | _ => cases own

theorem import_pretty_iff_nested :
    let v : AnyTree Unit := .array [(some ⟨ascii "a b", by decide, by decide⟩, .long (-1)),
      (none, .array [(none, .string [0, 34, 255]), (none, .vbuf ⟨[125], by decide⟩), (none, .object 7)])]
    Printable v ∧ (PrettyRoundTrip bareEnvironment false v ↔ false = false ∨ hasNumber v = false) := by
  intro v
  have inner : Printable (.array [(none, .string [0, 34, 255]), (none, .vbuf ⟨[125], by decide⟩), (none, .object 7)] :
      AnyTree Unit) := by
    refine .array (by decide) ?_
    simp only [List.forall_mem_cons]
    exact ⟨.string _, .vbuf _, .object _, nofun⟩
  have printable : Printable v := by
    refine .array (by decide) ?_
    simp only [List.forall_mem_cons]
    exact ⟨.long _, inner, nofun⟩
  exact ⟨printable, import_pretty_iff bareEnvironment false printable⟩

/-- `AsLong` of a number that is too large leaves `ERANGE` behind, and the next import loses a number. -/
theorem import_after_overflow :
    (Level.asLong (ascii "9223372036854775808")).2 = true ∧
    ¬ PrettyRoundTrip bareEnvironment (Level.asLong (ascii "9223372036854775808")).2 (.long 5) := by
  refine ⟨by decide +kernel, ?_⟩
  rintro ⟨⟨st, same, -⟩, -⟩
  cases same

end Coast
