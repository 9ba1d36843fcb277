import Coast.Text.RoundTrip

/-!
# The compact text

Without white space a number runs on into the numbers behind it: the scanner takes all of them for one
token. An array that holds such a run is read back with fewer slots than it had.
-/

namespace Coast

open Anything (Key Entries Edit)
open AnythingToken AnythingParser

variable {D : Type}

/-! ### A run of numbers is one token -/

def isNumeric (c : UInt8) : Bool := isdigit c || c == '-'.toUInt8

theorem numeric_plain {c : UInt8} (numeric : isNumeric c = true) :
    isNameDelimiter c = false ∧ (isdigit c = false → endsNumber c = true) ∧ (toupper c == 'X'.toUInt8) = false ∧
      (isDecimalMark c = true → isdigit c = true) := by
  revert numeric
  exact forall_byte (by decide) c

theorem longText_numeric (n : Int) : ∀ c ∈ longText n, isNumeric c = true := by
  have digits : ∀ c ∈ decimalText n.natAbs, isNumeric c = true := by
    intro c mem
    rw [isNumeric, isdigit_of_mem_decimalText c mem]
    rfl
  rw [longText]
  split
  · intro c mem
    rcases List.mem_cons.mp mem with rfl | mem
    · decide
    · exact digits c mem
  · exact digits

/-- A number has been scanned as far as some place in the run of numeric characters before `rest`. -/
def Scanned (scan : Scan) (rest : Bytes) : Prop :=
  ∃ tok text run, (tok = .decimalNumber ∨ tok = .octalNumber) ∧ (∀ c ∈ run, isNumeric c = true) ∧
    scan = ⟨tok, text, (run ++ rest).headD 0, ⟨(run ++ rest).tail, !(run ++ rest).isEmpty⟩⟩

theorem numberOrName_scanned {scan : Scan} {rest : Bytes} (scanned : Scanned scan rest) (delimited : Delimited rest) :
    ∃ tok : AnythingToken, numberOrName scan (scan.fToken = .error) = (tok, lookedAt rest) ∧
      numberOrName scan false = (tok, lookedAt rest) ∧ isSimple tok.fToken = true := by
  obtain ⟨tok, text, run, kind, numeric, rfl⟩ := scanned
  have valid : decide (tok = .error) = false := by
    rcases kind with rfl | rfl <;> rfl
  rw [valid]
  rcases run with _ | ⟨c, run⟩
  · have settled := settle_rest tok text rest delimited.2
    refine ⟨⟨tok, text⟩, ?_, ?_, by rcases kind with rfl | rfl <;> rfl⟩
    all_goals
      simp only [List.nil_append, numberOrName, delimited.1, Bool.not_true, Bool.or_self, Bool.false_eq_true, if_false]
      exact settled
  · have named : collect (fun c => !isNameDelimiter c) (text ++ [c]) (run ++ rest) =
        (text ++ [c] ++ run, rest.headD 0, ⟨rest.tail, !rest.isEmpty⟩) := by
      refine collect_run _ ?_ rest (by rw [delimited.1]; rfl)
      intro d mem
      rw [(numeric_plain (numeric d (List.mem_cons_of_mem _ mem))).1]
      rfl
    have own := (numeric_plain (numeric c (List.mem_cons_self ..))).1
    have settled := settle_rest .string (text ++ [c] ++ run) rest delimited.2
    refine ⟨⟨.string, text ++ [c] ++ run⟩, ?_, ?_, rfl⟩
    all_goals
      simp only [List.cons_append, List.headD_cons, List.tail_cons, List.isEmpty_cons, Bool.not_false, numberOrName, own,
        Bool.or_false, if_true, doReadName, collectFrom, named]
      exact settled

theorem doReadNumber_run {c : UInt8} {run : Bytes} (text : Bytes) (digit : isdigit c = true)
    (numeric : ∀ c ∈ run, isNumeric c = true) {rest : Bytes} (delimited : Delimited rest) :
    Scanned (doReadNumber ⟨run ++ rest, true⟩ text c) rest := by
  have digits : ∀ c ∈ run.takeWhile isdigit, isdigit c = true := fun c mem => List.mem_takeWhile_imp mem
  have left : ∀ c ∈ run.dropWhile isdigit, isNumeric c = true := fun c mem =>
    numeric c (List.dropWhile_sublist isdigit |>.subset mem)
  have stop : endsNumber ((run.dropWhile isdigit ++ rest).headD 0) = true := by
    rcases shape : run.dropWhile isdigit with _ | ⟨d, ds⟩
    · exact (delimiter_ends delimited.1).1
    · have head := List.head?_dropWhile_not isdigit run
      rw [shape] at head left
      exact (numeric_plain (left d (List.mem_cons_self ..))).2.1 (by simpa using head)
  have scanned := doReadNumber_digits text digit digits (run.dropWhile isdigit ++ rest) stop
  rw [← List.append_assoc, List.takeWhile_append_dropWhile] at scanned
  exact ⟨_, _, _, Or.inl rfl, left, scanned⟩

theorem readOctalDigits_run {run : Bytes} (text : Bytes) (numeric : ∀ c ∈ run, isNumeric c = true) {rest : Bytes}
    (delimited : Delimited rest) : Scanned (readOctalDigits text (run ++ rest)) rest := by
  induction run generalizing text with
  | nil =>
    refine ⟨.octalNumber, text, [], Or.inr rfl, nofun, ?_⟩
    rcases rest with _ | ⟨d, rest⟩
    · rfl
    · obtain ⟨-, -, octal, mark⟩ := delimiter_ends delimited.1
      simp only [List.headD_cons] at octal mark
      simp [readOctalDigits, octal, mark]
  | cons c run ih =>
    have others : ∀ c ∈ run, isNumeric c = true := fun d mem => numeric d (List.mem_cons_of_mem _ mem)
    have own := numeric_plain (numeric c (List.mem_cons_self ..))
    rw [List.cons_append, readOctalDigits]
    split
    · rename_i mark
      exact doReadNumber_run text (own.2.2.2 mark) others delimited
    · split
      · exact ih (text ++ [c]) others
      · exact ⟨.octalNumber, text, c :: run, Or.inr rfl, numeric, rfl⟩

theorem doReadOctalOrHex_run {run : Bytes} (numeric : ∀ c ∈ run, isNumeric c = true) {rest : Bytes}
    (delimited : Delimited rest) : Scanned (doReadOctalOrHex ⟨run ++ rest, true⟩ []) rest := by
  rcases run with _ | ⟨c, run⟩
  · rcases rest with _ | ⟨d, rest⟩
    · exact ⟨.octalNumber, [], [], Or.inr rfl, nofun, rfl⟩
    · obtain ⟨-, x, octal, mark⟩ := delimiter_ends delimited.1
      simp only [List.headD_cons] at x octal mark
      exact ⟨.octalNumber, ['0'.toUInt8], [], Or.inr rfl, nofun, by simp [doReadOctalOrHex, x, octal, mark]⟩
  · have others : ∀ c ∈ run, isNumeric c = true := fun d mem => numeric d (List.mem_cons_of_mem _ mem)
    have own := numeric_plain (numeric c (List.mem_cons_self ..))
    simp only [doReadOctalOrHex, List.cons_append, InputContext.get_cons, own.2.2.1, Bool.false_eq_true, if_false]
    split
    · exact readOctalDigits_run _ others delimited
    · split
      · exact @doReadNumber_run '0'.toUInt8 (c :: run) [] (by decide) numeric rest delimited
      · exact ⟨.octalNumber, ['0'.toUInt8], c :: run, Or.inr rfl, numeric, rfl⟩

theorem next_run (n : Int64) {run : Bytes} (numeric : ∀ c ∈ run, isNumeric c = true) {rest : Bytes}
    (delimited : Delimited rest) :
    ∃ tok : AnythingToken, next ⟨longText n.toInt ++ (run ++ rest), true⟩ = (tok, lookedAt rest) ∧
      isSimple tok.fToken = true := by
  obtain ⟨c, digits, shape, digit, all, nonzero⟩ := decimalText_cons n.toInt.natAbs
  have joined : ∀ d ∈ digits ++ run, isNumeric d = true := by
    intro d mem
    rcases List.mem_append.mp mem with mem | mem
    · rw [isNumeric, all d mem]
      rfl
    · exact numeric d mem
  have start : ∀ text : Bytes, Scanned (doReadNumber ⟨digits ++ (run ++ rest), true⟩ text c) rest := by
    intro text
    rw [← List.append_assoc]
    exact doReadNumber_run text digit joined delimited
  by_cases negative : n.toInt < 0
  · obtain ⟨tok, read, -, kind⟩ := numberOrName_scanned (start ['-'.toUInt8]) delimited
    refine ⟨tok, ?_, kind⟩
    rw [longText, if_pos negative, shape, List.cons_append, List.cons_append, next, tokenLoop]
    show numberOrName (doReadNumber ⟨c :: (digits ++ (run ++ rest)), true⟩ [] '-'.toUInt8) _ = _
    rw [doReadNumber_sign digit]
    exact read
  · rw [longText, if_neg negative, shape, List.cons_append, next, tokenLoop]
    by_cases zero : c = '0'.toUInt8
    · subst zero
      obtain ⟨tok, -, read, kind⟩ := numberOrName_scanned (doReadOctalOrHex_run joined delimited) delimited
      rw [List.append_assoc] at read
      exact ⟨tok, read, kind⟩
    · obtain ⟨tok, read, -, kind⟩ := numberOrName_scanned (start []) delimited
      refine ⟨tok, ?_, kind⟩
      simp only [InputContext.get_cons, first_digit digit zero]
      exact read

/-! ### Slots of an array -/

mutual

def count : AnyTree D → Nat
  | .array slots => 1 + countSlots slots
  | _ => 1

def countSlots : Slots D → Nat
  | [] => 0
  | (_, v) :: slots => count v + countSlots slots

end

theorem countSlots_append (a b : Slots D) : countSlots (a ++ b) = countSlots a + countSlots b := by
  induction a with
  | nil => simp [countSlots]
  | cons e a ih =>
    rw [List.cons_append, countSlots, countSlots, ih]
    omega

theorem touches_cases {v : AnyTree D} {e : Option Key × AnyTree D} (touching : touches v e = true) :
    ∃ n, e = (none, .long n) ∧ ((∃ m, v = .long m) ∨ (∃ p, v = .object p) ∧ 0 ≤ n) := by
  obtain ⟨key, w⟩ := e
  cases v with
  | long m =>
    cases w with
    | long n =>
      cases key with
      | none => exact ⟨n, rfl, Or.inl ⟨m, rfl⟩⟩
      | some k => cases touching
    | _ => cases key <;> cases touching
  | object p =>
    cases w with
    | long n =>
      cases key with
      | none => exact ⟨n, rfl, Or.inr ⟨⟨p, rfl⟩, of_decide_eq_true touching⟩⟩
      | some k => cases touching
    | _ => cases key <;> cases touching
  | _ => cases w <;> cases key <;> cases touching

theorem printSlots_numbers (env : Environment D) (level : Nat) {p : UInt8 → Prop} {run : Slots D}
    (each : ∀ e ∈ run, ∃ n : Int64, e = (none, .long n) ∧ ∀ c ∈ longText n.toInt, p c) :
    ∀ c ∈ printSlots env false level run, p c := by
  induction run with
  | nil => nofun
  | cons e run ih =>
    obtain ⟨n, rfl, own⟩ := each e (List.mem_cons_self ..)
    intro c mem
    simp only [printSlots, tab_false, newline_false, printName, printAny, List.nil_append, List.append_nil,
      List.mem_append] at mem
    rcases mem with mem | mem
    · exact own c mem
    · exact ih (fun e mem => each e (List.mem_cons_of_mem _ mem)) c mem

theorem next_touching (env : Environment D) (level : Nat) {v : AnyTree D} (number : (∃ n, v = .long n) ∨ ∃ p, v = .object p)
    {run : Slots D} (touching : ∀ e ∈ run, touches v e = true) {rest : Bytes} (follows : Follows rest v) :
    ∃ tok : AnythingToken, next ⟨printAny env false level v ++ (printSlots env false level run ++ rest), true⟩ =
      (tok, lookedAt rest) ∧ isSimple tok.fToken = true := by
  rcases number with ⟨n, rfl⟩ | ⟨p, rfl⟩
  · refine next_run n (printSlots_numbers env level ?_) follows
    intro e mem
    obtain ⟨m, same, -⟩ := touches_cases (touching e mem)
    exact ⟨m, same, longText_numeric m.toInt⟩
  · have digits : ∀ c ∈ printSlots env false level run, isdigit c = true := by
      refine printSlots_numbers env level ?_
      intro e mem
      obtain ⟨m, same, number | ⟨-, positive⟩⟩ := touches_cases (touching e mem)
      · obtain ⟨_, long⟩ := number
        cases long
      · refine ⟨m, same, ?_⟩
        have unsigned : ¬ m.toInt < 0 := Int.not_lt.mpr (Int64.le_iff_toInt_le.mp positive)
        rw [longText, if_neg unsigned]
        exact isdigit_of_mem_decimalText
    have all : ∀ c ∈ decimalText p.toNat ++ printSlots env false level run, isdigit c = true := by
      intro c mem
      rcases List.mem_append.mp mem with mem | mem
      · exact isdigit_of_mem_decimalText c mem
      · exact digits c mem
    have scanned := next_object (fun none => decimalText_ne_nil p.toNat (List.append_eq_nil_iff.mp none).1) all follows
    rw [List.cons_append, List.append_assoc, ← List.cons_append] at scanned
    exact ⟨_, scanned, rfl⟩

theorem count_elim {α : Type} (number : Option α) {f : α → AnyTree D} (each : ∀ a, count (f a) = 1) :
    count (number.elim .null f) = 1 := by
  cases number with
  | none => rfl
  | some a => exact each a

theorem makeSimpleAny_simple (env : Environment D) (erange : Bool) {tok : AnythingToken} (kind : isSimple tok.fToken = true) :
    ∃ w erange', makeSimpleAny env erange tok = (true, w, erange') ∧ count w = 1 := by
  obtain ⟨token, text⟩ := tok
  cases token with
  | star => exact ⟨_, _, rfl, rfl⟩
  | string => exact ⟨_, _, rfl, rfl⟩
  | decimalNumber => exact ⟨_, _, rfl, count_elim _ fun _ => rfl⟩
  | octalNumber => exact ⟨_, _, rfl, count_elim _ fun _ => rfl⟩
  | object => exact ⟨_, _, rfl, count_elim _ fun _ => rfl⟩
  | binaryBuf =>
    refine ⟨_, _, rfl, ?_⟩
    rw [bufferOf]
    split <;> rfl
  | _ => cases kind

def ReadsCompact (env : Environment D) (slots : Slots D) : Prop :=
  ∀ (level : Nat) (any : Slots D) (ok : Bool) (st : ParserState) (fuel : Nat) (rest : Bytes),
    ((any ++ slots).filterMap Prod.fst).Nodup →
    st.context = ⟨printSlots env false level slots ++ '}'.toUInt8 :: rest, true⟩ →
    (printSlots env false level slots).length < fuel →
    ∃ slots' erange', doParseSequence env fuel st.next.1 any ok st.next.2 =
        some (ok, any ++ slots', { st with context := ⟨rest, true⟩, erange := erange' }) ∧
      countSlots slots' ≤ countSlots slots ∧ (Separated (.array slots) ∨ countSlots slots' < countSlots slots)

/-- A slot is read with some value, and the loop goes on at `rest`. -/
def SlotRead (env : Environment D) (fuel : Nat) (key : Option Key) (v : AnyTree D) (any : Slots D) (ok : Bool)
    (st : ParserState) (rest : Bytes) : Prop :=
  (isSimple st.next.1.fToken = true ∨ st.next.1.fToken = .lbrace) ∧ ∃ w erange,
    parseValue env (doParseSequence env fuel) (key.map Key.text) st.next.1 any ok st.next.2 =
      loop (doParseSequence env fuel) (any ++ [(key, w)]) ok { st with context := ⟨rest, true⟩, erange := erange } ∧
    count w ≤ count v ∧ (Separated v ∨ count w < count v)

theorem slotRead_simple (env : Environment D) (fuel : Nat) {key : Option Key} {v : AnyTree D} {any : Slots D} (ok : Bool)
    {st : ParserState} {rest : Bytes} (fresh : ∀ k ∈ key, k ∉ any.filterMap Prod.fst) {tok : AnythingToken}
    (scanned : AnythingToken.next st.context = (tok, ⟨rest, true⟩)) (kind : isSimple tok.fToken = true)
    (leaf : ∀ slots, v ≠ .array slots) : SlotRead env fuel key v any ok st rest := by
  obtain ⟨w, erange, value, single⟩ := makeSimpleAny_simple env st.erange kind
  have one : count v = 1 := by
    cases v with
    | array slots => exact absurd rfl (leaf slots)
    | _ => rfl
  refine ⟨Or.inl (by rw [ParserState.next_eq scanned]; exact kind), w, erange,
    parseValue_simple env _ ok fresh scanned kind value, by omega, Or.inl (.leaf leaf)⟩

theorem slotRead_array (env : Environment D) {fuel level : Nat} {key : Option Key} {slots : Slots D} {any : Slots D} (ok : Bool)
    {st : ParserState} {rest : Bytes} (fresh : ∀ k ∈ key, k ∉ any.filterMap Prod.fst)
    (distinct : (slots.filterMap Prod.fst).Nodup) (inner : ReadsCompact env slots)
    (here : st.context = ⟨printAny env false level (.array slots) ++ rest, true⟩)
    (enough : (printAny env false level (.array slots)).length ≤ fuel + 1) :
    SlotRead env fuel key (.array slots) any ok st rest := by
  rw [printAny_array_append] at here
  have brace : st.next = (⟨.lbrace, ['{'.toUInt8]⟩,
      { st with context := ⟨printSlots env false (level + 1) slots ++ '}'.toUInt8 :: rest, true⟩ }) :=
    ParserState.next_eq (by rw [here]; rfl)
  have shorter : (printSlots env false (level + 1) slots).length < fuel := by
    simp only [printAny, List.length_append, List.length_cons] at enough
    omega
  obtain ⟨slots', erange, read, fewer, less⟩ := inner (level + 1) [] true
    (ParserState.push { st with context := ⟨printSlots env false (level + 1) slots ++ '}'.toUInt8 :: rest, true⟩ }
      (slotLevel key any)) fuel rest distinct rfl shorter
  refine ⟨Or.inr (by rw [brace]), .array slots', erange, ?_, ?_, ?_⟩
  · rw [brace, parseValue, if_pos rfl]
    exact parseNested_inside ok fresh read
  · simp only [count]
    omega
  · simp only [count]
    exact less.imp id fun less => by omega

theorem slotRead_print (env : Environment D) {level : Nat} {key : Option Key} {v : AnyTree D} (printable : Printable v)
    (inner : ∀ slots, v = .array slots → ReadsCompact env slots) {any run : Slots D} (ok : Bool) (st : ParserState)
    (fuel : Nat) {rest : Bytes} (fresh : ∀ k ∈ key, k ∉ any.filterMap Prod.fst) (more : rest ≠ [])
    (touching : ∀ e ∈ run, touches v e = true) (follows : Follows rest v)
    (here : st.context = ⟨printAny env false level v ++ (printSlots env false level run ++ rest), true⟩)
    (enough : (printAny env false level v).length ≤ fuel + 1) : SlotRead env fuel key v any ok st rest := by
  by_cases number : (∃ n, v = .long n) ∨ ∃ p, v = .object p
  · obtain ⟨tok, scanned, kind⟩ := next_touching env level number touching follows
    rw [← here, lookedAt_ne_nil more] at scanned
    refine slotRead_simple env fuel ok fresh scanned kind ?_
    rcases number with ⟨n, rfl⟩ | ⟨p, rfl⟩ <;> nofun
  · have alone : run = [] := by
      rw [List.eq_nil_iff_forall_not_mem]
      intro e mem
      obtain ⟨n, -, long | ⟨object, -⟩⟩ := touches_cases (touching e mem)
      · exact number (Or.inl long)
      · exact number (Or.inr object)
    subst alone
    rw [printSlots, List.nil_append] at here
    by_cases array : ∃ slots, v = .array slots
    · obtain ⟨slots, rfl⟩ := array
      cases printable with
      | array distinct each => exact slotRead_array env ok fresh distinct (inner slots rfl) here enough
    · have leaf : ∀ slots, v ≠ .array slots := fun slots same => array ⟨slots, same⟩
      obtain ⟨tok, context, scanned, left, kind, -⟩ := next_simple env false level printable leaf follows
      rw [← here, left more] at scanned
      exact slotRead_simple env fuel ok fresh scanned kind leaf

theorem printSlots_append (env : Environment D) (pretty : Bool) (level : Nat) (a b : Slots D) :
    printSlots env pretty level (a ++ b) = printSlots env pretty level a ++ printSlots env pretty level b := by
  induction a with
  | nil => rfl
  | cons e a ih =>
    rw [List.cons_append, printSlots, printSlots, ih]
    simp only [List.append_assoc]

theorem count_pos (v : AnyTree D) : 0 < count v := by
  cases v with
  | array slots =>
    rw [count]
    omega
  | _ => exact Nat.zero_lt_one

theorem countSlots_pos {slots : Slots D} (some : slots ≠ []) : 0 < countSlots slots := by
  rcases slots with _ | ⟨⟨key, v⟩, slots⟩
  · exact absurd rfl some
  · rw [countSlots]
    have := count_pos v
    omega

theorem separated_cons {key : Option Key} {v : AnyTree D} {slots : Slots D} (own : Separated v)
    (others : Separated (.array slots)) (apart : ∀ e ∈ slots.head?, touches v e = false) :
    Separated (.array ((key, v) :: slots)) := by
  rcases others with simple | ⟨chain, each⟩
  · exact absurd rfl (simple slots)
  · refine .array (List.isChain_cons.mpr ⟨apart, chain⟩) ?_
    intro e mem
    rcases List.mem_cons.mp mem with rfl | mem
    · exact own
    · exact each e mem

theorem exists_run (v : AnyTree D) (slots : Slots D) : ∃ run others, slots = run ++ others ∧
    (∀ e ∈ run, touches v e = true) ∧ ∀ e ∈ others.head?, touches v e = false := by
  refine ⟨slots.takeWhile (touches v), slots.dropWhile (touches v), List.takeWhile_append_dropWhile.symm,
    fun e mem => List.mem_takeWhile_imp mem, ?_⟩
  intro e mem
  have head := List.head?_dropWhile_not (touches v) slots
  rw [Option.mem_def.mp mem] at head
  simpa using head

theorem readsCompact_slots (env : Environment D) (size : Nat) {slots : Slots D} (bound : slots.length ≤ size)
    (printable : ∀ e ∈ slots, Printable e.2) (inner : ∀ e ∈ slots, ∀ inner, e.2 = .array inner → ReadsCompact env inner) :
    ReadsCompact env slots := by
  induction size generalizing slots with
  | zero =>
    obtain rfl := List.length_eq_zero_iff.mp (Nat.le_zero.mp bound)
    intro level any ok st fuel rest distinct here enough
    obtain ⟨fuel, rfl⟩ := Nat.exists_eq_succ_of_ne_zero (Nat.ne_of_gt enough)
    refine ⟨[], st.erange, ?_, Nat.le_refl _, Or.inl (.array .nil nofun)⟩
    rw [ParserState.next_eq (by rw [here]; rfl : AnythingToken.next st.context = (⟨.rbrace, ['}'.toUInt8]⟩, ⟨rest, true⟩)),
      List.append_nil]
    rfl
  | succ size ih =>
    rcases slots with _ | ⟨⟨key, v⟩, slots⟩
    · exact ih (Nat.zero_le _) printable inner
    intro level any ok st fuel rest distinct here enough
    obtain ⟨fuel, rfl⟩ := Nat.exists_eq_succ_of_ne_zero (Nat.ne_of_gt (Nat.lt_of_le_of_lt (Nat.zero_le _) enough))
    obtain ⟨run, others, split, touching, apart⟩ := exists_run v slots
    subst split
    have own : Printable v := printable (key, v) (List.mem_cons_self ..)
    have left : ∀ e ∈ others, e ∈ (key, v) :: (run ++ others) := fun e mem =>
      List.mem_cons_of_mem _ (List.mem_append_right run mem)
    have nonempty := printAny_ne_nil env false level own
    simp only [printSlots, printSlots_append, List.length_append] at enough
    simp only [printSlots, printSlots_append, List.append_assoc, newline_false, List.nil_append] at here
    have unnamed : run.filterMap Prod.fst = [] := by
      rw [List.filterMap_eq_nil_iff]
      intro e mem
      obtain ⟨n, rfl, -⟩ := touches_cases (touching e mem)
      rfl
    have fresh : ∀ k ∈ key, k ∉ any.filterMap Prod.fst := by
      rintro k rfl mem
      rw [List.filterMap_append] at distinct
      exact List.disjoint_of_nodup_append distinct mem (by simp)
    have follows := follows_slots env level 0 (fun e mem => printable e (left e mem)) (Or.inr apart : false = true ∨ _) rest
    simp only [newline_false, tab_false, List.nil_append] at follows
    obtain ⟨kind, w, erange, value, fewer, less⟩ := slotRead_print env own (inner (key, v) (List.mem_cons_self ..)) ok
      { st with context := ⟨printAny env false level v ++ (printSlots env false level run ++
        (printSlots env false level others ++ '}'.toUInt8 :: rest)), true⟩ } fuel fresh (by simp) touching follows rfl
      (by omega)
    have names : ((any ++ [(key, w)]) ++ others).filterMap Prod.fst =
        (any ++ (key, v) :: (run ++ others)).filterMap Prod.fst := by
      cases key <;> simp [List.filterMap_append, unnamed]
    obtain ⟨slots', erange', continued, fewer', less'⟩ := @ih others
      (by simp only [List.length_cons, List.length_append] at bound; omega)
      (fun e mem => printable e (left e mem)) (fun e mem => inner e (left e mem)) level (any ++ [(key, w)]) ok
      { st with context := ⟨printSlots env false level others ++ '}'.toUInt8 :: rest, true⟩, erange := erange } fuel rest
      (by rw [names]; exact distinct) rfl (by omega)
    refine ⟨(key, w) :: slots', erange', ?_, ?_, ?_⟩
    · rw [doParseSequence_slot env false level key _ any ok fuel here kind, value, loop, if_pos rfl, continued]
      simp only [List.append_assoc, List.singleton_append]
    · simp only [countSlots, countSlots_append]
      omega
    · simp only [countSlots, countSlots_append]
      by_cases alone : run = []
      · subst alone
        rcases less with own | less
        · rcases less' with others | less'
          · exact Or.inl (separated_cons own others apart)
          · exact Or.inr (by omega)
        · exact Or.inr (by omega)
      · have := countSlots_pos alone
        exact Or.inr (by omega)

theorem readsCompact_any (env : Environment D) (v : AnyTree D) :
    Printable v → ∀ slots, v = .array slots → ReadsCompact env slots := by
  induction v using AnyTree.induct with
  | leaf v simple =>
    intro _ slots same
    exact absurd same (simple slots)
  | array slots ih =>
    rintro (_ | _ | _ | _ | _ | ⟨distinct, printable⟩) _ ⟨⟩
    exact readsCompact_slots env slots.length (Nat.le_refl _) printable fun e mem => ih e mem (printable e mem)

theorem doParse_touching (env : Environment D) (erange : Bool) {v : AnyTree D} (printable : Printable v)
    (touching : ¬ Separated v) (ok : Bool) (st : ParserState) :
    doParse env { context := ⟨printOn env v false, true⟩, erange := erange } ≠ some (ok, v, st) := by
  obtain ⟨slots, rfl⟩ : ∃ slots, v = .array slots := by
    by_contra leaf
    exact touching (.leaf fun slots same => leaf ⟨slots, same⟩)
  have inner := readsCompact_any env _ printable slots rfl
  have text := printAny_array_append env false 0 slots []
  rw [List.append_nil] at text
  cases printable with
  | array distinct each =>
    obtain ⟨slots', erange', read, -, separated | less⟩ := inner 1 [] true
      { context := ⟨printSlots env false 1 slots ++ ['}'.toUInt8], true⟩, erange := erange }
      ((printOn env (.array slots) false).length + 1) [] distinct rfl
      (by simp only [printOn, printAny, List.length_append, List.length_cons, Nat.zero_add]; omega)
    · exact absurd separated touching
    · have brace : ParserState.next { context := ⟨printOn env (.array slots) false, true⟩, erange := erange } =
          (⟨.lbrace, ['{'.toUInt8]⟩, { context := ⟨printSlots env false 1 slots ++ ['}'.toUInt8], true⟩, erange := erange }) :=
        ParserState.next_eq (by rw [printOn, text]; rfl)
      rw [doParse, brace]
      simp only [if_true, read]
      intro same
      have values : slots' = slots := AnyTree.array.inj (Prod.mk.inj (Prod.mk.inj (Option.some.inj same)).2).1
      rw [values] at less
      exact absurd less (Nat.lt_irrefl _)

def CompactRoundTrip (env : Environment D) (erange : Bool) (v : AnyTree D) : Prop :=
  ∃ ok st, doParse env { context := ⟨printOn env v false, true⟩, erange := erange } = some (ok, v, st) ∧ st.xrefs = []

/-- The value is read back if and only if no number touches the one before it and, as for the pretty
text, no old `ERANGE` is in `errno`. -/
theorem import_compact_iff (env : Environment D) (erange : Bool) {v : AnyTree D} (printable : Printable v) :
    CompactRoundTrip env erange v ↔ Separated v ∧ (erange = false ∨ hasNumber v = false) := by
  constructor
  · rintro ⟨ok, st, same, -⟩
    by_cases separated : Separated v
    · obtain ⟨context, read⟩ := doParse_print env printable (Or.inr separated : false = true ∨ _) erange
      rw [read] at same
      exact ⟨separated, (asRead_eq_iff erange v).mp (Prod.mk.inj (Prod.mk.inj (Option.some.inj same)).2).1⟩
    · exact absurd same (doParse_touching env erange printable separated ok st)
  · rintro ⟨separated, clean⟩
    obtain ⟨context, read⟩ := doParse_print env printable (Or.inr separated : false = true ∨ _) erange
    rw [(asRead_eq_iff erange v).mpr clean] at read
    exact ⟨true, _, read, rfl⟩

theorem import_compact_iff_mixed :
    let v : AnyTree Unit := .array [(none, .long 1), (some ⟨ascii "a", by decide, by decide⟩, .long 2), (none, .object 3),
      (none, .long (-4))]
    Printable v ∧ (CompactRoundTrip bareEnvironment false v ↔ Separated v ∧ (false = false ∨ hasNumber v = false)) := by
  intro v
  have printable : Printable v := by
    refine .array (by decide) ?_
    simp only [List.forall_mem_cons]
    refine ⟨.long _, .long _, .object _, .long _, ?_⟩
    exact fun e mem => absurd mem List.not_mem_nil
  exact ⟨printable, import_compact_iff bareEnvironment false printable⟩

/-- Two numbers side by side come back as one. -/
theorem compact_numbers_join :
    printOn bareEnvironment (.array [(none, .long 1), (none, .long 2)]) false = ascii "\x7b12\x7d" ∧
    doParse bareEnvironment
        { context := ⟨printOn bareEnvironment (.array [(none, .long 1), (none, .long 2)]) false, true⟩, erange := false } =
      some (true, .array [(none, .long 12)], { context := ⟨[], true⟩, erange := false }) ∧
    ¬ CompactRoundTrip bareEnvironment false (.array [(none, .long 1), (none, .long 2)]) := by
  refine ⟨by decide, rfl, ?_⟩
  rintro ⟨ok, st, same, -⟩
  cases same

end Coast
