import Coast.Lib.Loops
import Coast.Text.Parser

/-!
# Progress of the parser

Every turn of the loops of the parser uses up input or ends the loop, whatever the text is and wherever
it stops. What is counted are the reads that a stream still allows.
-/

namespace Coast

namespace InputContext

/-- The calls of `Get` until the stream is bad. -/
def left (is : InputContext) : Nat := is.rest.length + is.good.toNat

def held (is : InputContext) : Nat := is.left + is.good.toNat

theorem left_le_held (is : InputContext) : is.left ≤ is.held := Nat.le_add_right ..

@[simp] theorem left_putback (is : InputContext) (c : UInt8) : (is.putback c).left = is.held := by
  obtain ⟨rest, good⟩ := is
  cases good <;> rfl

theorem left_get_putback (is : InputContext) (c : UInt8) : (is.putback c).get.2.left = is.left := by
  obtain ⟨rest, good⟩ := is
  cases good <;> rfl

theorem left_get (is : InputContext) : is.get.2.left + is.good.toNat = is.left := by
  obtain ⟨rest, good⟩ := is
  cases good with
  | false => rfl
  | true => cases rest <;> rfl

theorem held_get (is : InputContext) : is.get.2.held ≤ is.left := by
  obtain ⟨rest, good⟩ := is
  cases good with
  | false => exact Nat.le_refl _
  | true =>
    cases rest with
    | nil => exact Nat.zero_le _
    | cons c cs => exact Nat.le_refl _

theorem held_getInto (is : InputContext) (c : UInt8) : (is.getInto c).2.held ≤ is.left := is.held_get

theorem left_getInto (is : InputContext) (c : UInt8) : (is.getInto c).2.left ≤ is.left :=
  (left_le_held _).trans (is.held_getInto c)

theorem get_some {is : InputContext} {c : UInt8} (some : is.get.1 = Option.some c) :
    is.get.2.good = true ∧ is.get.2.left + 1 = is.left ∧ 0 < is.get.2.left := by
  obtain ⟨_ | ⟨d, cs⟩, _ | _⟩ := is <;> cases some
  exact ⟨rfl, rfl, Nat.succ_pos _⟩

theorem left_read (is : InputContext) (length : Nat) : (is.read length).2.left ≤ is.left := by
  obtain ⟨rest, good⟩ := is
  cases good with
  | false => exact Nat.le_refl _
  | true =>
    have flag := Bool.toNat_le (decide (length ≤ rest.length))
    simp only [read, if_pos, left, List.length_drop, Bool.toNat_true]
    omega

end InputContext

open InputContext

/-! ### Strings -/

theorem left_readHexCode (text : Bytes) (is : InputContext) : (readHexCode text is).2.left ≤ is.left := by
  have high := is.held_getInto 0
  have low := ((is.getInto 0).2.held_getInto 0).trans (is.left_getInto 0)
  simp only [readHexCode]
  split
  · split
    · exact (left_le_held _).trans low
    · exact (left_putback ..).trans_le low
  · exact (left_putback ..).trans_le high

theorem left_readOctalCode (text : Bytes) (c : UInt8) (is : InputContext) : (readOctalCode text c is).2.left ≤ is.left := by
  have second := is.held_getInto c
  have third := ((is.getInto c).2.held_getInto (is.getInto c).1).trans (is.left_getInto c)
  simp only [readOctalCode]
  split
  · split
    · exact (left_le_held _).trans third
    · exact (left_putback ..).trans_le third
  · exact (left_putback ..).trans_le second

theorem left_readMasked (quote : UInt8) (text : Bytes) (is : InputContext) : (readMasked quote text is).2.2.left ≤ is.left := by
  refine le_trans ?_ (is.left_getInto '\\'.toUInt8)
  rw [readMasked]
  obtain ⟨c, is⟩ := is.getInto '\\'.toUInt8
  dsimp only
  split_ifs
  · exact Nat.le_refl _
  · exact left_readHexCode text is
  · exact left_readOctalCode text c is
  · exact Nat.le_refl _
  · exact Nat.le_refl _
  · exact is.left_getInto c
  · exact (left_putback ..).trans_le (is.held_getInto c)
  · exact Nat.le_refl _
  · exact Nat.le_refl _

theorem left_joinLineBreak (c : UInt8) (is : InputContext) : (joinLineBreak c is).2.left ≤ is.left := by
  simp only [joinLineBreak]
  split_ifs
  · exact is.left_getInto c
  · exact (left_putback ..).trans_le (is.held_getInto c)
  · exact Nat.le_refl _

/-- A turn of the loop of `IntReadFrom`, after the text, the line breaks and the stream so far. -/
def readTurn (quote : UInt8) (s : Bytes × Nat × InputContext) : (Bytes × Int × InputContext) ⊕ (Bytes × Nat × InputContext) :=
  let (text, breaks, is) := s
  match is.get with
  | (none, is) => .inl (text, breaks, is)
  | (some c, is) =>
    if c == quote then .inl (text, breaks, is)
    else if c == '\\'.toUInt8 then
      let (text, n, is) := readMasked quote text is
      .inr (text, breaks + n, is)
    else
      let (c, is) := joinLineBreak c is
      if c == '\n'.toUInt8 then .inl (text, -(breaks + 1), is) else .inr (text ++ [c], breaks, is)

theorem intReadLoop_turns (quote : UInt8) :
    Loops.Fueled (readTurn quote) fun fuel s => intReadLoop quote fuel s.1 s.2.1 s.2.2 := by
  rintro fuel ⟨text, breaks, is⟩
  simp only [intReadLoop, readTurn]
  rcases is.get with ⟨_ | c, is⟩
  · rfl
  · dsimp only
    split_ifs <;> rfl

theorem readTurn_falls (quote : UInt8) : Loops.Falls (readTurn quote) fun s => s.2.2.left - 1 := by
  rintro ⟨text, breaks, is⟩ s' next
  simp only [readTurn] at next
  rcases got : is.get with ⟨_ | c, is'⟩
  · simp only [got] at next
    cases next
  · obtain ⟨-, one, more⟩ := get_some (congrArg Prod.fst got)
    have lower : ∀ {is'' : InputContext}, is''.left ≤ is'.left → is''.left - 1 < is.left - 1 := by
      intro is'' le
      simp only [got] at one more
      omega
    simp only [got] at next
    split_ifs at next <;> cases next
    · exact lower (left_readMasked quote text is')
    · exact lower (left_joinLineBreak c is')

/-- What `IntPrintOn` writes is read back, by the loop without a bound as well. -/
theorem printed_string_read_back (s rest : Bytes) :
    intReadFrom '"'.toUInt8 ⟨intPrintOn s ++ rest, true⟩ = (s, 0, ⟨rest, true⟩) ∧
      (s, 0, ⟨rest, true⟩) ∈
        Loops.loop (readTurn '"'.toUInt8) ([], 0, (InputContext.get ⟨intPrintOn s ++ rest, true⟩).2) := by
  have read := intReadFrom_intPrintOn s rest
  refine ⟨read, ?_⟩
  rw [← read]
  exact Loops.mem_loop_of_fuel (intReadLoop_turns _) (readTurn_falls _) (Nat.lt_succ_self _)

theorem left_intReadLoop (quote : UInt8) (fuel : Nat) (text : Bytes) (breaks : Nat) (is : InputContext) :
    (intReadLoop quote fuel text breaks is).2.2.left ≤ is.left := by
  induction fuel generalizing text breaks is with
  | zero => exact Nat.le_refl _
  | succ fuel ih =>
    have one := (left_le_held _).trans is.held_get
    rw [intReadLoop]
    revert one
    rcases is.get with ⟨_ | c, is'⟩ <;> intro one
    · exact one
    · have masked := left_readMasked quote text is'
      have joined := left_joinLineBreak c is'
      dsimp only at one ⊢
      split_ifs
      · exact one
      · exact (ih ..).trans (masked.trans one)
      · exact joined.trans one
      · exact (ih ..).trans (joined.trans one)

theorem left_intReadFrom (quote : UInt8) (is : InputContext) : (intReadFrom quote is).2.2.left ≤ is.get.2.left := by
  rw [intReadFrom]
  rcases is.get with ⟨_ | c, is'⟩
  · exact Nat.le_refl _
  · exact left_intReadLoop ..

/-! ### Tokens -/

namespace AnythingToken

theorem held_collect (wanted : UInt8 → Bool) (text rest : Bytes) :
    (collect wanted text rest).2.2.held ≤ rest.length + 1 := by
  induction rest generalizing text with
  | nil => exact Nat.zero_le _
  | cons c cs ih =>
    rw [collect]
    split
    · exact (ih _).trans (Nat.le_succ _)
    · exact Nat.le_refl _

theorem held_collectFrom (wanted : UInt8 → Bool) (context : InputContext) (text : Bytes) :
    (collectFrom wanted context text).2.2.held ≤ context.left := by
  obtain ⟨rest, good⟩ := context
  cases good with
  | false => exact Nat.le_refl _
  | true => exact held_collect wanted text rest

theorem held_doReadName (context : InputContext) (text : Bytes) (firstchar : UInt8) :
    (doReadName context text firstchar).context.held ≤ context.left := held_collectFrom ..

theorem left_settle (scan : Scan) : (settle scan).2.left ≤ scan.context.held := by
  simp only [settle]
  split
  · exact left_le_held _
  · exact (left_putback ..).le

/-! A number is read with a character in hand. -/

theorem held_readSign (context : InputContext) (text : Bytes) (c : UInt8) :
    (readSign context text c).2.2.held ≤ context.held := by
  simp only [readSign]
  split
  · exact context.held_get.trans (left_le_held _)
  · exact Nat.le_refl _

theorem held_readInteger (context : InputContext) (text : Bytes) (c : UInt8) :
    (readInteger context text c).2.2.2.held ≤ context.held := by
  rw [readInteger]
  split
  · exact (held_collectFrom ..).trans (left_le_held _)
  · exact Nat.le_refl _

theorem held_readFraction (context : InputContext) (text : Bytes) (c : UInt8) :
    (readFraction context text c).2.2.2.held ≤ context.held := by
  rw [readFraction]
  split
  · exact (held_collectFrom ..).trans (left_le_held _)
  · exact Nat.le_refl _

theorem held_readExponent (context : InputContext) (text : Bytes) (c : UInt8) :
    (readExponent context text c).2.2.2.2.held ≤ context.held := by
  simp only [readExponent]
  split
  · exact (held_readInteger ..).trans ((held_readSign ..).trans (context.held_get.trans (left_le_held _)))
  · exact Nat.le_refl _

theorem held_fractionExponent (context : InputContext) (text : Bytes) (c : UInt8) :
    (readExponent (readFraction context text c).2.2.2 (readFraction context text c).2.1
      (readFraction context text c).2.2.1).2.2.2.2.held ≤ context.held :=
  (held_readExponent ..).trans (held_readFraction ..)

theorem doReadNumber_context {context : InputContext} (good : context.good = true) (text : Bytes) (c : UInt8) :
    let signed := readSign context text c
    let whole := readInteger signed.2.2 signed.1 signed.2.1
    let part := readFraction whole.2.2.2 whole.2.1 whole.2.2.1
    (doReadNumber context text c).context = (readExponent part.2.2.2 part.2.1 part.2.2.1).2.2.2.2 := by
  rw [doReadNumber, if_pos good]

theorem held_doReadNumber (context : InputContext) (text : Bytes) (firstchar : UInt8) :
    (doReadNumber context text firstchar).context.held ≤ context.held := by
  cases good : context.good with
  | false =>
    rw [doReadNumber, if_neg (by simp [good])]
  | true =>
    rw [doReadNumber_context good]
    exact (held_fractionExponent ..).trans ((held_readInteger ..).trans (held_readSign ..))

theorem left_doReadNumber (context : InputContext) (text : Bytes) {c : UInt8}
    (starts : c = '+'.toUInt8 ∨ c = '-'.toUInt8 ∨ c = '.'.toUInt8 ∨ isdigit c = true) :
    (doReadNumber context text c).context.held ≤ context.left := by
  cases good : context.good with
  | false =>
    rw [doReadNumber, if_neg (by simp [good]), held, good]
    rfl
  | true =>
    rw [doReadNumber_context good]
    obtain rfl | rfl | rfl | digit := starts
    · exact (held_fractionExponent ..).trans ((held_readInteger ..).trans context.held_get)
    · exact (held_fractionExponent ..).trans ((held_readInteger ..).trans context.held_get)
    · exact (held_readExponent ..).trans (held_collectFrom ..)
    · obtain ⟨-, minus, plus⟩ := digit_not_mark digit
      have unsigned : readSign context text c = (text, c, context) := by rw [readSign, minus, plus]; rfl
      refine (held_fractionExponent ..).trans ?_
      rw [unsigned, readInteger, if_pos digit]
      exact held_collectFrom ..

theorem held_readHexDigits (saveXcase : UInt8) (text rest : Bytes) :
    (readHexDigits saveXcase text rest).context.held ≤ rest.length + 1 := by
  induction rest generalizing text with
  | nil => exact Nat.zero_le _
  | cons c cs ih =>
    rw [readHexDigits]
    split_ifs
    · exact (ih _).trans (Nat.le_succ _)
    · exact Nat.le_refl _
    · exact Nat.le_refl _

theorem held_readOctalDigits (text rest : Bytes) : (readOctalDigits text rest).context.held ≤ rest.length + 1 := by
  induction rest generalizing text with
  | nil => exact Nat.zero_le _
  | cons c cs ih =>
    rw [readOctalDigits]
    split_ifs
    · exact held_doReadNumber ..
    · exact (ih _).trans (Nat.le_succ _)
    · exact Nat.le_refl _

theorem held_doReadOctalOrHex (context : InputContext) (text : Bytes) :
    (doReadOctalOrHex context text).context.held ≤ context.left := by
  have one := context.held_get
  rw [doReadOctalOrHex]
  revert one
  rcases got : context.get with ⟨_ | c, context'⟩ <;> intro one
  · exact one
  · obtain ⟨good, less, -⟩ := get_some (congrArg Prod.fst got)
    have digits : context'.rest.length + 1 ≤ context.left := by
      simp only [got, left] at good less ⊢
      rw [good] at less
      exact less ▸ Nat.le_succ _
    dsimp only
    split_ifs
    · exact (held_readHexDigits ..).trans digits
    · exact (held_readOctalDigits ..).trans digits
    · exact (left_doReadNumber _ _ (.inr (.inr (.inr rfl)))).trans ((left_putback ..).trans_le one)
    · exact one

theorem left_numberOrName (scan : Scan) (invalid : Bool) : (numberOrName scan invalid).2.left ≤ scan.context.held := by
  rw [numberOrName]
  split
  · exact (left_settle _).trans ((held_doReadName ..).trans (left_le_held _))
  · exact left_settle _

theorem left_doReadString (context : InputContext) (firstchar : UInt8) :
    (doReadString context firstchar).2.left ≤ context.left :=
  (left_intReadFrom ..).trans (left_get_putback ..).le

theorem left_readMark (mark : Tok) (context : InputContext) : (readMark mark context).2.left ≤ context.left := by
  have one := context.held_get
  rw [readMark]
  revert one
  rcases context.get with ⟨_ | c, context'⟩ <;> intro one
  · exact (left_le_held _).trans one
  · dsimp only at one ⊢
    split
    · exact (left_doReadString ..).trans ((left_le_held _).trans one)
    · split
      · exact (left_settle _).trans ((held_doReadName ..).trans ((left_le_held _).trans one))
      · dsimp only
        split
        · exact (left_le_held _).trans one
        · exact (left_putback ..).trans_le one

theorem left_readObject (context : InputContext) : (readObject context).2.left ≤ context.left := by
  have number := (held_doReadNumber (collectFrom isspace context []).2.2 [] (collectFrom isspace context []).2.1).trans
    (held_collectFrom isspace context [])
  simp only [readObject]
  split_ifs
  · exact (left_putback ..).trans_le number
  · exact (left_le_held _).trans number
  · exact (left_le_held _).trans ((held_collectFrom ..).trans ((left_le_held _).trans number))
  · exact (left_le_held _).trans ((held_collectFrom ..).trans ((left_le_held _).trans number))

theorem length_splitSign (text : Bytes) : (splitSign text).2.length ≤ text.length := by
  cases text with
  | nil => exact Nat.le_refl _
  | cons c cs =>
    rw [splitSign]
    split_ifs
    · exact Nat.le_succ _
    · exact Nat.le_succ _
    · exact Nat.le_refl _

theorem length_extractLong (is : InputContext) : (extractLong is).2.rest.length ≤ is.rest.length := by
  have shorter : ((splitSign (is.rest.dropWhile isspace)).2.dropWhile isdigit).length ≤ is.rest.length :=
    (List.dropWhile_suffix _).length_le.trans ((length_splitSign _).trans (List.dropWhile_suffix _).length_le)
  simp only [extractLong]
  split_ifs <;> exact shorter

theorem left_skipToBracket (c : UInt8) (context : InputContext) : (skipToBracket c context).left ≤ context.left := by
  rw [skipToBracket]
  split
  · exact Nat.le_refl _
  · exact (left_le_held _).trans (held_collectFrom ..)

theorem left_doReadBinBuf {context : InputContext} (good : context.good = true) :
    (doReadBinBuf context).2.left ≤ context.left := by
  have cleared : (InputContext.get ⟨(extractLong context).2.rest, true⟩).2.left ≤ context.left := by
    refine (left_le_held _).trans ((held_get _).trans ?_)
    rw [left, left, good]
    exact Nat.add_le_add_right (length_extractLong context) _
  simp only [doReadBinBuf]
  split
  · exact (left_skipToBracket ..).trans ((left_le_held _).trans ((held_get _).trans ((left_read ..).trans cleared)))
  · exact (left_skipToBracket ..).trans cleared

theorem left_skipToEOL (context : InputContext) : (skipToEOL context).left ≤ context.left := by
  have line := (left_le_held _).trans (held_collectFrom (fun c => c != '\n'.toUInt8 && c != '\r'.toUInt8) context [])
  have one := (held_get (collectFrom (fun c => c != '\n'.toUInt8 && c != '\r'.toUInt8) context []).2.2).trans line
  simp only [skipToEOL]
  split
  · revert one
    rcases (collectFrom (fun c => c != '\n'.toUInt8 && c != '\r'.toUInt8) context []).2.2.get with ⟨_ | crnl, after⟩ <;> intro one
    · exact (left_le_held _).trans one
    · dsimp only
      split
      · exact (left_le_held _).trans one
      · exact (left_putback ..).trans_le one
  · exact line

/-- A turn of the constructor of `AnythingToken`, which goes to `restart` after white space and comments. -/
def tokenTurn (context : InputContext) : (AnythingToken × InputContext) ⊕ InputContext :=
  match context.get with
  | (none, context) => .inl (⟨.nullSym, []⟩, context)
  | (some c, context) =>
    match first c with
    | .single token => .inl (⟨token, [c]⟩, context)
    | .object => .inl (readObject context)
    | .mark token => .inl (readMark token context)
    | .quote => .inl (doReadString context c)
    | .bracket => .inl (doReadBinBuf context)
    | .zero => .inl (numberOrName (doReadOctalOrHex context []) false)
    | .number => .inl (numberOrName (doReadNumber context [] c) ((doReadNumber context [] c).fToken = .error))
    | .comment => .inr (skipToEOL context)
    | .name => .inl (settle (doReadName context [] c))
    | .space => .inr context
    | .invalid => .inl (⟨.error, [c]⟩, context)

theorem tokenLoop_turns : Loops.Fueled tokenTurn tokenLoop := by
  intro fuel context
  simp only [tokenLoop, tokenTurn]
  rcases context.get with ⟨_ | c, context⟩
  · rfl
  · dsimp only
    cases first c <;> rfl

def turned : (AnythingToken × InputContext) ⊕ InputContext → InputContext := Sum.elim Prod.snd id

theorem number_starts {c : UInt8} (number : first c = .number) :
    c = '+'.toUInt8 ∨ c = '-'.toUInt8 ∨ c = '.'.toUInt8 ∨ isdigit c = true := by
  revert number
  exact forall_byte (by decide) c

theorem left_tokenTurn (context : InputContext) : (turned (tokenTurn context)).left ≤ context.get.2.left := by
  rw [tokenTurn]
  rcases got : context.get with ⟨_ | c, context'⟩
  · exact Nat.le_refl _
  · obtain ⟨good, -, -⟩ := get_some (congrArg Prod.fst got)
    rw [got] at good
    dsimp only at good ⊢
    cases kind : first c with
    | single token => exact Nat.le_refl _
    | object => exact left_readObject context'
    | mark token => exact left_readMark token context'
    | quote => exact left_doReadString context' c
    | bracket => exact left_doReadBinBuf good
    | zero => exact (left_numberOrName ..).trans (held_doReadOctalOrHex ..)
    | number => exact (left_numberOrName ..).trans (left_doReadNumber _ _ (number_starts kind))
    | comment => exact left_skipToEOL context'
    | name => exact (left_settle _).trans (held_doReadName ..)
    | space => exact Nat.le_refl _
    | invalid => exact Nat.le_refl _

theorem tokenTurn_falls : Loops.Falls tokenTurn fun context => context.left - 1 := by
  intro context next goes
  have used := left_tokenTurn context
  rw [goes] at used
  rw [tokenTurn] at goes
  rcases got : context.get with ⟨_ | c, context'⟩
  · rw [got] at goes
    cases goes
  · obtain ⟨-, one, more⟩ := get_some (congrArg Prod.fst got)
    simp only [turned, Sum.elim_inr, id] at used
    dsimp only
    omega

theorem left_tokenLoop (fuel : Nat) (context : InputContext) : (tokenLoop fuel context).2.left ≤ context.left := by
  induction fuel generalizing context with
  | zero => exact Nat.le_refl _
  | succ fuel ih =>
    have used := (left_tokenTurn context).trans ((left_le_held _).trans context.held_get)
    rw [tokenLoop_turns]
    rcases turn : tokenTurn context with r | next
    · rwa [turn] at used
    · rw [turn] at used
      exact (ih next).trans used

theorem left_next {context : InputContext} (good : context.good = true) : (next context).2.left < context.left := by
  have one := context.left_get
  have used := left_tokenTurn context
  rw [good] at one
  have less : (turned (tokenTurn context)).left < context.left := lt_of_le_of_lt used (one ▸ Nat.lt_succ_self _)
  rw [next, tokenLoop_turns]
  rcases turn : tokenTurn context with r | next
  · rwa [turn] at less
  · rw [turn] at less
    exact lt_of_le_of_lt (left_tokenLoop ..) less

theorem next_bad {context : InputContext} (bad : context.good = false) : next context = (⟨.nullSym, []⟩, context) := by
  obtain ⟨rest, good⟩ := context
  cases bad
  rfl

end AnythingToken

/-! ### Sequences -/

namespace AnythingParser

open AnythingToken (left_next next_bad)

variable {D : Type} {st : ParserState}

theorem next_progress (st : ParserState) :
    st.next.1.fToken = .nullSym ∧ st.next.2.context.left ≤ st.context.left ∨ st.next.2.context.left < st.context.left := by
  cases good : st.context.good with
  | true => exact .inr (left_next good)
  | false =>
    have last : AnythingToken.next st.context = (⟨.nullSym, []⟩, st.context) := next_bad good
    rw [ParserState.next, last]
    exact .inl ⟨rfl, Nat.le_refl _⟩

theorem left_next_le (st : ParserState) : st.next.2.context.left ≤ st.context.left := by
  obtain ⟨-, le⟩ | less := next_progress st
  · exact le
  · exact less.le

def Returns (run : Nat → Parsed D) (n bound : Nat) : Prop :=
  ∃ result, result.2.2.context.left ≤ bound ∧ ∀ fuel ≥ n, run fuel = some result

/-- The rest of the loop returns wherever there is less left than `m`, and at once at the last token. -/
def ReturnsBelow (parse : Nat → Parse D) (m : Nat) : Prop :=
  ∀ tok any ok st, tok.fToken = .nullSym ∨ st.context.left < m →
    Returns (fun fuel => parse fuel tok any ok st) (m + 1) st.context.left

theorem Returns.weaken {run : Nat → Parsed D} {n bound bound' : Nat} (returns : Returns run n bound) (le : bound ≤ bound') :
    Returns run n bound' := by
  obtain ⟨result, left, done⟩ := returns
  exact ⟨result, left.trans le, done⟩

theorem returns_at_once (result : Bool × Slots D × ParserState) (n : Nat) :
    Returns (fun _ => some result) n result.2.2.context.left :=
  ⟨result, Nat.le_refl _, fun _ _ => rfl⟩

theorem Returns.bind {run : Nat → Parsed D} {rest : Nat → Bool × Slots D × ParserState → Parsed D} {n bound : Nat}
    (first : Returns run n bound)
    (second : ∀ result, result.2.2.context.left ≤ bound → Returns (fun fuel => rest fuel result) n bound) :
    Returns (fun fuel => (run fuel).bind (rest fuel)) n bound := by
  obtain ⟨result, left, done⟩ := first
  obtain ⟨last, left', done'⟩ := second result left
  refine ⟨last, left', fun fuel enough => ?_⟩
  simp only [done fuel enough, Option.bind_some]
  exact done' fuel enough

theorem ReturnsBelow.next {parse : Nat → Parse D} {m : Nat} (below : ReturnsBelow parse m) (st : ParserState)
    (le : st.context.left ≤ m) (any : Slots D) (ok : Bool) :
    Returns (fun fuel => parse fuel st.next.1 any ok st.next.2) (m + 1) st.context.left := by
  refine (below _ any ok _ ?_).weaken (left_next_le st)
  obtain ⟨last, -⟩ | less := next_progress st
  · exact .inl last
  · exact .inr (lt_of_lt_of_le less le)

section

variable {parse : Nat → Parse D} {m : Nat} (below : ReturnsBelow parse m)

include below

theorem returns_loop (st : ParserState) (le : st.context.left ≤ m) (any : Slots D) (ok : Bool) :
    Returns (fun fuel => loop (parse fuel) any ok st) (m + 1) st.context.left := by
  cases good : st.context.good with
  | true => simpa only [loop, good, if_pos] using below.next st le any ok
  | false => simpa only [loop, good, if_neg Bool.false_ne_true] using returns_at_once (false, any, st) (m + 1)

theorem returns_parseNested (st : ParserState) (le : st.context.left ≤ m) (key : Option Bytes) (any : Slots D) (ok : Bool) :
    Returns (fun fuel => parseNested (parse fuel) key any ok st) (m + 1) st.context.left := by
  have inner : ∀ l, Returns (fun fuel => parse fuel (st.push l).next.1 [] true (st.push l).next.2) (m + 1) st.context.left :=
    fun l => below.next (st.push l) le [] true
  cases key with
  | some key =>
    refine (inner (.key key)).bind ?_
    rintro ⟨lastok, element, st'⟩ left
    exact (returns_loop below { st' with level := st.level } (left.trans le) _ _).weaken left
  | none =>
    refine (inner (.index (Int64.ofNat any.length))).bind ?_
    rintro ⟨lastok, element, st'⟩ left
    exact (returns_loop below { st' with level := st.level } (left.trans le) _ _).weaken left

theorem returns_parseValue (env : Environment D) (st : ParserState) (le : st.context.left ≤ m) (key : Option Bytes)
    (tok : AnythingToken) (any : Slots D) (ok : Bool) :
    Returns (fun fuel => parseValue env (parse fuel) key tok any ok st) (m + 1) st.context.left := by
  simp only [parseValue]
  split
  · exact returns_parseNested below st le key any ok
  · refine returns_loop below ⟨st.context, _, st.level, st.xrefs⟩ ?_ _ _
    exact le

theorem returns_parseKeyed (env : Environment D) (st : ParserState) (le : st.context.left ≤ m) (key : Bytes) {tok : AnythingToken}
    (read : tok.fToken = .index → st.context.left < m) (any : Slots D) (ok : Bool) :
    Returns (fun fuel => parseKeyed env (parse fuel) key tok any ok st) (m + 1) st.context.left := by
  simp only [parseKeyed]
  split
  · exact returns_loop below (ParserState.definePatchRef ⟨st.context, _, st.level, st.xrefs⟩ _) le _ _
  · refine returns_loop below ⟨st.context, _, st.level, st.xrefs⟩ ?_ _ _
    exact le
  · rename_i index
    exact below _ _ _ _ (.inr (read index))
  · exact returns_parseValue below env st le (some key) tok any ok

theorem returns_parseToken (env : Environment D) (st : ParserState) (le : st.context.left ≤ m) (tok : AnythingToken)
    (any : Slots D) (ok : Bool) : Returns (fun fuel => parseToken env (parse fuel) tok any ok st) (m + 1) st.context.left := by
  simp only [parseToken]
  split
  · exact returns_at_once (ok, any, st) (m + 1)
  · exact returns_loop below st le any false
  · exact returns_at_once (false, any, st) (m + 1)
  · refine returns_loop below ⟨st.context, _, st.level, st.xrefs⟩ ?_ _ _
    exact le
  · exact returns_loop below (ParserState.definePatchRef ⟨st.context, _, st.level, st.xrefs⟩ _) le _ _
  · have read : st.next.1.fToken = .index → st.next.2.context.left < m := by
      intro index
      obtain ⟨last, -⟩ | less := next_progress st
      · rw [index] at last
        cases last
      · exact lt_of_lt_of_le less le
    exact (returns_parseKeyed below env st.next.2 ((left_next_le st).trans le) tok.fText read any ok).weaken (left_next_le st)
  · exact returns_parseValue below env st le none tok any ok

end

theorem returns_last (env : Environment D) {tok : AnythingToken} (last : tok.fToken = .nullSym) (any : Slots D) (ok : Bool)
    (st : ParserState) (n : Nat) : Returns (fun fuel => doParseSequence env fuel tok any ok st) (n + 1) st.context.left := by
  refine ⟨(false, any, st), Nat.le_refl _, fun fuel enough => ?_⟩
  obtain ⟨fuel, rfl⟩ := Nat.exists_eq_add_of_le' (Nat.one_le_of_lt enough)
  simp only [doParseSequence, parseToken, last]

theorem returnsBelow_doParseSequence (env : Environment D) (m : Nat) : ReturnsBelow (doParseSequence env) m := by
  induction m with
  | zero =>
    rintro tok any ok st (last | less)
    · exact returns_last env last any ok st 0
    · omega
  | succ m ih =>
    rintro tok any ok st (last | less)
    · exact returns_last env last any ok st (m + 1)
    · obtain ⟨result, left, done⟩ := returns_parseToken ih env st (Nat.le_of_lt_succ less) tok any ok
      refine ⟨result, left, fun fuel enough => ?_⟩
      obtain ⟨fuel, rfl⟩ := Nat.exists_eq_add_of_le' (Nat.one_le_of_lt enough)
      exact done fuel (by omega)

theorem returns_doParseSequence (env : Environment D) (tok : AnythingToken) (any : Slots D) (ok : Bool) (st : ParserState) :
    Returns (fun fuel => doParseSequence env fuel tok any ok st) (st.context.left + 2) st.context.left :=
  returnsBelow_doParseSequence env (st.context.left + 1) tok any ok st (.inr (Nat.lt_succ_self _))

theorem doParse_isSome (env : Environment D) (st : ParserState) : (doParse env st).isSome = true := by
  simp only [doParse]
  split
  · rename_i brace
    have good : st.context.good = true := by
      cases good : st.context.good with
      | true => rfl
      | false =>
        have last : AnythingToken.next st.context = (⟨.nullSym, []⟩, st.context) := next_bad good
        rw [ParserState.next, last] at brace
        cases brace
    have used : st.next.2.context.left < st.context.left := left_next good
    have whole : st.context.left = st.context.rest.length + 1 := by rw [left, good, Bool.toNat_true]
    have returns : ∃ result, doParseSequence env (st.context.rest.length + 1) st.next.2.next.1 [] true st.next.2.next.2 =
        some result := by
      obtain ⟨last, -⟩ | less := next_progress st.next.2
      · obtain ⟨result, -, done⟩ := returns_last env last [] true st.next.2.next.2 st.context.rest.length
        exact ⟨result, done _ (Nat.le_refl _)⟩
      · obtain ⟨result, -, done⟩ := returns_doParseSequence env st.next.2.next.1 [] true st.next.2.next.2
        exact ⟨result, done _ (by omega)⟩
    obtain ⟨result, done⟩ := returns
    rw [done]
    rfl
  · rfl

end AnythingParser

end Coast
