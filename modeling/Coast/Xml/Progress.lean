import Coast.Lib.Endings
import Coast.Xml.Parser

/-!
# Progress of the parser

Each round of each loop takes a character from the stream, or finds out that there is none. The one place where a character
is put back puts the stream back to where it was.
-/

namespace Coast.Xml.GenericXMLParser

open Endings

variable {α β : Type}

def left (p : GenericXMLParser) : Nat := p.fReader.rest.length + p.fReader.good.toNat

instance : Preorder GenericXMLParser where
  le q p := q.fReader.rest.length ≤ p.fReader.rest.length ∧ q.left ≤ p.left
  le_refl p := ⟨le_rfl, le_rfl⟩
  le_trans p q r first second := ⟨first.1.trans second.1, first.2.trans second.2⟩

/-- The parsers with less than `n` left. -/
def before (n : Nat) : LowerSet GenericXMLParser where
  carrier := {p | p.left < n}
  lower' _ _ below inside := below.2.trans_lt inside

/-- The parsers with fewer than `n` characters. -/
def holding (n : Nat) : LowerSet GenericXMLParser where
  carrier := {p | p.fReader.rest.length < n}
  lower' _ _ below inside := below.1.trans_lt inside

theorem mem_before {p : GenericXMLParser} {n : Nat} : p ∈ before n ↔ p.left < n := Iff.rfl

theorem mem_holding {p : GenericXMLParser} {n : Nat} : p ∈ holding n ↔ p.fReader.rest.length < n := Iff.rfl

theorem before_mono {n m : Nat} (le : n ≤ m) : before n ≤ before m := fun _ inside => lt_of_lt_of_le inside le

theorem before_le_holding (n : Nat) : before n ≤ holding n := fun _ inside => lt_of_le_of_lt (Nat.le_add_right _ _) inside

theorem holding_le_before (n : Nat) : holding n ≤ before (n + 1) := by
  intro p inside
  have flag := Bool.toNat_le p.fReader.good
  have few : p.fReader.rest.length < n := inside
  change p.fReader.rest.length + p.fReader.good.toNat < n + 1
  omega

theorem ends_none {m : ParserM α} : Ends (before 0) m := ends_bot fun _ => Nat.not_lt_zero _

/-! ### Reading -/

variable {n : Nat} {S : LowerSet GenericXMLParser}

def Dead (c : Option UInt8) : Prop := c = none ∨ c = some 0

theorem Dead.cases {c : Option UInt8} (dead : Dead c) : c = none ∨ c = some 0 := dead

theorem get_cases (p : GenericXMLParser) :
    (∃ c q, get p = some (c, q) ∧ Dead c ∧ q.fReader.rest = p.fReader.rest ∧ q.fReader.good = false) ∨
      (∃ c rest q, p.fReader = .on (c :: rest) ∧ get p = some (some c, q) ∧ q.fReader = .on rest) := by
  obtain ⟨tree, ⟨rest, eofbit, failbit⟩, name, line⟩ := p
  cases eofbit with
  | true => exact .inl ⟨some 0, _, rfl, .inr rfl, rfl, rfl⟩
  | false =>
    cases failbit with
    | true => exact .inl ⟨none, _, rfl, .inl rfl, rfl, rfl⟩
    | false =>
      cases rest with
      | nil => exact .inl ⟨none, _, rfl, .inl rfl, rfl, rfl⟩
      | cons c rest => exact .inr ⟨c, rest, _, rfl, rfl, rfl⟩

theorem peek_cases (p : GenericXMLParser) :
    (∃ c q, peek p = some (c, q) ∧ Dead c ∧ q.fReader.rest = p.fReader.rest ∧ q.fReader.good = false) ∨
      (∃ c rest, p.fReader = .on (c :: rest) ∧ peek p = some (some c, p)) := by
  obtain ⟨tree, ⟨rest, eofbit, failbit⟩, name, line⟩ := p
  cases eofbit with
  | true => exact .inl ⟨some 0, _, rfl, .inr rfl, rfl, rfl⟩
  | false =>
    cases failbit with
    | true => exact .inl ⟨none, _, rfl, .inl rfl, rfl, rfl⟩
    | false =>
      cases rest with
      | nil => exact .inl ⟨none, _, rfl, .inl rfl, rfl, rfl⟩
      | cons c rest => exact .inr ⟨c, rest, rfl, rfl⟩

theorem le_of_bad {p q : GenericXMLParser} (same : q.fReader.rest = p.fReader.rest) (bad : q.fReader.good = false) : q ≤ p := by
  refine ⟨le_of_eq (congrArg List.length same), ?_⟩
  rw [left, left, same, bad]
  exact Nat.le_add_right _ _

theorem mem_before_of_bad {p q : GenericXMLParser} (inside : p ∈ holding n) (same : q.fReader.rest = p.fReader.rest)
    (bad : q.fReader.good = false) : q ∈ before n := by
  rw [mem_before, left, same, bad]
  exact inside

theorem le_of_read {p q : GenericXMLParser} {c : UInt8} {rest : Bytes} (here : p.fReader = .on (c :: rest))
    (after : q.fReader = .on rest) : q ≤ p := by
  refine ⟨?_, ?_⟩
  · simp [here, after]
  · simp [left, here, after]

theorem mem_before_of_read {p q : GenericXMLParser} {c : UInt8} {rest : Bytes} (inside : p ∈ holding n)
    (here : p.fReader = .on (c :: rest)) (after : q.fReader = .on rest) : q ∈ before n := by
  have few := mem_holding.mp inside
  rw [here] at few
  simpa [mem_before, left, after] using few

theorem get_holding : LeadsTo (holding n) get fun _ => before n := by
  intro p inside
  rcases get_cases p with ⟨c, q, run, -, same, bad⟩ | ⟨c, rest, q, here, run, after⟩
  · exact ⟨c, q, mem_before_of_bad inside same bad, le_of_bad same bad, run⟩
  · exact ⟨some c, q, mem_before_of_read inside here after, le_of_read here after, run⟩

theorem ends_get : Ends S get := by
  refine Ends.of_le fun p _ => ?_
  rcases get_cases p with ⟨c, q, run, -, same, bad⟩ | ⟨c, rest, q, here, run, after⟩
  · exact ⟨c, q, le_of_bad same bad, run⟩
  · exact ⟨some c, q, le_of_read here after, run⟩

theorem ends_peek : Ends S peek := by
  refine Ends.of_le fun p _ => ?_
  rcases peek_cases p with ⟨c, q, run, -, same, bad⟩ | ⟨c, rest, -, run⟩
  · exact ⟨c, q, le_of_bad same bad, run⟩
  · exact ⟨some c, p, le_rfl, run⟩

theorem ends_isEof : Ends S isEof := Ends.of_le fun p _ => ⟨_, p, le_rfl, rfl⟩

theorem ends_aside {a : α} {f : GenericXMLParser → GenericXMLParser} (same : ∀ p, (f p).fReader = p.fReader) :
    Ends S (fun p => some (a, f p)) := by
  refine Ends.of_le fun p _ => ⟨a, f p, ⟨le_of_eq ?_, le_of_eq ?_⟩, rfl⟩
  · rw [same]
  · simp only [left, same]

theorem ends_error (msg : Bytes) : Ends S (error msg) := ends_aside fun _ => rfl

variable {k : Option UInt8 → ParserM α}

instance (c : Option UInt8) : Decidable (Dead c) := inferInstanceAs (Decidable (_ ∨ _))

/-- Where a `Get` leads that starts a round. -/
def afterGet (n : Nat) (c : Option UInt8) : LowerSet GenericXMLParser := if Dead c then before (n + 1) else before n

theorem get_leads : LeadsTo (before (n + 1)) get (afterGet n) := by
  intro p inside
  have held := before_le_holding (n + 1) inside
  rcases get_cases p with ⟨c, q, run, dead, same, bad⟩ | ⟨c, rest, q, here, run, after⟩
  · refine ⟨c, q, ?_, le_of_bad same bad, run⟩
    rw [afterGet, if_pos dead]
    exact mem_before_of_bad held same bad
  · have taken : q ∈ before n := by
      have few := mem_before.mp inside
      simp only [left, here, IStream.rest_on, List.length_cons, IStream.good_on, Bool.toNat_true] at few
      simp only [mem_before, left, after, IStream.rest_on, IStream.good_on, Bool.toNat_true]
      omega
    refine ⟨some c, q, ?_, le_of_read here after, run⟩
    rw [afterGet]
    split
    · exact before_mono (Nat.le_succ n) taken
    · exact taken

theorem ends_getting (dead : ∀ c, Dead c → Ends (before (n + 1)) (k c)) (alive : ∀ c, ¬ Dead c → Ends (before n) (k c)) :
    Ends (before (n + 1)) (get >>= k) := by
  refine get_leads.ends fun c => ?_
  rw [afterGet]
  split
  · next gone => exact dead c gone
  · next here => exact alive c here

/-- Where a `Peek` leads that starts a round. -/
def afterPeek (n : Nat) (c : Option UInt8) : LowerSet GenericXMLParser := if Dead c then before (n + 1) else holding n

theorem peek_leads : LeadsTo (before (n + 1)) peek (afterPeek n) := by
  intro p inside
  rcases peek_cases p with ⟨c, q, run, gone, same, bad⟩ | ⟨c, rest, here, run⟩
  · refine ⟨c, q, ?_, le_of_bad same bad, run⟩
    rw [afterPeek, if_pos gone]
    exact mem_before_of_bad (before_le_holding _ inside) same bad
  · refine ⟨some c, p, ?_, le_rfl, run⟩
    rw [afterPeek]
    split
    · exact inside
    · have few := mem_before.mp inside
      simp only [left, here, IStream.rest_on, IStream.good_on, Bool.toNat_true] at few
      simp only [mem_holding, here, IStream.rest_on]
      omega

theorem ends_peeking (dead : ∀ c, Dead c → Ends (before (n + 1)) (k c)) (alive : ∀ c, ¬ Dead c → Ends (holding n) (k c)) :
    Ends (before (n + 1)) (peek >>= k) := by
  refine peek_leads.ends fun c => ?_
  rw [afterPeek]
  split
  · next gone => exact dead c gone
  · next here => exact alive c here

theorem ends_unless_eof {e b : ParserM α} (eof : Ends (before (n + 1)) e) (body : Ends (holding n) b) :
    Ends (before (n + 1)) (isEof >>= fun isEof => if isEof then e else b) := by
  have leads : LeadsTo (before (n + 1)) isEof fun seen => if seen then before (n + 1) else holding n := by
    intro p inside
    refine ⟨_, p, ?_, le_rfl, rfl⟩
    cases good : p.fReader.good with
    | false => exact inside
    | true =>
      have few := mem_before.mp inside
      rw [left, good] at few
      exact Nat.lt_of_succ_lt_succ few
  refine leads.ends fun seen => ?_
  cases seen with
  | true => exact eof
  | false => exact body

/-! ### Names and values -/

theorem ends_skipWhitespace (fuel : Nat) : Ends (before fuel) (skipWhitespace fuel) := by
  induction fuel with
  | zero => exact ends_none
  | succ fuel ih =>
    refine ends_unless_eof (ends_pure _) (ends_peek.bind fun c => ?_)
    split
    · exact get_holding.ends fun _ => ih
    · exact ends_pure _

def afterName (n : Nat) (name : Bytes) : LowerSet GenericXMLParser := if name = [] then holding n else before n

theorem before_le_afterName (n : Nat) (name : Bytes) : before n ≤ afterName n name := by
  rw [afterName]
  split
  · exact before_le_holding n
  · exact le_rfl

theorem afterName_le_holding (n : Nat) (name : Bytes) : afterName n name ≤ holding n := by
  rw [afterName]
  split
  · exact le_rfl
  · exact before_le_holding n

theorem ends_parseName (fuel : Nat) (theName : Bytes) : Ends (before fuel) (parseName fuel theName) := by
  induction fuel generalizing theName with
  | zero => exact ends_none
  | succ fuel ih =>
    refine ends_unless_eof (ends_pure _) (ends_peek.bind fun c => ?_)
    split
    · exact get_holding.ends fun c => ih _
    · exact ends_pure _

theorem parseName_leads (fuel : Nat) : LeadsTo (holding fuel) (parseName (fuel + 1) []) (afterName fuel) := by
  rw [parseName]
  refine LeadsTo.bind ends_isEof fun seen => ?_
  split
  · exact leads_pure le_rfl
  · refine LeadsTo.bind ends_peek fun c => ?_
    split
    · exact LeadsTo.bind get_holding fun c => LeadsTo.mono (ends_parseName fuel _) le_rfl (before_le_afterName fuel)
    · exact leads_pure le_rfl

theorem ends_readUpTo (stop : Option UInt8) (fuel : Nat) (value : Bytes) : Ends (before fuel) (readUpTo stop fuel value) := by
  induction fuel generalizing value with
  | zero => exact ends_none
  | succ fuel ih =>
    refine ends_unless_eof (ends_pure _) (get_holding.ends fun c => ?_)
    split
    · exact ends_pure _
    · exact ih _

theorem ends_parseQuotedString (fuel : Nat) : Ends (before fuel) (parseQuotedString fuel) :=
  (ends_skipWhitespace fuel).bind fun _ => ends_get.bind fun quote => ends_readUpTo quote fuel []

theorem ends_readWhile {more : UInt8 → Bool} (stops : more 0 = false) (fuel : Nat) (value : Bytes) :
    Ends (holding fuel) (readWhile more (fuel + 1) value) := by
  induction fuel generalizing value with
  | zero => exact ends_bot fun _ => Nat.not_lt_zero _
  | succ fuel ih =>
    refine get_holding.ends fun c => ends_peeking (fun next dead => ?_) fun next _ => ?_
    · have stop : next.any more = false := by
        rcases dead with rfl | rfl
        · rfl
        · exact stops
      rw [stop]
      exact ends_pure _
    · split
      · exact ih _
      · exact ends_pure _

theorem ends_parseValue (fuel : Nat) : Ends (before fuel) (parseValue fuel) := by
  cases fuel with
  | zero => exact ends_none
  | succ fuel =>
    refine ends_peeking (fun c dead => ?_) fun c _ => ?_
    · rcases dead with rfl | rfl
      · exact ends_pure _
      · exact ends_pure _
    · have small := holding_le_before fuel
      split_ifs
      · exact (ends_parseQuotedString _).mono small
      · exact (ends_parseName _ _).mono small
      · exact ends_readWhile rfl fuel []
      · exact ends_readWhile rfl fuel []
      · exact ends_pure _

theorem parseAttribute_leads (fuel : Nat) :
    LeadsTo (holding fuel) (parseAttribute (fuel + 1)) fun item => if item.1 then before fuel else afterName fuel item.2.1 := by
  have small := holding_le_before fuel
  refine LeadsTo.bind (parseName_leads fuel) fun name => ?_
  have here := afterName_le_holding fuel name
  refine LeadsTo.bind ((ends_skipWhitespace _).mono (here.trans small)) fun _ => LeadsTo.bind ends_peek fun c => ?_
  split
  · refine LeadsTo.bind (get_holding.mono here fun _ => le_rfl) fun _ => ?_
    have less := before_mono (Nat.le_succ fuel)
    exact LeadsTo.bind ((ends_skipWhitespace _).mono less) fun _ => LeadsTo.bind ((ends_parseValue _).mono less) fun value =>
      leads_pure le_rfl
  · refine leads_pure ?_
    simp [afterName]

theorem parseTagItem_leads (fuel : Nat) (tag : Bytes) (tagAttributes : Tree) :
    LeadsTo (holding fuel) (parseTagItem (fuel + 1) tag tagAttributes) fun _ => before fuel := by
  refine LeadsTo.bind (parseAttribute_leads fuel) fun item => ?_
  by_cases valued : item.1 = true
  · rw [if_pos valued, if_pos valued]
    exact leads_pure le_rfl
  · rw [if_neg valued, if_neg valued, afterName]
    by_cases empty : item.2.1 = []
    · rw [if_pos empty, empty, if_neg (by simp)]
      exact LeadsTo.bind get_holding fun c => LeadsTo.bind (ends_error _) fun _ => leads_pure le_rfl
    · rw [if_neg empty, if_pos (List.length_pos_of_ne_nil empty)]
      exact leads_pure le_rfl

theorem slash_cases {p : GenericXMLParser} {rest : Bytes} (here : p.fReader = .on ('/'.toUInt8 :: rest)) (last other : ParserM α) :
    (do
      let _ ← get
      let c ← peek
      if c = some '>'.toUInt8 then last
      else do
        putBack '/'.toUInt8
        other) p = (do
      let _ ← get
      last) p ∨ (do
      let _ ← get
      let c ← peek
      if c = some '>'.toUInt8 then last
      else do
        putBack '/'.toUInt8
        other) p = other p := by
  obtain ⟨tree, reader, name, line⟩ := p
  subst here
  cases rest with
  | nil => exact .inr rfl
  | cons c rest =>
    by_cases close : c = '>'.toUInt8
    · left
      subst close
      rfl
    · right
      change (if some c = some '>'.toUInt8 then last else putBack '/'.toUInt8 >>= fun _ => other) _ = _
      rw [if_neg (by simpa using close)]
      rfl

theorem ends_parseTagLoop (tag : Bytes) (fuel : Nat) (tagAttributes : Tree) : Ends (before fuel) (parseTagLoop tag fuel tagAttributes) := by
  induction fuel generalizing tagAttributes with
  | zero => exact ends_none
  | succ fuel ih =>
    have small := holding_le_before fuel
    have item : Ends (holding fuel) (parseTagItem (fuel + 1) tag tagAttributes >>= parseTagLoop tag fuel) :=
      (parseTagItem_leads fuel tag tagAttributes).ends ih
    refine ends_unless_eof ((ends_error _).bind fun _ => ends_pure _) ?_
    refine ((ends_skipWhitespace _).mono small).bind fun _ => Ends.of_le fun p inside => ?_
    have close : ∀ ended : Bool, Ends (holding fuel) (do
        let _ ← get
        pure (ended, tagAttributes)) := fun _ => ends_get.bind fun _ => ends_pure _
    rcases peek_cases p with ⟨c, q, run, dead, same, bad⟩ | ⟨c, rest, here, run⟩
    · have neither : c ≠ some '>'.toUInt8 ∧ c ≠ some '/'.toUInt8 := by
        rcases dead with rfl | rfl <;> decide
      rw [bind_run run, if_neg neither.1, if_neg neither.2]
      obtain ⟨a, s', below, ends⟩ := item.at_state (before_le_holding fuel (mem_before_of_bad inside same bad))
      exact ⟨a, s', below.trans (le_of_bad same bad), ends⟩
    · rw [bind_run run]
      by_cases isClose : some c = some '>'.toUInt8
      · rw [if_pos isClose]
        exact (close true).at_state inside
      · rw [if_neg isClose]
        by_cases isSlash : some c = some '/'.toUInt8
        · rw [if_pos isSlash]
          obtain rfl := Option.some.inj isSlash
          rcases slash_cases here (get >>= fun _ => pure (false, tagAttributes))
            (parseTagItem (fuel + 1) tag tagAttributes >>= parseTagLoop tag fuel) with last | other
          · rw [last]
            exact (ends_get.bind fun _ => close false).at_state inside
          · rw [other]
            exact item.at_state inside
        · rw [if_neg isSlash]
          exact item.at_state inside

theorem ends_parseTag (fuel : Nat) : Ends (before fuel) (parseTag fuel) :=
  (ends_parseName fuel []).bind fun tag => (ends_parseTagLoop tag fuel .null).bind fun _ => ends_pure _

/-! ### Declarations -/

theorem ends_skipToClosing (fuel : Nat) (result : Bytes) : Ends (before fuel) (skipToClosing fuel result) := by
  induction fuel generalizing result with
  | zero => exact ends_none
  | succ fuel ih =>
    refine ends_getting (fun c dead => ?_) fun c _ => ?_
    · rw [if_pos (dead.imp_right .inl)]
      exact ends_pure _
    · split
      · exact ends_pure _
      · exact ih _

theorem ends_readInstruction (fuel : Nat) (value : Bytes) : Ends (before fuel) (readInstruction fuel value) := by
  induction fuel generalizing value with
  | zero => exact ends_none
  | succ fuel ih =>
    refine ends_getting (fun c dead => ?_) fun c _ => ?_
    · rw [if_pos dead.cases]
      exact ends_pure _
    · split_ifs
      · exact ends_pure _
      · refine ends_peek.bind fun next => ?_
        split
        · exact ends_get.bind fun _ => ends_pure _
        · exact ih _
      · exact ih _

theorem ends_parseXmlOrProcessingInstruction (fuel : Nat) : Ends (before fuel) (parseXmlOrProcessingInstruction fuel) := by
  refine ends_get.bind fun c => (ends_parseName fuel []).bind fun name => (ends_readInstruction fuel []).bind fun value => ?_
  cases value with
  | some value => exact ends_pure _
  | none => exact (ends_error _).bind fun _ => (ends_skipToClosing fuel []).bind fun _ => ends_pure _

theorem ends_skipExceeding (fuel : Nat) (result : Bytes) : Ends (before fuel) (skipExceeding fuel result) := by
  induction fuel generalizing result with
  | zero => exact ends_none
  | succ fuel ih =>
    refine ends_getting (fun c dead => ?_) fun c _ => ?_
    · rw [if_neg (by rcases dead with rfl | rfl <;> decide)]
      exact ends_pure _
    · split
      · exact ih _
      · exact ends_pure _

theorem ends_skipToCdata (fuel : Nat) (result : Bytes) : Ends (before fuel) (skipToCdata fuel result) := by
  induction fuel generalizing result with
  | zero => exact ends_none
  | succ fuel ih =>
    have less := before_mono (Nat.le_succ fuel)
    refine ends_getting (fun c dead => ?_) fun c _ => ?_
    · rw [if_pos dead.cases]
      exact (ends_error _).bind fun _ => ends_pure _
    · split_ifs
      · exact (ends_error _).bind fun _ => ends_pure _
      · refine ends_peek.bind fun next => ?_
        split
        · refine ends_get.bind fun _ => ((ends_skipExceeding _ _).mono less).bind fun behind => ?_
          split
          · exact ends_pure _
          · exact ih _
        · exact ih _
      · exact ih _

theorem ends_parseCdata (fuel : Nat) : Ends (before fuel) (parseCdata fuel) := by
  have skip := ends_skipWhitespace fuel
  refine ends_get.bind fun _ => skip.bind fun _ => (ends_parseName fuel []).bind fun name => skip.bind fun _ => ends_get.bind fun c => ?_
  split_ifs
  · exact (ends_skipToCdata fuel []).bind fun text => ends_pure _
  · exact (ends_error _).bind fun _ => (ends_skipToClosing fuel []).bind fun text => ends_pure _
  · exact (ends_error _).bind fun _ => (ends_skipToClosing fuel []).bind fun text => ends_pure _

theorem ends_gsr (comment : Bytes) : Ends S (gsr comment) := ends_get.bind fun _ => ends_pure _

theorem ends_gsring {f : Option UInt8 × Bytes → ParserM α} {comment : Bytes}
    (dead : ∀ read, Dead read.1 → Ends (before (n + 1)) (f read)) (alive : ∀ read, ¬ Dead read.1 → Ends (before n) (f read)) :
    Ends (before (n + 1)) (gsr comment >>= f) := by
  have same : gsr comment >>= f = get >>= fun c => f (c, comment ++ [toChar c]) := by
    rw [gsr, bind_assoc]
    rfl
  rw [same]
  exact ends_getting (fun c gone => dead _ gone) fun c here => alive _ here

theorem ends_skipCommentSpace (fuel : Nat) (comment : Bytes) : Ends (before fuel) (skipCommentSpace fuel comment) := by
  induction fuel generalizing comment with
  | zero => exact ends_none
  | succ fuel ih =>
    refine ends_gsring (fun read dead => ?_) fun read _ => ?_
    · have stop : read.1.any isspace = false := by
        rcases dead.cases with gone | gone <;> rw [gone] <;> rfl
      rw [stop]
      exact ends_pure _
    · split
      · exact ih _
      · exact ends_pure _

theorem ends_skipDashes (fuel : Nat) (read : Option UInt8 × Bytes) : Ends (before fuel) (skipDashes (fuel + 1) read) := by
  induction fuel generalizing read with
  | zero => exact ends_none
  | succ fuel ih =>
    rw [skipDashes]
    split
    · refine ends_gsring (fun read dead => ?_) fun read _ => ih read
      rw [skipDashes, if_neg (by rcases dead.cases with gone | gone <;> rw [gone] <;> decide)]
      exact ends_pure _
    · exact ends_pure _

theorem ends_skipComment (fuel : Nat) (read : Option UInt8 × Bytes) : Ends (before fuel) (skipComment (fuel + 1) read) := by
  induction fuel generalizing read with
  | zero => exact ends_none
  | succ fuel ih =>
    have next : ∀ comment, Ends (before (fuel + 1)) (gsr comment >>= skipComment (fuel + 1)) := by
      intro comment
      refine ends_gsring (fun read dead => ?_) fun read _ => ih read
      rw [skipComment, if_pos dead.cases]
      exact ends_pure _
    rw [skipComment]
    split_ifs
    · exact ends_pure _
    · refine (ends_gsr _).bind fun read => ?_
      split
      · refine (ends_gsr _).bind fun read => (ends_skipDashes _ _).bind fun read => ?_
        split
        · exact ends_pure _
        · exact next _
      · exact next _
    · exact next _

theorem ends_parseNoComment (fuel : Nat) (c : Option UInt8) : Ends (before fuel) (parseNoComment fuel c) := by
  refine (ends_error _).bind fun _ => ?_
  split
  · exact ends_pure _
  · exact (ends_skipToClosing fuel []).bind fun _ => ends_pure _

theorem ends_parseComment (fuel : Nat) : Ends (before fuel) (parseComment fuel) := by
  refine ends_get.bind fun c => ?_
  split
  · refine ends_get.bind fun c => ?_
    split
    · exact (ends_skipCommentSpace fuel []).bind fun read => (ends_skipComment fuel read).bind fun _ => ends_pure _
    · exact ends_parseNoComment fuel c
  · exact ends_parseNoComment fuel c

theorem ends_parseExternalId (fuel : Nat) : Ends (before fuel) (parseExternalId fuel) := by
  have quoted := ends_parseQuotedString fuel
  refine (ends_parseName fuel []).bind fun systemOrPublic => (ends_skipWhitespace fuel).bind fun _ => ?_
  split
  · exact quoted.bind fun _ => quoted.bind fun _ => ends_pure _
  · exact quoted.bind fun _ => ends_pure _

theorem ends_parseUnexpected (fuel : Nat) (c : Option UInt8) : Ends (before fuel) (parseUnexpected fuel c) :=
  (ends_error _).bind fun _ => (ends_skipToClosing fuel []).bind fun _ => ends_pure _

theorem ends_parseCommentOrDtd (fuel : Nat) : Ends (before fuel) (parseCommentOrDtd fuel) := by
  refine ends_get.bind fun c => ends_peek.bind fun next => ?_
  split_ifs
  · exact ends_parseComment fuel
  · exact (ends_parseName fuel []).bind fun _ => (ends_skipToClosing fuel []).bind fun _ => ends_pure _
  · exact ends_parseUnexpected fuel c

theorem ends_parseDtdElementsLoop (fuel : Nat) (c : Option UInt8) (result : Tree) :
    Ends (before fuel) (parseDtdElementsLoop fuel c result) := by
  induction fuel generalizing c result with
  | zero => exact ends_none
  | succ fuel ih =>
    have less := before_mono (Nat.le_succ fuel)
    refine ends_unless_eof (ends_pure _) ?_
    split
    · exact ends_pure _
    · refine ((ends_skipWhitespace _).mono (holding_le_before fuel)).bind fun _ => get_holding.ends fun c => ?_
      split_ifs
      · exact ((ends_readUpTo _ _ []).mono less).bind fun _ => ih _ _
      · refine ends_peek.bind fun next => ?_
        split_ifs
        · exact ((ends_parseXmlOrProcessingInstruction _).mono less).bind fun _ => ih _ _
        · exact ((ends_parseCommentOrDtd _).mono less).bind fun _ => ih _ _
        · exact (ends_error _).bind fun _ => ((ends_skipToClosing _ []).mono less).bind fun _ => ih _ _
      · exact ih _ _
      · exact (ends_error _).bind fun _ => ih _ _

theorem ends_parseDtdEnd (fuel : Nat) (result : Tree) : Ends (before fuel) (parseDtdEnd fuel result) := by
  refine (ends_skipWhitespace fuel).bind fun _ => ends_peek.bind fun c => ?_
  split
  · exact ends_get.bind fun _ => ends_pure _
  · exact (ends_error _).bind fun _ => (ends_skipToClosing fuel []).bind fun _ => ends_pure _

theorem ends_parseDtdBody (fuel : Nat) (result : Tree) : Ends (before fuel) (parseDtdBody fuel result) := by
  refine (ends_skipWhitespace fuel).bind fun _ => ends_peek.bind fun c => ?_
  split
  · have elements : Ends (before fuel) (parseDtdElements fuel) := ends_get.bind fun c => ends_parseDtdElementsLoop fuel c .null
    exact elements.bind fun _ => ends_parseDtdEnd fuel _
  · exact ends_parseDtdEnd fuel result

theorem ends_parseDtd (fuel : Nat) : Ends (before fuel) (parseDtd fuel) := by
  have name := ends_parseName fuel []
  have skip := ends_skipWhitespace fuel
  refine name.bind fun _ => ?_
  dsimp only
  split
  · refine skip.bind fun _ => name.bind fun _ => skip.bind fun _ => ends_peek.bind fun c => ?_
    split
    · exact (ends_parseExternalId fuel).bind fun _ => ends_parseDtdBody fuel _
    · exact ends_parseDtdBody fuel _
  · exact (ends_error _).bind fun _ => (ends_skipToClosing fuel []).bind fun _ => ends_pure _

theorem ends_parseCommentCdataOrDtd (fuel : Nat) : Ends (before fuel) (parseCommentCdataOrDtd fuel) := by
  refine ends_get.bind fun c => ends_peek.bind fun next => ?_
  split_ifs
  · exact ends_parseComment fuel
  · exact ends_parseCdata fuel
  · exact ends_parseDtd fuel
  · exact ends_parseUnexpected fuel c

/-! ### Texts and tags -/

theorem ends_appendTo (tagbody : Option Tree) (body : Tree) : Ends S (appendTo tagbody body) := by
  cases tagbody with
  | some tagbody => exact ends_pure _
  | none => exact ends_aside fun _ => rfl

theorem ends_storeText (tagbody : Option Tree) (literal : Bytes) : Ends S (storeText tagbody literal) := by
  rw [storeText]
  split
  · exact ends_appendTo _ _
  · exact ends_pure _

theorem ends_store (tagbody : Option Tree) (body : Tree) : Ends S (store tagbody body) := by
  rw [store]
  split
  · exact ends_pure _
  · exact ends_appendTo _ _

theorem ends_doParseLoop (fuel : Nat) (theTag : Bytes) (tagbody : Option Tree) (reply : Bytes) :
    Ends (before fuel) (doParseLoop fuel theTag tagbody reply) := by
  induction fuel generalizing theTag tagbody reply with
  | zero => exact ends_none
  | succ fuel ih =>
    have less := before_mono (Nat.le_succ fuel)
    refine ends_getting (fun c dead => ?_) fun c _ => ?_
    · rw [if_pos dead.cases]
      exact ends_storeText _ _
    · split_ifs
      · exact ends_storeText _ _
      · refine (ends_storeText _ _).bind fun tagbody => ends_peek.bind fun lookahead => ?_
        split_ifs
        · exact ((ends_parseCommentCdataOrDtd _).mono less).bind fun body => (ends_store _ _).bind fun tagbody => ih _ _ _
        · refine ends_get.bind fun _ => ((ends_parseName _ []).mono less).bind fun tagname => ends_peek.bind fun c => ?_
          split
          · exact ends_get.bind fun _ => ends_pure _
          · exact (ends_error _).bind fun _ => ih _ _ _
        · exact ((ends_parseXmlOrProcessingInstruction _).mono less).bind fun body => (ends_store _ _).bind fun tagbody => ih _ _ _
        · refine ((ends_parseTag _).mono less).bind fun tag => ?_
          dsimp only
          split
          · exact (ih _ _ _).bind fun subTag => (ends_store _ _).bind fun tagbody => ih _ _ _
          · exact (ends_store _ _).bind fun tagbody => ih _ _ _
        · exact ih _ _ _
      · refine ends_peek.bind fun next => ?_
        split
        · exact ends_get.bind fun _ => ih _ _ _
        · exact ih _ _ _
      · exact ih _ _ _

/-- Whatever the text is, and in whatever state the stream: two rounds more than there are characters are enough. -/
theorem parse_ends (reader : IStream UInt8) (filename : Bytes) (startline : Int) (more : Nat) :
    ∃ tree p, parse (reader.rest.length + 2 + more) reader filename startline = some (tree, p) ∧
      p.fReader.rest.length ≤ reader.rest.length := by
  have inside : (⟨.null, reader, filename, startline⟩ : GenericXMLParser) ∈ before (reader.rest.length + 2 + more) := by
    have flag := Bool.toNat_le reader.good
    change reader.rest.length + reader.good.toNat < _
    omega
  obtain ⟨tagbody, p, below, run⟩ := (ends_doParseLoop _ [] none []).at_state inside
  refine ⟨p.fParseTree, p, ?_, below.1⟩
  rw [parse, doParse, run]
  rfl

end Coast.Xml.GenericXMLParser
