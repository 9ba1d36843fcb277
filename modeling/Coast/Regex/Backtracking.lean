import Coast.Lib.Languages
import Coast.Regex.BackReferences

/-!
# The engine finds what an expression denotes

Expressions of greedy closures only, each with the language that it denotes. The engine tries what follows
a piece at the ends of the words of its language, so that it succeeds if there is a way to succeed.
-/

namespace Coast.Regex

open Languages Computability

def MatchFlags.fold (flags : MatchFlags) (c : UInt8) : UInt8 := if flags.icase then tolower c else c

/-- The characters that `.` stands for. -/
def MatchFlags.anyChar (flags : MatchFlags) : Language UInt8 :=
  {w | ∃ c, w = [c] ∧ (c = 10 → flags.dotMatchesNewline = true)}

theorem nil_notMem_anyChar (flags : MatchFlags) : [] ∉ flags.anyChar := by
  rintro ⟨c, is, -⟩
  cases is

/-! ### Languages -/

/-- The texts that a node matches, where these do not depend on what stands around them. -/
def Op.language (flags : MatchFlags) : Op → Language UInt8
  | .opAny => flags.anyChar
  | .opAtom text => alike flags.fold text
  | _ => 0

mutual

noncomputable def Piece.language (flags : MatchFlags) : Piece → Language UInt8
  | .nothing => 1
  | .simple op => op.language flags
  | .group _ a => a.language flags
  | .question x | .reluctantMaybe x => 1 + x.language flags
  | .star x | .reluctantStar x => (x.language flags)∗
  | .plus x | .reluctantPlus x => x.language flags * (x.language flags)∗
  | .chain x y => x.language flags * y.language flags

noncomputable def Alts.language (flags : MatchFlags) : Alts → Language UInt8
  | .last b => b.language flags
  | .alt b rest => b.language flags + rest.language flags

end

def Op.isPlain : Op → Prop
  | .opAny => True
  | .opAtom text => text ≠ [] ∧ 0 ∉ text
  | _ => False

mutual

def Piece.Greedy (flags : MatchFlags) : Piece → Prop
  | .nothing => True
  | .simple op => op.isPlain
  | .group _ a => a.Greedy flags
  | .question x => x.Greedy flags
  | .star x | .plus x => x.Greedy flags ∧ [] ∉ x.language flags
  | .reluctantMaybe _ | .reluctantStar _ | .reluctantPlus _ => False
  | .chain x y => x.Greedy flags ∧ y.Greedy flags

def Alts.Greedy (flags : MatchFlags) : Alts → Prop
  | .last b => b.Greedy flags
  | .alt b rest => b.Greedy flags ∧ rest.Greedy flags

end

theorem Op.isSimple_of_isPlain {op : Op} (plain : op.isPlain) : op.isSimple = true := by
  cases op with
  | opAny | opAtom => rfl
  | _ => exact plain.elim

section Greedy

variable {flags : MatchFlags}

theorem Piece.closed_of_greedy : ∀ {p : Piece}, p.Greedy flags → p.closed = true
  | .nothing, _ | .simple _, _ | .group _ _, _ | .question _, _ | .star _, _ | .plus _, _ => rfl
  | .chain _ y, greedy => Piece.closed_of_greedy (p := y) greedy.2

mutual

theorem Piece.simple_of_greedy : ∀ {p : Piece}, p.Greedy flags → p.All fun op => op.isSimple = true
  | .nothing, _ => trivial
  | .simple _, greedy => Op.isSimple_of_isPlain greedy
  | .group _ a, greedy => Alts.simple_of_greedy (a := a) greedy
  | .question x, greedy => Piece.simple_of_greedy (p := x) greedy
  | .star x, greedy | .plus x, greedy => Piece.simple_of_greedy (p := x) greedy.1
  | .chain x y, greedy => ⟨Piece.simple_of_greedy (p := x) greedy.1, Piece.simple_of_greedy (p := y) greedy.2⟩

theorem Alts.simple_of_greedy : ∀ {a : Alts}, a.Greedy flags → a.All fun op => op.isSimple = true
  | .last b, greedy => Piece.simple_of_greedy (p := b) greedy
  | .alt b rest, greedy => ⟨Piece.simple_of_greedy (p := b) greedy.1, Alts.simple_of_greedy (a := rest) greedy.2⟩

end

end Greedy

/-! ### Continuations -/

def Cont.Finds (rest : Cont) (idx : Nat) (ends : Nat → Prop) : Prop :=
  ∀ c, ∃ r c', rest idx c = some (r, c') ∧ (∀ e ∈ r, ends e) ∧ (r = none → ∀ e, ¬ends e)

namespace Cont.Finds

variable {rest first second : Cont} {idx : Nat} {ends ends' : Nat → Prop}

theorem congr (same : ∀ e, ends e ↔ ends' e) (finds : rest.Finds idx ends) : rest.Finds idx ends' := by
  have is : ends = ends' := funext fun e => propext (same e)
  rwa [← is]

theorem stop (idx : Nat) : Cont.stop.Finds idx (· = idx) := fun c =>
  ⟨some idx, c, rfl, fun e has => (Option.mem_some.mp has).symm, nofun⟩

theorem orElse (finds : first.Finds idx ends) (finds' : second.Finds idx ends') :
    (first.orElse second).Finds idx fun e => ends e ∨ ends' e := by
  intro c
  obtain ⟨r, d, run, found, failed⟩ := finds c
  cases r with
  | some e =>
    refine ⟨some e, d, ?_, fun e' has => .inl (found e' has), nofun⟩
    rw [Cont.orElse, run]
  | none =>
    obtain ⟨r', d', run', found', failed'⟩ := finds' d
    refine ⟨r', d', ?_, fun e has => .inr (found' e has), fun none e holds => ?_⟩
    · rw [Cont.orElse, run]
      exact run'
    · rcases holds with holds | holds
      · exact failed rfl e holds
      · exact failed' none e holds

theorem opening (k : Nat) (finds : rest.Finds idx ends) : (Cont.opening k rest).Finds idx ends := by
  intro c
  obtain ⟨r, d, run, found⟩ := finds (c.pushOpen k idx)
  rw [Cont.opening, run]
  cases r with
  | some e => exact ⟨some e, _, rfl, found⟩
  | none => exact ⟨none, _, rfl, found⟩

theorem closing (k : Nat) (finds : rest.Finds idx ends) : (Cont.closing k rest).Finds idx ends := by
  intro c
  obtain ⟨r, d, run, found⟩ := finds (c.pushClose k idx)
  rw [Cont.closing, run]
  cases r with
  | some e => exact ⟨some e, _, rfl, found⟩
  | none => exact ⟨none, _, rfl, found⟩

end Cont.Finds

/-! ### Plain nodes -/

section Nodes

variable {m : Matcher} {idx j : Nat}

theorem matchAtom_iff {text : Bytes} (plain : 0 ∉ text) :
    m.matchAtom text idx = some j ↔ Spans m.search (alike m.flags.fold text) idx j := by
  obtain ⟨part, is⟩ : ∃ part, part = subString m.search idx text.length := ⟨_, rfl⟩
  have spans : Spans m.search (alike m.flags.fold text) idx j ↔
      j = idx + text.length ∧ j ≤ m.search.length ∧ part.map m.flags.fold = text.map m.flags.fold := by
    rw [is]
    exact spans_alike
  rw [spans, Matcher.matchAtom, cstr_of_plain plain, ← is]
  by_cases fits : m.search.length < text.length + idx
  · rw [if_pos fits]
    refine iff_of_false (by simp) ?_
    rintro ⟨rfl, inside, -⟩
    omega
  · have lengths : part.length = text.length := by
      rw [is, subString, List.length_take, List.length_drop]
      omega
    have compared : strncmpEq text.length (m.search.drop idx) text = (part == text) := by
      rw [Matcher.strncmpEq_of_plain (by rwa [List.take_length]) (Nat.le_refl _), List.take_length, is]
      rfl
    have caseless : caselessEq text part = (part.map tolower == text.map tolower) := by
      rw [← Matcher.caselessEq_of_plain lengths plain, caselessEq, caselessEq, Bool.beq_comm]
    rw [if_neg fits, compared, caseless]
    unfold MatchFlags.fold
    cases m.flags.icase with
    | false =>
      simp only [Bool.false_eq_true, if_false, beq_iff_eq, Option.ite_none_right_eq_some, Option.some.injEq, List.map_id']
      constructor
      · rintro ⟨same, rfl⟩
        exact ⟨rfl, by omega, same⟩
      · rintro ⟨rfl, -, same⟩
        exact ⟨same, rfl⟩
    | true =>
      simp only [if_true, beq_iff_eq, Option.ite_none_right_eq_some, Option.some.injEq]
      constructor
      · rintro ⟨same, rfl⟩
        exact ⟨rfl, by omega, same⟩
      · rintro ⟨rfl, -, same⟩
        exact ⟨same, rfl⟩

theorem matchAny_iff {c : Captures} : m.matchSimple .opAny idx c = some j ↔ Spans m.search m.flags.anyChar idx j := by
  rw [Matcher.matchSimple]
  constructor
  · intro matched
    split at matched
    · cases matched
    · rename_i goesOn
      cases matched
      rw [not_or, Nat.not_le] at goesOn
      refine ⟨Nat.le_succ idx, goesOn.1, m.search.getD idx 0, ?_, fun newline => ?_⟩
      · have char := List.getD_eq_getElem m.search 0 goesOn.1
        rw [char, Nat.add_sub_cancel_left, List.drop_eq_getElem_cons goesOn.1]
        rfl
      · by_contra other
        exact goesOn.2 ⟨newline, Bool.eq_false_iff.mpr other⟩
  · rintro ⟨le, inside, c, is, newline⟩
    have length := congrArg List.length is
    rw [List.length_take, List.length_drop, List.length_singleton] at length
    obtain rfl : j = idx + 1 := by omega
    rw [Nat.add_sub_cancel_left, List.drop_eq_getElem_cons inside] at is
    cases is
    rw [if_neg]
    rintro (beyond | ⟨ten, other⟩)
    · omega
    · rw [List.getD_eq_getElem _ _ inside] at ten
      rw [newline ten] at other
      cases other

theorem matchSimple_iff {op : Op} (plain : op.isPlain) {c : Captures} :
    m.matchSimple op idx c = some j ↔ Spans m.search (op.language m.flags) idx j := by
  cases op with
  | opAny => exact matchAny_iff
  | opAtom text => exact matchAtom_iff plain.2
  | _ => exact plain.elim

theorem Cont.Finds.simple {op : Op} (plain : op.isPlain) {rest : Cont} {R : Nat → Nat → Prop}
    (later : ∀ j, Spans m.search (op.language m.flags) idx j → rest.Finds j (R j)) :
    (Cont.simple m op rest).Finds idx fun e => ∃ j, Spans m.search (op.language m.flags) idx j ∧ R j e := by
  intro c
  unfold Cont.simple
  cases matched : m.matchSimple op idx c with
  | none =>
    refine ⟨none, c, rfl, nofun, fun _ e => ?_⟩
    rintro ⟨j, spans, -⟩
    rw [(matchSimple_iff plain).mpr spans] at matched
    cases matched
  | some j =>
    have spans := (matchSimple_iff plain).mp matched
    obtain ⟨r, d, run, found, failed⟩ := later j spans c
    refine ⟨r, d, run, fun e has => ⟨j, spans, found e has⟩, fun none e => ?_⟩
    rintro ⟨k, spans', holds⟩
    rw [(matchSimple_iff plain).mpr spans'] at matched
    cases matched
    exact failed none e holds

end Nodes

/-! ### Expressions -/

section Expressions

variable {m : Matcher} {fuel : Nat}

theorem Cont.Finds.loop {L : Language UInt8} (full : [] ∉ L) {x : Cont → Cont}
    (passes : ∀ {rest : Cont} {R : Nat → Nat → Prop} {idx : Nat}, idx ≤ m.search.length →
      (∀ j, Spans m.search L idx j → rest.Finds j (R j)) → (x rest).Finds idx fun e => ∃ j, Spans m.search L idx j ∧ R j e)
    {rest : Cont} {R : Nat → Nat → Prop} {n idx : Nat} (inside : idx ≤ m.search.length) (left : m.search.length - idx < n)
    (later : ∀ j, Spans m.search L∗ idx j → rest.Finds j (R j)) :
    (Cont.loop x rest n).Finds idx fun e => ∃ j, Spans m.search L∗ idx j ∧ R j e := by
  induction n generalizing idx with
  | zero => omega
  | succ n ih =>
    have again : ∀ j, Spans m.search L idx j → (Cont.loop x rest n).Finds j fun e => ∃ k, Spans m.search L∗ j k ∧ R k e := by
      intro j spans
      have further := spans.lt full
      have within := spans.inside
      exact ih within (by omega) fun k more => later k ((spans_kstar inside).mpr (.inr ⟨j, spans, more⟩))
    have here := later idx ((spans_kstar inside).mpr (.inl rfl))
    refine ((passes inside again).orElse here).congr fun e => ?_
    rw [exists_spans_kstar inside, or_comm]

mutual

/-- What follows a piece is tried at the ends of the words of its language until it succeeds. -/
theorem Piece.finds (enough : m.search.length < fuel) {p : Piece} (greedy : p.Greedy m.flags) {rest : Cont} {R : Nat → Nat → Prop}
    {idx : Nat} (inside : idx ≤ m.search.length) (later : ∀ j, Spans m.search (p.language m.flags) idx j → rest.Finds j (R j)) :
    (p.exec m fuel rest).Finds idx fun e => ∃ j, Spans m.search (p.language m.flags) idx j ∧ R j e := by
  match p with
  | .nothing =>
    rw [Piece.language] at later ⊢
    exact (later idx ((spans_one inside).mpr rfl)).congr fun e => (exists_spans_one inside).symm
  | .simple op => exact Cont.Finds.simple greedy later
  | .group k a => exact (Alts.finds enough (a := a) greedy inside fun j spans => (later j spans).closing k).opening k
  | .question x =>
    rw [Piece.language] at later ⊢
    have here := later idx (spans_add.mpr (.inl ((spans_one inside).mpr rfl)))
    have first := Piece.finds enough (p := x) greedy inside fun j spans => later j (spans_add.mpr (.inr spans))
    refine (first.orElse here).congr fun e => ?_
    rw [exists_spans_add, exists_spans_one inside, or_comm]
  | .star x => exact Cont.Finds.loop greedy.2 (Piece.finds enough (p := x) greedy.1) inside (by omega) later
  | .plus x =>
    rw [Piece.language] at later ⊢
    have again : ∀ j, Spans m.search (x.language m.flags) idx j →
        (Cont.loop (x.exec m fuel) rest fuel).Finds j fun e => ∃ k, Spans m.search (x.language m.flags)∗ j k ∧ R k e := by
      intro j spans
      refine Cont.Finds.loop greedy.2 (Piece.finds enough (p := x) greedy.1) spans.inside (by omega) fun k more => ?_
      exact later k (spans_mul.mpr ⟨j, spans, more⟩)
    exact (Piece.finds enough (p := x) greedy.1 inside again).congr fun e => exists_spans_mul.symm
  | .chain x y =>
    rw [Piece.language] at later ⊢
    have next : ∀ j, Spans m.search (x.language m.flags) idx j →
        (y.exec m fuel rest).Finds j fun e => ∃ k, Spans m.search (y.language m.flags) j k ∧ R k e := by
      intro j spans
      exact Piece.finds enough (p := y) greedy.2 spans.inside fun k more => later k (spans_mul.mpr ⟨j, spans, more⟩)
    exact (Piece.finds enough (p := x) greedy.1 inside next).congr fun e => exists_spans_mul.symm

theorem Alts.finds (enough : m.search.length < fuel) {a : Alts} (greedy : a.Greedy m.flags) {rest : Cont} {R : Nat → Nat → Prop}
    {idx : Nat} (inside : idx ≤ m.search.length) (later : ∀ j, Spans m.search (a.language m.flags) idx j → rest.Finds j (R j)) :
    (a.exec m fuel rest).Finds idx fun e => ∃ j, Spans m.search (a.language m.flags) idx j ∧ R j e := by
  match a with
  | .last b => exact Piece.finds enough (p := b) greedy inside later
  | .alt b others =>
    rw [Alts.language] at later ⊢
    have first := Piece.finds enough (p := b) greedy.1 inside fun j spans => later j (spans_add.mpr (.inl spans))
    have second := Alts.finds enough (a := others) greedy.2 inside fun j spans => later j (spans_add.mpr (.inr spans))
    rw [Alts.exec, if_pos (Piece.closed_of_greedy greedy.1)]
    exact (first.orElse second).congr fun e => exists_spans_add.symm

end

end Expressions

/-! ### Offsets -/

def Program.Within (least most : Int) (p : Program) : Prop := ∀ n ∈ p, least ≤ n.next ∧ n.next ≤ most

namespace Program.Within

variable {least most least' most' : Int} {p p' : Program}

theorem nil : Program.Within least most [] := fun _ mem => by cases mem

theorem cons {op : Op} {k : Int} (low : least ≤ k) (high : k ≤ most) (within : p.Within least most) :
    Program.Within least most (⟨op, k⟩ :: p) := by
  intro n mem
  rcases List.mem_cons.mp mem with rfl | mem
  · exact ⟨low, high⟩
  · exact within n mem

theorem append (within : p.Within least most) (within' : p'.Within least most) : Program.Within least most (p ++ p') := fun n mem =>
  (List.mem_append.mp mem).elim (within n) (within' n)

theorem weaken (within : p.Within least most) (low : least' ≤ least) (high : most ≤ most') : p.Within least' most' := fun n mem =>
  ⟨Int.le_trans low (within n mem).1, Int.le_trans (within n mem).2 high⟩

end Program.Within

/-- From the place `start` on, the offsets lead to targets up to `most`. -/
def Program.Lands (p : Program) (start : Nat) (most : Int) : Prop :=
  ∀ (i : Nat) (n : Node), p[i]? = some n → 0 ≤ (start + i : Nat) + n.next ∧ (start + i : Nat) + n.next ≤ most

namespace Program.Lands

variable {start : Nat} {most : Int} {p p' : Program}

theorem nil : Program.Lands [] start most := fun i n at_i => by cases at_i

theorem cons {op : Op} {k : Int} (low : 0 ≤ start + k) (high : start + k ≤ most) (lands : p.Lands (start + 1) most) :
    Program.Lands (⟨op, k⟩ :: p) start most := by
  intro i n at_i
  cases i with
  | zero =>
    obtain rfl := Option.some.inj at_i
    exact ⟨low, high⟩
  | succ i =>
    have bounds := lands i n at_i
    rwa [show start + 1 + i = start + (i + 1) by omega] at bounds

theorem append (lands : p.Lands start most) (lands' : p'.Lands (start + p.length) most) : Program.Lands (p ++ p') start most := by
  intro i n at_i
  by_cases inside : i < p.length
  · rw [List.getElem?_append_left inside] at at_i
    exact lands i n at_i
  · rw [List.getElem?_append_right (Nat.le_of_not_lt inside)] at at_i
    have bounds := lands' (i - p.length) n at_i
    rwa [show start + p.length + (i - p.length) = start + i by omega] at bounds

theorem shift {most' : Int} (lands : p.Lands 0 most) (room : start + most ≤ most') : p.Lands start most' := by
  intro i n at_i
  have bounds := lands i n at_i
  omega

end Program.Lands

theorem reluctantCode_lands {operand : Program} {op : Op} {size : Nat} {q : Int} (length : operand.length = size)
    (inner : operand.Lands 0 size) (behind : (size + 2 : Nat) ≤ q) : (reluctantCode op size operand).Lands 0 q := by
  refine .cons (by omega) (by omega) (.append (inner.shift (by omega)) ?_)
  rw [length]
  exact .cons (by omega) (by omega) .nil

mutual

theorem Piece.code_lands (p : Piece) {q : Int} (behind : p.size ≤ q) : (p.code q).Lands 0 q := by
  match p with
  | .nothing | .simple _ =>
    rw [Piece.size] at behind
    exact .cons (by omega) (by omega) .nil
  | .group k a =>
    have inner := a.code_lands (Int.le_refl (a.size : Int))
    rw [Piece.size] at behind
    refine .cons (by omega) (by omega) (.append (inner.shift (by omega)) ?_)
    rw [a.length_code]
    exact .cons (by omega) (by omega) .nil
  | .question x =>
    have inner := x.code_lands (by omega : (x.size : Int) ≤ x.size + 1)
    rw [Piece.size] at behind
    refine .cons (by omega) (by omega) (.append (inner.shift (by omega)) ?_)
    rw [x.length_code]
    exact .cons (by omega) (by omega) (.cons (by omega) (by omega) .nil)
  | .star x =>
    have inner := x.code_lands (Int.le_refl (x.size : Int))
    rw [Piece.size] at behind
    refine .cons (by omega) (by omega) (.append (inner.shift (by omega)) ?_)
    rw [x.length_code]
    exact .cons (by omega) (by omega) (.cons (by omega) (by omega) (.cons (by omega) (by omega) (.cons (by omega) (by omega) .nil)))
  | .plus x =>
    have inner := x.code_lands (Int.le_refl (x.size : Int))
    rw [Piece.size] at behind
    refine .append (inner.shift (by omega)) ?_
    rw [x.length_code]
    exact .cons (by omega) (by omega) (.cons (by omega) (by omega) (.cons (by omega) (by omega) (.cons (by omega) (by omega) .nil)))
  | .reluctantMaybe x | .reluctantStar x | .reluctantPlus x =>
    rw [Piece.size] at behind
    exact reluctantCode_lands (x.length_code x.size) (x.code_lands (Int.le_refl (x.size : Int))) behind
  | .chain x y =>
    have first := x.code_lands (Int.le_refl (x.size : Int))
    rw [Piece.size] at behind
    have second := y.code_lands (by omega : (y.size : Int) ≤ q - x.size)
    refine .append (first.shift (by omega)) (second.shift ?_)
    rw [x.length_code]
    omega

theorem Alts.code_lands (a : Alts) {q : Int} (behind : a.size ≤ q) : (a.code q).Lands 0 q := by
  match a with
  | .last b =>
    rw [Alts.size] at behind
    have inner := b.code_lands (by omega : (b.size : Int) ≤ q - 1)
    exact .cons (by omega) (by omega) (inner.shift (by omega))
  | .alt b rest =>
    rw [Alts.size] at behind
    have first := b.code_lands (by omega : (b.size : Int) ≤ q - 1)
    have others := rest.code_lands (by omega : (rest.size : Int) ≤ q - (b.size + 1))
    refine .cons (by omega) (by omega) (.append (first.shift (by omega)) (others.shift ?_))
    rw [b.length_code]
    omega

end

theorem Program.Lands.within {p : Program} {most : Int} (lands : p.Lands 0 most) : p.Within (-p.length) most := by
  intro n mem
  obtain ⟨i, inside, has⟩ := List.mem_iff_getElem.mp mem
  have bounds := lands i n (List.getElem?_eq_some_iff.mpr ⟨inside, has⟩)
  omega

theorem Piece.code_within (p : Piece) {q : Int} (behind : p.size ≤ q) : (p.code q).Within (-p.size) q := by
  have within := (p.code_lands behind).within
  rwa [p.length_code] at within

theorem Alts.code_within (a : Alts) {q : Int} (behind : a.size ≤ q) : (a.code q).Within (-a.size) q := by
  have within := (a.code_lands behind).within
  rwa [a.length_code] at within

theorem Alts.length_program (a : Alts) : a.program.length = a.size + 1 := by
  rw [Alts.program, List.length_append, a.length_code, List.length_singleton]

theorem short_of_small {k : Int} (low : -32768 ≤ k) (high : k < 32768) : short k = k := by
  rw [short, Int.emod_eq_of_lt (by omega) (by omega)]
  omega

theorem Alts.offsetsFit {m : Matcher} {a : Alts} (whole : m.program = a.program) (small : m.program.length < 32768) : m.OffsetsFit := by
  intro n mem
  have last : Program.Within (-a.size) a.size [⟨.opEnd, 0⟩] := .cons (by omega) (by omega) .nil
  have within := (a.code_within (Int.le_refl (a.size : Int))).append last
  rw [whole] at mem small
  rw [a.length_program] at small
  have := within n mem
  exact short_of_small (by omega) (by omega)

/-! ### Searching -/

namespace Matcher

variable {m : Matcher}

theorem searchFrom_negative (test : Int → Bool) (f count : Nat) {i : Int} (low : i ≤ 0) :
    m.searchFrom test f count i = m.searchFrom test f (count + i).toNat 0 := by
  induction count generalizing i with
  | zero =>
    rw [show (((0 : Nat) : Int) + i).toNat = 0 by omega]
    rfl
  | succ count ih =>
    by_cases zero : i = 0
    · subst zero
      rw [Int.add_zero, Int.toNat_natCast]
    · have here : m.matchAt f i = some none := by rw [matchAt, if_pos (by omega)]
      have next := ih (i := i + 1) (by omega)
      rw [show ((count : Nat) : Int) + (i + 1) = ((count + 1 : Nat) : Int) + i by omega] at next
      rw [searchFrom, here, ← next]
      exact ite_self _

theorem containedIn_negative (fPrefix : Bytes) (f : Nat) {i : Int} (low : i ≤ 0) :
    m.containedIn fPrefix f i = m.containedIn fPrefix f 0 := by
  have counted : ∀ n : Int, ((n - i).toNat + i).toNat = (n - 0).toNat := fun n => by omega
  unfold containedIn
  simp only [m.searchFrom_negative _ f _ low, counted]

theorem containedIn_max (fPrefix : Bytes) (f : Nat) (i : Int) : m.containedIn fPrefix f i = m.containedIn fPrefix f (max i 0) := by
  rcases Int.le_total i 0 with low | high
  · rw [containedIn_negative fPrefix f low, max_eq_right low]
  · rw [max_eq_left high]

theorem searchFrom_first {good : Int → Option Captures → Prop} {count : Nat} {i : Int}
    (each : ∀ j, i ≤ j → j < i + count → ∃ f r, m.matchAt f j = some r ∧ good j r) :
    ∃ f r, m.searchFrom (fun _ => true) f count i = some r ∧
      (∀ c ∈ r, ∃ j, i ≤ j ∧ j < i + count ∧ good j (some c) ∧ ∀ j', i ≤ j' → j' < j → good j' none) ∧
      (r = none → ∀ j, i ≤ j → j < i + count → good j none) := by
  induction count generalizing i with
  | zero => exact ⟨0, none, rfl, nofun, fun _ j low high => by omega⟩
  | succ count ih =>
    obtain ⟨f, r, here, is⟩ := each i (Int.le_refl i) (by omega)
    cases r with
    | some c =>
      refine ⟨f, some c, by rw [searchFrom, if_pos rfl, here], fun c' has => ?_, nofun⟩
      cases has
      exact ⟨i, Int.le_refl i, by omega, is, fun j' low high => by omega⟩
    | none =>
      obtain ⟨f', r', later, found, failed⟩ := ih (i := i + 1) fun j low high => each j (by omega) (by omega)
      have from_here : ∀ j', i ≤ j' → (i + 1 ≤ j' → good j' none) → good j' none := by
        intro j' low after
        rcases eq_or_lt_of_le low with rfl | less
        · exact is
        · exact after less
      refine ⟨max f f', r', ?_, fun c has => ?_, fun none j low high => from_here j low fun after => ?_⟩
      · rw [searchFrom, if_pos rfl, m.matchAt_mono (Nat.le_max_left f f') i _ here]
        exact m.searchFrom_mono _ (Nat.le_max_right f f') count (i + 1) r' later
      · obtain ⟨j, low, high, holds, before⟩ := found c has
        exact ⟨j, by omega, by omega, holds, fun j' low' high' => from_here j' low' fun after => before j' after high'⟩
      · exact failed none j after (by omega)

/-- The registers delimit a word of the language that begins at `j`, or there is none. -/
def MatchesAt (m : Matcher) (L : Language UInt8) (j : Nat) : Option Captures → Prop
  | some c => c.startRegister 0 = some j ∧ ∃ k, c.endRegister 0 = some k ∧ Spans m.search L j k
  | none => ∀ k, ¬Spans m.search L j k

/-- The registers delimit a word of the language that begins at `i` or behind it and before the others that do. -/
def Leftmost (m : Matcher) (L : Language UInt8) (i : Int) : Option Captures → Prop
  | some c => ∃ j k : Nat, i ≤ j ∧ c.startRegister 0 = some j ∧ c.endRegister 0 = some k ∧ Spans m.search L j k ∧
    ∀ j' k' : Nat, i ≤ j' → Spans m.search L j' k' → j ≤ j'
  | none => ∀ j k : Nat, i ≤ j → ¬Spans m.search L j k

section Program

variable {a : Alts} (whole : m.program = a.program) (greedy : a.Greedy m.flags)
  (follows : ∀ {idx : Nat} {c : Captures} {r : Option Nat × Captures}, a.exec m (m.search.length + 1) .stop idx c = some r →
    ∃ f, m.matchNodes f 0 m.program.length idx c = some r)

include greedy follows

theorem matchAt_language {j : Nat} (inside : j ≤ m.search.length) : ∃ f r, m.matchAt f j = some r ∧
    m.MatchesAt (a.language m.flags) j r := by
  obtain ⟨r, c, run, found, failed⟩ := Alts.finds (Nat.lt_succ_self m.search.length) greedy inside
    (fun k _ => Cont.Finds.stop k) (.start j)
  obtain ⟨f, returns⟩ := follows run
  have here : m.matchAt f j = some (r.map fun e => { c with endRegister := update c.endRegister 0 (some e) }) := by
    rw [matchAt, if_neg (by omega), Int.toNat_natCast, returns]
    cases r <;> rfl
  refine ⟨f, _, here, ?_⟩
  cases r with
  | none => exact fun k spans => failed rfl k ⟨k, spans, rfl⟩
  | some e =>
    obtain ⟨k, spans, rfl⟩ := found e rfl
    obtain ⟨-, start, -⟩ := matchAt_place (by omega) here
    exact ⟨start, e, rfl, spans⟩

include whole

theorem containedIn_language_of {i : Int} (low : 0 ≤ i) : ∃ f r, m.containedIn [] f i = some r ∧ m.Leftmost (a.language m.flags) i r := by
  have program : m.program.isEmpty = false := by rw [whole]; cases a <;> rfl
  have each : ∀ j : Int, i ≤ j → j < i + (m.search.length + 1 - i).toNat →
      ∃ f r, m.matchAt f j = some r ∧ m.MatchesAt (a.language m.flags) j.toNat r := by
    intro j from_i below
    have := matchAt_language greedy follows (by omega : j.toNat ≤ m.search.length)
    rwa [Int.toNat_of_nonneg (by omega)] at this
  obtain ⟨f, r, run, found, failed⟩ := searchFrom_first each
  refine ⟨f, r, ?_, ?_⟩
  · rw [containedIn, program, if_neg (by decide), List.isEmpty_nil, if_pos rfl]
    exact run
  · cases r with
    | some c =>
      obtain ⟨j, from_i, below, ⟨start, k, finish, spans⟩, before⟩ := found c rfl
      refine ⟨j.toNat, k, by omega, start, finish, spans, fun j' k' from_i' spans' => ?_⟩
      by_contra earlier
      exact before j' from_i' (by omega) k' spans'
    | none =>
      intro j k from_i spans
      have := spans.le
      have := spans.inside
      exact failed rfl j from_i (by omega) k spans

omit follows in
theorem containedIn_language (small : m.program.length < 32768) {i : Int} (low : 0 ≤ i) :
    ∃ f r, m.containedIn [] f i = some r ∧ m.Leftmost (a.language m.flags) i r :=
  containedIn_language_of whole greedy (a.matchNodes_program _ (a.offsetsFit whole small) (Alts.simple_of_greedy greedy) whole) low

end Program

end Matcher

end Coast.Regex
