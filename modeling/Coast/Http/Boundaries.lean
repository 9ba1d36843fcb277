import Coast.Http.PostRequestBody

/-!
# Text between boundaries

However a text is cut into lines and pieces, `DoReadToBoundary` puts it together again, as long as no
piece of it looks like a boundary.
-/

namespace Coast.Http

open Regex (cstr cstr_of_plain)
open IStream (Round piece on)

/-! ### Searching -/

theorem firstIndex_within {pattern text : Bytes} {i : Nat} (found : firstIndex pattern text = some i) : pattern <:+: text := by
  induction text generalizing i with
  | nil =>
    rw [firstIndex] at found
    split at found
    · rename_i empty
      exact List.isEmpty_iff.mp empty ▸ List.nil_infix
    · cases found
  | cons c text ih =>
    rw [firstIndex] at found
    split at found
    · rename_i here
      exact (List.isPrefixOf_iff_prefix.mp here).isInfix
    · obtain ⟨j, later, -⟩ := Option.map_eq_some_iff.mp found
      exact (ih later).trans (List.suffix_cons c text).isInfix

theorem indexOf_within {pattern text : Bytes} {i : Nat} (plain : 0 ∉ pattern) (found : indexOf text pattern = some i) :
    pattern <:+: text := by
  rw [indexOf, cstr_of_plain plain] at found
  exact (firstIndex_within found).trans (List.takeWhile_prefix _).isInfix

theorem firstIndex_of_prefix {pattern text : Bytes} (here : pattern <+: text) : firstIndex pattern text = some 0 := by
  cases text with
  | nil => rw [List.prefix_nil.mp here]; rfl
  | cons c text => rw [firstIndex, if_pos (List.isPrefixOf_iff_prefix.mpr here)]

theorem firstIndex_cons {pattern text : Bytes} {c : UInt8} (later : ¬ pattern <+: c :: text) :
    firstIndex pattern (c :: text) = (firstIndex pattern text).map (· + 1) := by
  rw [firstIndex, if_neg fun here => later (List.isPrefixOf_iff_prefix.mp here)]

theorem cstr_append {text : Bytes} (plain : 0 ∉ text) (rest : Bytes) : cstr (text ++ rest) = text ++ cstr rest := by
  refine List.takeWhile_append_of_pos fun c mem => bne_iff_ne.mpr ?_
  rintro rfl
  exact plain mem

/-! ### Lines and pieces -/

theorem appendUntil_on (length : Nat) (pos : 0 < length) (delim : UInt8) (text : Bytes) :
    (text = piece length delim text ∧ ∃ is is', appendUntil (on text) length delim = (piece length delim text, is) ∧
      is.peek = (none, is') ∧ is'.good = false ∧ is'.rest = []) ∨
    (∃ rest, text = piece length delim text ++ delim :: rest ∧
      appendUntil (on text) length delim = (piece length delim text, on (delim :: rest))) ∨
    ((piece length delim text).length = length ∧ ∃ c rest, c ≠ delim ∧ text = piece length delim text ++ c :: rest ∧
      appendUntil (on text) length delim = (piece length delim text, on (c :: rest))) := by
  unfold appendUntil
  rw [if_neg (Nat.ne_of_gt pos)]
  cases text with
  | nil => exact .inl ⟨by simp [piece], ⟨[], true, true⟩, ⟨[], true, true⟩, by simp [piece, IStream.getUntil, IStream.ended, IStream.good], rfl, rfl, rfl⟩
  | cons c text =>
    rw [IStream.peek_on_cons]
    dsimp only
    by_cases first : c = delim
    · subst first
      have none : piece length c (c :: text) = [] :=
        @IStream.piece_eq _ _ length c [] (c :: text) (by simp) (by simp) (.inr (.inl rfl))
      rw [if_pos rfl, none]
      exact .inr (.inl ⟨text, rfl, rfl⟩)
    · rw [if_neg fun same => first (Option.some.inj same)]
      have some : piece length delim (c :: text) ≠ [] := IStream.piece_ne_nil pos first
      have stops := IStream.piece_stops length delim (c :: text)
      obtain ⟨line, isLine⟩ : ∃ line, piece length delim (c :: text) = line := ⟨_, rfl⟩
      rw [isLine] at some stops ⊢
      have ended : ∀ {rest : Bytes}, c :: text = line ++ rest → (on (c :: text)).getUntil length delim =
          (line, ⟨rest, rest.isEmpty && decide (line.length < length), false⟩) := by
        intro rest whole
        rw [whole]
        exact IStream.getUntil_on (whole ▸ isLine) some
      obtain whole | ⟨rest, stop⟩ | ⟨full, d, rest, other, stop⟩ := stops
      · have read := ended (whole.trans (List.append_nil line).symm)
        cases short : decide (line.length < length) with
        | false => exact .inl ⟨whole, _, ⟨[], true, false⟩, read, by rw [short]; rfl, rfl, rfl⟩
        | true => exact .inl ⟨whole, _, ⟨[], true, true⟩, read, by rw [short]; rfl, rfl, rfl⟩
      · exact .inr (.inl ⟨rest, stop, ended stop⟩)
      · exact .inr (.inr ⟨full, d, rest, other, stop, ended stop⟩)

theorem readPiece_on (text : Bytes) :
    (text = piece 4096 lf text ∧ ∃ is, readPiece (on text) = (piece 4096 lf text, false, is) ∧ is.good = false ∧ is.rest = []) ∨
    (∃ rest, text = piece 4096 lf text ++ lf :: rest ∧ readPiece (on text) = (piece 4096 lf text, true, on rest)) ∨
    ((piece 4096 lf text).length = 4096 ∧ ∃ c rest, c ≠ lf ∧ text = piece 4096 lf text ++ c :: rest ∧
      readPiece (on text) = (piece 4096 lf text, false, on (c :: rest))) := by
  unfold readPiece
  obtain ⟨whole, is, is', read, peek, bad, empty⟩ | ⟨rest, stop, read⟩ | ⟨full, c, rest, other, stop, read⟩ :=
    appendUntil_on 4096 (by decide) lf text
  · exact .inl ⟨whole, is', by rw [read]; simp only [peek, reduceCtorEq, if_false], bad, empty⟩
  · exact .inr (.inl ⟨rest, stop, by rw [read]; rfl⟩)
  · refine .inr (.inr ⟨full, c, rest, other, stop, ?_⟩)
    rw [read]
    simp only [IStream.peek_on_cons, Option.some.injEq, other, if_false]

theorem appendUntil_line {line : Bytes} (free : lf ∉ line) {length : Nat} (room : 0 < length) (fits : line.length ≤ length)
    (rest : Bytes) : appendUntil (on (line ++ lf :: rest)) length lf = (line, on (lf :: rest)) := by
  have isPiece : piece length lf (line ++ lf :: rest) = line := IStream.piece_eq free fits (.inr (.inl rfl))
  have reads := appendUntil_on length room lf (line ++ lf :: rest)
  rw [isPiece] at reads
  obtain ⟨whole, -⟩ | ⟨rest', stop, read⟩ | ⟨-, c, rest', other, stop, -⟩ := reads
  · exact absurd (List.self_eq_append_right.mp whole.symm) (List.cons_ne_nil _ _)
  · rw [read, (List.cons.inj (List.append_cancel_left stop)).2]
  · exact absurd (List.cons.inj (List.append_cancel_left stop)).1.symm other

theorem readPiece_line {line rest : Bytes} (free : lf ∉ line) (fits : line.length ≤ 4096) :
    readPiece (on (line ++ lf :: rest)) = (line, true, on rest) := by
  rw [readPiece, appendUntil_line free (by decide) fits]
  rfl

theorem readPiece_shorter {input is : IStream UInt8} {line : Bytes} {newLine : Bool} (good : input.good = true)
    (read : readPiece input = (line, newLine, is)) (still : is.good = true) : is.rest.length < input.rest.length := by
  rw [IStream.eq_on good] at read ⊢
  rw [IStream.rest_on]
  obtain ⟨-, is', read', bad, -⟩ | ⟨rest, stop, read'⟩ | ⟨full, c, rest, -, stop, read'⟩ := readPiece_on input.rest
  · cases read.symm.trans read'
    rw [bad] at still
    cases still
  · have parts := congrArg List.length stop
    rw [List.length_append, List.length_cons] at parts
    cases read.symm.trans read'
    rw [IStream.rest_on]
    omega
  · have parts := congrArg List.length stop
    rw [List.length_append, full] at parts
    cases read.symm.trans read'
    rw [IStream.rest_on]
    omega

theorem readLine_cases (bound : Bytes) (s : Reading) (input : IStream UInt8) :
    (∃ r, readLine bound s input = .done r (readPiece input).2.2) ∨
      ∃ s', readLine bound s input = .again s' (readPiece input).2.2 := by
  unfold readLine
  dsimp only
  split
  · split
    · exact .inl ⟨_, rfl⟩
    · exact .inr ⟨_, rfl⟩
  · exact .inr ⟨_, rfl⟩

theorem readLine_advances (bound : Bytes) : IStream.Advances (readLine bound) := by
  intro s s' is is' good next still
  obtain ⟨r, stops⟩ | ⟨s'', goes⟩ := readLine_cases bound s is
  · cases stops.symm.trans next
  · cases goes.symm.trans next
    exact readPiece_shorter good rfl still

theorem doReadToBoundary_shorter {input is : IStream UInt8} {bound body unparsed : Bytes} {r : Bool} {s : Reading}
    (read : doReadToBoundary input bound body unparsed = (r, s, is)) (still : is.good = true) :
    is.rest.length < input.rest.length := by
  have left := @IStream.loop_induct _ _ _ _ (readLine_advances bound)
    (fun _ is => is.good = true → is.rest.length ≤ input.rest.length)
    (fun left => match left with
      | .done _ is => is.good = true → is.rest.length < input.rest.length
      | .again _ is => is.good = false)
    (fun s is _ bad => bad) (fun s is r is' inv good next => ?_) (fun s s' is is' inv good next still => ?_)
    ⟨body, false, unparsed⟩ input fun _ => Nat.le_refl _
  · unfold doReadToBoundary at read
    split at read
    · rename_i shape
      cases read
      rw [shape] at left
      exact left still
    · rename_i shape
      cases read
      rw [shape] at left
      exact absurd (still.symm.trans left) (by decide)
  · intro still
    obtain ⟨r', stops⟩ | ⟨s', goes⟩ := readLine_cases bound s is
    · cases stops.symm.trans next
      exact Nat.lt_of_lt_of_le (readPiece_shorter good rfl still) (inv good)
    · cases goes.symm.trans next
  · exact Nat.le_trans (Nat.le_of_lt (readLine_advances bound s s' is is' good next still)) (inv good)

/-! ### Text -/

def Quiet (bound text : Bytes) : Prop := ∀ part, part <:+: text → lf ∉ part → ¬ (ascii "--" <:+: part ∧ bound <:+: part)

theorem Quiet.within {bound text part : Bytes} (quiet : Quiet bound text) (inside : part <:+: text) : Quiet bound part :=
  fun piece within => quiet piece (within.trans inside)

theorem infix_split {part before after : Bytes} {c : UInt8} (inside : part <:+: before ++ c :: after) (free : c ∉ part) :
    part <:+: before ∨ part <:+: after := by
  obtain first | second | ⟨front, back, rfl, ends, starts⟩ := List.infix_append_iff.mp inside
  · exact .inl first
  · obtain here | later := List.infix_cons_iff.mp second
    · cases part with
      | nil => exact .inr List.nil_infix
      | cons d part => exact absurd ((List.cons_prefix_cons.mp here).1 ▸ List.mem_cons_self) free
    · exact .inr later
  · cases back with
    | nil => exact .inl (by rw [List.append_nil]; exact ends.isInfix)
    | cons d back =>
      have same := (List.cons_prefix_cons.mp starts).1
      exact absurd (List.mem_append_right front (same ▸ List.mem_cons_self)) free

theorem cut_cases {text rest line rest' : Bytes} {c d : UInt8} (same : text ++ c :: rest = line ++ d :: rest') (free : c ∉ line) :
    (text = line ∧ rest = rest' ∧ d = c) ∨ ∃ later, text = line ++ d :: later ∧ rest' = later ++ c :: rest := by
  obtain ⟨more, longer, rest⟩ | ⟨more, shorter, rest⟩ := List.append_eq_append_iff.mp same
  · cases more with
    | nil =>
      obtain ⟨rfl, rfl⟩ := List.cons.inj rest
      exact .inl ⟨(longer.trans (List.append_nil text)).symm, rfl, rfl⟩
    | cons e more =>
      obtain ⟨rfl, -⟩ := List.cons.inj rest
      exact absurd (longer ▸ List.mem_append_right text List.mem_cons_self) free
  · cases more with
    | nil =>
      obtain ⟨rfl, rfl⟩ := List.cons.inj rest
      exact .inl ⟨shorter.trans (List.append_nil line), rfl, rfl⟩
    | cons e more =>
      obtain ⟨rfl, rfl⟩ := List.cons.inj rest
      exact .inr ⟨more, shorter, rfl⟩

theorem quiet_lines {bound before after : Bytes} (first : Quiet bound before) (rest : Quiet bound after) :
    Quiet bound (before ++ lf :: after) := by
  intro part inside free
  obtain within | within := infix_split inside free
  · exact first part within free
  · exact rest part within free

variable {bound : Bytes}

def lineEnd (s : Reading) : Bytes := if s.newLineFoundLastLine ∧ s.body ≠ [] then [lf] else []

theorem lineEnd_new {body : Bytes} (some : body ≠ []) (unparsed : Bytes) : lineEnd ⟨body, true, unparsed⟩ = [lf] :=
  if_pos ⟨rfl, some⟩

theorem lineEnd_old (body unparsed : Bytes) : lineEnd ⟨body, false, unparsed⟩ = [] := if_neg fun new => nomatch new.1

theorem readLine_quiet (plain : 0 ∉ bound) (s : Reading) {input is : IStream UInt8} {line : Bytes} {newLine : Bool}
    (read : readPiece input = (line, newLine, is)) (quiet : ¬ (ascii "--" <:+: line ∧ bound <:+: line)) :
    readLine bound s input =
      .again ⟨s.body ++ lineEnd s ++ line, newLine, s.fUnparsedContent ++ line ++ if newLine then [lf] else []⟩ is := by
  have added : (if s.newLineFoundLastLine ∧ s.body ≠ [] then s.body ++ [lf] ++ line else s.body ++ line) =
      s.body ++ lineEnd s ++ line := by
    unfold lineEnd
    split <;> simp
  unfold readLine
  rw [read]
  dsimp only
  rw [added]
  split
  · rename_i nextDoubleDash boundPos dash here
    exact absurd ⟨indexOf_within (by decide) dash, indexOf_within plain here⟩ quiet
  · rfl

theorem loop_text (plain : 0 ∉ bound) {text : Bytes} (rest : Bytes) (s : Reading) (quiet : Quiet bound text)
    (starts : s.body = [] → text.head? ≠ some lf) :
    IStream.loop (readLine bound) s (on (text ++ lf :: rest)) =
      IStream.loop (readLine bound) ⟨s.body ++ lineEnd s ++ text, true, s.fUnparsedContent ++ text ++ [lf]⟩ (on rest) := by
  induction size : text.length using Nat.strongRecOn generalizing text s with
  | ind n ih =>
    have next := fun {line is newLine} read noBoundary => IStream.loop_again (readLine_advances bound) (s := s)
      (IStream.good_on (text ++ lf :: rest)) (@readLine_quiet bound plain s (on (text ++ lf :: rest)) is line newLine read noBoundary)
    have free : lf ∉ piece 4096 lf (text ++ lf :: rest) := IStream.delim_notMem_piece
    have reads := readPiece_on (text ++ lf :: rest)
    obtain ⟨line, isLine⟩ : ∃ line, piece 4096 lf (text ++ lf :: rest) = line := ⟨_, rfl⟩
    rw [isLine] at reads free
    obtain ⟨whole, -⟩ | ⟨rest', stop, read⟩ | ⟨full, c, rest', other, stop, read⟩ := reads
    · exact absurd (whole ▸ List.mem_append_right text List.mem_cons_self) free
    · obtain ⟨rfl, rfl, -⟩ | ⟨later, rfl, rfl⟩ := cut_cases stop free
      · rw [next read (quiet text (List.infix_refl text) free), if_pos rfl]
      · have inside : line <:+: line ++ lf :: later := (List.prefix_append _ _).isInfix
        have some : s.body ++ lineEnd s ++ line ≠ [] := by
          intro empty
          obtain ⟨front, rfl⟩ := List.append_eq_nil_iff.mp empty
          exact starts (List.append_eq_nil_iff.mp front).1 rfl
        rw [next read (quiet line inside free), if_pos rfl,
          ih later.length (by rw [← size, List.length_append, List.length_cons]; omega) _
            (quiet.within ⟨line ++ [lf], [], by simp⟩) (fun empty => absurd empty some) rfl, lineEnd_new some]
        simp only [List.append_assoc, List.cons_append, List.nil_append]
    · obtain ⟨-, -, same⟩ | ⟨later, rfl, rfl⟩ := cut_cases stop free
      · exact absurd same other
      · have inside : line <:+: line ++ c :: later := (List.prefix_append _ _).isInfix
        rw [next read (quiet line inside free), if_neg Bool.false_ne_true, ← List.cons_append,
          ih (c :: later).length (by rw [← size, List.length_append]; omega) _
            (quiet.within (List.suffix_append line (c :: later)).isInfix) (fun _ first => other (Option.some.inj first)) rfl,
          lineEnd_old]
        simp only [List.append_assoc, List.cons_append, List.append_nil]

/-! ### Boundaries -/

structure Boundary where
  dashes : Nat
  tail : Bytes
  some : tail ≠ []
  alnum : ∀ c ∈ tail, isalnum c = true

namespace Boundary

variable (b : Boundary)

def bytes : Bytes := List.replicate b.dashes '-'.toUInt8 ++ b.tail

theorem mem_bytes {c : UInt8} (mem : c ∈ b.bytes) : c = '-'.toUInt8 ∨ isalnum c = true := by
  obtain dash | alnum := List.mem_append.mp mem
  · exact .inl (List.eq_of_mem_replicate dash)
  · exact .inr (b.alnum c alnum)

theorem notMem_bytes {c : UInt8} (dash : c ≠ '-'.toUInt8) (alnum : isalnum c = false) : c ∉ b.bytes := fun mem => by
  obtain same | other := b.mem_bytes mem
  · exact dash same
  · rw [alnum] at other
    cases other

theorem plain : 0 ∉ b.bytes := b.notMem_bytes (by decide) (by decide)

theorem not_prefix {n : Nat} (more : b.dashes < n) (rest : Bytes) : ¬ b.bytes <+: List.replicate n '-'.toUInt8 ++ rest := by
  intro here
  obtain ⟨c, tail, shape⟩ := List.exists_cons_of_ne_nil b.some
  obtain ⟨n, rfl⟩ := Nat.exists_eq_add_of_lt more
  have cut : List.replicate (b.dashes + n + 1) '-'.toUInt8 =
      List.replicate b.dashes '-'.toUInt8 ++ '-'.toUInt8 :: List.replicate n '-'.toUInt8 := by
    rw [Nat.add_assoc, ← List.replicate_append_replicate, List.replicate_succ]
  rw [bytes, shape, cut, List.append_assoc, List.prefix_append_right_inj, List.cons_append, List.cons_prefix_cons] at here
  have alnum := b.alnum c (shape ▸ List.mem_cons_self)
  rw [here.1] at alnum
  exact absurd alnum (by decide)

theorem indexOf_bytes (rest : Bytes) : indexOf (ascii "--" ++ b.bytes ++ rest) b.bytes = Option.some 2 := by
  have dash : ∀ n text, List.replicate (n + 1) '-'.toUInt8 ++ text = '-'.toUInt8 :: (List.replicate n '-'.toUInt8 ++ text) :=
    fun n text => rfl
  have shape : cstr (ascii "--" ++ b.bytes ++ rest) =
      List.replicate (b.dashes + 1 + 1) '-'.toUInt8 ++ (b.tail ++ cstr rest) := by
    rw [List.append_assoc, cstr_append (by decide), cstr_append b.plain, bytes, List.append_assoc]
    rfl
  have here : b.bytes <+: List.replicate b.dashes '-'.toUInt8 ++ (b.tail ++ cstr rest) := by
    rw [bytes, ← List.append_assoc]
    exact List.prefix_append _ _
  have second := b.not_prefix (Nat.lt_succ_self b.dashes) (b.tail ++ cstr rest)
  have first := b.not_prefix (Nat.lt_succ_of_lt (Nat.lt_succ_self b.dashes)) (b.tail ++ cstr rest)
  rw [Nat.succ_eq_add_one, dash] at first second
  rw [indexOf, cstr_of_plain b.plain, shape, dash, firstIndex_cons first, dash, firstIndex_cons second,
    firstIndex_of_prefix here]
  rfl

theorem indexOf_dashes (rest : Bytes) : indexOf (ascii "--" ++ b.bytes ++ rest) (ascii "--") = Option.some 0 := by
  rw [indexOf, cstr_of_plain (by decide), List.append_assoc, cstr_append (by decide)]
  exact firstIndex_of_prefix (List.prefix_append _ _)

theorem length_line : (ascii "--" ++ b.bytes).length = b.bytes.length + 2 := by
  rw [List.length_append, Nat.add_comm]
  rfl

theorem atBoundary_closes {rest body : Bytes} (some : body ≠ []) (closing : Bool)
    (ends : closing = true ∧ (ascii "--" <+: rest) ∨ closing = false ∧ '-'.toUInt8 ∉ rest) :
    atBoundary b.bytes (ascii "--" ++ b.bytes ++ rest) body 0 2 = Option.some closing := by
  have behind : (ascii "--" ++ b.bytes ++ rest).drop (0 + b.bytes.length + 2) = rest :=
    List.drop_left' (by rw [b.length_line, Nat.zero_add])
  rw [atBoundary, if_pos ⟨Nat.le_refl 2, some⟩, strChr, behind]
  obtain ⟨rfl, more, rfl⟩ | ⟨rfl, none⟩ := ends
  · have here : (ascii "--" ++ more).findIdx? (fun c => c == '-'.toUInt8) = Option.some 0 := rfl
    have next : (ascii "--" ++ b.bytes ++ (ascii "--" ++ more))[0 + (0 + b.bytes.length + 2) + 1]? = Option.some '-'.toUInt8 := by
      have index : 0 + (0 + b.bytes.length + 2) + 1 = (ascii "--" ++ b.bytes).length + 1 := by
        rw [b.length_line]
        omega
      rw [index, List.getElem?_append_right (Nat.le_add_right _ 1), Nat.add_sub_cancel_left]
      rfl
    rw [here, Option.map_some]
    dsimp only
    rw [next]
    rfl
  · have unfound : rest.findIdx? (fun c => c == '-'.toUInt8) = Option.none := by
      rw [List.findIdx?_eq_none_iff]
      intro c mem
      rw [beq_eq_false_iff_ne]
      rintro rfl
      exact none mem
    rw [unfound]
    rfl

variable {b} {s : Reading} {input is : IStream UInt8} {rest : Bytes} {newLine : Bool}

theorem readLine_opening (read : readPiece input = (ascii "--" ++ b.bytes ++ rest, newLine, is)) (none : s.body = []) :
    readLine b.bytes s input =
      .again ⟨[], newLine, s.fUnparsedContent ++ (ascii "--" ++ b.bytes ++ rest) ++ if newLine then [lf] else []⟩ is := by
  have opens : ∀ line, atBoundary b.bytes line [] 0 2 = Option.none := by
    intro line
    rw [atBoundary, if_neg fun both => both.2 rfl, if_neg (by omega)]
  unfold readLine
  rw [read]
  dsimp only
  rw [b.indexOf_dashes, b.indexOf_bytes, none]
  dsimp only
  rw [opens]
  rfl

theorem readLine_closing (read : readPiece input = (ascii "--" ++ b.bytes ++ rest, newLine, is)) (some : s.body ≠ [])
    {closing : Bool} (ends : closing = true ∧ (ascii "--" <+: rest) ∨ closing = false ∧ '-'.toUInt8 ∉ rest) :
    readLine b.bytes s input = .done (closing, ⟨trimENDL s.body, s.newLineFoundLastLine,
      s.fUnparsedContent ++ (ascii "--" ++ b.bytes ++ rest) ++ if newLine then [lf] else []⟩) is := by
  unfold readLine
  rw [read]
  dsimp only
  rw [b.indexOf_dashes, b.indexOf_bytes]
  dsimp only
  rw [b.atBoundary_closes some closing ends]

theorem loop_part {text : Bytes} (quiet : Quiet b.bytes text) (some : text ≠ []) (starts : text.head? ≠ Option.some lf)
    (none : s.body = []) {behind : Bytes} (read : readPiece (on behind) = (ascii "--" ++ b.bytes ++ rest, newLine, is))
    {closing : Bool}
    (ends : closing = true ∧ (ascii "--" <+: rest) ∨ closing = false ∧ '-'.toUInt8 ∉ rest) :
    IStream.loop (readLine b.bytes) s (on (text ++ lf :: behind)) = .done (closing, ⟨trimENDL text, true,
      s.fUnparsedContent ++ text ++ [lf] ++ (ascii "--" ++ b.bytes ++ rest) ++ if newLine then [lf] else []⟩) is := by
  have start : s.body ++ lineEnd s ++ text = text := by
    rw [lineEnd, if_neg fun both => both.2 none, none]
    rfl
  rw [loop_text b.plain behind s quiet fun _ => starts, start]
  exact IStream.loop_done (IStream.good_on behind) (readLine_closing read some ends)

end Boundary

end Coast.Http
