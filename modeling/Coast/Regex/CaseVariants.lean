import Coast.Regex.Branches
import Coast.Regex.CaseFolding
import Coast.Regex.Progress

/-!
# Patterns in another case

Two patterns that differ in the case of letters outside of their bracket expressions are parsed in step.
Their expressions differ only in the letters of the atoms, and so do the programs.
-/

namespace Coast.Regex

open Scan

/-! ### Expressions without the case of their atoms -/

def Op.fold : Op → Op
  | .opAtom text => .opAtom (text.map tolower)
  | op => op

mutual

def Piece.fold : Piece → Piece
  | .nothing => .nothing
  | .simple op => .simple op.fold
  | .group k a => .group k a.fold
  | .question x => .question x.fold
  | .star x => .star x.fold
  | .plus x => .plus x.fold
  | .reluctantMaybe x => .reluctantMaybe x.fold
  | .reluctantStar x => .reluctantStar x.fold
  | .reluctantPlus x => .reluctantPlus x.fold
  | .chain x y => .chain x.fold y.fold

def Alts.fold : Alts → Alts
  | .last b => .last b.fold
  | .alt b rest => .alt b.fold rest.fold

end

def Node.fold (n : Node) : Node := ⟨n.op.fold, n.next⟩

mutual

theorem Piece.size_fold (p : Piece) : p.fold.size = p.size := by
  match p with
  | .nothing | .simple _ => rfl
  | .group k a => rw [Piece.fold, Piece.size, Piece.size, a.size_fold]
  | .question x | .star x | .plus x | .reluctantMaybe x | .reluctantStar x | .reluctantPlus x =>
    rw [Piece.fold, Piece.size, Piece.size, x.size_fold]
  | .chain x y => rw [Piece.fold, Piece.size, Piece.size, x.size_fold, y.size_fold]

theorem Alts.size_fold (a : Alts) : a.fold.size = a.size := by
  match a with
  | .last b => rw [Alts.fold, Alts.size, Alts.size, b.size_fold]
  | .alt b rest => rw [Alts.fold, Alts.size, Alts.size, b.size_fold, rest.size_fold]

end

theorem Piece.exit_fold : ∀ p : Piece, p.fold.exit = p.exit
  | .nothing | .simple _ => rfl
  | .group k a => by rw [Piece.fold, Piece.exit, Piece.exit, a.size_fold]
  | .question x | .star x | .plus x | .reluctantMaybe x | .reluctantStar x | .reluctantPlus x => by
    rw [Piece.fold, Piece.exit, Piece.exit, x.size_fold]
  | .chain x y => by rw [Piece.fold, Piece.exit, Piece.exit, x.size_fold, y.exit_fold]

theorem Piece.closed_fold : ∀ p : Piece, p.fold.closed = p.closed
  | .nothing | .simple _ | .group _ _ | .question _ | .star _ | .plus _ | .reluctantMaybe _ | .reluctantStar _
  | .reluctantPlus _ => rfl
  | .chain x y => by rw [Piece.fold, Piece.closed, Piece.closed, y.closed_fold]

mutual

theorem Piece.code_fold (p : Piece) (q : Int) : p.fold.code q = (p.code q).map Node.fold := by
  match p with
  | .nothing | .simple _ => rfl
  | .group k a =>
    simp only [Piece.fold, Piece.code, a.code_fold, a.size_fold, List.map_cons, List.map_append, List.map_nil]
    rfl
  | .question x | .star x | .plus x =>
    simp only [Piece.fold, Piece.code, x.code_fold, x.size_fold, List.map_cons, List.map_append, List.map_nil]
    rfl
  | .reluctantMaybe x | .reluctantStar x | .reluctantPlus x =>
    simp only [Piece.fold, Piece.code, reluctantCode, x.code_fold, x.size_fold, List.map_cons, List.map_append, List.map_nil]
    rfl
  | .chain x y =>
    simp only [Piece.fold, Piece.code, x.code_fold, y.code_fold, x.size_fold, List.map_append]

theorem Alts.code_fold (a : Alts) (q : Int) : a.fold.code q = (a.code q).map Node.fold := by
  match a with
  | .last b =>
    simp only [Alts.fold, Alts.code, b.code_fold, b.size_fold, List.map_cons]
    rfl
  | .alt b rest =>
    simp only [Alts.fold, Alts.code, b.code_fold, rest.code_fold, b.size_fold, List.map_cons, List.map_append]
    rfl

end

theorem Alts.program_fold (a : Alts) : a.fold.program = a.program.map Node.fold := by
  rw [Alts.program, Alts.program, a.code_fold, a.size_fold, List.map_append]
  rfl

theorem Op.fold_cases (op : Op) : (∃ text, op = .opAtom text) ∨ op.fold = op := by
  cases op with
  | opAtom text => exact .inl ⟨text, rfl⟩
  | _ => exact .inr rfl

theorem Op.twin_of_fold {op op' : Op} (same : op.fold = op'.fold) : op.Twin op' := by
  rcases op.fold_cases with ⟨s, rfl⟩ | fixed
  · rcases op'.fold_cases with ⟨t, rfl⟩ | fixed'
    · exact .atom (Op.opAtom.inj same)
    · rw [fixed'] at same
      subst same
      exact .atom (Op.opAtom.inj fixed').symm
  · rcases op'.fold_cases with ⟨t, rfl⟩ | fixed'
    · rw [fixed] at same
      subst same
      exact .atom (Op.opAtom.inj fixed)
    · rw [fixed, fixed'] at same
      subst same
      exact .same _

theorem twin_of_fold {p p' : Program} (same : p.map Node.fold = p'.map Node.fold) : List.Forall₂ Node.Twin p p' := by
  induction p generalizing p' with
  | nil => rw [List.map_eq_nil_iff.mp same.symm]; exact .nil
  | cons n p ih =>
    cases p' with
    | nil => cases same
    | cons n' p' =>
      obtain ⟨first, rest⟩ := List.cons.inj same
      exact .cons ⟨Op.twin_of_fold (Node.mk.inj first).1, (Node.mk.inj first).2⟩ (ih rest)

theorem Piece.single_fold (p : Piece) : p.fold.single = p.single := by
  rw [Piece.single, Piece.single, p.closed_fold, p.exit_fold]

theorem Piece.copies_fold (x y : Piece) (n : Nat) : (x.copies n y).fold = x.fold.copies n y.fold := by
  induction n with
  | zero => rfl
  | succ n ih => rw [Piece.copies, Piece.copies, Piece.fold, ih]

theorem repeated_fold (x : Piece) (minimum : Nat) (optional : Option Nat) :
    (repeated x minimum optional).fold = repeated x.fold minimum optional := by
  match optional with
  | none => exact Piece.copies_fold _ _ _
  | some 0 => exact Piece.copies_fold _ _ _
  | some (n + 1) =>
    rw [repeated, repeated, Piece.copies_fold, Piece.copies_fold]
    rfl

theorem closureOf_fold (closureType : UInt8) (reluctant : Bool) (x : Piece) :
    (closureOf closureType reluctant x).fold = closureOf closureType reluctant x.fold := by
  unfold closureOf
  split
  · split
    · rfl
    · split
      · rfl
      · rfl
  · split
    · rfl
    · split
      · rfl
      · rfl

theorem Piece.ofList_fold (ps : List Piece) : (Piece.ofList ps).fold = Piece.ofList (ps.map Piece.fold) := by
  induction ps with
  | nil => rfl
  | cons p ps ih =>
    cases ps with
    | nil => rfl
    | cons q ps => rw [Piece.ofList, Piece.fold, ih]; rfl; exact fun is => by cases is

theorem Alts.ofList_fold (b : Piece) (rest : List Piece) : (Alts.ofList b rest).fold = Alts.ofList b.fold (rest.map Piece.fold) := by
  induction rest generalizing b with
  | nil => rfl
  | cons c rest ih => rw [Alts.ofList, Alts.fold, ih, List.map_cons, Alts.ofList]

/-! ### Patterns that differ in the case of letters -/

/-- Where a character of a pattern stands: outside of brackets, behind `[`, behind `[^`, or further inside. -/
inductive Place where
  | outside
  | opening
  | caret
  | inside
  deriving DecidableEq

namespace Place

def escaped : Place → Place
  | outside => outside
  | _ => inside

def next : Place → UInt8 → Place
  | outside, a => if a = '['.toUInt8 then opening else outside
  | opening, a => if a = '^'.toUInt8 then caret else inside
  | caret, _ => inside
  | inside, a => if a = ']'.toUInt8 then outside else inside

end Place

/-- The two texts are the same but for letters outside of brackets that are not escaped. -/
inductive CaseVariant : Place → Bytes → Bytes → Prop
  | nil {place : Place} : CaseVariant place [] []
  | lone {place : Place} : CaseVariant place ['\\'.toUInt8] ['\\'.toUInt8]
  | escape {place : Place} {a : UInt8} {s t : Bytes} : CaseVariant place.escaped s t →
      CaseVariant place ('\\'.toUInt8 :: a :: s) ('\\'.toUInt8 :: a :: t)
  | char {place : Place} {a b : UInt8} {s t : Bytes} : a ≠ '\\'.toUInt8 → a = b ∨ (place = .outside ∧ tolower a = tolower b) →
      CaseVariant (place.next a) s t → CaseVariant place (a :: s) (b :: t)

theorem CaseVariant.sameFold {place : Place} {s t : Bytes} (variant : CaseVariant place s t) : SameFold s t := by
  induction variant with
  | nil | lone => rfl
  | escape _ ih => exact sameFold_cons.mpr ⟨rfl, sameFold_cons.mpr ⟨rfl, ih⟩⟩
  | char _ letters _ ih =>
    refine sameFold_cons.mpr ⟨?_, ih⟩
    rcases letters with rfl | ⟨-, same⟩
    · rfl
    · exact same

/-! ### Characters of the two patterns -/

theorem tests_tolower (c : UInt8) : isdigit (tolower c) = isdigit c ∧ isodigit (tolower c) = isodigit c ∧
    isxdigit (tolower c) = isxdigit c ∧ digitValue (tolower c) = digitValue c ∧ isClosure (tolower c) = isClosure c ∧
      (tolower c ∈ ascii "^$.[()|" ↔ c ∈ ascii "^$.[()|") := by
  cases upper : isupper c with
  | false =>
    have same : tolower c = c := by rw [tolower, upper, if_neg Bool.false_ne_true]
    rw [same]
    exact ⟨rfl, rfl, rfl, rfl, rfl, Iff.rfl⟩
  | true =>
    revert upper
    exact forall_byte (by decide) c

theorem classes_place (c : UInt8) :
    (isdigit c = true → isupper c = false ∧ islower c = false ∧ c ≠ '\\'.toUInt8 ∧ Place.next .outside c = .outside) ∧
    (isodigit c = true → isupper c = false ∧ islower c = false ∧ isxdigit c = true) ∧
    (isxdigit c = true → c ≠ '\\'.toUInt8 ∧ Place.next .outside c = .outside ∧ Place.next .inside c = .inside) ∧
    (islower c = true → c ≠ '\\'.toUInt8 ∧ Place.next .inside c = .inside) ∧
    (isClosure c = true → isupper c = false ∧ islower c = false ∧ c ≠ '\\'.toUInt8 ∧ Place.next .outside c = .outside) := by
  exact forall_byte (by decide) c

section Tests

variable {a b : UInt8} (same : tolower a = tolower b)

include same

theorem isdigit_of_tolower : isdigit a = isdigit b := by
  rw [← (tests_tolower a).1, same, (tests_tolower b).1]

theorem isodigit_of_tolower : isodigit a = isodigit b := by
  rw [← (tests_tolower a).2.1, same, (tests_tolower b).2.1]

theorem isxdigit_of_tolower : isxdigit a = isxdigit b := by
  rw [← (tests_tolower a).2.2.1, same, (tests_tolower b).2.2.1]

theorem digitValue_of_tolower : digitValue a = digitValue b := by
  rw [← (tests_tolower a).2.2.2.1, same, (tests_tolower b).2.2.2.1]

theorem isClosure_of_tolower : isClosure a = isClosure b := by
  rw [← (tests_tolower a).2.2.2.2.1, same, (tests_tolower b).2.2.2.2.1]

theorem ends_of_tolower : a ∈ ascii "^$.[()|" ↔ b ∈ ascii "^$.[()|" := by
  rw [← (tests_tolower a).2.2.2.2.2, same, (tests_tolower b).2.2.2.2.2]

end Tests

/-! ### Scans in step -/

inductive Outcome {α β : Type} (Q : α → β → Scanner → Prop) : Option (Option α × Scanner) → Option (Option β × Scanner) → Prop
  | stuck : Outcome Q none none
  | failed (d d' : Scanner) : Outcome Q (some (none, d)) (some (none, d'))
  | ok {a : α} {b : β} {d : Scanner} : Q a b d → Outcome Q (some (some a, d)) (some (some b, d))

namespace Outcome

variable {α β γ δ : Type} {Q : α → β → Scanner → Prop} {R : γ → δ → Scanner → Prop} {x : Scan α} {y : Scan β} {c : Scanner}

theorem bind_run {f : α → Scan γ} {g : β → Scan δ} (first : Outcome Q (x c) (y c))
    (rest : ∀ a b d, x c = some (some a, d) → Q a b d → Outcome R (f a d) (g b d)) : Outcome R ((x >>= f) c) ((y >>= g) c) := by
  generalize run : x c = r, run' : y c = r' at first
  cases first with
  | stuck =>
    rw [bind_of_stuck run, bind_of_stuck run']
    exact .stuck
  | failed d d' =>
    rw [bind_of_failure run, bind_of_failure run']
    exact .failed d d'
  | ok related =>
    rw [bind_of_ok run, bind_of_ok run']
    exact rest _ _ _ run related

theorem bind {f : α → Scan γ} {g : β → Scan δ} (first : Outcome Q (x c) (y c))
    (rest : ∀ a b d, Q a b d → Outcome R (f a d) (g b d)) : Outcome R ((x >>= f) c) ((y >>= g) c) :=
  first.bind_run fun a b d _ => rest a b d

theorem ite {p : Prop} [Decidable p] {x' : Scan α} {y' : Scan β} (yes : p → Outcome Q (x c) (y c)) (no : ¬p → Outcome Q (x' c) (y' c)) :
    Outcome Q ((if p then x else x') c) ((if p then y else y') c) := by
  split
  · exact yes ‹_›
  · exact no ‹_›

theorem same {Q : α → α → Scanner → Prop} {r r' : Option (Option α × Scanner)} (eq : r = r')
    (holds : ∀ a d, r = some (some a, d) → Q a a d) : Outcome Q r r' := by
  subst eq
  match r with
  | none => exact .stuck
  | some (none, d) => exact .failed d d
  | some (some a, d) => exact .ok (holds a d rfl)

end Outcome

/-! ### Reading the two patterns -/

theorem drop_cons {p s : Bytes} {i : Nat} {a : UInt8} (rest : p.drop i = a :: s) :
    patternAt p i = a ∧ p.drop (i + 1) = s ∧ i < p.length := by
  have inside : i < p.length := by
    have lengths := congrArg List.length rest
    rw [List.length_drop, List.length_cons] at lengths
    omega
  rw [List.drop_eq_getElem_cons inside] at rest
  obtain ⟨first, others⟩ := List.cons.inj rest
  exact ⟨by rw [patternAt, List.getD_eq_getElem?_getD, List.getElem?_eq_getElem inside, first]; rfl, others, inside⟩

section Variants

variable (p p' : Bytes)

/-- The scanner is at a place from which on the patterns differ only in the case of letters. -/
def At (place : Place) (c : Scanner) : Prop := CaseVariant place (p.drop c.patternIdx) (p'.drop c.patternIdx)

variable {p p'}

theorem At.of_end {place : Place} {c : Scanner} (lengths : p.length = p'.length) (behind : p.length ≤ c.patternIdx) : At p p' place c := by
  unfold At
  rw [List.drop_eq_nil_of_le behind, List.drop_eq_nil_of_le (lengths ▸ behind)]
  exact .nil

theorem At.char {place : Place} {c : Scanner} (at' : At p p' place c) (plain : patternAt p c.patternIdx ≠ '\\'.toUInt8) :
    At p p' (place.next (patternAt p c.patternIdx)) { c with patternIdx := c.patternIdx + 1 } := by
  unfold At at at' ⊢
  dsimp only
  generalize first : p.drop c.patternIdx = s, second : p'.drop c.patternIdx = t at at'
  cases at' with
  | nil =>
    rw [List.drop_eq_nil_of_le (Nat.le_succ_of_le (List.drop_eq_nil_iff.mp first)),
      List.drop_eq_nil_of_le (Nat.le_succ_of_le (List.drop_eq_nil_iff.mp second))]
    exact .nil
  | lone => exact absurd (drop_cons first).1 plain
  | escape => exact absurd (drop_cons first).1 plain
  | char other letters rest =>
    obtain ⟨here, others, -⟩ := drop_cons first
    rw [here, others, (drop_cons second).2.1]
    exact rest

theorem At.escaped {place : Place} {c : Scanner} (at' : At p p' place c) (escape : patternAt p c.patternIdx = '\\'.toUInt8)
    (more : c.patternIdx + 1 < p.length) : patternAt p (c.patternIdx + 1) = patternAt p' (c.patternIdx + 1) ∧
      At p p' place.escaped { c with patternIdx := c.patternIdx + 2 } := by
  unfold At at at' ⊢
  dsimp only
  generalize first : p.drop c.patternIdx = s, second : p'.drop c.patternIdx = t at at'
  cases at' with
  | nil =>
    have behind := List.drop_eq_nil_iff.mp first
    omega
  | lone =>
    have behind := List.drop_eq_nil_iff.mp (drop_cons first).2.1
    omega
  | escape rest =>
    obtain ⟨letter, others, -⟩ := drop_cons (drop_cons first).2.1
    obtain ⟨letter', others', -⟩ := drop_cons (drop_cons second).2.1
    rw [letter, letter', others, others']
    exact ⟨rfl, rest⟩
  | char other => exact absurd ((drop_cons first).1.symm.trans escape) other

theorem At.skip {place : Place} {c : Scanner} (at' : At p p' place c) (n : Nat)
    (stays : ∀ a ∈ (p.drop c.patternIdx).take n, a ≠ '\\'.toUInt8 ∧ place.next a = place) :
    At p p' place { c with patternIdx := c.patternIdx + n } := by
  induction n generalizing c with
  | zero => exact at'
  | succ n ih =>
    by_cases inside : c.patternIdx < p.length
    · rw [List.drop_eq_getElem_cons inside, List.take_succ_cons] at stays
      have here : patternAt p c.patternIdx = p[c.patternIdx] := by
        rw [patternAt, List.getD_eq_getElem?_getD, List.getElem?_eq_getElem inside]
        rfl
      obtain ⟨plain, next⟩ := stays _ List.mem_cons_self
      have step := at'.char (here ▸ plain)
      rw [here, next] at step
      have rest := ih step fun a mem => stays a (List.mem_cons_of_mem _ mem)
      rwa [show c.patternIdx + (n + 1) = c.patternIdx + 1 + n by omega]
    · have behind : p.drop c.patternIdx = [] := List.drop_eq_nil_of_le (by omega)
      have behind' : p'.drop c.patternIdx = [] := by
        have lengths := at'.sameFold.length
        rw [behind, List.length_nil] at lengths
        exact List.eq_nil_of_length_eq_zero lengths.symm
      unfold At
      dsimp only
      rw [List.drop_eq_nil_of_le (by omega), List.drop_eq_nil_of_le (by have := List.drop_eq_nil_iff.mp behind'; omega)]
      exact .nil

theorem At.skipWhile {place : Place} {c : Scanner} (at' : At p p' place c) (test : UInt8 → Bool)
    (stays : ∀ a, test a = true → a ≠ '\\'.toUInt8 ∧ place.next a = place) :
    At p p' place { c with patternIdx := c.patternIdx + ((p.drop c.patternIdx).takeWhile test).length } := by
  refine at'.skip _ fun a mem => stays a ?_
  have whole : (p.drop c.patternIdx).take ((p.drop c.patternIdx).takeWhile test).length = (p.drop c.patternIdx).takeWhile test :=
    List.prefix_iff_eq_take.mp (List.takeWhile_prefix test) |>.symm
  rw [whole] at mem
  exact List.mem_takeWhile_imp mem

theorem readNumber_at {dflt v : Int} {c d : Scanner} (at' : At p p' .outside c) (run : readNumber p dflt c = some (some v, d)) :
    At p p' .outside d := by
  unfold readNumber at run
  rw [peek_bind] at run
  split at run
  · cases run
    exact at'.skipWhile isdigit fun a digit => ((classes_place a).1 digit).2.2
  · cases run
    exact at'

theorem At.mark {c : Scanner} {ch : UInt8} (at' : At p p' .outside c) (is : patternAt p c.patternIdx = ch)
    (plain : ch ≠ '\\'.toUInt8 ∧ Place.next .outside ch = .outside) :
    At p p' .outside { c with patternIdx := c.patternIdx + 1 } := by
  have step := at'.char (is ▸ plain.1)
  rwa [is, plain.2] at step

theorem bracket_at {r : Int × Option Nat} {c d : Scanner} (at' : At p p' .outside c)
    (opens : patternAt p c.patternIdx = '\x7b'.toUInt8) (run : bracket p c = some (some r, d)) : At p p' .outside d := by
  unfold bracket at run
  rw [advance_bind] at run
  obtain ⟨min, c₁, first, run⟩ := bind_ok run
  have at₁ := readNumber_at (at'.mark opens (by decide)) first
  rw [peek_bind] at run
  split at run
  · rename_i close
    cases run
    exact at₁.mark close (by decide)
  · rw [peek_bind, advance_bind] at run
    split at run
    · cases run
    · rename_i comma
      have at₂ := at₁.mark (not_not.mp comma) (by decide)
      rw [peek_bind] at run
      split at run
      · rename_i close
        cases run
        exact at₂.mark close (by decide)
      · obtain ⟨max, c₂, second, run⟩ := bind_ok run
        have at₃ := readNumber_at at₂ second
        dsimp only at run
        split at run
        · cases run
        · rw [peek_bind, advance_bind] at run
          split at run
          · cases run
          · rename_i close
            cases run
            exact at₃.mark (not_not.mp close) (by decide)

variable (same : SameFold p p')

include same

theorem patternAt_fold (i : Nat) : tolower (patternAt p i) = tolower (patternAt p' i) := same.getD i

theorem patternAt_iff (ch : UInt8) (other : isupper ch = false) (small : islower ch = false) (i : Nat) :
    patternAt p i = ch ↔ patternAt p' i = ch := eq_of_tolower other small (patternAt_fold same i)

theorem atEnd_same : atEnd p = atEnd p' := by
  unfold atEnd
  rw [same.length]

/-! ### Numbers and escapes -/

omit same in
theorem digit_caseless (b : UInt8) : isdigit b = true → isupper b = false ∧ islower b = false :=
  fun digit => ⟨((classes_place b).1 digit).1, ((classes_place b).1 digit).2.1⟩

omit same in
theorem digits_same {s t : Bytes} (same : SameFold s t) : s.takeWhile isdigit = t.takeWhile isdigit := by
  induction s generalizing t with
  | nil =>
    cases t with
    | nil => rfl
    | cons => cases same
  | cons a s ih =>
    cases t with
    | nil => cases same
    | cons b t =>
      obtain ⟨first, rest⟩ := sameFold_cons.mp same
      rw [List.takeWhile_cons, List.takeWhile_cons, isdigit_of_tolower first, ih rest]
      split
      · rename_i digit
        obtain ⟨other, small⟩ := digit_caseless b digit
        rw [(eq_of_tolower other small first).mpr rfl]
      · rfl

theorem readNumber_same (dflt : Int) : readNumber p dflt = readNumber p' dflt := by
  funext c
  unfold readNumber
  rw [peek_bind, peek_bind, isdigit_of_tolower (patternAt_fold same c.patternIdx)]
  refine ite_congr_run (fun _ => ?_) fun _ => rfl
  rw [current_bind, current_bind, digits_same (same.drop c.patternIdx)]

theorem peek_test {α : Type} {ch : UInt8} (other : isupper ch = false) (small : islower ch = false) {x y x' y' : Scan α}
    {c : Scanner} (yes : x c = x' c) (no : y c = y' c) :
    (peek p >>= fun a => if a = ch then x else y) c = (peek p' >>= fun a => if a = ch then x' else y') c := by
  rw [peek_bind, peek_bind]
  by_cases is : patternAt p c.patternIdx = ch
  · rw [if_pos is, if_pos ((patternAt_iff same _ other small _).mp is), yes]
  · rw [if_neg is, if_neg fun is' => is ((patternAt_iff same _ other small _).mpr is'), no]

theorem bracket_same : bracket p = bracket p' := by
  funext c
  unfold bracket
  rw [readNumber_same same]
  refine bind_congr_run rfl fun _ c _ => ?_
  refine bind_congr_run rfl fun min c _ => ?_
  refine peek_test same (by decide) (by decide) rfl ?_
  rw [peek_bind, peek_bind, advance_bind, advance_bind]
  have comma := patternAt_iff same ','.toUInt8 (by decide) (by decide) c.patternIdx
  by_cases is : patternAt p c.patternIdx = ','.toUInt8
  · rw [if_neg (by simpa using is), if_neg (by simpa using comma.mp is)]
    refine peek_test same (by decide) (by decide) rfl ?_
    rw [readNumber_same same]
    refine bind_congr_run rfl fun max c _ => ?_
    refine ite_congr_run (fun _ => rfl) fun _ => ?_
    rw [peek_bind, peek_bind, advance_bind, advance_bind]
    have close := patternAt_iff same '\x7d'.toUInt8 (by decide) (by decide) c.patternIdx
    by_cases is : patternAt p c.patternIdx = '\x7d'.toUInt8
    · rw [if_neg (by simpa using is), if_neg (by simpa using close.mp is)]
    · rw [if_pos is, if_pos fun is' => is (close.mpr is')]
  · rw [if_pos is, if_pos fun is' => is (comma.mpr is')]

theorem hexDigits_same (left : Nat) (val : Int) : hexDigits p left val = hexDigits p' left val := by
  induction left generalizing val with
  | zero => rfl
  | succ left ih =>
    funext c
    rw [hexDigits, hexDigits, atEnd_same same]
    refine bind_congr_run rfl fun b d _ => ite_congr_run (fun _ => rfl) fun _ => ?_
    rw [peek_bind, peek_bind, isxdigit_of_tolower (patternAt_fold same d.patternIdx),
      digitValue_of_tolower (patternAt_fold same d.patternIdx), ih]

omit same in
theorem escaped_next (place : Place) : ∀ a, isxdigit a = true → a ≠ '\\'.toUInt8 ∧ place.escaped.next a = place.escaped := by
  intro a digit
  obtain ⟨plain, outside, inside⟩ := (classes_place a).2.2.1 digit
  cases place with
  | outside => exact ⟨plain, outside⟩
  | opening | caret | inside => exact ⟨plain, inside⟩

omit same in
theorem hexDigits_at {place : Place} {left : Nat} {val : Int} {e : Escape} {c d : Scanner} (at' : At p p' place.escaped c)
    (run : hexDigits p left val c = some (some e, d)) : At p p' place.escaped d ∧ ((∃ v, e = .char v) ∨ e = .error) := by
  induction left generalizing val c with
  | zero =>
    cases run
    exact ⟨at', .inl ⟨val, rfl⟩⟩
  | succ left ih =>
    rw [hexDigits, atEnd_bind] at run
    split at run
    · cases run
      exact ⟨at', .inl ⟨val, rfl⟩⟩
    · rw [peek_bind] at run
      split at run
      · rename_i digit
        obtain ⟨plain, stays⟩ := escaped_next place _ digit
        have step := at'.char plain
        rw [stays] at step
        exact ih step run
      · cases run
        exact ⟨at', .inr rfl⟩

theorem octalDigit_outcome {place : Place} {c : Scanner} (at' : At p p' place.escaped c)
    (digit : isodigit (patternAt p c.patternIdx) = true) (val : Int) :
    Outcome (fun v v' d => v = v' ∧ At p p' place.escaped d) (octalDigit p val c) (octalDigit p' val c) := by
  unfold octalDigit
  rw [peek_bind, peek_bind, advance_bind, advance_bind]
  obtain ⟨other, small, hex⟩ := (classes_place _).2.1 digit
  obtain ⟨plain, stays⟩ := escaped_next place _ hex
  have equal := (patternAt_iff same _ other small c.patternIdx).mp rfl
  have step := at'.char plain
  rw [stays] at step
  rw [equal]
  exact .ok ⟨rfl, step⟩

def EscapedAlike (p p' : Bytes) (place : Place) (e e' : Escape) (d : Scanner) : Prop :=
  e = e' ∧ (e = .error ∨ At p p' place.escaped d) ∧
    (e = .cls ∨ e = .complex ∨ e = .backref → patternAt p (d.patternIdx - 1) = patternAt p' (d.patternIdx - 1))

theorem escape_outcome {place : Place} {c : Scanner} (at' : At p p' place c) (escaped : patternAt p c.patternIdx = '\\'.toUInt8) :
    Outcome (EscapedAlike p p' place) (escape p c) (escape p' c) := by
  unfold escape
  rw [current_bind, current_bind, ← same.length]
  by_cases short : p.length ≤ c.patternIdx + 1
  · rw [if_pos short, if_pos short]
    exact .ok ⟨rfl, .inl rfl, fun letter => by rcases letter with is | is | is <;> cases is⟩
  · rw [if_neg short, if_neg short, advance_bind, advance_bind]
    obtain ⟨letter, behind⟩ := at'.escaped escaped (by omega)
    rw [← letter]
    have value : ∀ v d, At p p' place.escaped d → EscapedAlike p p' place (.char v) (.char v) d := fun v d holds =>
      ⟨rfl, .inr holds, fun special => by rcases special with is | is | is <;> cases is⟩
    have special : ∀ e, EscapedAlike p p' place e e { c with patternIdx := c.patternIdx + 2 } := fun e =>
      ⟨rfl, .inr behind, fun _ => letter⟩
    refine .ite (fun _ => .ok (special _)) fun _ => .ite (fun _ => .ok (special _)) fun _ => .ite (fun _ => ?_) fun _ =>
      .ite (fun _ => .ok (special _)) fun _ => .ite (fun _ => .ok (special _)) fun _ => .ite (fun _ => .ok (special _)) fun _ =>
      .ite (fun _ => .ok (special _)) fun _ => .ite (fun _ => ?_) fun _ => .ite (fun _ => .ok (special _)) fun _ => .ok (special _)
    · refine .same (congrFun (hexDigits_same same 2 0) _) fun e d run => ?_
      obtain ⟨at₂, kind⟩ := hexDigits_at behind run
      refine ⟨rfl, .inr at₂, fun special => ?_⟩
      rcases kind with ⟨v, rfl⟩ | rfl
      · rcases special with is | is | is <;> cases is
      · rcases special with is | is | is <;> cases is
    · rw [peek_bind, peek_bind, ← isodigit_of_tolower (patternAt_fold same _)]
      refine .ite (fun digit => ?_) fun _ => .ite (fun _ => .ok (special _)) fun _ => .ok (special _)
      refine (octalDigit_outcome same behind digit _).bind fun v v' d both => ?_
      obtain ⟨rfl, at₂⟩ := both
      rw [peek_bind, peek_bind, ← isodigit_of_tolower (patternAt_fold same _)]
      refine .ite (fun digit => ?_) fun _ => .ok (value v d at₂)
      refine (octalDigit_outcome same at₂ digit _).bind fun v v' d both => ?_
      obtain ⟨rfl, at₃⟩ := both
      exact .ok (value v d at₃)

/-! ### Bracket expressions -/

omit same in
theorem CaseVariant.lower {place : Place} {s t : Bytes} (variant : CaseVariant place s t) (inside : place = .inside) :
    s.takeWhile islower = t.takeWhile islower := by
  induction variant with
  | nil | lone => rfl
  | escape =>
    rw [List.takeWhile_cons, List.takeWhile_cons]
    rfl
  | @char place a b s t other letters rest ih =>
    subst inside
    rcases letters with rfl | ⟨impossible, -⟩
    · rw [List.takeWhile_cons, List.takeWhile_cons]
      split
      · rename_i lower
        rw [ih ((classes_place a).2.2.2.1 lower).2]
      · rfl
    · cases impossible

omit same in
theorem At.here {place : Place} {c : Scanner} (at' : At p p' place c) (brackets : place ≠ .outside) :
    patternAt p c.patternIdx = patternAt p' c.patternIdx := by
  unfold At at at'
  generalize first : p.drop c.patternIdx = s, second : p'.drop c.patternIdx = t at at'
  have behind : ∀ {q : Bytes}, q.drop c.patternIdx = [] → patternAt q c.patternIdx = 0 := by
    intro q empty
    rw [patternAt, List.getD_eq_getElem?_getD, List.getElem?_eq_none (List.drop_eq_nil_iff.mp empty)]
    rfl
  cases at' with
  | nil => rw [behind first, behind second]
  | lone => rw [(drop_cons first).1, (drop_cons second).1]
  | escape => rw [(drop_cons first).1, (drop_cons second).1]
  | char _ letters =>
    rcases letters with rfl | ⟨outside, -⟩
    · rw [(drop_cons first).1, (drop_cons second).1]
    · exact absurd outside brackets

theorem posixSet_outcome {c : Scanner} (at' : At p p' .inside c) :
    Outcome (fun set set' d => set = set' ∧ At p p' .outside d) (posixSet p c) (posixSet p' c) := by
  unfold posixSet
  rw [current_bind, current_bind, ← CaseVariant.lower at' rfl, advance_bind, advance_bind, current_bind, current_bind]
  dsimp only
  have at₁ := at'.skipWhile islower fun a => (classes_place a).2.2.2.1
  generalize c.patternIdx + ((p.drop c.patternIdx).takeWhile islower).length = i at at₁ ⊢
  have colon := patternAt_iff same ':'.toUInt8 (by decide) (by decide) i
  have close := patternAt_iff same ']'.toUInt8 (by decide) (by decide) (i + 1)
  simp only [← colon, ← close]
  refine .ite (fun both => ?_) fun _ => .failed _ _
  generalize posixtable.find? _ = found
  cases found with
  | none => exact .failed _ _
  | some entry =>
    have at₂ := at₁.char (by rw [both.1]; decide)
    rw [both.1] at at₂
    have at₃ := at₂.char (by rw [both.2]; decide)
    rw [both.2] at at₃
    exact .ok ⟨rfl, at₃⟩

theorem simpleChar_same (s : ClassState) (ch : UInt8) : simpleChar p s ch = simpleChar p' s ch := by
  funext c
  unfold simpleChar
  have dash := patternAt_iff same '-'.toUInt8 (by decide) (by decide) (c.patternIdx + 1)
  refine ite_congr_run (fun _ => rfl) fun _ => ?_
  rw [current_bind, current_bind]
  simp only [ne_eq, dash]

omit same in
theorem classEscape_same (s : ClassState) {c : Scanner}
    (letter : patternAt p (c.patternIdx - 1) = patternAt p' (c.patternIdx - 1)) : classEscape p s c = classEscape p' s c := by
  unfold classEscape
  refine ite_congr_run (fun _ => rfl) fun _ => ?_
  rw [current_bind, current_bind, letter]

/-- The place of a position in brackets that begin at `idxFirst`. -/
def classPlace (p : Bytes) (idxFirst i : Nat) : Place :=
  if i = idxFirst then .opening else if i = idxFirst + 1 ∧ patternAt p idxFirst = '^'.toUInt8 then .caret else .inside

def InClass (p p' : Bytes) (idxFirst : Nat) (c : Scanner) : Prop :=
  idxFirst ≤ c.patternIdx ∧ At p p' (classPlace p idxFirst c.patternIdx) c

omit same in
theorem classPlace_succ {idxFirst i : Nat} (le : idxFirst ≤ i) :
    classPlace p idxFirst (i + 1) = if i = idxFirst ∧ patternAt p idxFirst = '^'.toUInt8 then .caret else .inside := by
  have same : i + 1 = idxFirst + 1 ↔ i = idxFirst := by omega
  rw [classPlace, if_neg (by omega)]
  simp only [same]

omit same in
theorem InClass.char {idxFirst : Nat} {c : Scanner} (inClass : InClass p p' idxFirst c) {ch : UInt8} (is : patternAt p c.patternIdx = ch)
    (plain : ch ≠ '\\'.toUInt8) (open' : ch = ']'.toUInt8 → classPlace p idxFirst c.patternIdx ≠ .inside) :
    InClass p p' idxFirst { c with patternIdx := c.patternIdx + 1 } := by
  obtain ⟨le, at'⟩ := inClass
  have step := at'.char (is ▸ plain)
  refine ⟨Nat.le_succ_of_le le, ?_⟩
  have place : (classPlace p idxFirst c.patternIdx).next (patternAt p c.patternIdx) = classPlace p idxFirst (c.patternIdx + 1) := by
    rw [classPlace_succ le]
    unfold classPlace at open' ⊢
    by_cases first : c.patternIdx = idxFirst
    · rw [if_pos first, Place.next, first]
      simp only [true_and]
    · rw [if_neg first] at open' ⊢
      rw [if_neg (show ¬(c.patternIdx = idxFirst ∧ patternAt p idxFirst = '^'.toUInt8) from fun both => first both.1)]
      split
      · rfl
      · rename_i later
        rw [if_neg later] at open'
        rw [Place.next, is, if_neg fun close => open' close rfl]
  rwa [place] at step

omit same in
theorem InClass.escaped {idxFirst : Nat} {c d : Scanner} (inClass : InClass p p' idxFirst c)
    (at' : At p p' (classPlace p idxFirst c.patternIdx).escaped d) (on : c.patternIdx + 2 ≤ d.patternIdx) : InClass p p' idxFirst d := by
  have low := inClass.1
  refine ⟨by omega, ?_⟩
  have place : classPlace p idxFirst d.patternIdx = .inside := by
    unfold classPlace
    rw [if_neg (by omega), if_neg (by omega)]
  have before : (classPlace p idxFirst c.patternIdx).escaped = .inside := by
    unfold classPlace
    split
    · rfl
    · split
      · rfl
      · rfl
  rw [place]
  rwa [before] at at'

omit same in
theorem classPlace_ne (idxFirst i : Nat) : classPlace p idxFirst i ≠ .outside := by
  unfold classPlace
  split
  · exact fun is => by cases is
  · split
    · exact fun is => by cases is
    · exact fun is => by cases is

theorem classStep_outcome {idxFirst : Nat} (s : ClassState) {c : Scanner} (inClass : InClass p p' idxFirst c) :
    Outcome (fun o o' d => o = o' ∧ ((∃ s', o = some s') ∧ InClass p p' idxFirst d ∨ o = none ∧ At p p' .inside d ∧
        (p.length ≤ d.patternIdx ∨ patternAt p d.patternIdx = ']'.toUInt8)))
      (classStep p idxFirst s c) (classStep p' idxFirst s c) := by
  have here := inClass.2.here (classPlace_ne _ _)
  have caret := patternAt_iff same '^'.toUInt8 (by decide) (by decide) idxFirst
  have single : ∀ (s : ClassState) (ch : UInt8) (d : Scanner), InClass p p' idxFirst d →
      Outcome (fun o o' d => o = o' ∧ ((∃ s', o = some s') ∧ InClass p p' idxFirst d ∨ o = none ∧ At p p' .inside d ∧
        (p.length ≤ d.patternIdx ∨ patternAt p d.patternIdx = ']'.toUInt8)))
        ((do return some (← simpleChar p s ch)) d) ((do return some (← simpleChar p' s ch)) d) := by
    intro s ch d holds
    rw [simpleChar_same same]
    refine Outcome.bind (Q := fun s' s'' d => s' = s'' ∧ InClass p p' idxFirst d) (.same rfl fun s' e run => ?_) fun s' s'' d both => ?_
    · cases simpleChar_state _ run
      exact ⟨rfl, holds⟩
    · obtain ⟨rfl, holds⟩ := both
      exact .ok ⟨rfl, .inl ⟨⟨s', rfl⟩, holds⟩⟩
  unfold classStep
  rw [atEnd_bind, atEnd_bind, ← same.length]
  refine .ite (fun ends => ?_) fun more => ?_
  · exact .ok ⟨rfl, .inr ⟨rfl, .of_end same.length (of_decide_eq_true ends), .inl (of_decide_eq_true ends)⟩⟩
  · have inside : c.patternIdx < p.length := by simpa using more
    rw [current_bind, current_bind, peek_bind, peek_bind, ← here]
    generalize is : patternAt p c.patternIdx = ch
    refine .ite (fun close => ?_) fun notClose => .ite (fun caret' => ?_) fun notCaret => .ite (fun escape => ?_) fun plain =>
      .ite (fun dash => ?_) fun _ => ?_
    · simp only [← caret]
      refine .ite (fun first => ?_) fun later => ?_
      · rw [advance_bind, advance_bind]
        refine single s ch _ (inClass.char is (by rw [close]; decide) fun _ => ?_)
        unfold classPlace
        rcases first with here' | ⟨here', up⟩
        · rw [if_pos here']
          exact fun is => by cases is
        · rw [if_neg (by omega), if_pos ⟨here', up⟩]
          exact fun is => by cases is
      · have place : classPlace p idxFirst c.patternIdx = .inside := by
          unfold classPlace
          rw [if_neg fun here' => later (.inl here'), if_neg fun here' => later (.inr here')]
        exact .ok ⟨rfl, .inr ⟨rfl, place ▸ inClass.2, .inr (by rw [is, close])⟩⟩
    · refine .ite (fun first => ?_) fun _ => single s ch c inClass
      exact .ok ⟨rfl, .inl ⟨⟨_, rfl⟩, inClass.char is (by rw [caret']; decide) fun close => absurd close notClose⟩⟩
    · refine (escape_outcome same inClass.2 (is.trans escape)).bind_run fun e e' d run alike => ?_
      obtain ⟨rfl, behind, letter⟩ := alike
      have advances := escape_advances p run
      cases e with
      | char v =>
        obtain at' : At p p' _ d := behind.resolve_left fun is => by cases is
        have on : c.patternIdx + 2 ≤ d.patternIdx := advances.2.1 (Nat.lt_of_not_le fun short => by cases advances.2.2 short)
        exact single s _ d (inClass.escaped at' on)
      | cls =>
        obtain at' : At p p' _ d := behind.resolve_left fun is => by cases is
        have on : c.patternIdx + 2 ≤ d.patternIdx := advances.2.1 (Nat.lt_of_not_le fun short => by cases advances.2.2 short)
        have member : Outcome (fun s' s'' d => s' = s'' ∧ InClass p p' idxFirst d) (classEscape p s d) (classEscape p' s d) := by
          refine .same (classEscape_same s (letter (.inl rfl))) fun s' e run => ?_
          cases classEscape_state _ run
          exact ⟨rfl, inClass.escaped at' on⟩
        refine member.bind fun s' s'' d both => ?_
        obtain ⟨rfl, holds⟩ := both
        exact .ok ⟨rfl, .inl ⟨⟨s', rfl⟩, holds⟩⟩
      | backref | complex | error => exact .failed _ _
    · refine .ite (fun _ => ?_) fun _ => ?_
      · rw [advance_bind, advance_bind]
        exact single s ch _ (inClass.char is plain fun close => absurd close notClose)
      · have next := inClass.char is plain fun close => absurd close notClose
        have close := patternAt_iff same ']'.toUInt8 (by decide) (by decide) (c.patternIdx + 1)
        refine .ite (fun _ => ?_) fun _ => .ok ⟨rfl, .inl ⟨⟨_, rfl⟩, inClass⟩⟩
        rw [advance_bind, advance_bind, peek_bind, peek_bind]
        simp only [← close]
        exact .ite (fun _ => single _ ch _ next) fun _ => .ok ⟨rfl, .inl ⟨⟨_, rfl⟩, next⟩⟩
    · rw [advance_bind, advance_bind]
      exact single s ch _ (inClass.char is plain fun close => absurd close notClose)

theorem classLoop_outcome {idxFirst : Nat} (fuel : Nat) (s : ClassState) {c : Scanner} (inClass : InClass p p' idxFirst c) :
    Outcome (fun s s' d => s = s' ∧ At p p' .inside d ∧ (p.length ≤ d.patternIdx ∨ patternAt p d.patternIdx = ']'.toUInt8))
      (classLoop p idxFirst fuel s c) (classLoop p' idxFirst fuel s c) := by
  induction fuel generalizing s c with
  | zero => exact .stuck
  | succ fuel ih =>
    rw [classLoop, classLoop]
    refine (classStep_outcome same s inClass).bind fun o o' d both => ?_
    obtain ⟨rfl, ⟨⟨s', rfl⟩, holds⟩ | ⟨rfl, at', ends⟩⟩ := both
    · exact ih s' holds
    · exact .ok ⟨rfl, at', ends⟩

theorem classSet_outcome (fuel : Nat) {c : Scanner} (at' : At p p' .opening c) :
    Outcome (fun set set' d => set = set' ∧ At p p' .outside d) (classSet p fuel c) (classSet p' fuel c) := by
  unfold classSet
  rw [current_bind, current_bind]
  have first : classPlace p c.patternIdx c.patternIdx = .opening := if_pos rfl
  refine (classLoop_outcome same fuel .start ⟨Nat.le_refl _, first.symm ▸ at'⟩).bind fun s s' d both => ?_
  obtain ⟨rfl, at₂, ends⟩ := both
  unfold classEnd
  rw [atEnd_bind, atEnd_bind, ← same.length]
  refine .ite (fun _ => .failed _ _) fun more => ?_
  have close : patternAt p d.patternIdx = ']'.toUInt8 := ends.resolve_left fun behind => more (decide_eq_true behind)
  have step := at₂.char (by rw [close]; decide)
  rw [close] at step
  exact .ok ⟨rfl, step⟩

theorem parseClass_outcome (fuel : Nat) {c : Scanner} (at' : At p p' .outside c) (opens : patternAt p c.patternIdx = '['.toUInt8) :
    Outcome (fun set set' d => set = set' ∧ At p p' .outside d) (parseClass p fuel c) (parseClass p' fuel c) := by
  unfold parseClass
  have step := at'.char (by rw [opens]; decide)
  rw [opens] at step
  rw [advance_bind, advance_bind, atEnd_bind, atEnd_bind, ← same.length]
  refine .ite (fun _ => .failed _ _) fun _ => ?_
  rw [peek_bind, peek_bind]
  have colon := patternAt_iff same ':'.toUInt8 (by decide) (by decide) (c.patternIdx + 1)
  dsimp only
  simp only [← colon]
  refine .ite (fun posix => ?_) fun _ => ?_
  · rw [advance_bind, advance_bind]
    have step' := step.char (by rw [posix]; decide)
    rw [posix] at step'
    exact posixSet_outcome same step'
  · rw [parseClassSet_eq, parseClassSet_eq]
    exact classSet_outcome same fuel step

/-! ### Atoms -/

theorem lookAhead_outcome {c : Scanner} (at' : At p p' .outside c) :
    Outcome (fun o o' d => o.any isClosure = o'.any isClosure ∧ d.patternIdx = c.patternIdx) (lookAhead p c) (lookAhead p' c) := by
  unfold lookAhead
  rw [current_bind, current_bind, ← same.length]
  refine .ite (fun _ => .ok ⟨rfl, rfl⟩) fun _ => ?_
  have escape := patternAt_iff same '\\'.toUInt8 (by decide) (by decide) c.patternIdx
  have second : (some (patternAt p (c.patternIdx + 1))).any isClosure = (some (patternAt p' (c.patternIdx + 1))).any isClosure :=
    isClosure_of_tolower (patternAt_fold same _)
  simp only [ne_eq, ← escape]
  refine .ite (fun _ => .ok ⟨second, rfl⟩) fun is => ?_
  refine (escape_outcome same at' (not_not.mp is)).bind fun e e' d alike => ?_
  obtain ⟨rfl, -, -⟩ := alike
  refine .ite (fun _ => .failed _ _) fun _ => ?_
  rw [current_bind, current_bind, change_bind, change_bind]
  refine .ok ⟨?_, rfl⟩
  split
  · exact isClosure_of_tolower (patternAt_fold same _)
  · exact second

def AtomAlike (p p' : Bytes) (o o' : Option Bytes) (d : Scanner) : Prop :=
  (o = none ∧ o' = none ∨ ∃ text text', o = some text ∧ o' = some text' ∧ SameFold text text') ∧ At p p' .outside d

theorem atomStep_outcome {text text' : Bytes} (texts : SameFold text text') {c : Scanner} (at' : At p p' .outside c) :
    Outcome (AtomAlike p p') (atomStep p text c) (atomStep p' text' c) := by
  have empty : text = [] ↔ text' = [] := by
    rw [← List.length_eq_zero_iff, ← List.length_eq_zero_iff, texts.length]
  have done : ∀ {d : Scanner}, d.patternIdx = c.patternIdx → AtomAlike p p' none none d := fun place =>
    ⟨.inl ⟨rfl, rfl⟩, by unfold At; rw [place]; exact at'⟩
  unfold atomStep
  rw [atEnd_bind, atEnd_bind, ← same.length]
  refine .ite (fun _ => .ok (done rfl)) fun _ => ?_
  refine (lookAhead_outcome same at').bind fun o o' d both => ?_
  obtain ⟨closures, place⟩ := both
  simp only [← closures, ne_eq, ← empty]
  refine .ite (fun _ => .ok (done place)) fun _ => ?_
  rw [current_bind, current_bind, peek_bind, peek_bind]
  have letters := patternAt_fold same d.patternIdx
  have ends := ends_of_tolower letters
  simp only [← ends, ← isClosure_of_tolower letters, ← patternAt_iff same '\\'.toUInt8 (by decide) (by decide) d.patternIdx]
  refine .ite (fun _ => .ok (done place)) fun plain => .ite (fun _ => ?_) fun _ => .ite (fun escape => ?_) fun notEscape => ?_
  · exact .ite (fun _ => .failed _ _) fun _ => .ok (done place)
  · have atd : At p p' .outside d := by unfold At; rw [place]; exact at'
    refine (escape_outcome same atd escape).bind fun e e' d' alike => ?_
    obtain ⟨rfl, behind, -⟩ := alike
    cases e with
    | char v =>
      refine .ite (fun _ => .ok (done place)) fun _ => .ok ⟨.inr ⟨_, _, rfl, rfl, texts.append (.refl _)⟩, ?_⟩
      exact behind.resolve_left fun is => by cases is
    | backref | complex | cls | error => exact .ok (done place)
  · have atd : At p p' .outside d := by unfold At; rw [place]; exact at'
    have step := atd.char notEscape
    have stays : Place.next .outside (patternAt p d.patternIdx) = .outside := by
      rw [Place.next, if_neg]
      intro is
      rw [is] at plain
      exact plain (by decide)
    rw [stays] at step
    exact .ok ⟨.inr ⟨_, _, rfl, rfl, texts.append (sameFold_cons.mpr ⟨letters, rfl⟩)⟩, step⟩

theorem atomLoop_outcome (fuel : Nat) {text text' : Bytes} (texts : SameFold text text') {c : Scanner} (at' : At p p' .outside c) :
    Outcome (fun t t' d => SameFold t t' ∧ At p p' .outside d) (atomLoop p fuel text c) (atomLoop p' fuel text' c) := by
  induction fuel generalizing text text' c with
  | zero => exact .stuck
  | succ fuel ih =>
    rw [atomLoop, atomLoop]
    refine (atomStep_outcome same texts at').bind fun o o' d alike => ?_
    obtain ⟨⟨rfl, rfl⟩ | ⟨t, t', rfl, rfl, further⟩, place⟩ := alike
    · exact .ok ⟨texts, place⟩
    · exact ih further place

theorem atomText_outcome (fuel : Nat) {c : Scanner} (at' : At p p' .outside c) :
    Outcome (fun t t' d => SameFold t t' ∧ At p p' .outside d) (atomText p fuel c) (atomText p' fuel c) := by
  unfold atomText
  refine (atomLoop_outcome same fuel (.refl []) at').bind fun t t' d both => ?_
  have empty : t = [] ↔ t' = [] := by
    rw [← List.length_eq_zero_iff, ← List.length_eq_zero_iff, both.1.length]
  simp only [← empty]
  exact .ite (fun _ => .failed _ _) fun _ => .ok both

/-! ### Terminals and closures -/

def TerminalAlike (p p' : Bytes) (r r' : Terminal × Bool) (d : Scanner) : Prop :=
  r.1.piece.fold = r'.1.piece.fold ∧ r.2 = r'.2 ∧ At p p' .outside d

def PieceAlike (p p' : Bytes) (r r' : Piece × Bool) (d : Scanner) : Prop :=
  r.1.fold = r'.1.fold ∧ r.2 = r'.2 ∧ At p p' .outside d

def ExprAlike (p p' : Bytes) (expr expr' : Scan (Terminal × Bool)) : Prop := ∀ c, At p p' .outside c →
  patternAt p c.patternIdx = '('.toUInt8 → Outcome (TerminalAlike p p') (expr c) (expr' c)

theorem parseTerminal_outcome {expr expr' : Scan (Terminal × Bool)} (exprs : ExprAlike p p' expr expr') (fuel : Nat) {c : Scanner}
    (at' : At p p' .outside c) : Outcome (TerminalAlike p p') (parseTerminal p expr fuel c) (parseTerminal p' expr' fuel c) := by
  have atom : ∀ {d : Scanner}, At p p' .outside d → Outcome (TerminalAlike p p')
      ((do return (Terminal.simple (.opAtom (← atomText p fuel)), false)) d)
      ((do return (Terminal.simple (.opAtom (← atomText p' fuel)), false)) d) := by
    intro d atd
    refine (atomText_outcome same fuel atd).bind fun t t' e both => .ok ⟨?_, rfl, both.2⟩
    exact congrArg (fun text => Piece.simple (.opAtom text)) both.1
  unfold parseTerminal
  rw [current_bind, current_bind, peek_bind, peek_bind]
  have special := fun (ch : UInt8) (other : isupper ch = false) (small : islower ch = false) =>
    patternAt_iff same _ other small c.patternIdx
  simp only [← special '$'.toUInt8 (by decide) (by decide), ← special '^'.toUInt8 (by decide) (by decide),
    ← special '.'.toUInt8 (by decide) (by decide), ← special '['.toUInt8 (by decide) (by decide),
    ← special '('.toUInt8 (by decide) (by decide), ← special ')'.toUInt8 (by decide) (by decide),
    ← special '|'.toUInt8 (by decide) (by decide), ← special 0 (by decide) (by decide),
    ← special '\\'.toUInt8 (by decide) (by decide), ← isClosure_of_tolower (patternAt_fold same c.patternIdx)]
  refine .ite (fun is => .ok ⟨rfl, rfl, at'.mark is (by decide)⟩) fun _ => .ite (fun is => .ok ⟨rfl, rfl, at'.mark is (by decide)⟩)
    fun _ => .ite (fun is => .ok ⟨rfl, rfl, at'.mark is (by decide)⟩) fun _ => .ite (fun is => ?_) fun _ =>
    .ite (fun is => exprs c at' is) fun _ => .ite (fun _ => .failed _ _) fun _ => .ite (fun _ => .failed _ _) fun _ =>
    .ite (fun _ => .failed _ _) fun _ => .ite (fun _ => .failed _ _) fun _ => .ite (fun is => ?_) fun _ => atom at'
  · refine (parseClass_outcome same fuel at' is).bind fun set set' d both => ?_
    obtain ⟨rfl, atd⟩ := both
    exact .ok ⟨rfl, rfl, atd⟩
  · refine (escape_outcome same at' is).bind fun e e' d alike => ?_
    obtain ⟨rfl, behind, letter⟩ := alike
    cases e with
    | cls =>
      have atd : At p p' _ d := behind.resolve_left fun is => by cases is
      dsimp only
      rw [current_bind, current_bind, letter (.inl rfl)]
      exact .ok ⟨rfl, rfl, atd⟩
    | complex =>
      have atd : At p p' _ d := behind.resolve_left fun is => by cases is
      dsimp only
      rw [current_bind, current_bind, letter (.inr (.inl rfl))]
      exact .ok ⟨rfl, rfl, atd⟩
    | backref =>
      have atd : At p p' _ d := behind.resolve_left fun is => by cases is
      dsimp only
      rw [current_bind, current_bind, letter (.inr (.inr rfl))]
      exact .ite (fun _ => .ok ⟨rfl, rfl, atd⟩) fun _ => .failed _ _
    | error => exact .failed _ _
    | char v => exact atom at'

theorem parseRepetition_outcome {x x' : Terminal} (alike : x.piece.fold = x'.piece.fold) {c : Scanner} (at' : At p p' .outside c)
    (opens : patternAt p c.patternIdx = '\x7b'.toUInt8) :
    Outcome (PieceAlike p p') (parseRepetition p x c) (parseRepetition p' x' c) := by
  unfold parseRepetition
  refine Outcome.bind (Q := fun r r' d => r = r' ∧ At p p' .outside d)
    (.same (congrFun (bracket_same same) c) fun r d run => ⟨rfl, bracket_at at' opens run⟩) fun r r' d both => ?_
  obtain ⟨rfl, atd⟩ := both
  refine .ite (fun _ => .failed _ _) fun _ => .ok ⟨?_, rfl, atd⟩
  rw [repeated_fold, repeated_fold, alike]

theorem parseMark_outcome {c : Scanner} (at' : At p p' .outside c) :
    Outcome (fun b b' d => b = b' ∧ At p p' .outside d) (parseMark p c) (parseMark p' c) := by
  unfold parseMark
  rw [peek_bind, peek_bind]
  simp only [← patternAt_iff same '?'.toUInt8 (by decide) (by decide) c.patternIdx]
  exact .ite (fun is => .ok ⟨rfl, at'.mark is (by decide)⟩) fun _ => .ok ⟨rfl, at'⟩

theorem parseClosure_outcome {expr expr' : Scan (Terminal × Bool)} (exprs : ExprAlike p p' expr expr') (fuel : Nat) {c : Scanner}
    (at' : At p p' .outside c) : Outcome (PieceAlike p p') (parseClosure p expr fuel c) (parseClosure p' expr' fuel c) := by
  unfold parseClosure
  refine (parseTerminal_outcome same exprs fuel at').bind fun r r' d alike => ?_
  obtain ⟨x, nullable⟩ := r
  obtain ⟨x', nullable'⟩ := r'
  obtain ⟨pieces, rfl, atd⟩ := alike
  dsimp only at pieces atd ⊢
  rw [atEnd_bind, atEnd_bind, ← same.length]
  refine .ite (fun _ => .ok ⟨pieces, rfl, atd⟩) fun _ => ?_
  rw [peek_bind, peek_bind]
  have letters := patternAt_fold same d.patternIdx
  rw [← isClosure_of_tolower letters]
  by_cases closure : isClosure (patternAt p d.patternIdx) = false
  · rw [if_pos closure, if_pos closure]
    exact .ok ⟨pieces, rfl, atd⟩
  · obtain ⟨other, small, mark⟩ := (classes_place _).2.2.2.2 (by simpa using closure)
    have equal := (patternAt_iff same _ other small d.patternIdx).mp rfl
    rw [equal, if_neg closure, if_neg closure]
    refine .ite (fun brace => .ite (fun _ => .failed _ _) fun _ => ?_) fun _ => ?_
    · exact parseRepetition_outcome same pieces atd brace
    · rw [advance_bind, advance_bind]
      refine .ite (fun _ => .failed _ _) fun _ => ?_
      refine (parseMark_outcome same (atd.mark rfl mark)).bind fun b b' e both => ?_
      obtain ⟨rfl, ate⟩ := both
      exact .ok ⟨by rw [closureOf_fold, closureOf_fold, pieces], rfl, ate⟩

/-! ### Branches and expressions -/

structure Sequence.Alike (s s' : Sequence) : Prop where
  pieces : s.pieces.map Piece.fold = s'.pieces.map Piece.fold
  broken : s.broken = s'.broken

omit same in
theorem Sequence.Alike.piece {s s' : Sequence} (alike : s.Alike s') : s.piece.fold = s'.piece.fold := by
  rw [Sequence.piece, Sequence.piece, Piece.ofList_fold, Piece.ofList_fold, alike.pieces]

omit same in
theorem Sequence.Alike.add {s s' : Sequence} {x x' : Piece} (alike : s.Alike s') (folds : x.fold = x'.fold) :
    (s.add x).Alike (s'.add x') := by
  constructor
  · show (s.pieces ++ [x]).map Piece.fold = (s'.pieces ++ [x']).map Piece.fold
    rw [List.map_append, List.map_append, alike.pieces, List.map_singleton, List.map_singleton, folds]
  · have last : (s.pieces.getLast?.any fun last => !last.closed) = s'.pieces.getLast?.any fun last => !last.closed := by
      have folded : ∀ ps : List Piece, (ps.getLast?.any fun last => !last.closed) =
          (ps.map Piece.fold).getLast?.any fun last => !last.closed := by
        intro ps
        rw [List.getLast?_map, Option.any_map]
        congr 1
        funext x
        exact congrArg (fun b => !b) x.closed_fold.symm
      rw [folded s.pieces, folded s'.pieces, alike.pieces]
    show s.breaks x = s'.breaks x'
    rw [Sequence.breaks, Sequence.breaks, last, ← x.single_fold, ← x'.single_fold, folds]

omit same in
theorem alike_branches {branches branches' : List Sequence} (alike : List.Forall₂ Sequence.Alike branches branches') :
    branches.any (fun s => s.broken) = branches'.any (fun s => s.broken) ∧
      (branches.map (fun s => s.piece)).map Piece.fold = (branches'.map (fun s => s.piece)).map Piece.fold := by
  induction alike with
  | nil => exact ⟨rfl, rfl⟩
  | cons first _ ih =>
    constructor
    · rw [List.any_cons, List.any_cons, ih.1, first.broken]
    · rw [List.map_cons, List.map_cons, List.map_cons, List.map_cons, first.piece, ih.2]

def BranchAlike (p p' : Bytes) (r r' : Sequence × Bool) (d : Scanner) : Prop := r.1.Alike r'.1 ∧ r.2 = r'.2 ∧ At p p' .outside d

theorem parsePieces_outcome {expr expr' : Scan (Terminal × Bool)} (exprs : ExprAlike p p' expr expr') (fuel : Nat) {s s' : Sequence}
    (alike : s.Alike s') (nullable : Bool) {c : Scanner} (at' : At p p' .outside c) :
    Outcome (BranchAlike p p') (parsePieces p expr fuel s nullable c) (parsePieces p' expr' fuel s' nullable c) := by
  induction fuel generalizing s s' nullable c with
  | zero => exact .stuck
  | succ fuel ih =>
    rw [parsePieces, parsePieces, peek_bind, peek_bind, atEnd_bind, atEnd_bind, ← same.length]
    simp only [← patternAt_iff same '|'.toUInt8 (by decide) (by decide) c.patternIdx,
      ← patternAt_iff same ')'.toUInt8 (by decide) (by decide) c.patternIdx]
    refine .ite (fun _ => .ok ⟨alike, rfl, at'⟩) fun _ => ?_
    refine (parseClosure_outcome same exprs fuel at').bind fun r r' d piece => ?_
    obtain ⟨x, nullable'⟩ := r
    obtain ⟨x', nullable''⟩ := r'
    obtain ⟨folds, rfl, atd⟩ := piece
    dsimp only at folds atd ⊢
    rw [← alike.broken]
    exact .ite (fun _ => .stuck) fun _ => ih (alike.add folds) _ atd

theorem parseAlternatives_outcome {expr expr' : Scan (Terminal × Bool)} (exprs : ExprAlike p p' expr expr') (fuel : Nat)
    {branches branches' : List Sequence} (alike : List.Forall₂ Sequence.Alike branches branches') (nullable : Bool) {c : Scanner}
    (at' : At p p' .outside c) :
    Outcome (fun r r' d => List.Forall₂ Sequence.Alike r.1 r'.1 ∧ r.2 = r'.2 ∧ At p p' .outside d)
      (parseAlternatives p expr fuel branches nullable c) (parseAlternatives p' expr' fuel branches' nullable c) := by
  induction fuel generalizing branches branches' nullable c with
  | zero => exact .stuck
  | succ fuel ih =>
    rw [parseAlternatives, parseAlternatives, atEnd_bind, atEnd_bind, peek_bind, peek_bind, ← same.length]
    have bar := patternAt_iff same '|'.toUInt8 (by decide) (by decide) c.patternIdx
    simp only [ne_eq, ← bar]
    refine .ite (fun _ => .ok ⟨alike, rfl, at'⟩) fun more => ?_
    rw [not_or, not_not] at more
    rw [advance_bind, advance_bind]
    refine (parsePieces_outcome same exprs fuel (⟨rfl, rfl⟩ : Sequence.Alike .empty .empty) true (at'.mark more.2 (by decide))).bind
      fun r r' d branch => ?_
    obtain ⟨x, nullable'⟩ := r
    obtain ⟨x', nullable''⟩ := r'
    obtain ⟨sequences, rfl, atd⟩ := branch
    exact ih (List.rel_append alike (.cons sequences .nil)) _ atd

theorem parseClose_outcome (opened : Option Nat) {c : Scanner} (at' : At p p' .outside c) :
    Outcome (fun _ _ d => At p p' .outside d) (parseClose p opened c) (parseClose p' opened c) := by
  cases opened with
  | none => exact .ok at'
  | some number =>
    show Outcome _ (closeParen p number c) (closeParen p' number c)
    unfold closeParen
    rw [peek_bind, peek_bind]
    simp only [← patternAt_iff same ')'.toUInt8 (by decide) (by decide) c.patternIdx]
    exact .ite (fun is => .ok (at'.mark is (by decide))) fun _ => .failed _ _

theorem parseExprWith_outcome {expr expr' : Scan (Terminal × Bool)} (exprs : ExprAlike p p' expr expr') (opened : Option Nat)
    (fuel : Nat) {c : Scanner} (at' : At p p' .outside c) :
    Outcome (fun r r' d => r.1.fold = r'.1.fold ∧ r.2 = r'.2 ∧ At p p' .outside d)
      (parseExprWith p expr opened fuel c) (parseExprWith p' expr' opened fuel c) := by
  unfold parseExprWith
  refine (parsePieces_outcome same exprs fuel (⟨rfl, rfl⟩ : Sequence.Alike .empty .empty) true at').bind fun r r' d branch => ?_
  obtain ⟨first, nullable⟩ := r
  obtain ⟨first', nullable'⟩ := r'
  obtain ⟨firsts, rfl, atd⟩ := branch
  refine (parseAlternatives_outcome same exprs fuel .nil _ atd).bind fun r r' e others => ?_
  obtain ⟨branches, nullable'⟩ := r
  obtain ⟨branches', nullable''⟩ := r'
  obtain ⟨alike, rfl, ate⟩ := others
  refine (parseClose_outcome same opened ate).bind fun _ _ f atf => ?_
  obtain ⟨broken, pieces⟩ := alike_branches alike
  dsimp only
  rw [← firsts.broken, ← broken]
  refine .ite (fun _ => .stuck) fun _ => .ok ⟨?_, rfl, atf⟩
  rw [Alts.ofList_fold, Alts.ofList_fold, firsts.piece, pieces]

theorem parseExpr_outcome (fuel : Nat) : ExprAlike p p' (parseExpr p fuel) (parseExpr p' fuel) := by
  induction fuel with
  | zero => exact fun _ _ _ => .stuck
  | succ fuel ih =>
    intro c at' opens
    rw [parseExpr, parseExpr]
    have step := at'.mark opens (by decide)
    refine Outcome.bind (Q := fun n n' d => n = n' ∧ At p p' .outside d) (.ok ⟨rfl, step⟩) fun n n' d both => ?_
    obtain ⟨rfl, atd⟩ := both
    refine (parseExprWith_outcome same ih (some n) fuel atd).bind fun r r' e alike => ?_
    obtain ⟨a, nullable⟩ := r
    obtain ⟨a', nullable'⟩ := r'
    obtain ⟨folds, rfl, ate⟩ := alike
    exact .ok ⟨congrArg (Piece.group n) folds, rfl, ate⟩

theorem parseWith_outcome (fuel : Nat) {c : Scanner} (at' : At p p' .outside c) :
    Outcome (fun a a' _ => a.fold = a'.fold) (parseWith p fuel c) (parseWith p' fuel c) := by
  unfold parseWith
  have outer : Outcome (fun r r' d => r.1.fold = r'.1.fold ∧ r.2 = r'.2 ∧ At p p' .outside d)
      (parseOutermost p fuel c) (parseOutermost p' fuel c) := by
    unfold parseOutermost
    rw [change_bind, change_bind]
    exact parseExprWith_outcome same (parseExpr_outcome same fuel) none fuel at'
  refine outer.bind fun r r' d alike => ?_
  obtain ⟨a, nullable⟩ := r
  obtain ⟨a', nullable'⟩ := r'
  obtain ⟨folds, -, atd⟩ := alike
  have whole : Outcome (fun _ _ _ => True) (readAll p d) (readAll p' d) := by
    unfold readAll
    rw [current_bind, current_bind, ← same.length]
    refine .ite (fun _ => .ok trivial) fun _ => ?_
    rw [peek_bind, peek_bind]
    simp only [← patternAt_iff same ')'.toUInt8 (by decide) (by decide) d.patternIdx]
    split
    · exact .failed _ _
    · exact .failed _ _
  exact whole.bind fun _ _ _ _ => .ok folds

end Variants

/-! ### Searching with a pattern -/

theorem nodeAt_fold (p : Program) (node : Int) : Program.nodeAt (p.map Node.fold) node = (p.nodeAt node).fold := by
  unfold Program.nodeAt
  rw [List.getD_eq_getElem?_getD, List.getD_eq_getElem?_getD, List.getElem?_map]
  cases p[node.toNat]? with
  | none => rfl
  | some n => rfl

theorem compiledPrefix_fold (p : Program) :
    compiledPrefix (p.map Node.fold) = (compiledPrefix p).map fun text => text.map tolower := by
  have branches : ∀ op : Op, op.fold.isBranch = op.isBranch := fun op => by cases op <;> rfl
  have ends : ∀ op : Op, op.fold.isEnd = op.isEnd := fun op => by cases op <;> rfl
  unfold compiledPrefix
  rw [nodeAt_fold, nodeAt_fold, nodeAt_fold]
  simp only [Node.fold, branches, ends]
  split
  · cases (Program.nodeAt p 1).op with
    | opAtom text => rfl
    | _ => rfl
  · rfl

/-- `ContainedIn` of an `RE` made from a pattern. One that does not compile has no program, and finds nothing. -/
def search (pattern : Bytes) (flags : MatchFlags) (text : Bytes) (fuel : Nat) (i : Int) : Option (Option Captures) :=
  match compile pattern fuel with
  | some (some c, _) => Matcher.containedIn ⟨c.program, flags, text⟩ c.fPrefix fuel i
  | some (none, _) => some none
  | none => none

theorem fPrefix_fold {a a' : Alts} (folds : a.fold = a'.fold) : SameFold a.compiled.fPrefix a'.compiled.fPrefix := by
  have literals : (compiledPrefix a.program).map (fun text => text.map tolower) =
      (compiledPrefix a'.program).map fun text => text.map tolower := by
    rw [← compiledPrefix_fold, ← compiledPrefix_fold, ← a.program_fold, ← a'.program_fold, folds]
  unfold Compiled.fPrefix
  refine SameFold.cstr ?_
  change SameFold ((compiledPrefix a.program).getD []) ((compiledPrefix a'.program).getD [])
  cases first : compiledPrefix a.program with
  | none =>
    rw [first] at literals
    rw [Option.map_eq_none_iff.mp literals.symm]
    rfl
  | some text =>
    rw [first] at literals
    obtain ⟨text', is, same⟩ := Option.map_eq_some_iff.mp literals.symm
    rw [is]
    exact same.symm

end Coast.Regex
