import Coast.Regex.Progress
import Coast.Regex.Matching

/-!
# What the parser guarantees

The parser rejects a closure of an operand that could match the empty text, and it numbers the
parentheses so that a number belongs to one expression only, however often a repetition copies it.
-/

namespace Coast.Regex

open Scan

/-! ### Nullable expressions -/

section Nullable

variable (blank : Bytes → Bool)

def Op.nullable : Op → Bool
  | .opAny | .opAnyof _ => false
  | .opAtom text => blank text
  | _ => true

mutual

def Piece.nullable : Piece → Bool
  | .nothing => true
  | .simple op => op.nullable blank
  | .group _ a => a.nullable
  | .question _ | .star _ | .reluctantMaybe _ | .reluctantStar _ => true
  | .plus x | .reluctantPlus x => x.nullable
  | .chain x y => x.nullable && y.nullable

def Alts.nullable : Alts → Bool
  | .last b => b.nullable
  | .alt b rest => b.nullable || rest.nullable

end

end Nullable

mutual

def Piece.Loops (P : Piece → Prop) : Piece → Prop
  | .nothing | .simple _ => True
  | .group _ a => a.Loops P
  | .question x | .reluctantMaybe x => x.Loops P
  | .star x | .plus x | .reluctantStar x | .reluctantPlus x => P x ∧ x.Loops P
  | .chain x y => x.Loops P ∧ y.Loops P

def Alts.Loops (P : Piece → Prop) : Alts → Prop
  | .last b => b.Loops P
  | .alt b rest => b.Loops P ∧ rest.Loops P

end

mutual

theorem Piece.Loops.imp₂ {P Q R : Piece → Prop} (implies : ∀ x, P x → Q x → R x) (p : Piece) (first : p.Loops P) (second : p.Loops Q) :
    p.Loops R := by
  match p with
  | .nothing | .simple _ => trivial
  | .group _ a => exact Alts.Loops.imp₂ implies a first second
  | .question x | .reluctantMaybe x => exact Piece.Loops.imp₂ implies x first second
  | .star x | .plus x | .reluctantStar x | .reluctantPlus x =>
    exact ⟨implies x first.1 second.1, Piece.Loops.imp₂ implies x first.2 second.2⟩
  | .chain x y => exact ⟨Piece.Loops.imp₂ implies x first.1 second.1, Piece.Loops.imp₂ implies y first.2 second.2⟩

theorem Alts.Loops.imp₂ {P Q R : Piece → Prop} (implies : ∀ x, P x → Q x → R x) (a : Alts) (first : a.Loops P) (second : a.Loops Q) :
    a.Loops R := by
  match a with
  | .last b => exact Piece.Loops.imp₂ implies b first second
  | .alt b rest => exact ⟨Piece.Loops.imp₂ implies b first.1 second.1, Alts.Loops.imp₂ implies rest first.2 second.2⟩

end

/-! ### Parentheses -/

mutual

def Piece.Has : Piece → Nat → Alts → Prop
  | .nothing, _, _ | .simple _, _, _ => False
  | .group number a, k, b => (number = k ∧ a = b) ∨ a.Has k b
  | .question x, k, b | .star x, k, b | .plus x, k, b => x.Has k b
  | .reluctantMaybe x, k, b | .reluctantStar x, k, b | .reluctantPlus x, k, b => x.Has k b
  | .chain x y, k, b => x.Has k b ∨ y.Has k b

def Alts.Has : Alts → Nat → Alts → Prop
  | .last p, k, b => p.Has k b
  | .alt p rest, k, b => p.Has k b ∨ rest.Has k b

end

/-- What holds of an expression that was read while the count of parentheses went from `low` to `high`, given
by its parentheses, its terminals and the operands of its loops. -/
structure Sane (has : Nat → Alts → Prop) (all : (Op → Prop) → Prop) (loops : (Piece → Prop) → Prop) (low high : Nat) : Prop where
  counted : low ≤ high
  within : ∀ k b, has k b → low ≤ k ∧ k < high
  unique : ∀ k b b', has k b → has k b' → b = b'
  simple : all fun op => op.isSimple = true
  literal : all fun op => ∀ text, op = .opAtom text → text ≠ []
  consuming : loops fun x => x.nullable List.isEmpty = false

def Piece.Sane (p : Piece) (low high : Nat) : Prop := Regex.Sane p.Has (fun P => p.All P) (fun P => p.Loops P) low high

def Alts.Sane (a : Alts) (low high : Nat) : Prop := Regex.Sane a.Has (fun P => a.All P) (fun P => a.Loops P) low high

def SaneList (l : List Piece) (low high : Nat) : Prop :=
  Regex.Sane (fun k b => ∃ p ∈ l, p.Has k b) (fun P => ∀ p ∈ l, p.All P) (fun P => ∀ p ∈ l, p.Loops P) low high

section Sane

variable {has has' : Nat → Alts → Prop} {all all' : (Op → Prop) → Prop} {loops loops' : (Piece → Prop) → Prop}
  {low middle high : Nat}

theorem Sane.congr (sane : Sane has all loops low high) (hhas : ∀ k b, has' k b → has k b) (hall : ∀ P, all P → all' P)
    (hloops : ∀ P, loops P → loops' P) : Sane has' all' loops' low high where
  counted := sane.counted
  within k b is := sane.within k b (hhas k b is)
  unique k b b' is is' := sane.unique k b b' (hhas k b is) (hhas k b' is')
  simple := hall _ sane.simple
  literal := hall _ sane.literal
  consuming := hloops _ sane.consuming

theorem Sane.join (first : Sane has all loops low middle) (second : Sane has' all' loops' middle high) :
    Sane (fun k b => has k b ∨ has' k b) (fun P => all P ∧ all' P) (fun P => loops P ∧ loops' P) low high where
  counted := Nat.le_trans first.counted second.counted
  within := by
    have := first.counted
    have := second.counted
    rintro k b (is | is)
    · have := first.within k b is
      omega
    · have := second.within k b is
      omega
  unique := by
    rintro k b b' (is | is) (is' | is')
    · exact first.unique k b b' is is'
    · have := first.within k b is
      have := second.within k b' is'
      omega
    · have := second.within k b is
      have := first.within k b' is'
      omega
    · exact second.unique k b b' is is'
  simple := ⟨first.simple, second.simple⟩
  literal := ⟨first.literal, second.literal⟩
  consuming := ⟨first.consuming, second.consuming⟩

theorem saneList_nil (n : Nat) : SaneList [] n n where
  counted := Nat.le_refl n
  within := fun _ _ ⟨_, is, _⟩ => by cases is
  unique := fun _ _ _ ⟨_, is, _⟩ => by cases is
  simple := fun _ is => by cases is
  literal := fun _ is => by cases is
  consuming := fun _ is => by cases is

theorem SaneList.concat {l : List Piece} {p : Piece} (first : SaneList l low middle) (second : p.Sane middle high) :
    SaneList (l ++ [p]) low high := by
  refine Sane.congr (Sane.join first second) ?_ ?_ ?_
  · rintro k b ⟨x, is, has⟩
    rcases List.mem_append.mp is with is | is
    · exact .inl ⟨x, is, has⟩
    · rw [List.mem_singleton.mp is] at has
      exact .inr has
  · rintro P ⟨each, last⟩ x is
    rcases List.mem_append.mp is with is | is
    · exact each x is
    · rw [List.mem_singleton.mp is]
      exact last
  · rintro P ⟨each, last⟩ x is
    rcases List.mem_append.mp is with is | is
    · exact each x is
    · rw [List.mem_singleton.mp is]
      exact last

theorem Piece.has_ofList {l : List Piece} {k : Nat} {b : Alts} (has : (Piece.ofList l).Has k b) : ∃ p ∈ l, p.Has k b := by
  match l with
  | [] => cases has
  | [p] => exact ⟨p, List.mem_singleton_self p, has⟩
  | p :: q :: l =>
    rcases has with has | has
    · exact ⟨p, List.mem_cons_self, has⟩
    · obtain ⟨x, is, has⟩ := Piece.has_ofList has
      exact ⟨x, List.mem_cons_of_mem _ is, has⟩

theorem Piece.all_ofList {P : Op → Prop} {l : List Piece} (each : ∀ p ∈ l, p.All P) : (Piece.ofList l).All P := by
  match l with
  | [] => trivial
  | [p] => exact each p (List.mem_singleton_self p)
  | p :: q :: l =>
    exact ⟨each p List.mem_cons_self, Piece.all_ofList fun x is => each x (List.mem_cons_of_mem _ is)⟩

theorem Piece.loops_ofList {P : Piece → Prop} {l : List Piece} (each : ∀ p ∈ l, p.Loops P) : (Piece.ofList l).Loops P := by
  match l with
  | [] => trivial
  | [p] => exact each p (List.mem_singleton_self p)
  | p :: q :: l =>
    exact ⟨each p List.mem_cons_self, Piece.loops_ofList fun x is => each x (List.mem_cons_of_mem _ is)⟩

theorem Piece.nullable_ofList (blank : Bytes → Bool) (l : List Piece) :
    (Piece.ofList l).nullable blank = l.all (·.nullable blank) := by
  match l with
  | [] => rfl
  | [p] => rw [Piece.ofList, List.all_cons, List.all_nil, Bool.and_true]
  | p :: q :: l =>
    show (Piece.chain p (Piece.ofList (q :: l))).nullable blank = _
    rw [Piece.nullable, Piece.nullable_ofList blank (q :: l), List.all_cons (a := p)]

theorem SaneList.piece {l : List Piece} (sane : SaneList l low high) : (Piece.ofList l).Sane low high :=
  Sane.congr sane (fun _ _ => Piece.has_ofList) (fun _ => Piece.all_ofList) (fun _ => Piece.loops_ofList)

theorem Alts.has_ofList {p : Piece} {l : List Piece} {k : Nat} {b : Alts} (has : (Alts.ofList p l).Has k b) :
    p.Has k b ∨ ∃ x ∈ l, x.Has k b := by
  induction l generalizing p with
  | nil => exact .inl has
  | cons q l ih =>
    rcases has with has | has
    · exact .inl has
    · right
      rcases ih has with has | ⟨x, is, has⟩
      · exact ⟨q, List.mem_cons_self, has⟩
      · exact ⟨x, List.mem_cons_of_mem _ is, has⟩

theorem Alts.all_ofList {P : Op → Prop} {p : Piece} {l : List Piece} (first : p.All P) (each : ∀ x ∈ l, x.All P) :
    (Alts.ofList p l).All P := by
  induction l generalizing p with
  | nil => exact first
  | cons q l ih =>
    exact ⟨first, ih (each q List.mem_cons_self) fun x is => each x (List.mem_cons_of_mem _ is)⟩

theorem Alts.loops_ofList {P : Piece → Prop} {p : Piece} {l : List Piece} (first : p.Loops P) (each : ∀ x ∈ l, x.Loops P) :
    (Alts.ofList p l).Loops P := by
  induction l generalizing p with
  | nil => exact first
  | cons q l ih =>
    exact ⟨first, ih (each q List.mem_cons_self) fun x is => each x (List.mem_cons_of_mem _ is)⟩

theorem Alts.nullable_ofList (blank : Bytes → Bool) (p : Piece) (l : List Piece) :
    (Alts.ofList p l).nullable blank = (p.nullable blank || l.any (·.nullable blank)) := by
  induction l generalizing p with
  | nil => rw [Alts.ofList, Alts.nullable, List.any_nil, Bool.or_false]
  | cons q l ih => rw [Alts.ofList, Alts.nullable, ih, List.any_cons]

theorem Sane.alts {p : Piece} {l : List Piece} (first : p.Sane low middle) (others : SaneList l middle high) :
    (Alts.ofList p l).Sane low high :=
  Sane.congr (Sane.join first others) (fun _ _ => Alts.has_ofList) (fun _ both => Alts.all_ofList both.1 both.2)
    (fun _ both => Alts.loops_ofList both.1 both.2)

theorem Piece.sane_simple {op : Op} (simple : op.isSimple = true) (literal : ∀ text, op = .opAtom text → text ≠ []) (n : Nat) :
    (Piece.simple op).Sane n n :=
  ⟨Nat.le_refl n, fun _ _ is => is.elim, fun _ _ _ is => is.elim, simple, literal, trivial⟩

theorem Alts.Sane.group {a : Alts} (sane : a.Sane (low + 1) high) : (Piece.group low a).Sane low high where
  counted := Nat.le_of_succ_le sane.counted
  within := by
    have := sane.counted
    rintro k b (⟨rfl, -⟩ | is)
    · omega
    · have := sane.within k b is
      omega
  unique := by
    rintro k b b' (⟨rfl, rfl⟩ | is) (⟨same, rfl⟩ | is')
    · rfl
    · have := (sane.within _ b' is').1
      omega
    · have := (sane.within _ b is).1
      omega
    · exact sane.unique k b b' is is'
  simple := sane.simple
  literal := sane.literal
  consuming := sane.consuming

theorem Piece.Sane.closureOf {x : Piece} (sane : x.Sane low high) (consumes : x.nullable List.isEmpty = false)
    (closureType : UInt8) (reluctant : Bool) : (closureOf closureType reluctant x).Sane low high := by
  have loop : x.Loops (fun x => x.nullable List.isEmpty = false) := sane.consuming
  unfold Regex.closureOf
  repeat' split
  all_goals exact ⟨sane.counted, sane.within, sane.unique, sane.simple, sane.literal, by first | exact loop | exact ⟨consumes, loop⟩⟩

theorem Piece.nullable_closureOf {x : Piece} (consumes : x.nullable List.isEmpty = false) (closureType : UInt8)
    (reluctant : Bool) (is : closureType = '?'.toUInt8 ∨ closureType = '*'.toUInt8 ∨ closureType = '+'.toUInt8) :
    (Regex.closureOf closureType reluctant x).nullable List.isEmpty = decide (closureType ≠ '+'.toUInt8) := by
  rcases is with rfl | rfl | rfl
  · cases reluctant <;> rfl
  · cases reluctant <;> rfl
  · cases reluctant
    · exact consumes
    · exact consumes

/-! ### Repetitions -/

theorem Piece.has_copies {x y : Piece} {k : Nat} {b : Alts} (n : Nat) (has : (Piece.copies x n y).Has k b) :
    x.Has k b ∨ y.Has k b := by
  induction n with
  | zero => exact .inr has
  | succ n ih =>
    rcases has with has | has
    · exact .inl has
    · exact ih has

theorem Piece.all_copies {P : Op → Prop} {x y : Piece} (n : Nat) (first : x.All P) (last : y.All P) :
    (Piece.copies x n y).All P := by
  induction n with
  | zero => exact last
  | succ n ih => exact ⟨first, ih⟩

theorem Piece.loops_copies {P : Piece → Prop} {x y : Piece} (n : Nat) (first : x.Loops P) (last : y.Loops P) :
    (Piece.copies x n y).Loops P := by
  induction n with
  | zero => exact last
  | succ n ih => exact ⟨first, ih⟩

theorem Piece.nullable_copies {blank : Bytes → Bool} {x : Piece} (consumes : x.nullable blank = false) (n : Nat) (y : Piece) :
    (Piece.copies x n y).nullable blank = (decide (n = 0) && y.nullable blank) := by
  cases n with
  | zero => rw [Piece.copies, decide_eq_true rfl, Bool.true_and]
  | succ n => rw [Piece.copies, Piece.nullable, consumes, Bool.false_and, decide_eq_false (by omega), Bool.false_and]

theorem Piece.nullable_copies_true {blank : Bytes → Bool} {x y : Piece} (skips : x.nullable blank = true)
    (skips' : y.nullable blank = true) (n : Nat) : (Piece.copies x n y).nullable blank = true := by
  induction n with
  | zero => exact skips'
  | succ n ih => rw [Piece.copies, Piece.nullable, skips, ih, Bool.true_and]

theorem Piece.Sane.repeated {x : Piece} (sane : x.Sane low high) (consumes : x.nullable List.isEmpty = false) (minimum : Nat)
    (optionalRepetition : Option Nat) : (repeated x minimum optionalRepetition).Sane low high := by
  match optionalRepetition with
  | none =>
    have closed : (Piece.star x).Sane low high :=
      ⟨sane.counted, sane.within, sane.unique, sane.simple, sane.literal, consumes, sane.consuming⟩
    exact ⟨sane.counted, fun k b has => closed.within k b ((Piece.has_copies _ has).elim id id),
      fun k b b' has has' => closed.unique k b b' ((Piece.has_copies _ has).elim id id) ((Piece.has_copies _ has').elim id id),
      Piece.all_copies _ sane.simple sane.simple, Piece.all_copies _ sane.literal sane.literal,
      Piece.loops_copies _ sane.consuming closed.consuming⟩
  | some 0 =>
    exact Regex.Sane.congr sane (fun _ _ has => (Piece.has_copies _ has).elim id id) (fun _ all => Piece.all_copies _ all all)
      (fun _ loops => Piece.loops_copies _ loops loops)
  | some (repetitions + 1) =>
    refine Regex.Sane.congr sane (fun _ _ has => (Piece.has_copies _ has).elim id fun has => (Piece.has_copies _ has).elim id id)
      (fun _ all => Piece.all_copies _ all (Piece.all_copies _ all all))
      (fun _ loops => Piece.loops_copies _ loops (Piece.loops_copies _ loops loops))

theorem Piece.nullable_repeated {x : Piece} (consumes : x.nullable List.isEmpty = false) {minimum : Nat}
    {optionalRepetition : Option Nat} (some' : optionalRepetition = some 0 → minimum ≠ 0) :
    (repeated x minimum optionalRepetition).nullable List.isEmpty = decide (minimum = 0) := by
  match optionalRepetition with
  | none => rw [Regex.repeated, Piece.nullable_copies consumes, Piece.nullable, Bool.and_true]
  | some 0 => rw [Regex.repeated, Piece.nullable_copies consumes, consumes, Bool.and_false, decide_eq_false (some' rfl)]
  | some (repetitions + 1) =>
    have skips : (Piece.question x).nullable List.isEmpty = true := rfl
    rw [Regex.repeated, Piece.nullable_copies consumes, Piece.nullable_copies_true skips skips, Bool.and_true]

end Sane

/-! ### Scanners do not count -/

def Uncounted {α : Type} (x : Scan α) : Prop := ∀ c a d, x c = some (some a, d) → d.nofParentheses = c.nofParentheses

namespace Uncounted

variable {α β : Type} {x y : Scan α} {f : α → Scan β}

theorem pure (a : α) : Uncounted (pure a : Scan α) := fun _ _ _ done => by cases done; rfl

theorem failure : Uncounted (failure : Scan α) := fun _ _ _ done => by cases done

theorem stuck : Uncounted (stuck : Scan α) := fun _ _ _ done => by cases done

theorem current : Uncounted current := fun _ _ _ done => by cases done; rfl

theorem peek {pattern : Bytes} : Uncounted (peek pattern) := fun _ _ _ done => by cases done; rfl

theorem atEnd {pattern : Bytes} : Uncounted (atEnd pattern) := fun _ _ _ done => by cases done; rfl

theorem advance {n : Nat} : Uncounted (advance n) := fun _ _ _ done => by cases done; rfl

theorem rewind {i : Nat} : Uncounted (change fun c => { c with patternIdx := i }) := fun _ _ _ done => by cases done; rfl

theorem syntaxError {s : String} : Uncounted (syntaxError s) := fun _ _ _ done => by cases done; rfl

theorem bind (first : Uncounted x) (rest : ∀ a, Uncounted (f a)) : Uncounted (x >>= f) := by
  intro c b d done
  obtain ⟨a, e, here, later⟩ := bind_ok done
  rw [rest a e b d later, first c a e here]

theorem ite {c : Prop} [Decidable c] (yes : Uncounted x) (no : Uncounted y) : Uncounted (if c then x else y) := by
  split
  · exact yes
  · exact no

theorem error {s : String} : Uncounted (Regex.syntaxError s >>= fun _ => (Scan.failure : Scan α)) :=
  syntaxError.bind fun _ => failure

end Uncounted

section Scanners

variable (pattern : Bytes)

theorem readNumber_uncounted (dflt : Int) : Uncounted (readNumber pattern dflt) := by
  refine Uncounted.peek.bind fun _ => .ite ?_ ?_
  · exact Uncounted.current.bind fun _ => Uncounted.advance.bind fun _ => .pure _
  · exact Uncounted.syntaxError.bind fun _ => .pure _

theorem bracket_uncounted : Uncounted (bracket pattern) := by
  refine Uncounted.advance.bind fun _ => (readNumber_uncounted pattern 1).bind fun _ => Uncounted.peek.bind fun _ =>
    .ite (Uncounted.advance.bind fun _ => .pure _) ?_
  refine Uncounted.peek.bind fun _ => Uncounted.advance.bind fun _ => .ite .error ?_
  refine Uncounted.peek.bind fun _ => .ite (Uncounted.advance.bind fun _ => .pure _) ?_
  refine (readNumber_uncounted pattern _).bind fun _ => .ite .error ?_
  exact Uncounted.peek.bind fun _ => Uncounted.advance.bind fun _ => .ite .error (.pure _)

theorem hexDigits_uncounted (left : Nat) (val : Int) : Uncounted (hexDigits pattern left val) := by
  induction left generalizing val with
  | zero => exact .pure _
  | succ left ih =>
    refine Uncounted.atEnd.bind fun _ => .ite (.pure _) (Uncounted.peek.bind fun _ => .ite ?_ ?_)
    · exact Uncounted.advance.bind fun _ => ih _
    · exact Uncounted.syntaxError.bind fun _ => .pure _

theorem octalDigit_uncounted (val : Int) : Uncounted (octalDigit pattern val) :=
  Uncounted.peek.bind fun _ => Uncounted.advance.bind fun _ => .pure _

theorem escape_uncounted : Uncounted (escape pattern) := by
  refine Uncounted.current.bind fun _ => .ite (Uncounted.syntaxError.bind fun _ => .pure _) ?_
  refine Uncounted.advance.bind fun _ => .ite (.pure _) (.ite (.pure _) (.ite (hexDigits_uncounted pattern 2 0) ?_))
  refine .ite (.pure _) (.ite (.pure _) (.ite (.pure _) (.ite (.pure _) (.ite ?_ (.ite (.pure _) (.pure _))))))
  refine Uncounted.peek.bind fun _ => .ite ?_ (.ite (.pure _) (.pure _))
  refine (octalDigit_uncounted pattern _).bind fun _ => Uncounted.peek.bind fun _ => .ite ?_ (.pure _)
  exact (octalDigit_uncounted pattern _).bind fun _ => .pure _

theorem simpleChar_uncounted (s : ClassState) (char : UInt8) : Uncounted (simpleChar pattern s char) :=
  .ite (.ite .error (.pure _)) (Uncounted.current.bind fun _ => .ite (.pure _) (.pure _))

theorem classEscape_uncounted (s : ClassState) : Uncounted (classEscape pattern s) :=
  .ite .error (Uncounted.current.bind fun _ => .ite (.pure _) (.ite (.pure _) (.ite (.pure _) .error)))

theorem classStep_uncounted (idxFirst : Nat) (s : ClassState) : Uncounted (classStep pattern idxFirst s) := by
  have char : ∀ s ch, Uncounted (do return some (← simpleChar pattern s ch)) := fun s ch =>
    (simpleChar_uncounted pattern s ch).bind fun _ => .pure _
  refine Uncounted.atEnd.bind fun _ => .ite (.pure _) (Uncounted.current.bind fun _ => Uncounted.peek.bind fun _ => .ite ?_ ?_)
  · exact .ite (Uncounted.advance.bind fun _ => char _ _) (.pure _)
  refine .ite (.ite (Uncounted.advance.bind fun _ => .pure _) (char _ _)) (.ite ?_ (.ite ?_ ?_))
  · refine (escape_uncounted pattern).bind fun e => ?_
    cases e with
    | char value => exact char _ _
    | cls => exact (classEscape_uncounted pattern s).bind fun _ => .pure _
    | backref | complex | error => exact .error
  · refine .ite (Uncounted.advance.bind fun _ => char _ _) (.ite (Uncounted.advance.bind fun _ => ?_) (.pure _))
    exact Uncounted.peek.bind fun _ => .ite (char _ _) (.pure _)
  · exact Uncounted.advance.bind fun _ => char _ _

theorem classLoop_uncounted (idxFirst fuel : Nat) (s : ClassState) : Uncounted (classLoop pattern idxFirst fuel s) := by
  induction fuel generalizing s with
  | zero => exact .stuck
  | succ fuel ih =>
    refine (classStep_uncounted pattern idxFirst s).bind fun r => ?_
    cases r with
    | none => exact .pure _
    | some s => exact ih s

theorem posixSet_uncounted : Uncounted (posixSet pattern) := by
  refine Uncounted.current.bind fun _ => Uncounted.advance.bind fun _ => Uncounted.current.bind fun _ => .ite ?_ .error
  split
  · exact Uncounted.advance.bind fun _ => .pure _
  · exact Uncounted.syntaxError.bind fun _ => .error

theorem parseClass_uncounted (fuel : Nat) : Uncounted (parseClass pattern fuel) := by
  refine Uncounted.advance.bind fun _ => Uncounted.atEnd.bind fun _ => .ite .error (Uncounted.peek.bind fun _ => .ite ?_ ?_)
  · exact Uncounted.advance.bind fun _ => posixSet_uncounted pattern
  · rw [parseClassSet_eq]
    refine Uncounted.current.bind fun c => (classLoop_uncounted pattern c.patternIdx fuel .start).bind fun _ => ?_
    exact Uncounted.atEnd.bind fun _ => .ite .error (Uncounted.advance.bind fun _ => .pure _)

theorem lookAhead_uncounted : Uncounted (lookAhead pattern) := by
  refine Uncounted.current.bind fun _ => .ite (.pure _) (.ite (.pure _) ((escape_uncounted pattern).bind fun _ => .ite .failure ?_))
  exact Uncounted.current.bind fun _ => Uncounted.rewind.bind fun _ => .pure _

theorem atomStep_uncounted (text : Bytes) : Uncounted (atomStep pattern text) := by
  refine Uncounted.atEnd.bind fun _ => .ite (.pure _) ((lookAhead_uncounted pattern).bind fun _ => .ite (.pure _) ?_)
  refine Uncounted.current.bind fun _ => Uncounted.peek.bind fun _ => .ite (.pure _) (.ite (.ite .error (.pure _)) (.ite ?_ ?_))
  · refine (escape_uncounted pattern).bind fun e => ?_
    cases e with
    | char value => exact .ite (Uncounted.rewind.bind fun _ => .pure _) (.pure _)
    | backref | complex | cls | error => exact Uncounted.rewind.bind fun _ => .pure _
  · exact Uncounted.advance.bind fun _ => .pure _

theorem atomText_uncounted (fuel : Nat) : Uncounted (atomText pattern fuel) := by
  have loop : ∀ fuel text, Uncounted (atomLoop pattern fuel text) := by
    intro fuel
    induction fuel with
    | zero => exact fun _ => .stuck
    | succ fuel ih =>
      intro text
      refine (atomStep_uncounted pattern text).bind fun r => ?_
      cases r with
      | none => exact .pure _
      | some text => exact ih text
  exact (loop fuel []).bind fun _ => .ite .failure (.pure _)

end Scanners

/-! ### The parser -/

def Yields {α : Type} (x : Scan α) (P : Scanner → α → Scanner → Prop) : Prop := ∀ c a d, x c = some (some a, d) → P c a d

namespace Yields

variable {α β : Type} {x y : Scan α} {f : α → Scan β} {P : Scanner → α → Scanner → Prop} {Q : Scanner → β → Scanner → Prop}

theorem failure : Yields (failure : Scan α) P := fun _ _ _ done => by cases done

theorem stuck : Yields (stuck : Scan α) P := fun _ _ _ done => by cases done

theorem error {s : String} : Yields (Regex.syntaxError s >>= fun _ => (Scan.failure : Scan α)) P := fun _ _ _ done => by cases done

theorem ite {c : Prop} [Decidable c] (yes : c → Yields x P) (no : ¬c → Yields y P) : Yields (if c then x else y) P := by
  split
  · exact yes ‹_›
  · exact no ‹_›

end Yields

def ReadPiece (c : Scanner) (r : Piece × Bool) (d : Scanner) : Prop :=
  r.1.Sane c.nofParentheses d.nofParentheses ∧ r.1.nullable List.isEmpty = r.2

def ReadTerminal (c : Scanner) (r : Terminal × Bool) (d : Scanner) : Prop := ReadPiece c (r.1.piece, r.2) d

theorem readTerminal_after {α : Type} {x : Scan α} (same : Uncounted x) {f : α → Scan (Terminal × Bool)}
    (rest : ∀ a, Yields (f a) ReadTerminal) : Yields (x >>= f) ReadTerminal := by
  intro c r d done
  obtain ⟨a, e, here, later⟩ := bind_ok done
  have read := rest a e r d later
  rwa [ReadTerminal, ReadPiece, same c a e here] at read

theorem readTerminal_node {op : Op} {isnullable : Bool} (simple : op.isSimple = true) (literal : ∀ text, op ≠ .opAtom text)
    (flag : op.nullable List.isEmpty = isnullable) : Yields (pure (Terminal.simple op, isnullable)) ReadTerminal := by
  intro c r d done
  cases done
  exact ⟨Piece.sane_simple simple (fun text is => absurd is (literal text)) _, flag⟩

theorem isClosure_cases {c : UInt8} (closure : isClosure c = true) :
    c = '\x7b'.toUInt8 ∨ c = '?'.toUInt8 ∨ c = '*'.toUInt8 ∨ c = '+'.toUInt8 := by
  revert closure
  exact forall_byte (by decide) c

section Parser

variable (pattern : Bytes) {expr : Scan (Terminal × Bool)} (inner : Yields expr ReadTerminal)

theorem atomText_yields (fuel : Nat) :
    Yields (atomText pattern fuel >>= fun text => pure (Terminal.simple (.opAtom text), false)) ReadTerminal := by
  intro c r d done
  obtain ⟨text, e, here, later⟩ := bind_ok done
  cases later
  have nonempty : text ≠ [] := by
    obtain ⟨text', e', -, last⟩ := bind_ok here
    split at last
    · cases last
    · cases last
      assumption
  refine ⟨?_, ?_⟩
  · rw [atomText_uncounted pattern fuel c text _ here]
    refine Piece.sane_simple rfl ?_ _
    intro text' same
    cases same
    exact nonempty
  · show text.isEmpty = false
    rwa [List.isEmpty_eq_false_iff]

include inner

theorem parseTerminal_yields (fuel : Nat) : Yields (parseTerminal pattern expr fuel) ReadTerminal := by
  have fork : ∀ {q : Prop} [Decidable q] {x y : Scan (Terminal × Bool)}, Yields x ReadTerminal → Yields y ReadTerminal →
      Yields (if q then x else y) ReadTerminal := fun yes no => .ite (fun _ => yes) (fun _ => no)
  have node : ∀ (op : Op) (isnullable : Bool), op.isSimple = true → (∀ text, op ≠ .opAtom text) →
      op.nullable List.isEmpty = isnullable →
      Yields (advance 1 >>= fun _ => (pure (Terminal.simple op, isnullable) : Scan (Terminal × Bool))) ReadTerminal :=
    fun op isnullable simple literal flag => readTerminal_after .advance fun _ => readTerminal_node simple literal flag
  refine readTerminal_after .current fun start => readTerminal_after .peek fun ch => ?_
  refine fork (node .opEol true rfl nofun rfl) (fork (node .opBol true rfl nofun rfl)
    (fork (node .opAny false rfl nofun rfl) (fork ?_ (fork inner (fork .error (fork .failure (fork .error (fork .error
      (fork ?_ (atomText_yields pattern fuel))))))))))
  · exact readTerminal_after (parseClass_uncounted pattern fuel) fun _ => readTerminal_node rfl nofun rfl
  · refine readTerminal_after (escape_uncounted pattern) fun e => ?_
    cases e with
    | cls => exact readTerminal_after .current fun _ => readTerminal_node rfl nofun rfl
    | complex => exact readTerminal_after .current fun _ => readTerminal_node rfl nofun rfl
    | backref => exact readTerminal_after .current fun _ => fork (readTerminal_node rfl nofun rfl) .error
    | error => exact .failure
    | char _ => exact readTerminal_after .rewind fun _ => atomText_yields pattern fuel

omit inner

theorem asLong_nonneg {c : UInt8} (digit : isdigit c = true) (digits : Bytes) : 0 ≤ asLong (c :: digits) := by
  obtain ⟨space, minus, plus⟩ := digit_not_mark digit
  have unsigned : ∃ n, scanNumber 10 (c :: digits) = (false, n) := by
    rw [scanNumber, List.dropWhile_cons_of_neg (by simp [space])]
    simp [splitSign, minus, plus]
  obtain ⟨n, unsigned⟩ := unsigned
  rw [asLong, strtol, unsigned]
  dsimp only
  split
  · rename_i small
    rw [Int64.toInt_ofNat_of_lt small]
    omega
  · decide

theorem readNumber_nonneg {dflt : Int} (default : 0 ≤ dflt) : Yields (readNumber pattern dflt) fun _ n _ => 0 ≤ n := by
  intro c n d done
  rw [readNumber, peek_bind] at done
  split at done
  · rename_i digit
    cases done
    have inside : c.patternIdx < pattern.length := by
      by_contra beyond
      rw [patternAt, List.getD_eq_getElem?_getD, List.getElem?_eq_none (by omega)] at digit
      cases digit
    rw [patternAt, List.getD_eq_getElem?_getD, List.getElem?_eq_getElem inside, Option.getD_some] at digit
    show 0 ≤ asLong ((pattern.drop c.patternIdx).takeWhile isdigit)
    rw [List.drop_eq_getElem_cons inside, List.takeWhile_cons_of_pos digit]
    exact asLong_nonneg digit _
  · cases done
    exact default

theorem bracket_nonneg : Yields (bracket pattern) fun _ r _ => 0 ≤ r.1 := by
  intro c r d done
  obtain ⟨_, c1, on, done⟩ := bind_ok done
  obtain ⟨minimum, c2, number, done⟩ := bind_ok done
  have low := readNumber_nonneg pattern (by omega) c1 minimum c2 number
  have returned : r.1 = minimum := by
    rw [peek_bind] at done
    split at done
    · cases done
      rfl
    · rw [peek_bind, advance_bind] at done
      split at done
      · cases done
      · rw [peek_bind] at done
        split at done
        · cases done
          rfl
        · obtain ⟨more, c3, -, done⟩ := bind_ok done
          dsimp only at done
          split at done
          · cases done
          · rw [peek_bind, advance_bind] at done
            split at done
            · cases done
            · cases done
              rfl
  rwa [returned]

theorem parseRepetition_yields {x : Terminal} {low : Nat} {c : Scanner} (sane : x.piece.Sane low c.nofParentheses)
    (consumes : x.piece.nullable List.isEmpty = false) {r : Piece × Bool} {d : Scanner}
    (done : parseRepetition pattern x c = some (some r, d)) :
    r.1.Sane low d.nofParentheses ∧ r.1.nullable List.isEmpty = r.2 := by
  obtain ⟨⟨minimum, optionalRepetition⟩, e, here, later⟩ := bind_ok done
  have same := bracket_uncounted pattern c _ e here
  have nonneg : 0 ≤ minimum := bracket_nonneg pattern c _ e here
  dsimp only at later
  split at later
  · cases later
  · rename_i some'
    cases later
    rw [← same] at sane
    refine ⟨sane.repeated consumes _ _, ?_⟩
    rw [Piece.nullable_repeated consumes fun none zero => some' ⟨none, by omega⟩]
    refine decide_eq_decide.mpr ?_ |>.trans (beq_eq_decide minimum 0).symm
    omega

include inner

theorem parseClosure_yields (fuel : Nat) : Yields (parseClosure pattern expr fuel) ReadPiece := by
  intro c r d done
  obtain ⟨⟨x, terminalIsNullable⟩, e, here, done⟩ := bind_ok done
  obtain ⟨sane, flag⟩ := parseTerminal_yields pattern inner fuel c _ e here
  dsimp only at sane flag done
  rw [atEnd_bind] at done
  split at done
  · cases done
    exact ⟨sane, flag⟩
  · rw [peek_bind] at done
    split at done
    · cases done
      exact ⟨sane, flag⟩
    · rename_i closure
      split at done
      · split at done
        · cases done
        · rename_i consumes
          rw [Bool.not_eq_true] at consumes
          exact parseRepetition_yields pattern sane (by rw [flag, consumes]) done
      · rename_i single
        rw [advance_bind] at done
        split at done
        · cases done
        · rename_i consumes
          rw [Bool.not_eq_true] at consumes
          obtain ⟨reluctant, e', mark, done⟩ := bind_ok done
          have same : e'.nofParentheses = e.nofParentheses := by
            have marked : Uncounted (parseMark pattern) :=
              Uncounted.peek.bind fun _ => .ite (Uncounted.advance.bind fun _ => .pure _) (.pure _)
            rw [marked _ _ _ mark]
          cases done
          rw [← same] at sane
          refine ⟨sane.closureOf (by rw [flag, consumes]) _ _, Piece.nullable_closureOf (by rw [flag, consumes]) _ _ ?_⟩
          exact (isClosure_cases (by simpa using closure)).resolve_left single

theorem parsePieces_yields (fuel low : Nat) {s : Sequence} {isnullable : Bool} {c : Scanner}
    (before : SaneList s.pieces low c.nofParentheses) (flag : s.piece.nullable List.isEmpty = isnullable) {r : Sequence × Bool}
    {d : Scanner} (done : parsePieces pattern expr fuel s isnullable c = some (some r, d)) :
    SaneList r.1.pieces low d.nofParentheses ∧ r.1.piece.nullable List.isEmpty = r.2 := by
  induction fuel generalizing s isnullable c with
  | zero => cases done
  | succ fuel ih =>
    rw [parsePieces, peek_bind, atEnd_bind] at done
    split at done
    · cases done
      exact ⟨before, flag⟩
    · obtain ⟨⟨p, closureIsNullable⟩, e, here, done⟩ := bind_ok done
      obtain ⟨sane, flag'⟩ := parseClosure_yields pattern inner fuel c _ e here
      dsimp only at sane flag' done
      split at done
      · cases done
      · refine ih (before.concat sane) ?_ done
        show (Piece.ofList (s.pieces ++ [p])).nullable List.isEmpty = _
        rw [← flag, ← flag', Sequence.piece, Piece.nullable_ofList, Piece.nullable_ofList, List.all_append]
        simp

theorem parseAlternatives_yields (fuel : Nat) {low : Nat} (branches : List Sequence) {isnullable : Bool} (first : Bool)
    {c : Scanner}
    (before : SaneList (branches.map (·.piece)) low c.nofParentheses)
    (flag : (first || (branches.map (·.piece)).any (·.nullable List.isEmpty)) = isnullable) {r : List Sequence × Bool} {d : Scanner}
    (done : parseAlternatives pattern expr fuel branches isnullable c = some (some r, d)) :
    SaneList (r.1.map (·.piece)) low d.nofParentheses ∧
      (first || (r.1.map (·.piece)).any (·.nullable List.isEmpty)) = r.2 := by
  induction fuel generalizing branches isnullable c with
  | zero => cases done
  | succ fuel ih =>
    rw [parseAlternatives, atEnd_bind, peek_bind] at done
    split at done
    · cases done
      exact ⟨before, flag⟩
    · rw [advance_bind] at done
      obtain ⟨⟨s, branchnullable⟩, e, here, done⟩ := bind_ok done
      obtain ⟨sane, flag'⟩ := parsePieces_yields pattern inner fuel c.nofParentheses (saneList_nil _) rfl here
      dsimp only at sane flag' done
      refine ih (branches ++ [s]) ?_ ?_ done
      · rw [List.map_append]
        exact before.concat sane.piece
      · rw [List.map_append, List.any_append, ← flag, ← flag']
        simp [Bool.or_assoc]

theorem parseExprWith_yields (opened : Option Nat) (fuel : Nat) :
    Yields (parseExprWith pattern expr opened fuel) fun c r d =>
      r.1.Sane c.nofParentheses d.nofParentheses ∧ r.1.nullable List.isEmpty = r.2 := by
  intro c r d done
  obtain ⟨⟨first, branchnullable⟩, c1, here, done⟩ := bind_ok done
  obtain ⟨sane, flag⟩ := parsePieces_yields pattern inner fuel c.nofParentheses (saneList_nil _) rfl here
  dsimp only at sane flag done
  obtain ⟨⟨branches, isnullable⟩, c2, others, done⟩ := bind_ok done
  obtain ⟨sanes, flag'⟩ := parseAlternatives_yields pattern inner fuel [] branchnullable (saneList_nil _) (by simp) others
  dsimp only at sanes flag' done
  obtain ⟨_, c3, closed, done⟩ := bind_ok done
  have same : c3.nofParentheses = c2.nofParentheses := by
    cases opened with
    | none =>
      cases closed
      rfl
    | some number =>
      have close : Uncounted (closeParen pattern number) :=
        Uncounted.peek.bind fun _ => .ite (Uncounted.advance.bind fun _ _ _ _ done => by cases done; rfl) .error
      exact close _ _ _ closed
  split at done
  · cases done
  · cases done
    rw [← same] at sanes
    refine ⟨Sane.alts sane.piece sanes, ?_⟩
    rw [Alts.nullable_ofList, ← flag', ← flag]

omit inner

theorem parseExpr_yields (fuel : Nat) : Yields (parseExpr pattern fuel) ReadTerminal := by
  induction fuel with
  | zero => exact .stuck
  | succ fuel ih =>
    intro c r d done
    obtain ⟨number, c1, opens, done⟩ := bind_ok done
    cases opens
    obtain ⟨⟨alts, isnullable⟩, c2, here, done⟩ := bind_ok done
    cases done
    obtain ⟨sane, flag⟩ := parseExprWith_yields pattern ih _ fuel _ _ _ here
    exact ⟨Alts.Sane.group sane, flag⟩

theorem parse_sane {fuel : Nat} {a : Alts} {msg : Bytes} (reads : parse pattern fuel = some (some a, msg)) :
    ∃ high, a.Sane 1 high := by
  unfold parse at reads
  split at reads
  · rename_i res c run
    cases reads
    obtain ⟨⟨alts, isnullable⟩, c1, outer, rest⟩ := bind_ok run
    obtain ⟨_, c2, start, here⟩ := bind_ok outer
    cases start
    obtain ⟨sane, -⟩ := parseExprWith_yields pattern (parseExpr_yields pattern fuel) none fuel _ _ _ here
    obtain ⟨_, c3, -, last⟩ := bind_ok rest
    cases last
    exact ⟨_, sane⟩
  · cases reads

end Parser

end Coast.Regex
