import Mathlib.Data.List.TakeWhile

/-!
# Input streams

A stream is what is left to read and the two bits that end the reading. The loops here go on as long as
the stream is good; when every round reads something or ends the stream, they are done after a bounded
number of rounds.
-/

structure IStream (α : Type*) where
  rest : List α
  eofbit : Bool := false
  failbit : Bool := false

namespace IStream

variable {α σ ρ : Type*}

def good (is : IStream α) : Bool := !is.eofbit && !is.failbit

def on (text : List α) : IStream α := ⟨text, false, false⟩

@[simp] theorem good_on (text : List α) : (on text).good = true := rfl

@[simp] theorem rest_on (text : List α) : (on text).rest = text := rfl

def ended : IStream α := ⟨[], true, false⟩

theorem eq_on {is : IStream α} (good : is.good = true) : is = on is.rest := by
  obtain ⟨rest, eofbit, failbit⟩ := is
  cases eofbit <;> cases failbit <;> first | rfl | cases good

/-! ### Reading -/

/-- `none` is `EOF`. -/
def peek (is : IStream α) : Option α × IStream α :=
  if is.good then
    match is.rest with
    | [] => (none, { is with eofbit := true })
    | c :: _ => (some c, is)
  else (none, { is with failbit := true })

def get (is : IStream α) : Option α × IStream α :=
  if is.good then
    match is.rest with
    | [] => (none, { is with eofbit := true, failbit := true })
    | c :: rest => (some c, { is with rest := rest })
  else (none, { is with failbit := true })

/-- The characters of a text up to a delimiter, `length` at most. -/
def piece [DecidableEq α] (length : Nat) (delim : α) (text : List α) : List α :=
  (text.take length).takeWhile fun c => c ≠ delim

/-- `get(buffer, length + 1, delim)`, which is a failure when nothing is read. -/
def getUntil [DecidableEq α] (is : IStream α) (length : Nat) (delim : α) : List α × IStream α :=
  if is.good then
    let line := piece length delim is.rest
    (line, { is with
      rest := is.rest.drop line.length
      eofbit := is.rest.length == line.length && decide (line.length < length)
      failbit := line.isEmpty })
  else ([], { is with failbit := true })

def read (is : IStream α) (length : Nat) : List α × IStream α :=
  if is.good then
    let short := decide (is.rest.length < length)
    (is.rest.take length, ⟨is.rest.drop length, short, short⟩)
  else ([], { is with failbit := true })

@[simp] theorem peek_on_nil : peek (on ([] : List α)) = (none, ended) := rfl

@[simp] theorem peek_on_cons (c : α) (rest : List α) : peek (on (c :: rest)) = (some c, on (c :: rest)) := rfl

@[simp] theorem get_on_cons (c : α) (rest : List α) : get (on (c :: rest)) = (some c, on rest) := rfl

theorem read_on {text : List α} {length : Nat} (enough : length ≤ text.length) :
    read (on text) length = (text.take length, on (text.drop length)) := by
  simp [read, on, good, Nat.not_lt.mpr enough]

theorem read_on_short {text : List α} {length : Nat} (short : text.length < length) :
    read (on text) length = (text, ⟨[], true, true⟩) := by
  simp [read, on, good, short, List.take_of_length_le short.le, List.drop_of_length_le short.le]

section Piece

variable [DecidableEq α] {length : Nat} {delim : α} {text : List α}

theorem piece_length_le : (piece length delim text).length ≤ length :=
  (List.takeWhile_prefix _).length_le.trans (List.length_take_le length text)

theorem delim_notMem_piece : delim ∉ piece length delim text := fun mem => by
  simpa using List.mem_takeWhile_imp mem

theorem piece_append (length : Nat) {line : List α} (free : delim ∉ line) (fits : line.length ≤ length) (rest : List α) :
    piece length delim (line ++ rest) = line ++ piece (length - line.length) delim rest := by
  have all : ∀ c ∈ line, decide (c ≠ delim) = true := fun c mem => decide_eq_true fun same => free (same ▸ mem)
  rw [piece, List.take_append, List.take_of_length_le fits, List.takeWhile_append_of_pos all]
  rfl

theorem piece_eq {line rest : List α} (free : delim ∉ line) (fits : line.length ≤ length)
    (stops : rest = [] ∨ rest.head? = some delim ∨ line.length = length) : piece length delim (line ++ rest) = line := by
  rw [piece_append length free fits, piece]
  refine (congrArg (line ++ ·) ?_).trans (List.append_nil line)
  obtain rfl | first | full := stops
  · rw [List.take_nil, List.takeWhile_nil]
  · obtain ⟨rest, rfl⟩ := List.head?_eq_some_iff.mp first
    cases length - line.length <;> simp
  · rw [full, Nat.sub_self, List.take_zero, List.takeWhile_nil]

theorem piece_stops (length : Nat) (delim : α) (text : List α) :
    text = piece length delim text ∨ (∃ rest, text = piece length delim text ++ delim :: rest) ∨
      (piece length delim text).length = length ∧ ∃ c rest, c ≠ delim ∧ text = piece length delim text ++ c :: rest := by
  induction text generalizing length with
  | nil => exact .inl (by simp [piece])
  | cons c text ih =>
    cases length with
    | zero =>
      by_cases first : c = delim
      · exact .inr (.inl ⟨text, by simp [piece, first]⟩)
      · exact .inr (.inr ⟨rfl, c, text, first, rfl⟩)
    | succ length =>
      by_cases first : c = delim
      · exact .inr (.inl ⟨text, by simp [piece, first]⟩)
      · have shape : piece (length + 1) delim (c :: text) = c :: piece length delim text := by simp [piece, first]
        rw [shape]
        obtain whole | ⟨rest, stop⟩ | ⟨full, d, rest, other, stop⟩ := ih length
        · exact .inl (congrArg (c :: ·) whole)
        · exact .inr (.inl ⟨rest, congrArg (c :: ·) stop⟩)
        · exact .inr (.inr ⟨congrArg (· + 1) full, d, rest, other, congrArg (c :: ·) stop⟩)

theorem piece_ne_nil {c : α} (pos : 0 < length) (other : c ≠ delim) : piece length delim (c :: text) ≠ [] := by
  obtain ⟨length, rfl⟩ := Nat.exists_eq_succ_of_ne_zero (Nat.ne_of_gt pos)
  simp [piece, other]

theorem getUntil_on {line rest : List α} (read : piece length delim (line ++ rest) = line) (some : line ≠ []) :
    (on (line ++ rest)).getUntil length delim = (line, ⟨rest, rest.isEmpty && decide (line.length < length), false⟩) := by
  unfold getUntil
  rw [good_on, if_pos rfl, rest_on, read]
  have empty : ((line ++ rest).length == line.length) = rest.isEmpty := by cases rest <;> simp
  dsimp only
  rw [List.drop_left, empty, List.isEmpty_eq_false_iff.mpr some]

end Piece

/-! ### Loops -/

inductive Round (α σ ρ : Type*) where
  | done (r : ρ) (is : IStream α)
  | again (s : σ) (is : IStream α)

def whileGood (round : σ → IStream α → Round α σ ρ) : Nat → σ → IStream α → Round α σ ρ
  | 0, s, is => .again s is
  | fuel + 1, s, is =>
    if is.good then
      match round s is with
      | .done r is => .done r is
      | .again s is => whileGood round fuel s is
    else .again s is

/-- `while (is.good())`: the result that a round has left it with, or the variables at its end. -/
def loop (round : σ → IStream α → Round α σ ρ) (s : σ) (is : IStream α) : Round α σ ρ :=
  whileGood round (is.rest.length + 1) s is

def Advances (round : σ → IStream α → Round α σ ρ) : Prop :=
  ∀ s s' is is', is.good = true → round s is = .again s' is' → is'.good = true → is'.rest.length < is.rest.length

variable {round : σ → IStream α → Round α σ ρ}

theorem whileGood_stop (fuel : Nat) (s : σ) {is : IStream α} (bad : is.good = false) :
    whileGood round fuel s is = .again s is := by
  cases fuel with
  | zero => rfl
  | succ fuel => rw [whileGood, bad, if_neg Bool.false_ne_true]

theorem whileGood_enough (advances : Advances round) {fuel more : Nat} (le : fuel ≤ more) (s : σ) {is : IStream α}
    (enough : is.rest.length < fuel) : whileGood round more s is = whileGood round fuel s is := by
  induction fuel generalizing more s is with
  | zero => exact absurd enough (Nat.not_lt_zero _)
  | succ fuel ih =>
    obtain ⟨more, rfl⟩ := Nat.exists_eq_add_of_lt le
    rw [whileGood, whileGood]
    by_cases good : is.good = true
    · rw [if_pos good, if_pos good]
      cases next : round s is with
      | done r is' => rfl
      | again s' is' =>
        dsimp only
        cases still : is'.good with
        | false => rw [whileGood_stop _ s' still, whileGood_stop _ s' still]
        | true =>
          have shorter := advances s s' is is' good next still
          exact ih (Nat.le_add_right fuel more) s' (by omega)
    · rw [if_neg good, if_neg good]

theorem loop_stop (s : σ) {is : IStream α} (bad : is.good = false) : loop round s is = .again s is := whileGood_stop _ s bad

theorem loop_done {s : σ} {is is' : IStream α} {r : ρ} (good : is.good = true) (left : round s is = .done r is') :
    loop round s is = .done r is' := by
  rw [loop, whileGood, if_pos good, left]

theorem loop_again (advances : Advances round) {s s' : σ} {is is' : IStream α} (good : is.good = true)
    (next : round s is = .again s' is') : loop round s is = loop round s' is' := by
  rw [loop, whileGood, if_pos good, next]
  dsimp only
  cases still : is'.good with
  | false => rw [loop_stop s' still, whileGood_stop _ s' still]
  | true => exact whileGood_enough advances (advances s s' is is' good next still) s' (Nat.lt_succ_self _)

/-- The rule for loops: what each round keeps, from the start to the end of the loop or to the round that leaves it. -/
theorem loop_induct (advances : Advances round) {inv : σ → IStream α → Prop} {post : Round α σ ρ → Prop}
    (ended : ∀ s is, inv s is → is.good = false → post (.again s is))
    (left : ∀ s is r is', inv s is → is.good = true → round s is = .done r is' → post (.done r is'))
    (kept : ∀ s s' is is', inv s is → is.good = true → round s is = .again s' is' → inv s' is') {s : σ} {is : IStream α}
    (start : inv s is) : post (loop round s is) := by
  induction size : is.rest.length using Nat.strongRecOn generalizing s is with
  | ind n ih =>
    cases good : is.good with
    | false =>
      rw [loop_stop s good]
      exact ended s is start good
    | true =>
      cases next : round s is with
      | done r is' =>
        rw [loop_done good next]
        exact left s is r is' start good next
      | again s' is' =>
        rw [loop_again advances good next]
        have holds := kept s s' is is' start good next
        cases still : is'.good with
        | false =>
          rw [loop_stop s' still]
          exact ended s' is' holds still
        | true => exact ih is'.rest.length (size ▸ advances s s' is is' good next still) holds rfl

end IStream
