import Coast.Regex.Backtracking
import Coast.Regex.Termination

/-!
# Where the jumps lead

`MatchNodes` reads the offset of a node as a `short`, but nothing in the compiler keeps a program, or one
of its offsets, below 2^15. In the blocks of an expression every offset leads to a node of the block or to
the node behind it; the longest ones are those over an alternative of the whole pattern and from its end
over the alternatives behind it.
-/

namespace Coast.Regex

def Program.Reached (p : Program) (target : Int) : Prop := 0 ≤ target ∧ target < p.length

/-- The offsets are in the range of `short`, and as the interpreter reads them they lead to nodes. -/
def JumpsFit (p : Program) : Prop :=
  ∀ (i : Nat) (n : Node), p[i]? = some n → (-32768 ≤ n.next ∧ n.next ≤ 32767) ∧ p.Reached (i + short n.next)

/-! ### Targets -/

theorem Alts.program_reached (a : Alts) {i : Nat} {n : Node} (at_i : a.program[i]? = some n) : a.program.Reached (i + n.next) := by
  have last : Program.Lands [⟨.opEnd, 0⟩] (0 + (a.code a.size).length) a.size := by
    rw [a.length_code]
    exact .cons (by omega) (by omega) .nil
  have bounds := ((a.code_lands (Int.le_refl (a.size : Int))).append last) i n at_i
  unfold Program.Reached
  rw [a.length_program]
  omega

/-! ### Long offsets -/

theorem Piece.exit_succ : ∀ p : Piece, p.closed = true → p.exit + 1 = p.size
  | .nothing, _ | .simple _, _ | .group _ _, _ | .question _, _ | .star _, _ | .plus _, _ => rfl
  | .chain x y, closed => by
    have last := y.exit_succ closed
    rw [Piece.exit, Piece.size]
    omega

theorem Piece.offset_cases (p : Piece) {q : Int} {n : Node} (mem : n ∈ p.code q) :
    (-p.size ≤ n.next ∧ n.next ≤ p.size) ∨ (p.closed = true ∧ n.next = q - p.exit) := by
  have own := p.code_within (Int.le_refl (p.size : Int))
  cases closed : p.closed with
  | false =>
    rw [p.code_open q p.size closed] at mem
    exact .inl (own n mem)
  | true =>
    obtain ⟨front, op, back, -, split⟩ := p.code_split closed
    rw [split, List.mem_append, List.mem_cons] at mem
    rw [split] at own
    rcases mem with before | rfl | after
    · exact .inl (own n (List.mem_append_left _ before))
    · exact .inr ⟨rfl, rfl⟩
    · exact .inl (own n (List.mem_append_right _ (List.mem_cons_of_mem _ after)))

theorem Piece.exit_mem {p : Piece} (closed : p.closed = true) (q : Int) : ∃ n ∈ p.code q, n.next = q - p.exit := by
  obtain ⟨front, op, back, -, split⟩ := p.code_split closed
  rw [split]
  exact ⟨⟨op, q - p.exit⟩, by simp, rfl⟩

/-- Each alternative has less than 2^15 - 1 nodes, and so have those behind one that jumps over them. -/
def Alts.Fits : Alts → Prop
  | .last b => b.size < 32767
  | .alt b rest => b.size < 32767 ∧ (b.closed = true → rest.size < 32767) ∧ rest.Fits

theorem Alts.within_iff (a : Alts) : (a.code a.size).Within (-32768) 32767 ↔ a.Fits := by
  cases a with
  | last b =>
    have inner := b.code_within (Int.le_refl (b.size : Int))
    rw [Alts.code, Alts.size, Alts.Fits, show ((b.size + 1 : Nat) : Int) - 1 = b.size by omega]
    constructor
    · intro within
      have first : (b.size : Int) + 1 ≤ 32767 := (within _ List.mem_cons_self).2
      omega
    · intro fits
      exact .cons (by omega) (by omega) (inner.weaken (by omega) (by omega))
  | alt b rest =>
    have others := rest.within_iff
    rw [Alts.code, Alts.size, Alts.Fits, show ((b.size + 1 + rest.size : Nat) : Int) - 1 = b.size + rest.size by omega,
      show ((b.size + 1 + rest.size : Nat) : Int) - (b.size + 1) = rest.size by omega]
    constructor
    · intro within
      have first : (b.size : Int) + 1 ≤ 32767 := (within _ List.mem_cons_self).2
      refine ⟨by omega, fun closed => ?_, others.mp fun n mem => within n ?_⟩
      · obtain ⟨n, mem, exit⟩ := Piece.exit_mem closed (b.size + rest.size)
        have beyond := (within n (List.mem_cons_of_mem _ (List.mem_append_left _ mem))).2
        have last := b.exit_succ closed
        omega
      · exact List.mem_cons_of_mem _ (List.mem_append_right _ mem)
    · rintro ⟨own, beyond, fits⟩
      refine .cons (by omega) (by omega) (.append (fun n mem => ?_) (others.mpr fits))
      rcases b.offset_cases mem with ⟨low, high⟩ | ⟨closed, exit⟩
      · omega
      · have last := b.exit_succ closed
        have less := beyond closed
        omega

/-- The jumps of an accepted pattern fit if and only if its alternatives are short enough. -/
theorem jumps_fit_iff {pattern : Bytes} {fuel : Nat} {c : Compiled} {msg : Bytes}
    (compiled : compile pattern fuel = some (some c, msg)) :
    ∃ a, parse pattern fuel = some (some a, msg) ∧ (JumpsFit c.program ↔ a.Fits) := by
  obtain ⟨a, reads, rfl⟩ := compile_parse compiled
  refine ⟨a, reads, ?_⟩
  rw [← a.within_iff]
  show JumpsFit a.program ↔ _
  constructor
  · intro fit n mem
    obtain ⟨i, at_i⟩ := List.mem_iff_getElem?.mp (List.mem_append_left [⟨.opEnd, 0⟩] mem)
    exact (fit i n at_i).1
  · intro within i n at_i
    have range : -32768 ≤ n.next ∧ n.next ≤ 32767 := by
      rcases List.mem_append.mp (List.mem_of_getElem? at_i) with mem | last
      · exact within n mem
      · obtain rfl := List.mem_singleton.mp last
        decide
    rw [short_of_small range.1 (by omega)]
    exact ⟨range, a.program_reached at_i⟩

theorem jumps_fit_loop : ∃ c, compile (ascii "(a|b)*c") 20 = some (some c, []) ∧ JumpsFit c.program := by
  obtain ⟨a, shape⟩ : ∃ a, a = Alts.last (.chain (.star (.group 1 (.alt (.simple (.opAtom [97])) (.last (.simple (.opAtom [98]))))))
    (.simple (.opAtom [99]))) := ⟨_, rfl⟩
  have reads : parse (ascii "(a|b)*c") 20 = some (some a, []) := by
    rw [shape]
    rfl
  have compiled := compile_of_parse reads
  obtain ⟨b, reads', fit⟩ := jumps_fit_iff compiled
  cases reads.symm.trans reads'
  refine ⟨_, compiled, fit.mpr ?_⟩
  rw [shape, Alts.Fits]
  decide

theorem Piece.size_of_copies (x y : Piece) (n : Nat) : (Piece.copies x n y).size = n * x.size + y.size := by
  induction n with
  | zero => simp [Piece.copies]
  | succ n ih =>
    rw [Piece.copies, Piece.size, ih, Nat.succ_mul]
    omega

/-- A repetition of 32767 nodes, and the branch over it. -/
theorem jumps_too_far : ∃ c, compile (ascii ".{32767}") 10 = some (some c, []) ∧
    (∃ n, c.program[0]? = some n ∧ n.next = 32768 ∧ short n.next = -32768) ∧ ¬JumpsFit c.program := by
  have reads : parse (ascii ".{32767}") 10 = some (some (.last (repeated (.simple .opAny) 32767 (some 0))), []) := by rfl
  have size : (repeated (.simple .opAny) 32767 (some 0)).size = 32767 := by
    rw [repeated, Piece.size_of_copies]
    rfl
  obtain ⟨x, shape⟩ : ∃ x, x = repeated (.simple .opAny) 32767 (some 0) := ⟨_, rfl⟩
  rw [← shape] at reads size
  have compiled := compile_of_parse reads
  have first : (Alts.last x).compiled.program[0]? = some ⟨.opBranch, 32768⟩ := by
    show (Alts.code (.last x) _ ++ _)[0]? = _
    rw [Alts.code, size]
    rfl
  refine ⟨_, compiled, ⟨_, first, rfl, by decide⟩, fun fit => ?_⟩
  exact absurd (fit 0 _ first).1.2 (by decide)

end Coast.Regex
