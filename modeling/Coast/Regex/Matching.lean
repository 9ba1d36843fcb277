import Coast.Regex.Branches
import Coast.Regex.Prefix

/-!
# Matching on expressions

What the engine does with the code of an expression, said of the expression itself: a piece is given
what follows it as a continuation. Loops run on fuel as in the engine. A reluctant closure is matched
against nothing but its operand, and one that ends an alternative continues with the next alternative.
-/

namespace Coast.Regex

abbrev Cont := Nat → Captures → Result

namespace Cont

def stop : Cont := fun idx c => some (some idx, c)

def orElse (first second : Cont) : Cont := fun idx c =>
  match first idx c with
  | some (none, c) => second idx c
  | other => other

/-- The second from where the first has ended; there is no way back into the first. -/
def andThen (first second : Cont) : Cont := fun idx c =>
  match first idx c with
  | some (some idx, c) => second idx c
  | other => other

def simple (m : Matcher) (op : Op) (rest : Cont) : Cont := fun idx c =>
  match m.matchSimple op idx c with
  | some idx => rest idx c
  | none => some (none, c)

def opening (k : Nat) (rest : Cont) : Cont := fun idx c =>
  match rest idx (c.pushOpen k idx) with
  | some (some e, c) => some (some e, c.setStart k idx)
  | some (none, c) => some (none, c.popOpen k)
  | none => none

def closing (k : Nat) (rest : Cont) : Cont := fun idx c =>
  match rest idx (c.pushClose k idx) with
  | some (some e, c) => some (some e, c.setEnd k idx)
  | some (none, c) => some (none, c.popClose k)
  | none => none

def loop (x : Cont → Cont) (rest : Cont) : Nat → Cont
  | 0 => fun _ _ => none
  | fuel + 1 => orElse (x (loop x rest fuel)) rest

end Cont

mutual

def Piece.exec (m : Matcher) (fuel : Nat) : Piece → Cont → Cont
  | .nothing, rest => rest
  | .simple op, rest => .simple m op rest
  | .group k a, rest => .opening k (a.exec m fuel (.closing k rest))
  | .question x, rest => (x.exec m fuel rest).orElse rest
  | .star x, rest => .loop (x.exec m fuel) rest fuel
  | .plus x, rest => x.exec m fuel (.loop (x.exec m fuel) rest fuel)
  | .reluctantMaybe x, rest => rest.orElse ((x.exec m fuel .stop).andThen rest)
  | .reluctantStar x, rest => Matcher.reluctantLoop rest (x.exec m fuel .stop) fuel
  | .reluctantPlus x, rest => (x.exec m fuel .stop).andThen (Matcher.reluctantLoop rest (x.exec m fuel .stop) fuel)
  | .chain x y, rest => x.exec m fuel (y.exec m fuel rest)

def Alts.exec (m : Matcher) (fuel : Nat) : Alts → Cont → Cont
  | .last b, rest => b.exec m fuel rest
  | .alt b others, rest =>
    (b.exec m fuel (if b.closed then rest else others.exec m fuel rest)).orElse (others.exec m fuel rest)

end

def Op.isSimple : Op → Bool
  | .opBol | .opEol | .opAny | .opAnyof _ | .opAtom _ | .opBackref _ | .opBow _ => true
  | _ => false

mutual

def Piece.All (P : Op → Prop) : Piece → Prop
  | .nothing => True
  | .simple op => P op
  | .group _ a => a.All P
  | .question x | .star x | .plus x | .reluctantMaybe x | .reluctantStar x | .reluctantPlus x => x.All P
  | .chain x y => x.All P ∧ y.All P

def Alts.All (P : Op → Prop) : Alts → Prop
  | .last b => b.All P
  | .alt b rest => b.All P ∧ rest.All P

end

namespace Matcher

variable (m : Matcher)

/-- From the node on the engine returns what the continuation returns, wherever behind `stop` it is told to stop. -/
def Realizes (stop node : Int) (rest : Cont) : Prop :=
  ∀ last, stop ≤ last → ∀ idx c r, rest idx c = some r → ∃ f, m.matchNodes f node last idx c = some r

def Chooses (node : Int) (rest : Cont) : Prop :=
  ∀ idx c r, rest idx c = some r →
    ∃ f, m.branchLoop (fun node c => m.matchNodes f node m.program.length idx c) f node c = some r

/-- No offset is changed by its conversion to `short`. -/
def OffsetsFit : Prop := ∀ node ∈ m.program, short node.next = node.next

/-- No offset from the node `first` on is. -/
def FitsFrom (first : Nat) : Prop :=
  ∀ ⦃node op k⦄, first ≤ node → m.program[node]? = some ⟨op, k⟩ → short k = k

theorem OffsetsFit.fitsFrom {m : Matcher} (fit : m.OffsetsFit) : m.FitsFrom 0 := fun _ _ _ _ has =>
  fit _ (List.mem_of_getElem? has)

section Nodes

variable {m} {stop : Int} {node : Nat} {k : Int} {rest : Cont}

theorem nodeAt_of_getElem? {p : Program} {node : Nat} {n : Node} (has : p[node]? = some n) : p.nodeAt node = n := by
  rw [Program.nodeAt, Int.toNat_natCast, List.getD_eq_getElem?_getD, has, Option.getD_some]

theorem realizes_simple {op : Op} (fits : short k = k) (is : op.isSimple = true ∨ op = .opNothing ∨ op = .opGoto)
    (has : m.program[node]? = some ⟨op, k⟩) (below : node < stop) (real : m.Realizes stop (node + k) rest) :
    m.Realizes stop node (.simple m op rest) := by
  intro last within idx c r result
  have here := nodeAt_of_getElem? has
  have step : ∀ f, m.matchNodes (f + 1) node last idx c =
      match m.matchSimple op idx c with
      | some idx => m.matchNodes f (node + k) last idx c
      | none => some (none, c) := by
    intro f
    rw [matchNodes, if_neg (by omega), here]
    dsimp only
    rw [fits]
    rcases is with is | rfl | rfl
    · cases op <;> first | rfl | cases is
    · rfl
    · rfl
  unfold Cont.simple at result
  cases matched : m.matchSimple op idx c with
  | none =>
    rw [matched] at result
    exact ⟨1, by rw [step 0, matched]; exact result⟩
  | some idx' =>
    rw [matched] at result
    obtain ⟨f, returns⟩ := real last within idx' c r result
    exact ⟨f + 1, by rw [step f, matched]; exact returns⟩

theorem realizes_jump {op : Op} (fits : short k = k) (is : op = .opNothing ∨ op = .opGoto) (has : m.program[node]? = some ⟨op, k⟩)
    (below : node < stop) (real : m.Realizes stop (node + k) rest) : m.Realizes stop node rest := by
  have same : Cont.simple m op rest = rest := by
    rcases is with rfl | rfl <;> rfl
  rw [← same]
  exact realizes_simple fits (.inr is) has below real

theorem realizes_opening {number : Nat} (fits : short k = k) (has : m.program[node]? = some ⟨.opOpen number, k⟩) (below : node < stop)
    (short : stop ≤ m.program.length) (real : m.Realizes stop (node + k) rest) :
    m.Realizes stop node (.opening number rest) := by
  intro last within idx c r result
  have here := nodeAt_of_getElem? has
  unfold Cont.opening at result
  cases inner : rest idx (c.pushOpen number idx) with
  | none => rw [inner] at result; cases result
  | some t =>
    rw [inner] at result
    obtain ⟨f, returns⟩ := real m.program.length short idx _ t inner
    refine ⟨f + 1, ?_⟩
    rw [matchNodes, if_neg (by omega), here]
    dsimp only
    rw [fits, returns]
    exact result

theorem realizes_closing {number : Nat} (fits : short k = k) (has : m.program[node]? = some ⟨.opClose number, k⟩) (below : node < stop)
    (short : stop ≤ m.program.length) (real : m.Realizes stop (node + k) rest) :
    m.Realizes stop node (.closing number rest) := by
  intro last within idx c r result
  have here := nodeAt_of_getElem? has
  unfold Cont.closing at result
  cases inner : rest idx (c.pushClose number idx) with
  | none => rw [inner] at result; cases result
  | some t =>
    rw [inner] at result
    obtain ⟨f, returns⟩ := real m.program.length short idx _ t inner
    refine ⟨f + 1, ?_⟩
    rw [matchNodes, if_neg (by omega), here]
    dsimp only
    rw [fits, returns]
    exact result

theorem realizes_only (fits : short k = k) (has : m.program[node]? = some ⟨.opBranch, k⟩)
    (sole : (m.program.nodeAt (node + k)).op.isBranch = false) (below : node < stop)
    (real : m.Realizes stop (node + 1) rest) : m.Realizes stop node rest := by
  intro last within idx c r result
  have here := nodeAt_of_getElem? has
  obtain ⟨f, returns⟩ := real last within idx c r result
  refine ⟨f + 1, ?_⟩
  rw [matchNodes, if_neg (by omega), here]
  dsimp only
  rw [fits, sole]
  simp only [Bool.false_eq_true, if_false]
  exact returns

theorem realizes_choice (fits : short k = k) (has : m.program[node]? = some ⟨.opBranch, k⟩)
    (more : (m.program.nodeAt (node + k)).op.isBranch = true) (below : node < stop) (chooses : m.Chooses node rest) :
    m.Realizes stop node rest := by
  intro last within idx c r result
  have here := nodeAt_of_getElem? has
  obtain ⟨f, returns⟩ := chooses idx c r result
  refine ⟨f + 1, ?_⟩
  rw [matchNodes, if_neg (by omega), here]
  dsimp only
  rw [fits, if_pos more]
  exact returns

theorem chooses_last (has : m.program[node]? = some ⟨.opBranch, k⟩)
    (sole : (m.program.nodeAt (node + k)).op.isBranch = false) (short : stop ≤ m.program.length)
    (real : m.Realizes stop (node + 1) rest) : m.Chooses node rest := by
  intro idx c r result
  have here := nodeAt_of_getElem? has
  obtain ⟨f, returns⟩ := real m.program.length short idx c r result
  refine ⟨f + 1, ?_⟩
  rw [branchLoop, m.matchNodes_mono (Nat.le_succ f) _ _ _ _ r returns]
  obtain ⟨_ | e, c'⟩ := r
  · dsimp only
    rw [here, if_neg fun more => by rw [sole] at more; cases more.2]
  · rfl

theorem chooses_cons {other : Cont} (has : m.program[node]? = some ⟨.opBranch, k⟩) (pos : k ≠ 0)
    (more : (m.program.nodeAt (node + k)).op.isBranch = true) (short : stop ≤ m.program.length)
    (real : m.Realizes stop (node + 1) rest) (chooses : m.Chooses (node + k) other) :
    m.Chooses node (rest.orElse other) := by
  intro idx c r result
  have here := nodeAt_of_getElem? has
  unfold Cont.orElse at result
  cases first : rest idx c with
  | none => rw [first] at result; cases result
  | some t =>
    rw [first] at result
    obtain ⟨f, returns⟩ := real m.program.length short idx c t first
    obtain ⟨_ | e, c'⟩ := t
    · obtain ⟨g, later⟩ := chooses idx c' r result
      refine ⟨max f g + 1, ?_⟩
      rw [branchLoop, m.matchNodes_mono (by omega) _ _ _ _ _ returns]
      dsimp only
      rw [here, if_pos ⟨pos, more⟩]
      exact m.branchLoop_mono (fun node c => m.matchNodes_mono (by omega) _ _ _ _) (by omega) _ _ r later
    · refine ⟨f + 1, ?_⟩
      rw [branchLoop, m.matchNodes_mono (by omega) _ _ _ _ _ returns]
      exact result

/-! ### Reluctant closures -/

section Reluctant

variable {operand : Cont} {size : Nat} (real : m.Realizes m.program.length (node + size) rest)
  (passes : m.Realizes (node + size) (node + 1) operand)

include real passes

theorem reluctantLoop_realized {fuel idx : Nat} {c : Captures} {r : Option Nat × Captures}
    (result : reluctantLoop rest operand fuel idx c = some r) :
    ∃ f, reluctantLoop (m.matchNodes f (node + size) m.program.length) (m.matchNodes f (node + 1) (node + size)) f idx c =
      some r := by
  induction fuel generalizing idx c with
  | zero => cases result
  | succ fuel ih =>
    rw [reluctantLoop] at result
    cases first : rest idx c with
    | none => rw [first] at result; cases result
    | some t =>
      rw [first] at result
      obtain ⟨f, returns⟩ := real m.program.length (by omega) idx c t first
      obtain ⟨_ | e, c'⟩ := t
      · dsimp only at result
        cases second : operand idx c' with
        | none => rw [second] at result; cases result
        | some t =>
          rw [second] at result
          obtain ⟨g, passed⟩ := passes (node + size) (Int.le_refl _) idx c' t second
          obtain ⟨_ | idx', c''⟩ := t
          · refine ⟨max f g + 1, ?_⟩
            rw [reluctantLoop, m.matchNodes_mono (by omega) _ _ _ _ _ returns]
            dsimp only
            rw [m.matchNodes_mono (by omega) _ _ _ _ _ passed]
            exact result
          · obtain ⟨h, loops⟩ := ih result
            refine ⟨max (max f g) h + 1, ?_⟩
            rw [reluctantLoop, m.matchNodes_mono (by omega) _ _ _ _ _ returns]
            dsimp only
            rw [m.matchNodes_mono (by omega) _ _ _ _ _ passed]
            exact reluctantLoop_mono (fun idx c => m.matchNodes_mono (by omega) _ _ idx c)
              (fun idx c => m.matchNodes_mono (by omega) _ _ idx c) (by omega) _ _ r loops
      · refine ⟨f + 1, ?_⟩
        rw [reluctantLoop, m.matchNodes_mono (by omega) _ _ _ _ _ returns]
        exact result

theorem realizes_reluctantStar {stop : Int} (fits : short size = size) (has : m.program[node]? = some ⟨.opReluctantStar, size⟩) (below : node < stop)
    (fuel : Nat) : m.Realizes stop node (reluctantLoop rest operand fuel) := by
  intro last within idx c r result
  have here := nodeAt_of_getElem? has
  obtain ⟨f, returns⟩ := reluctantLoop_realized real passes result
  refine ⟨f + 1, ?_⟩
  rw [matchNodes, if_neg (by omega), here]
  dsimp only
  rw [fits]
  exact returns

theorem realizes_reluctantPlus {stop : Int} (fits : short size = size) (has : m.program[node]? = some ⟨.opReluctantPlus, size⟩) (below : node < stop)
    (fuel : Nat) : m.Realizes stop node (operand.andThen (reluctantLoop rest operand fuel)) := by
  intro last within idx c r result
  have here := nodeAt_of_getElem? has
  unfold Cont.andThen at result
  cases first : operand idx c with
  | none => rw [first] at result; cases result
  | some t =>
    rw [first] at result
    obtain ⟨f, passed⟩ := passes (node + size) (Int.le_refl _) idx c t first
    obtain ⟨_ | idx', c'⟩ := t
    · refine ⟨f + 1, ?_⟩
      rw [matchNodes, if_neg (by omega), here]
      dsimp only
      rw [fits, passed]
      exact result
    · obtain ⟨g, loops⟩ := reluctantLoop_realized real passes result
      refine ⟨max f g + 1, ?_⟩
      rw [matchNodes, if_neg (by omega), here]
      dsimp only
      rw [fits, m.matchNodes_mono (by omega) _ _ _ _ _ passed]
      exact reluctantLoop_mono (fun idx c => m.matchNodes_mono (by omega) _ _ idx c)
        (fun idx c => m.matchNodes_mono (by omega) _ _ idx c) (by omega) _ _ r loops

theorem realizes_reluctantMaybe {stop : Int} (fits : short size = size) (has : m.program[node]? = some ⟨.opReluctantMaybe, size⟩)
    (below : node < stop) : m.Realizes stop node (rest.orElse (operand.andThen rest)) := by
  intro last within idx c r result
  have here := nodeAt_of_getElem? has
  unfold Cont.orElse Cont.andThen at result
  cases first : rest idx c with
  | none => rw [first] at result; cases result
  | some t =>
    rw [first] at result
    obtain ⟨f, returns⟩ := real m.program.length (by omega) idx c t first
    obtain ⟨_ | e, c'⟩ := t
    · dsimp only at result
      cases second : operand idx c' with
      | none => rw [second] at result; cases result
      | some t =>
        rw [second] at result
        obtain ⟨g, passed⟩ := passes (node + size) (Int.le_refl _) idx c' t second
        obtain ⟨_ | idx', c''⟩ := t
        · refine ⟨max f g + 1, ?_⟩
          rw [matchNodes, if_neg (by omega), here]
          dsimp only
          rw [fits, m.matchNodes_mono (by omega) _ _ _ _ _ returns]
          dsimp only
          rw [m.matchNodes_mono (by omega) _ _ _ _ _ passed]
          exact result
        · obtain ⟨h, later⟩ := real m.program.length (by omega) idx' c'' r result
          refine ⟨max (max f g) h + 1, ?_⟩
          rw [matchNodes, if_neg (by omega), here]
          dsimp only
          rw [fits, m.matchNodes_mono (by omega) _ _ _ _ _ returns]
          dsimp only
          rw [m.matchNodes_mono (by omega) _ _ _ _ _ passed]
          exact m.matchNodes_mono (by omega) _ _ _ _ _ later
    · refine ⟨f + 1, ?_⟩
      rw [matchNodes, if_neg (by omega), here]
      dsimp only
      rw [fits, returns]
      exact result

end Reluctant

end Nodes

theorem realizes_optional {m : Matcher} {stop : Int} {node : Nat} (other : Nat) {k d : Int} {first rest : Cont} (fits : short k = k)
    (fits' : short d = d)
    (has : m.program[node]? = some ⟨.opBranch, k⟩) (leads : node + k = other) (pos : k ≠ 0)
    (around : Sits m.program other [⟨.opBranch, 1⟩, ⟨.opNothing, d⟩]) (below : node < stop) (below' : other + 1 < stop)
    (short : stop ≤ m.program.length) (taken : m.Realizes stop (node + 1) first)
    (real : m.Realizes stop (other + 1 + d) rest) : m.Realizes stop node (first.orElse rest) := by
  have branch := around.head
  have jump := around.tail.head
  have more : (m.program.nodeAt (node + k)).op.isBranch = true := by
    rw [leads, nodeAt_of_getElem? branch]
    rfl
  have sole : (m.program.nodeAt (other + 1)).op.isBranch = false := by
    rw [← Int.natCast_succ, nodeAt_of_getElem? jump]
    rfl
  have skipped : m.Realizes stop (other + 1) rest := by
    rw [← Int.natCast_succ]
    exact realizes_jump fits' (.inl rfl) jump (by omega) real
  refine realizes_choice fits has more below (chooses_cons has pos more short taken ?_)
  rw [leads]
  exact chooses_last branch sole short skipped

theorem realizes_stop {m : Matcher} {stop : Int} {node : Nat} {k : Int} (has : m.program[node]? = some ⟨.opEnd, k⟩)
    (below : node < stop) : m.Realizes stop node .stop := by
  intro last within idx c r result
  refine ⟨1, ?_⟩
  rw [matchNodes, if_neg (by omega), nodeAt_of_getElem? has]
  exact result

theorem Realizes.weaken {m : Matcher} {stop stop' node : Int} {rest : Cont} (real : m.Realizes stop node rest) (le : stop ≤ stop') :
    m.Realizes stop' node rest := fun last within => real last (Int.le_trans le within)

end Matcher

def Piece.behind (p : Piece) (q : Int) : Int := if p.closed then q else p.size

theorem Piece.behind_size (p : Piece) : p.behind p.size = p.size := by
  unfold Piece.behind
  split <;> rfl

section Simulation

variable {m : Matcher} {origin : Nat} (fit : m.FitsFrom origin) (fuel : Nat)

include fit

set_option linter.unusedSectionVars false in
mutual

theorem Piece.realizes (p : Piece) (simple : p.All fun op => op.isSimple = true) {start : Nat} {q stop : Int} {rest : Cont}
    (after : origin ≤ start) (sits : Sits m.program start (p.code q)) (below : start + p.size ≤ stop) (short : stop ≤ m.program.length)
    (real : m.Realizes stop (start + p.behind q) rest) : m.Realizes stop start (p.exec m fuel rest) := by
  match p with
  | .nothing =>
    rw [Piece.size] at below
    exact Matcher.realizes_jump (fit after sits.head) (.inl rfl) sits.head (by omega) real
  | .simple op =>
    rw [Piece.size] at below
    exact Matcher.realizes_simple (fit after sits.head) (.inl simple) sits.head (by omega) real
  | .group k a =>
    rw [Piece.size] at below
    rw [Piece.code] at sits
    have close := sits.tail.right.head
    rw [a.length_code] at close
    refine Matcher.realizes_opening (fit after sits.head) sits.head (by omega) short ?_
    refine (a.realizes simple (by omega) sits.tail.left (by omega) short ?_ ?_).1
    · rw [show ((start + 1 : Nat) : Int) + a.size = ((start + 1 + a.size : Nat) : Int) by omega,
        Matcher.nodeAt_of_getElem? close]
      rfl
    · rw [show ((start + 1 : Nat) : Int) + a.size = ((start + 1 + a.size : Nat) : Int) by omega]
      refine Matcher.realizes_closing (fit (by omega) close) close (by omega) short ?_
      rw [show ((start + 1 + a.size : Nat) : Int) + (q - (a.size + 1)) = start + q by omega]
      exact real
  | .question x =>
    rw [Piece.size] at below
    rw [Piece.code] at sits
    have around := sits.tail.right
    rw [x.length_code] at around
    have jump := fit (by omega) around.tail.head
    refine Matcher.realizes_optional (start + 1 + x.size) (fit after sits.head) jump sits.head (by omega) (by omega) around
      (by omega) (by omega) short ?_ ?_
    · have skipped : m.Realizes stop (start + 1 + x.size + 1 : Nat) rest := by
        refine Matcher.realizes_jump jump (.inl rfl) around.tail.head (by omega) ?_
        rwa [show ((start + 1 + x.size + 1 : Nat) : Int) + (q - (x.size + 2)) = start + q by omega]
      rw [← Int.natCast_succ]
      refine x.realizes simple (by omega) sits.tail.left (by omega) short ?_
      unfold Piece.behind
      split
      · rwa [show ((start + 1 : Nat) : Int) + (x.size + 1) = (start + 1 + x.size + 1 : Nat) by omega]
      · -- an operand without an exit of its own comes to the second branch first
        rw [← Int.natCast_add]
        refine Matcher.realizes_only (fit (by omega) around.head) around.head ?_ (by omega) ?_
        · rw [← Int.natCast_succ, Matcher.nodeAt_of_getElem? around.tail.head]
          rfl
        · rwa [← Int.natCast_succ]
    · rw [show ((start + 1 + x.size : Nat) : Int) + 1 + (q - (x.size + 2)) = start + q by omega]
      exact real
  | .star x =>
    rw [Piece.size] at below
    rw [Piece.code] at sits
    have block := sits.tail.left
    have back := sits.tail.right
    rw [x.length_code] at back
    have around := back.tail.tail
    have again : ∀ n, m.Realizes stop start (.loop (x.exec m fuel) rest n) := by
      intro n
      induction n with
      | zero =>
        intro last within idx c r result
        cases result
      | succ n ih =>
        refine Matcher.realizes_optional (start + 1 + x.size + 1 + 1) (fit after sits.head)
          (fit (by omega) around.tail.head) sits.head (by omega) (by omega) around (by omega) (by omega) short ?_ ?_
        · rw [← Int.natCast_succ]
          refine x.realizes simple (by omega) block (by omega) short ?_
          rw [x.behind_size]
          have goto := Matcher.realizes_jump (fit (by omega) back.tail.head) (.inr rfl) back.tail.head (by omega)
            (show m.Realizes stop (((start + 1 + x.size + 1 : Nat) : Int) + -(x.size + 2)) _ by
              rwa [show ((start + 1 + x.size + 1 : Nat) : Int) + -(x.size + 2) = start by omega])
          rw [← Int.natCast_add]
          refine Matcher.realizes_only (fit (by omega) back.head) back.head ?_ (by omega) ?_
          · rw [← Int.natCast_succ, Matcher.nodeAt_of_getElem? back.tail.head]
            rfl
          · rwa [← Int.natCast_succ]
        · rw [show ((start + 1 + x.size + 1 + 1 : Nat) : Int) + 1 + (q - (x.size + 4)) = start + q by omega]
          exact real
    exact again fuel
  | .plus x =>
    rw [Piece.size] at below
    rw [Piece.code] at sits
    have back := sits.right
    rw [x.length_code] at back
    have around := back.tail.tail
    have again : ∀ n, m.Realizes stop (start + x.size : Nat) (.loop (x.exec m fuel) rest n) := by
      intro n
      induction n with
      | zero =>
        intro last within idx c r result
        cases result
      | succ n ih =>
        refine Matcher.realizes_optional (start + x.size + 1 + 1) (fit (by omega) back.head)
          (fit (by omega) around.tail.head) back.head (by omega) (by omega) around (by omega) (by omega) short ?_ ?_
        · have passes := x.realizes simple after sits.left (by omega) short (by rwa [x.behind_size, ← Int.natCast_add])
          rw [← Int.natCast_succ]
          refine Matcher.realizes_jump (fit (by omega) back.tail.head) (.inr rfl) back.tail.head (by omega) ?_
          rwa [show ((start + x.size + 1 : Nat) : Int) + -(x.size + 1) = start by omega]
        · rw [show ((start + x.size + 1 + 1 : Nat) : Int) + 1 + (q - (x.size + 3)) = start + q by omega]
          exact real
    refine x.realizes simple after sits.left (by omega) short ?_
    rw [x.behind_size, ← Int.natCast_add]
    exact again fuel
  | .reluctantMaybe x =>
    obtain ⟨passes, real⟩ := x.realizes_operand simple .opReluctantMaybe after sits below short real
    exact Matcher.realizes_reluctantMaybe real passes (fit after sits.head) sits.head (by rw [Piece.size] at below; omega)
  | .reluctantStar x =>
    obtain ⟨passes, real⟩ := x.realizes_operand simple .opReluctantStar after sits below short real
    exact Matcher.realizes_reluctantStar real passes (fit after sits.head) sits.head (by rw [Piece.size] at below; omega) fuel
  | .reluctantPlus x =>
    obtain ⟨passes, real⟩ := x.realizes_operand simple .opReluctantPlus after sits below short real
    exact Matcher.realizes_reluctantPlus real passes (fit after sits.head) sits.head (by rw [Piece.size] at below; omega) fuel
  | .chain x y =>
    rw [Piece.size] at below
    rw [Piece.code] at sits
    have second := sits.right
    rw [x.length_code] at second
    refine x.realizes simple.1 after sits.left (by omega) short ?_
    rw [x.behind_size, ← Int.natCast_add]
    refine y.realizes simple.2 (by omega) second (by omega) short ?_
    have same : ((start + x.size : Nat) : Int) + y.behind (q - x.size) = start + (Piece.chain x y).behind q := by
      unfold Piece.behind
      rw [Piece.closed]
      split
      · omega
      · rw [Piece.size]
        omega
    rw [same]
    exact real

theorem Piece.realizes_operand (x : Piece) (simple : x.All fun op => op.isSimple = true) (op : Op) {start : Nat} {stop : Int}
    {rest : Cont} (after : origin ≤ start) (sits : Sits m.program start (reluctantCode op x.size (x.code x.size)))
    (below : (start + (x.size + 2) : Nat) ≤ stop) (short : stop ≤ m.program.length)
    (real : m.Realizes stop (start + (x.size + 2 : Nat)) rest) :
    m.Realizes (start + (x.size + 2 : Nat)) (start + 1) (x.exec m fuel .stop) ∧
      m.Realizes m.program.length (start + (x.size + 2 : Nat)) rest := by
  have finish := sits.tail.right.head
  rw [x.length_code] at finish
  refine ⟨?_, real.weaken short⟩
  rw [← Int.natCast_succ]
  refine x.realizes simple (by omega) sits.tail.left (by omega) (by omega) ?_
  rw [x.behind_size, ← Int.natCast_add]
  exact Matcher.realizes_stop finish (by omega)

theorem Alts.realizes (a : Alts) (simple : a.All fun op => op.isSimple = true) {start : Nat} {stop : Int} {rest : Cont}
    (after : origin ≤ start) (sits : Sits m.program start (a.code a.size)) (below : start + a.size ≤ stop) (short : stop ≤ m.program.length)
    (finish : (m.program.nodeAt (start + a.size)).op.isBranch = false) (real : m.Realizes stop (start + a.size) rest) :
    m.Realizes stop start (a.exec m fuel rest) ∧ m.Chooses start (a.exec m fuel rest) := by
  match a with
  | .last b =>
    rw [Alts.size] at below finish real
    rw [Alts.code, Alts.size] at sits
    have only : m.Realizes stop (start + 1) (b.exec m fuel rest) := by
      rw [← Int.natCast_succ]
      refine b.realizes simple (by omega) sits.tail (by omega) short ?_
      rw [show ((b.size + 1 : Nat) : Int) - 1 = b.size by omega, b.behind_size]
      rwa [show ((start + 1 : Nat) : Int) + b.size = start + (b.size + 1 : Nat) by omega]
    exact ⟨Matcher.realizes_only (fit after sits.head) sits.head finish (by omega) only, Matcher.chooses_last sits.head finish short only⟩
  | .alt b others =>
    rw [Alts.size] at below finish real
    rw [Alts.code, Alts.size] at sits
    have behind := sits.tail.right
    rw [b.length_code, show ((b.size + 1 + others.size : Nat) : Int) - (b.size + 1) = others.size by omega] at behind
    have place : (start : Int) + (b.size + 1) = (start + 1 + b.size : Nat) := by omega
    have later := others.realizes simple.2 (by omega) behind (by omega) short
      (by rwa [show ((start + 1 + b.size : Nat) : Int) + others.size = start + (b.size + 1 + others.size : Nat) by omega])
      (by rwa [show ((start + 1 + b.size : Nat) : Int) + others.size = start + (b.size + 1 + others.size : Nat) by omega])
    have more : (m.program.nodeAt (start + (b.size + 1))).op.isBranch = true := by
      rw [place]
      cases others with
      | last b' =>
        rw [Matcher.nodeAt_of_getElem? (Sits.head behind)]
        rfl
      | alt b' _ =>
        rw [Matcher.nodeAt_of_getElem? (Sits.head behind)]
        rfl
    have first : m.Realizes stop (start + 1) (b.exec m fuel (if b.closed then rest else others.exec m fuel rest)) := by
      rw [← Int.natCast_succ]
      refine b.realizes simple.1 (by omega) sits.tail.left (by omega) short ?_
      unfold Piece.behind
      split
      · rwa [show ((start + 1 : Nat) : Int) + ((b.size + 1 + others.size : Nat) - 1) =
          start + (b.size + 1 + others.size : Nat) by omega]
      · rw [← Int.natCast_add]
        exact later.1
    have chooses : m.Chooses start ((Alts.alt b others).exec m fuel rest) := by
      refine Matcher.chooses_cons sits.head (by omega) more short first ?_
      rw [place]
      exact later.2
    exact ⟨Matcher.realizes_choice (fit after sits.head) sits.head more (by omega) chooses, chooses⟩

end

omit fit in
theorem Alts.matchNodes_program (fit : m.OffsetsFit) (a : Alts) (simple : a.All fun op => op.isSimple = true) (whole : m.program = a.program)
    {idx : Nat} {c : Captures} {r : Option Nat × Captures} (result : a.exec m fuel .stop idx c = some r) :
    ∃ f, m.matchNodes f 0 m.program.length idx c = some r := by
  have sits : Sits m.program 0 (a.code a.size ++ [⟨.opEnd, 0⟩]) := by
    intro i node has
    rw [whole, Nat.zero_add]
    exact has
  have finish := sits.right.head
  rw [a.length_code, Nat.zero_add] at finish
  have size : m.program.length = a.size + 1 := by
    rw [whole, Alts.program, List.length_append, a.length_code, List.length_singleton]
  have below : ((0 : Nat) : Int) + a.size ≤ m.program.length := by omega
  refine (a.realizes fit.fitsFrom fuel simple (Nat.zero_le _) sits.left below (Int.le_refl _) ?_ ?_).1 _ (Int.le_refl _) idx c r result
  · rw [Int.natCast_zero, Int.zero_add, Matcher.nodeAt_of_getElem? finish]
    rfl
  · rw [Int.natCast_zero, Int.zero_add]
    exact Matcher.realizes_stop finish (by omega)

end Simulation

theorem Piece.matchNodes_program {m : Matcher} (fit : m.FitsFrom 1) (fuel : Nat) (b : Piece)
    (simple : b.All fun op => op.isSimple = true) (whole : m.program = (Alts.last b).program) {idx : Nat} {c : Captures}
    {r : Option Nat × Captures} (result : b.exec m fuel .stop idx c = some r) :
    ∃ f, m.matchNodes f 0 m.program.length idx c = some r := by
  have sits : Sits m.program 0 (⟨.opBranch, b.size + 1⟩ :: (b.code b.size ++ [⟨.opEnd, 0⟩])) := by
    intro i node has
    rw [whole, Nat.zero_add, Alts.program, Alts.code, Alts.size, Int.natCast_succ, Int.add_sub_cancel]
    exact has
  have finish := sits.tail.right.head
  rw [b.length_code] at finish
  have size : m.program.length = b.size + 2 := by
    rw [whole, Alts.program, List.length_append, Alts.length_code, Alts.size, List.length_singleton]
  have real : m.Realizes m.program.length (0 + 1 : Nat) (b.exec m fuel .stop) := by
    refine b.realizes fit fuel simple (Nat.le_refl _) sits.tail.left (by omega) (Int.le_refl _) ?_
    rw [b.behind_size, ← Int.natCast_add]
    exact Matcher.realizes_stop finish (by omega)
  have here := Matcher.nodeAt_of_getElem? sits.head
  have sole : (m.program.nodeAt ((0 : Nat) + (b.size + 1))).op.isBranch = false := by
    rw [show (((0 : Nat) : Int) + (b.size + 1)) = (0 + 1 + b.size : Nat) by omega, Matcher.nodeAt_of_getElem? finish]
    rfl
  obtain ⟨f, chosen⟩ := Matcher.chooses_last sits.head sole (Int.le_refl _) real idx c r result
  obtain ⟨g, returns⟩ := real _ (Int.le_refl _) idx c r result
  refine ⟨max f g + 1, ?_⟩
  rw [Matcher.matchNodes, if_neg (by omega), ← Int.natCast_zero, here]
  dsimp only
  split
  · exact m.branchLoop_mono (fun node c => m.matchNodes_mono (Nat.le_max_left f g) _ _ _ _) (Nat.le_max_left f g) _ _ r chosen
  · exact m.matchNodes_mono (Nat.le_max_right f g) _ _ _ _ r returns

end Coast.Regex
