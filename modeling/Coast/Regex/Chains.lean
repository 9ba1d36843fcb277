import Coast.Regex.Syntax
import Mathlib.Data.Finset.Card
import Mathlib.Logic.Function.Iterate

/-!
# Chains of offsets

`setNextOfEnd` follows the offsets of the nodes until one is 0. In a block this leads from the first
node to the exit, forwards through the nodes of the block.
-/

namespace Coast.Regex

/-! ### Chains without an end -/

/-! ### Blocks in a program -/

/-- The block stands in the program from `start` on. -/
def Sits (p : Program) (start : Nat) (block : Program) : Prop :=
  ∀ (i : Nat) (node : Node), block[i]? = some node → p[start + i]? = some node

inductive Leads (p : Program) : Nat → Nat → Prop
  | refl (a : Nat) : Leads p a a
  | step {a k b : Nat} (offset : nextOf p a = k) (pos : 0 < k) (rest : Leads p (a + k) b) : Leads p a b

section Sits

variable {p : Program} {start : Nat} {block block' : Program} {node : Node}

theorem sits_middle (before block behind : Program) : Sits (before ++ block ++ behind) before.length block := by
  intro i node has
  have inside := (List.getElem?_eq_some_iff.mp has).1
  rw [List.append_assoc, List.getElem?_append_right (by omega), Nat.add_sub_cancel_left,
    List.getElem?_append_left inside, has]

theorem sits_end (before block : Program) : Sits (before ++ block) before.length block := by
  have sits := sits_middle before block []
  rw [List.append_nil] at sits
  exact sits

theorem Sits.left (sits : Sits p start (block ++ block')) : Sits p start block := by
  intro i node has
  refine sits i node ?_
  rw [List.getElem?_append_left (List.getElem?_eq_some_iff.mp has).1]
  exact has

theorem Sits.right (sits : Sits p start (block ++ block')) : Sits p (start + block.length) block' := by
  intro i node has
  rw [Nat.add_assoc]
  refine sits _ node ?_
  rw [List.getElem?_append_right (by omega), Nat.add_sub_cancel_left]
  exact has

theorem Sits.head (sits : Sits p start (node :: block)) : p[start]? = some node := sits 0 node rfl

theorem Sits.tail (sits : Sits p start (node :: block)) : Sits p (start + 1) block := by
  have split : Sits p start ([node] ++ block) := sits
  exact split.right

theorem Sits.nextOf (sits : Sits p start (node :: block)) : nextOf p start = node.next := by
  rw [Regex.nextOf, List.getD_eq_getElem?_getD, sits.head]
  rfl

end Sits

section Leads

variable {p : Program} {a b d : Nat}

theorem Leads.trans (first : Leads p a b) (second : Leads p b d) : Leads p a d := by
  induction first with
  | refl => exact second
  | step offset pos _ ih => exact .step offset pos (ih second)

theorem Leads.le (leads : Leads p a b) : a ≤ b := by
  induction leads with
  | refl => exact Nat.le_refl _
  | step _ _ _ ih => omega

theorem Leads.single {k : Nat} (offset : nextOf p a = k) (pos : 0 < k) : Leads p a (a + k) := .step offset pos (.refl _)

theorem Leads.follow (leads : Leads p a b) (finish : nextOf p b = 0) {fuel : Nat} (enough : b - a < fuel) :
    follow p fuel a = some b := by
  induction leads generalizing fuel with
  | refl a =>
    obtain ⟨f, rfl⟩ : ∃ f, fuel = f + 1 := ⟨fuel - 1, by omega⟩
    rw [Regex.follow, if_pos finish]
  | @step a k b offset pos rest ih =>
    obtain ⟨f, rfl⟩ : ∃ f, fuel = f + 1 := ⟨fuel - 1, by omega⟩
    have := rest.le
    rw [Regex.follow, if_neg (by omega), offset, show ((a : Int) + k).toNat = a + k by omega]
    exact ih finish (by omega)

theorem Leads.endOfChain (leads : Leads p a b) (finish : nextOf p b = 0) (inside : b ≤ p.length) :
    endOfChain p a = some b := leads.follow finish (by omega)

theorem Leads.endless (circle : Leads p a b) (back : (b : Int) + nextOf p b = a) (less : a < b) (into : Leads p d b)
    (fuel : Nat) : Regex.follow p fuel d = none := by
  induction fuel generalizing d with
  | zero => rfl
  | succ fuel ih =>
    rw [Regex.follow]
    cases into with
    | refl =>
      rw [if_neg (by omega), back]
      exact ih circle
    | @step _ k _ offset pos rest =>
      rw [if_neg (by omega), offset, show ((d : Int) + k).toNat = d + k by omega]
      exact ih rest

end Leads

/-! ### Blocks lead to their exits -/

theorem Piece.code_split : ∀ p : Piece, p.closed = true →
    ∃ front op back, front.length = p.exit ∧ ∀ q, p.code q = front ++ ⟨op, q - p.exit⟩ :: back
  | .nothing, _ => ⟨[], .opNothing, [], rfl, fun q => by rw [Piece.code, Piece.exit]; simp⟩
  | .simple op, _ => ⟨[], op, [], rfl, fun q => by rw [Piece.code, Piece.exit]; simp⟩
  | .group k a, _ => by
    refine ⟨⟨.opOpen k, 1⟩ :: a.code a.size, .opClose k, [], ?_, fun q => ?_⟩
    · rw [List.length_cons, a.length_code, Piece.exit]
    · rw [Piece.code, Piece.exit]
      push_cast
      rfl
  | .question x, _ => by
    refine ⟨⟨.opBranch, x.size + 1⟩ :: (x.code (x.size + 1) ++ [⟨.opBranch, 1⟩]), .opNothing, [], ?_, fun q => ?_⟩
    · simp only [List.length_cons, List.length_append, List.length_nil, x.length_code, Piece.exit]
    · rw [Piece.code, Piece.exit]
      simp only [List.append_assoc, List.cons_append, List.nil_append]
      rfl
  | .star x, _ => by
    refine ⟨⟨.opBranch, x.size + 3⟩ :: (x.code x.size ++
      [⟨.opBranch, 1⟩, ⟨.opGoto, -(x.size + 2)⟩, ⟨.opBranch, 1⟩]), .opNothing, [], ?_, fun q => ?_⟩
    · simp only [List.length_cons, List.length_append, List.length_nil, x.length_code, Piece.exit]
    · rw [Piece.code, Piece.exit]
      simp only [List.append_assoc, List.cons_append, List.nil_append]
      rfl
  | .plus x, _ => by
    refine ⟨x.code x.size ++ [⟨.opBranch, 2⟩, ⟨.opGoto, -(x.size + 1)⟩, ⟨.opBranch, 1⟩], .opNothing, [], ?_, fun q => ?_⟩
    · simp only [List.length_cons, List.length_append, List.length_nil, x.length_code, Piece.exit]
    · rw [Piece.code, Piece.exit]
      simp only [List.append_assoc, List.cons_append, List.nil_append]
      rfl
  | .chain x y, closed => by
    obtain ⟨front, op, back, length, split⟩ := y.code_split closed
    refine ⟨x.code x.size ++ front, op, back, ?_, fun q => ?_⟩
    · rw [List.length_append, x.length_code, length, Piece.exit]
    · rw [Piece.code, split, Piece.exit, List.append_assoc]
      push_cast
      rw [Int.sub_sub]

theorem Alts.leads {p : Program} : ∀ (a : Alts) {start : Nat} {q : Int}, Sits p start (a.code q) →
    Leads p start (start + a.size)
  | .last b, start, q, sits => by
    rw [Alts.code] at sits
    exact .single (by rw [sits.nextOf]; rfl) (Nat.succ_pos _)
  | .alt b rest, start, q, sits => by
    rw [Alts.code] at sits
    have later := rest.leads sits.tail.right
    rw [b.length_code] at later
    refine .step (k := b.size + 1) (by rw [sits.nextOf]; rfl) (Nat.succ_pos _) ?_
    rw [show start + (b.size + 1) = start + 1 + b.size by omega]
    refine (show start + 1 + b.size + rest.size = start + (Alts.alt b rest).size from ?_) ▸ later
    rw [Alts.size]
    omega

theorem Piece.leads_from_exit {p : Program} {x : Piece} (closed : x.closed = true) {start : Nat}
    (sits : Sits p start (x.code x.size)) : Leads p (start + x.exit) (start + x.size) := by
  obtain ⟨front, op, back, length, split⟩ := x.code_split closed
  rw [split] at sits
  have here := sits.right
  rw [length] at here
  have inside := x.exit_lt closed
  rw [show start + x.size = start + x.exit + (x.size - x.exit) by omega]
  refine .single ?_ (by omega)
  rw [here.nextOf]
  show (x.size : Int) - x.exit = _
  omega

theorem reluctantCode_leads {p : Program} {op : Op} {size start : Nat} {operand : Program}
    (sits : Sits p start (reluctantCode op size operand)) : Leads p start (start + (size + 2)) := by
  rw [reluctantCode] at sits
  exact .single (by rw [sits.nextOf]; rfl) (Nat.succ_pos _)

theorem Piece.leads {p : Program} : ∀ (x : Piece) {start : Nat} {q : Int}, Sits p start (x.code q) →
    (x.closed = true → Leads p start (start + x.exit)) ∧ (q = x.size → Leads p start (start + x.size))
  | .nothing, start, q, sits => by
    refine ⟨fun _ => .refl start, fun behind => ?_⟩
    subst behind
    exact Piece.leads_from_exit (x := .nothing) rfl sits
  | .simple op, start, q, sits => by
    refine ⟨fun _ => .refl start, fun behind => ?_⟩
    subst behind
    exact Piece.leads_from_exit (x := .simple op) rfl sits
  | .group k a, start, q, sits => by
    have out : Leads p start (start + (Piece.group k a).exit) := by
      rw [Piece.code] at sits
      have inner := a.leads sits.tail.left
      refine .step (k := 1) (by rw [sits.nextOf]; rfl) Nat.one_pos ?_
      rw [Piece.exit, show start + (a.size + 1) = start + 1 + a.size by omega]
      exact inner
    refine ⟨fun _ => out, fun behind => ?_⟩
    subst behind
    exact out.trans (Piece.leads_from_exit rfl sits)
  | .question x, start, q, sits => by
    have out : Leads p start (start + (Piece.question x).exit) := by
      rw [Piece.code] at sits
      have behind := sits.tail.right
      rw [x.length_code] at behind
      refine .step (k := x.size + 1) (by rw [sits.nextOf]; rfl) (Nat.succ_pos _) ?_
      rw [show start + (x.size + 1) = start + 1 + x.size by omega]
      refine .step (k := 1) behind.nextOf Nat.one_pos ?_
      rw [Piece.exit, show start + (x.size + 2) = start + 1 + x.size + 1 by omega]
      exact .refl _
    refine ⟨fun _ => out, fun behind => ?_⟩
    subst behind
    exact out.trans (Piece.leads_from_exit rfl sits)
  | .star x, start, q, sits => by
    have out : Leads p start (start + (Piece.star x).exit) := by
      rw [Piece.code] at sits
      have behind := sits.tail.right.tail.tail
      rw [x.length_code] at behind
      refine .step (k := x.size + 3) (by rw [sits.nextOf]; rfl) (Nat.succ_pos _) ?_
      rw [show start + (x.size + 3) = start + 1 + x.size + 1 + 1 by omega]
      refine .step (k := 1) behind.nextOf Nat.one_pos ?_
      rw [Piece.exit, show start + (x.size + 4) = start + 1 + x.size + 1 + 1 + 1 by omega]
      exact .refl _
    refine ⟨fun _ => out, fun behind => ?_⟩
    subst behind
    exact out.trans (Piece.leads_from_exit rfl sits)
  | .plus x, start, q, sits => by
    have out : Leads p start (start + (Piece.plus x).exit) := by
      rw [Piece.code] at sits
      have behind := sits.right
      rw [x.length_code] at behind
      refine ((x.leads sits.left).2 rfl).trans (.step (k := 2) behind.nextOf Nat.two_pos ?_)
      refine .step (k := 1) behind.tail.tail.nextOf Nat.one_pos ?_
      rw [Piece.exit, show start + (x.size + 3) = start + x.size + 2 + 1 by omega]
      exact .refl _
    refine ⟨fun _ => out, fun behind => ?_⟩
    subst behind
    exact out.trans (Piece.leads_from_exit rfl sits)
  | .reluctantMaybe x, start, q, sits | .reluctantStar x, start, q, sits | .reluctantPlus x, start, q, sits => by
    rw [Piece.code] at sits
    refine ⟨fun closed => ?_, fun _ => reluctantCode_leads sits⟩
    rw [Piece.closed] at closed
    cases closed
  | .chain x y, start, q, sits => by
    rw [Piece.code] at sits
    have behind := sits.right
    rw [x.length_code] at behind
    have first := (x.leads sits.left).2 rfl
    refine ⟨fun closed => ?_, fun last => ?_⟩
    · rw [Piece.exit, ← Nat.add_assoc]
      exact first.trans ((y.leads behind).1 closed)
    · subst last
      rw [Piece.size, ← Nat.add_assoc]
      refine first.trans ((y.leads behind).2 ?_)
      rw [Piece.size]
      omega

end Coast.Regex
