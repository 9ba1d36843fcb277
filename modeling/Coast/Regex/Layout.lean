import Coast.Regex.Chains

/-!
# The compiler emits the code of what it parses

Each function of the compiler does what the corresponding function of the parser does and lays the code
of the result behind the program. All of this is stated as equations between computations.
-/

namespace Coast.Regex

open Scan

/-! ### Computations on the program -/

section Run

variable {α β : Type} (p : Program)

@[simp] theorem run_lift (x : Scan α) : StateT.run (liftM x : Compile α) p = (fun a => (a, p)) <$> x := by
  rw [map_eq_pure_bind]
  rfl

variable {γ : Type} {p} {f : α → β × Program}

theorem run_ite {c : Prop} [Decidable c] {y y' : Compile β} {x x' : Scan α} (yes : y.run p = f <$> x)
    (no : y'.run p = f <$> x') : (if c then y else y').run p = f <$> if c then x else x' := by
  split
  · exact yes
  · exact no

theorem run_step {x : Scan γ} {y : γ → Compile β} {x' : γ → Scan α} (rest : ∀ a, (y a).run p = f <$> x' a) :
    ((liftM x : Compile γ) >>= y).run p = f <$> (x >>= x') := by
  rw [StateT.run_bind, run_lift, bind_map_left, map_bind]
  exact bind_congr rest

theorem run_failure : StateT.run (liftM (failure : Scan β) : Compile β) p = f <$> failure := rfl

theorem run_emit {δ : Type} {z : Compile δ} {x : Scan γ} {g : γ → δ × Program} {y : δ → Compile β} {x' : γ → Scan α}
    (first : z.run p = g <$> x) (rest : ∀ a, (y (g a).1).run (g a).2 = f <$> x' a) :
    (z >>= y).run p = f <$> (x >>= x') := by
  rw [StateT.run_bind, first, bind_map_left, map_bind]
  exact bind_congr rest

variable (p)

@[simp] theorem appendNode_run (op : Op) : (appendNode op).run p = pure (p.length, p ++ [⟨op, 0⟩]) := rfl

@[simp] theorem appendProgram_run (prog : Program) : (appendProgram prog).run p = pure (p.length, p ++ prog) := rfl

theorem insertNode_run (op : Op) (l : Program) : (insertNode op p.length).run (p ++ l) = pure ((), p ++ ⟨op, 0⟩ :: l) := by
  have insert : (p ++ l).insertIdx p.length ⟨op, 0⟩ = p ++ ⟨op, 0⟩ :: l := by
    induction p with
    | nil => rfl
    | cons _ _ ih => rw [List.cons_append, List.length_cons, List.insertIdx_succ_cons, ih, List.cons_append]
  show pure ((), (p ++ l).insertIdx p.length ⟨op, 0⟩) = _
  rw [insert]

end Run

theorem nextOf_middle (before behind : Program) (node : Node) :
    nextOf (before ++ node :: behind) before.length = node.next := by
  rw [nextOf, List.getD_eq_getElem?_getD, List.getElem?_append_right (Nat.le_refl _), Nat.sub_self]
  rfl

theorem modify_middle (before behind : Program) (node : Node) (f : Node → Node) :
    (before ++ node :: behind).modify before.length f = before ++ f node :: behind := by
  induction before with
  | nil => rfl
  | cons _ _ ih => rw [List.cons_append, List.length_cons, List.modify_succ_cons, ih, List.cons_append]

theorem setNextOfEnd_node (before : Program) (op : Op) (k : Int) (behind : Program) {p p' : Program} {node target n : Nat}
    (shape : p = before ++ ⟨op, 0⟩ :: behind) (shape' : p' = before ++ ⟨op, k⟩ :: behind) (place : before.length = n)
    (leads : Leads p node n) (offset : (target : Int) - n = k) :
    (setNextOfEnd node target).run p = pure ((), p') := by
  subst shape shape' place offset
  have inside : before.length < (before ++ ⟨op, 0⟩ :: behind).length := by
    rw [List.length_append, List.length_cons]
    omega
  have last := leads.endOfChain (nextOf_middle _ _ _) (Nat.le_of_lt inside)
  have set : setNext (before ++ ⟨op, 0⟩ :: behind) before.length (target - before.length) =
      before ++ ⟨op, target - before.length⟩ :: behind := by
    rw [setNext, if_pos inside, modify_middle]
  show setNextOfEnd node target _ = _
  rw [setNextOfEnd, last]
  show pure ((), setNext _ _ _) = _
  rw [set]

theorem setNextOfEnd_block {x : Piece} (closed : x.closed = true) (before : Program) (k : Int) (behind : Program)
    {p p' : Program} {node target n : Nat} (shape : p = before ++ (x.pending ++ behind))
    (shape' : p' = before ++ (x.code k ++ behind)) (place : before.length = n) (into : Leads p node n)
    (offset : (target : Int) - n = k) :
    (setNextOfEnd node target).run p = pure ((), p') := by
  subst shape shape' place
  obtain ⟨front, op, back, length, split⟩ := x.code_split closed
  have sits : Sits (before ++ (x.pending ++ behind)) before.length (x.pending ++ behind) := sits_end _ _
  have onto := (x.leads sits.left).1 closed
  refine setNextOfEnd_node (before ++ front) op (k - x.exit) (back ++ behind) ?_ ?_ ?_ (into.trans onto) (by omega)
  · rw [Piece.pending, split, Int.sub_self]
    simp only [List.append_assoc, List.cons_append]
  · rw [split]
    simp only [List.append_assoc, List.cons_append]
  · rw [List.length_append, length]

@[simp] theorem Piece.length_pending (x : Piece) : x.pending.length = x.size := x.length_code _

/-! ### Closures -/

section Closures

variable {x : Piece} (closed : x.closed = true) (p : Program)

include closed

theorem generateQuestion_run :
    (generateQuestion p.length).run (p ++ x.pending) = pure ((), p ++ (Piece.question x).pending) := by
  have first : (setNextOfEnd p.length (p.length + (x.size + 1))).run
      (p ++ ⟨.opBranch, 0⟩ :: (x.pending ++ [⟨.opBranch, 0⟩])) =
      pure ((), p ++ ⟨.opBranch, x.size + 1⟩ :: (x.pending ++ [⟨.opBranch, 0⟩])) :=
    setNextOfEnd_node p .opBranch _ _ rfl rfl rfl (.refl _) (by omega)
  have second : (setNextOfEnd p.length (p.length + (x.size + 1 + 1))).run
      (p ++ ⟨.opBranch, x.size + 1⟩ :: (x.pending ++ [⟨.opBranch, 0⟩, ⟨.opNothing, 0⟩])) =
      pure ((), p ++ ⟨.opBranch, x.size + 1⟩ :: (x.pending ++ [⟨.opBranch, 1⟩, ⟨.opNothing, 0⟩])) :=
    setNextOfEnd_node (p ++ ⟨.opBranch, x.size + 1⟩ :: x.pending) .opBranch 1 [⟨.opNothing, 0⟩] (by simp) (by simp) (by simp)
      (Leads.single (k := x.size + 1) (sits_end p _).nextOf (Nat.succ_pos _)) (by omega)
  have third : (setNextOfEnd (p.length + 1) (p.length + (x.size + 1 + 1))).run
      (p ++ ⟨.opBranch, x.size + 1⟩ :: (x.pending ++ [⟨.opBranch, 1⟩, ⟨.opNothing, 0⟩])) =
      pure ((), p ++ ⟨.opBranch, x.size + 1⟩ :: (x.code (x.size + 1) ++ [⟨.opBranch, 1⟩, ⟨.opNothing, 0⟩])) :=
    setNextOfEnd_block closed (p ++ [⟨.opBranch, x.size + 1⟩]) (x.size + 1) [⟨.opBranch, 1⟩, ⟨.opNothing, 0⟩] (by simp) (by simp)
      (by simp) (.refl _) (by omega)
  simp only [generateQuestion, StateT.run_bind, insertNode_run, pure_bind, appendNode_run, List.append_assoc, List.cons_append,
    List.length_append, List.length_cons, List.length_nil, Nat.zero_add, Piece.length_pending, List.nil_append, first, second, third]
  simp [Piece.pending, Piece.code, Piece.exit]

theorem generateStar_run :
    (generateStar p.length).run (p ++ x.pending) = pure ((), p ++ (Piece.star x).pending) := by
  have first : (setNextOfEnd (p.length + 1) (p.length + (x.size + 1))).run
      (p ++ ⟨.opBranch, 0⟩ :: (x.pending ++ [⟨.opBranch, 0⟩])) =
      pure ((), p ++ ⟨.opBranch, 0⟩ :: (x.code x.size ++ [⟨.opBranch, 0⟩])) :=
    setNextOfEnd_block closed (p ++ [⟨.opBranch, 0⟩]) x.size [⟨.opBranch, 0⟩] (by simp) (by simp) (by simp) (.refl _) (by omega)
  have through : ∀ (o : Int) (l : Program), Leads (p ++ ⟨.opBranch, o⟩ :: (x.code x.size ++ l)) (p.length + 1) (p.length + (x.size + 1)) := by
    intro o l
    have := (x.leads (Sits.left (sits_end p (⟨.opBranch, o⟩ :: (x.code x.size ++ l))).tail)).2 rfl
    rw [Nat.add_assoc, Nat.add_comm 1] at this
    exact this
  have second : (setNextOfEnd (p.length + 1) (p.length + (x.size + 1 + 1))).run
      (p ++ ⟨.opBranch, 0⟩ :: (x.code x.size ++ [⟨.opBranch, 0⟩, ⟨.opGoto, 0⟩])) =
      pure ((), p ++ ⟨.opBranch, 0⟩ :: (x.code x.size ++ [⟨.opBranch, 1⟩, ⟨.opGoto, 0⟩])) :=
    setNextOfEnd_node (p ++ ⟨.opBranch, 0⟩ :: x.code x.size) .opBranch 1 [⟨.opGoto, 0⟩] (by simp) (by simp)
      (by simp [x.length_code]) (through _ _) (by omega)
  have third : (setNextOfEnd (p.length + 1) p.length).run
      (p ++ ⟨.opBranch, 0⟩ :: (x.code x.size ++ [⟨.opBranch, 1⟩, ⟨.opGoto, 0⟩])) =
      pure ((), p ++ ⟨.opBranch, 0⟩ :: (x.code x.size ++ [⟨.opBranch, 1⟩, ⟨.opGoto, -(x.size + 2)⟩])) := by
    have on := (sits_end (p ++ ⟨.opBranch, 0⟩ :: x.code x.size) [⟨.opBranch, 1⟩, ⟨.opGoto, 0⟩]).nextOf
    simp only [List.append_assoc, List.cons_append, List.length_append, List.length_cons, x.length_code] at on
    exact setNextOfEnd_node (p ++ ⟨.opBranch, 0⟩ :: (x.code x.size ++ [⟨.opBranch, 1⟩])) .opGoto (-(x.size + 2)) [] (by simp) (by simp)
      (by simp [x.length_code]; rfl) ((through _ _).trans (Leads.single (k := 1) on Nat.one_pos)) (by omega)
  have fourth : (setNextOfEnd p.length (p.length + (x.size + 1 + 1 + 1))).run
      (p ++ ⟨.opBranch, 0⟩ :: (x.code x.size ++ [⟨.opBranch, 1⟩, ⟨.opGoto, -(x.size + 2)⟩, ⟨.opBranch, 0⟩])) =
      pure ((), p ++ ⟨.opBranch, x.size + 3⟩ :: (x.code x.size ++ [⟨.opBranch, 1⟩, ⟨.opGoto, -(x.size + 2)⟩, ⟨.opBranch, 0⟩])) :=
    setNextOfEnd_node p .opBranch _ _ rfl rfl rfl (.refl _) (by omega)
  have fifth : (setNextOfEnd p.length (p.length + (x.size + 1 + 1 + 1 + 1))).run
      (p ++ ⟨.opBranch, x.size + 3⟩ :: (x.code x.size ++ [⟨.opBranch, 1⟩, ⟨.opGoto, -(x.size + 2)⟩, ⟨.opBranch, 0⟩, ⟨.opNothing, 0⟩])) =
      pure ((), p ++ ⟨.opBranch, x.size + 3⟩ :: (x.code x.size ++ [⟨.opBranch, 1⟩, ⟨.opGoto, -(x.size + 2)⟩, ⟨.opBranch, 1⟩, ⟨.opNothing, 0⟩])) :=
    setNextOfEnd_node (p ++ ⟨.opBranch, x.size + 3⟩ :: (x.code x.size ++ [⟨.opBranch, 1⟩, ⟨.opGoto, -(x.size + 2)⟩])) .opBranch 1
      [⟨.opNothing, 0⟩] (by simp) (by simp) (by simp [x.length_code])
      (Leads.single (k := x.size + 3) (sits_end p _).nextOf (Nat.succ_pos _)) (by omega)
  simp only [generateStar, StateT.run_bind, insertNode_run, pure_bind, appendNode_run, List.append_assoc, List.cons_append,
    List.length_append, List.length_cons, List.length_nil, Nat.zero_add, Piece.length_pending, x.length_code, List.nil_append, first, second, third,
    fourth, fifth]
  simp [Piece.pending, Piece.code, Piece.exit]

theorem generatePlus_run :
    (generatePlus p.length).run (p ++ x.pending) = pure ((), p ++ (Piece.plus x).pending) := by
  have first : (setNextOfEnd p.length (p.length + x.size)).run (p ++ (x.pending ++ [⟨.opBranch, 0⟩])) =
      pure ((), p ++ (x.code x.size ++ [⟨.opBranch, 0⟩])) :=
    setNextOfEnd_block closed p x.size [⟨.opBranch, 0⟩] rfl rfl rfl (.refl _) (by omega)
  have second : (setNextOfEnd (p.length + (x.size + 1)) p.length).run
      (p ++ (x.code x.size ++ [⟨.opBranch, 0⟩, ⟨.opGoto, 0⟩])) =
      pure ((), p ++ (x.code x.size ++ [⟨.opBranch, 0⟩, ⟨.opGoto, -(x.size + 1)⟩])) :=
    setNextOfEnd_node (p ++ (x.code x.size ++ [⟨.opBranch, 0⟩])) .opGoto (-(x.size + 1)) [] (by simp) (by simp)
      (by simp [x.length_code]) (.refl _) (by omega)
  have third : (setNextOfEnd (p.length + x.size) (p.length + (x.size + 1 + 1))).run
      (p ++ (x.code x.size ++ [⟨.opBranch, 0⟩, ⟨.opGoto, -(x.size + 1)⟩, ⟨.opBranch, 0⟩])) =
      pure ((), p ++ (x.code x.size ++ [⟨.opBranch, 2⟩, ⟨.opGoto, -(x.size + 1)⟩, ⟨.opBranch, 0⟩])) :=
    setNextOfEnd_node (p ++ x.code x.size) .opBranch 2 [⟨.opGoto, -(x.size + 1)⟩, ⟨.opBranch, 0⟩] (by simp) (by simp)
      (by simp [x.length_code]) (.refl _) (by omega)
  have fourth : (setNextOfEnd p.length (p.length + (x.size + 1 + 1 + 1))).run
      (p ++ (x.code x.size ++ [⟨.opBranch, 2⟩, ⟨.opGoto, -(x.size + 1)⟩, ⟨.opBranch, 0⟩, ⟨.opNothing, 0⟩])) =
      pure ((), p ++ (x.code x.size ++ [⟨.opBranch, 2⟩, ⟨.opGoto, -(x.size + 1)⟩, ⟨.opBranch, 1⟩, ⟨.opNothing, 0⟩])) := by
    have sits := sits_end p (x.code x.size ++ [⟨.opBranch, 2⟩, ⟨.opGoto, -(x.size + 1)⟩, ⟨.opBranch, 0⟩, ⟨.opNothing, 0⟩])
    have on := sits.right.nextOf
    rw [x.length_code] at on
    exact setNextOfEnd_node (p ++ (x.code x.size ++ [⟨.opBranch, 2⟩, ⟨.opGoto, -(x.size + 1)⟩])) .opBranch 1 [⟨.opNothing, 0⟩]
      (by simp) (by simp) (by simp [x.length_code]; rfl)
      (((x.leads sits.left).2 rfl).trans (Leads.single (k := 2) on Nat.two_pos)) (by omega)
  simp only [generatePlus, StateT.run_bind, pure_bind, appendNode_run, List.append_assoc, List.cons_append,
    List.length_append, List.length_cons, List.length_nil, Nat.zero_add, Piece.length_pending, x.length_code, List.nil_append, first,
    second, third, fourth]
  simp [Piece.pending, Piece.code, Piece.exit]

theorem reluctantClosure_run (op : Op) :
    (reluctantClosure p.length op).run (p ++ x.pending) = pure ((), p ++ reluctantCode op x.size (x.code x.size)) := by
  have first : (setNextOfEnd p.length (p.length + x.size)).run (p ++ (x.pending ++ [⟨.opEnd, 0⟩])) =
      pure ((), p ++ (x.code x.size ++ [⟨.opEnd, 0⟩])) :=
    setNextOfEnd_block closed p x.size [⟨.opEnd, 0⟩] rfl rfl rfl (.refl _) (by omega)
  have second : (setNextOfEnd p.length (p.length + (x.size + 1 + 1))).run (p ++ ⟨op, 0⟩ :: (x.code x.size ++ [⟨.opEnd, 0⟩])) =
      pure ((), p ++ ⟨op, x.size + 2⟩ :: (x.code x.size ++ [⟨.opEnd, 0⟩])) :=
    setNextOfEnd_node p op _ _ rfl rfl rfl (.refl _) (by omega)
  simp only [reluctantClosure, StateT.run_bind, StateT.run_get, insertNode_run, pure_bind, appendNode_run, List.append_assoc,
    List.length_append, List.length_cons, List.length_nil, Nat.zero_add, Piece.length_pending, x.length_code, first, second]
  rfl

end Closures

/-! ### Repetitions -/

/-- The code of `n` blocks that are connected with what follows. -/
def repeats (x : Piece) (n : Nat) : Program := (List.replicate n (x.code x.size)).flatten

theorem repeats_succ (x : Piece) (n : Nat) : repeats x (n + 1) = x.code x.size ++ repeats x n := by
  rw [repeats, List.replicate_succ, List.flatten_cons, repeats]

theorem repeats_add (x : Piece) (n m : Nat) : repeats x (n + m) = repeats x n ++ repeats x m := by
  rw [repeats, List.replicate_add, List.flatten_append, repeats, repeats]

theorem Piece.code_copies (x y : Piece) (n : Nat) (q : Int) :
    (copies x n y).code q = repeats x n ++ y.code (q - n * x.size) := by
  induction n generalizing q with
  | zero =>
    rw [copies]
    simp [repeats]
  | succ n ih =>
    rw [copies, Piece.code, ih, repeats_succ, List.append_assoc, Int.sub_sub]
    congr 3
    push_cast
    rw [Int.add_mul, Int.one_mul, Int.add_comm]

theorem Piece.exit_copies (x y : Piece) (n : Nat) : (copies x n y).exit = n * x.size + y.exit := by
  induction n with
  | zero => rw [copies, Nat.zero_mul, Nat.zero_add]
  | succ n ih => rw [copies, Piece.exit, ih, Nat.succ_mul, ← Nat.add_assoc, Nat.add_comm x.size]

theorem Piece.pending_copies (x y : Piece) (n : Nat) : (copies x n y).pending = repeats x n ++ y.pending := by
  rw [Piece.pending, Piece.code_copies, Piece.exit_copies, Piece.pending]
  congr 2
  push_cast
  omega

section Repetition

variable {x : Piece} (closed : x.closed = true)

include closed

theorem setNextOfEnd_behind (p behind : Program) :
    (setNextOfEnd p.length (p.length + x.size)).run (p ++ (x.pending ++ behind)) =
      pure ((), p ++ (x.code x.size ++ behind)) :=
  setNextOfEnd_block closed p x.size behind rfl rfl rfl (.refl _) (by omega)

theorem repeatTerminal_run (p : Program) (n : Nat) :
    (repeatTerminal x.pending n p.length).run (p ++ x.pending) =
      pure ((p ++ repeats x n).length, (p ++ repeats x n) ++ x.pending) := by
  induction n generalizing p with
  | zero => simp [repeatTerminal, repeats]
  | succ n ih =>
    have again := ih (p ++ x.code x.size)
    rw [List.append_assoc, List.length_append, x.length_code] at again
    rw [repeatTerminal, StateT.run_bind, appendProgram_run, pure_bind, StateT.run_bind, List.append_assoc,
      List.length_append, x.length_pending, setNextOfEnd_behind closed, pure_bind, again, repeats_succ, List.append_assoc p]

theorem optionalCopy_run (p : Program) (minimum : Int) :
    (repeatTerminal x.pending (minimum - 1).toNat p.length >>= optionalCopy x.pending minimum).run (p ++ x.pending) =
      pure ((p ++ repeats x minimum.toNat).length, (p ++ repeats x minimum.toNat) ++ x.pending) := by
  rw [StateT.run_bind, repeatTerminal_run closed, pure_bind, optionalCopy]
  split
  · rename_i positive
    rw [repeatTerminal_run closed, List.append_assoc p, ← repeats_add,
      show (minimum - 1).toNat + 1 = minimum.toNat by omega]
  · rename_i none
    rw [StateT.run_pure, show (minimum - 1).toNat = minimum.toNat by omega]

theorem moreQuestions_run (p : Program) (n : Nat) :
    (moreQuestions x.pending n p.length).run (p ++ (Piece.question x).pending) =
      pure ((), p ++ (repeats (.question x) n ++ (Piece.question x).pending)) := by
  induction n generalizing p with
  | zero => simp [moreQuestions, repeats]
  | succ n ih =>
    have generated := generateQuestion_run closed (p ++ (Piece.question x).pending)
    rw [List.length_append, Piece.length_pending] at generated
    have again := ih (p ++ (Piece.question x).code (Piece.question x).size)
    rw [List.append_assoc, List.length_append, Piece.length_code] at again
    rw [moreQuestions, StateT.run_bind, appendProgram_run, pure_bind, StateT.run_bind, List.length_append,
      Piece.length_pending, generated, pure_bind, StateT.run_bind]
    dsimp only
    rw [List.append_assoc, setNextOfEnd_behind (x := .question x) rfl, pure_bind, again, repeats_succ, List.append_assoc,
      List.append_assoc]

theorem generateQuestions_run (p : Program) (n : Nat) :
    (generateQuestions x.pending p.length (n + 1)).run (p ++ x.pending) =
      pure ((), p ++ (repeats (.question x) n ++ (Piece.question x).pending)) := by
  rw [generateQuestions, StateT.run_bind, generateQuestion_run closed, pure_bind, Nat.add_sub_cancel,
    moreQuestions_run closed]

end Repetition

/-! ### Terminals -/

section Pattern

variable (pattern : Bytes) (p : Program)

def emit (r : Piece × Bool) : (Nat × Bool) × Program := ((p.length, r.2), p ++ r.1.pending)

def emitNode (op : Op) : Nat × Program := (p.length, p ++ [⟨op, 0⟩])

theorem setOp_run (op op' : Op) : (setOp p.length op').run (p ++ [⟨op, 0⟩]) = pure ((), p ++ [⟨op', 0⟩]) := by
  have set := modify_middle p [] ⟨op, 0⟩ fun n => { n with op := op' }
  show (pure ((), List.modify (p ++ [⟨op, 0⟩]) p.length fun n => { n with op := op' }) : Scan (Unit × Program)) = _
  rw [set]

theorem characterClass_run (fuel : Nat) :
    (characterClass pattern fuel).run p = (fun set => emitNode p (.opAnyof set)) <$> parseClass pattern fuel := by
  refine run_step fun _ => run_step fun ended => run_ite (run_step fun _ => run_failure) (run_step fun ch => run_ite ?_ ?_)
  · refine run_step fun _ => ?_
    rw [posixCharacterClass, StateT.run_bind, run_lift, bind_map_left, map_eq_pure_bind]
    rfl
  · rw [StateT.run_bind, appendNode_run, pure_bind, StateT.run_bind, run_lift, bind_map_left, parseClassSet_eq,
      map_eq_pure_bind]
    refine bind_congr fun set => ?_
    rw [StateT.run_bind, setOp_run, pure_bind]
    rfl

theorem atom_run (fuel : Nat) :
    (atom pattern fuel).run p = (fun text => emitNode p (.opAtom text)) <$> atomText pattern fuel := by
  rw [atom, StateT.run_bind, appendNode_run, pure_bind, StateT.run_bind, run_lift, bind_map_left, map_eq_pure_bind]
  refine bind_congr fun text => ?_
  rw [StateT.run_bind, setOp_run, pure_bind]
  rfl

def emitTerminal (r : Terminal × Bool) : (Nat × Bool) × Program := emit p (r.1.piece, r.2)

theorem terminal_run {expr : Compile (Nat × Bool)} {parsed : Scan (Terminal × Bool)}
    (same : ∀ p, expr.run p = emitTerminal p <$> parsed) (fuel : Nat) :
    (terminal pattern expr fuel).run p = emitTerminal p <$> parseTerminal pattern parsed fuel := by
  have node : ∀ (op : Op) (isnullable : Bool),
      (appendNode op >>= fun node => return (node, isnullable)).run p =
        emitTerminal p <$> (pure (.simple op, isnullable) : Scan (Terminal × Bool)) := fun _ _ => rfl
  have single : ∀ {x : Compile Nat} {α : Type} {s : Scan α} {op : α → Op}, x.run p = (fun a => emitNode p (op a)) <$> s →
      (x >>= fun node => return (node, false)).run p = emitTerminal p <$> (s >>= fun a => pure (.simple (op a), false)) :=
    fun run => run_emit run fun _ => rfl
  refine run_step fun start => run_step fun ch => ?_
  refine run_ite (run_step fun _ => node _ _) ?_
  refine run_ite (run_step fun _ => node _ _) ?_
  refine run_ite (run_step fun _ => node _ _) ?_
  refine run_ite (single (characterClass_run pattern p fuel)) ?_
  refine run_ite (same p) ?_
  refine run_ite (run_step fun _ => run_failure) ?_
  refine run_ite run_failure ?_
  refine run_ite (run_step fun _ => run_failure) ?_
  refine run_ite (run_step fun _ => run_failure) ?_
  refine run_ite (run_step fun escaped => ?_) (single (atom_run pattern p fuel))
  cases escaped with
  | cls => exact run_step fun _ => node _ _
  | complex => exact run_step fun _ => node _ _
  | backref => exact run_step fun _ => run_ite (node _ _) (run_step fun _ => run_failure)
  | error => exact run_failure
  | char => exact run_step fun _ => single (atom_run pattern p fuel)

theorem Terminal.closed (x : Terminal) : x.piece.closed = true := by
  cases x with
  | simple => rw [Terminal.piece, Piece.closed] <;> simp
  | group => rw [Terminal.piece, Piece.closed] <;> simp

theorem repetition_run (x : Terminal) :
    (repetition pattern p.length x.piece.size).run (p ++ x.piece.pending) =
      (fun r => (r.2, p ++ r.1.pending)) <$> parseRepetition pattern x := by
  have copy : (copyProgram p.length x.piece.size).run (p ++ x.piece.pending) = pure (x.piece.pending, p ++ x.piece.pending) := by
    show pure (((p ++ x.piece.pending).drop p.length).take x.piece.size, _) = _
    rw [List.drop_left, ← x.piece.length_pending, List.take_length]
  rw [repetition, parseRepetition, StateT.run_bind, run_lift, bind_map_left, map_bind]
  refine bind_congr fun r => ?_
  obtain ⟨minimum, optionalRepetition⟩ := r
  dsimp only
  rw [StateT.run_bind, copy, pure_bind]
  have copies := optionalCopy_run x.closed p minimum
  match optionalRepetition with
  | none =>
    simp only [reduceCtorEq, false_and, if_false, map_pure]
    rw [← bind_assoc, StateT.run_bind, copies, pure_bind, StateT.run_bind]
    dsimp only
    rw [generateStar_run x.closed]
    simp [repeated, Piece.pending_copies]
  | some 0 =>
    rw [StateT.run_bind, repeatTerminal_run x.closed, pure_bind]
    by_cases none : minimum ≤ 0
    · simp [none]
    · have positive : (minimum == 0) = false := by simpa using (by omega : minimum ≠ 0)
      simp [none, positive, repeated, Piece.pending_copies]
  | some (repetitions + 1) =>
    simp only [Option.some.injEq, Nat.add_one_ne_zero, false_and, if_false, map_pure]
    rw [← bind_assoc, StateT.run_bind, copies, pure_bind, StateT.run_bind]
    dsimp only
    rw [generateQuestions_run x.closed]
    simp [repeated, Piece.pending_copies]

theorem generateClosure_run (closureType : UInt8) (x : Terminal) :
    (generateClosure pattern p.length closureType).run (p ++ x.piece.pending) =
      (fun reluctant => ((), p ++ (closureOf closureType reluctant x.piece).pending)) <$> parseMark pattern := by
  rw [generateClosure, parseMark, StateT.run_bind, run_lift, bind_map_left, map_bind]
  refine bind_congr fun ch => ?_
  split
  · rw [StateT.run_bind, run_lift, bind_map_left, map_bind]
    refine bind_congr fun _ => ?_
    rw [reluctantClosure_run x.closed, map_pure, closureOf, if_pos rfl]
    split
    · rfl
    · split <;> rfl
  · simp only [map_pure, closureOf, Bool.false_eq_true, if_false]
    split
    · exact generateQuestion_run x.closed p
    · split
      · exact generateStar_run x.closed p
      · exact generatePlus_run x.closed p

theorem closure_run {expr : Compile (Nat × Bool)} {parsed : Scan (Terminal × Bool)}
    (same : ∀ p, expr.run p = emitTerminal p <$> parsed) (fuel : Nat) :
    (closure pattern expr fuel).run p = emit p <$> parseClosure pattern parsed fuel := by
  refine run_emit (terminal_run pattern p same fuel) fun r => ?_
  obtain ⟨x, isnullable⟩ := r
  rw [StateT.run_bind, StateT.run_get, pure_bind]
  have len : (p ++ x.piece.pending).length - p.length = x.piece.size := by
    rw [List.length_append, Nat.add_sub_cancel_left, Piece.length_pending]
  dsimp only [emitTerminal, emit]
  rw [len]
  refine run_step fun ended => run_ite rfl (run_step fun closureType => run_ite rfl (run_ite ?_ ?_))
  · refine run_ite (run_step fun _ => run_failure) ?_
    rw [StateT.run_bind, repetition_run, bind_map_left, map_eq_pure_bind]
    rfl
  · refine run_step fun _ => run_ite (run_step fun _ => run_failure) ?_
    exact run_emit (generateClosure_run pattern p closureType x) fun _ => rfl

end Pattern

end Coast.Regex
