import Coast.Regex.Layout

/-!
# Branches and expressions

The pieces of a branch are connected one after the other, the branches of an expression one after the
other, and at last the ends of the branches with the end of the expression. A reluctant closure has no
end that could be connected: what its chain leads to is the next piece, and this is then connected with
itself.
-/

namespace Coast.Regex

open Scan

/-! ### Pieces in sequence -/

def linked (ps : List Piece) : Program := ps.flatMap fun x => x.code x.size

def Piece.circle (x : Piece) : Program := if x.closed then x.code 0 else x.pending ++ [⟨.hole, -x.size⟩]

theorem Piece.code_open : ∀ (x : Piece) (q q' : Int), x.closed = false → x.code q = x.code q'
  | .nothing, _, _, no | .simple _, _, _, no | .group _ _, _, _, no | .question _, _, _, no | .star _, _, _, no
  | .plus _, _, _, no => by simp [Piece.closed] at no
  | .reluctantMaybe _, _, _, _ | .reluctantStar _, _, _, _ | .reluctantPlus _, _, _, _ => by simp only [Piece.code]
  | .chain x y, q, q', no => by
    rw [Piece.code, Piece.code, y.code_open (q - x.size) (q' - x.size) no]

theorem Piece.exit_open : ∀ x : Piece, x.closed = false → x.exit = x.size
  | .nothing, no | .simple _, no | .group _ _, no | .question _, no | .star _, no | .plus _, no => by
    simp [Piece.closed] at no
  | .reluctantMaybe _, _ | .reluctantStar _, _ | .reluctantPlus _, _ => by rw [Piece.exit, Piece.size]
  | .chain x y, no => by rw [Piece.exit, Piece.size, y.exit_open no]

theorem Piece.pending_open {x : Piece} (no : x.closed = false) : x.pending = x.code x.size := by
  rw [Piece.pending, x.exit_open no]

theorem linked_leads {p : Program} : ∀ (ps : List Piece) {start : Nat}, Sits p start (linked ps) →
    Leads p start (start + (linked ps).length)
  | [], start, _ => .refl start
  | x :: ps, start, sits => by
    rw [linked, List.flatMap_cons] at sits ⊢
    have later := linked_leads ps sits.right
    rw [List.length_append, ← Nat.add_assoc]
    rw [x.length_code] at later ⊢
    exact ((x.leads sits.left).2 rfl).trans later

theorem Piece.circle_endless {p : Program} {x : Piece} (compound : x.single = false) {start node : Nat}
    (sits : Sits p start x.circle) (into : Leads p node start) (fuel : Nat) : follow p fuel node = none := by
  rw [Piece.circle] at sits
  split at sits
  · rename_i closed
    obtain ⟨front, op, back, length, split⟩ := x.code_split closed
    have around := (x.leads sits).1 closed
    rw [split] at sits
    have back := sits.right.nextOf
    have later : x.exit ≠ 0 := by simpa [Piece.single, closed] using compound
    rw [length] at back
    refine around.endless ?_ (by omega) (into.trans around) fuel
    rw [back]
    dsimp only
    omega
  · rename_i no
    rw [Bool.not_eq_true] at no
    rw [Piece.pending_open no] at sits
    have around := (x.leads sits.left).2 rfl
    have back := sits.right.nextOf
    have := x.size_pos
    rw [x.length_code] at back
    refine around.endless ?_ (by omega) (into.trans around) fuel
    rw [back]
    dsimp only
    omega

namespace Sequence

def front (s : Sequence) : Program := linked s.pieces.dropLast

def laid (s : Sequence) : Program :=
  match s.pieces.getLast? with
  | some last => s.front ++ if s.broken then last.circle else last.pending
  | none => []

/-- The last piece of a sequence that begins at `start`. -/
def chain (s : Sequence) (start : Nat) : Option Nat := s.pieces.getLast?.map fun _ => start + s.front.length

theorem laid_empty : empty.laid = [] := rfl

theorem chain_empty (start : Nat) : empty.chain start = none := rfl

theorem cases_last (s : Sequence) : s.pieces = [] ∨ ∃ front last, s.pieces = front ++ [last] := by
  rcases List.eq_nil_or_concat s.pieces with none | ⟨front, last, some⟩
  · exact .inl none
  · exact .inr ⟨front, last, by rw [some, List.concat_eq_append]⟩

end Sequence

theorem Sequence.length_laid {s : Sequence} (intact : s.broken = false) : s.laid.length = (linked s.pieces).length := by
  unfold laid front
  rcases s.cases_last with none | ⟨before, last, some⟩
  · rw [none]
    rfl
  · rw [some, List.getLast?_concat, List.dropLast_concat]
    simp [intact, linked, Piece.length_code]

theorem Sequence.chain_add (s : Sequence) (x : Piece) (start : Nat) :
    (s.add x).chain start = some (start + (linked s.pieces).length) := by
  simp [chain, add, front]

theorem setNextOfEnd_stuck {p : Program} {node target : Nat} (endless : ∀ fuel, follow p fuel node = none) :
    (setNextOfEnd node target).run p = stuck := by
  show setNextOfEnd node target p = _
  rw [setNextOfEnd, endOfChain, endless]

theorem setNextOfEnd_hole {p : Program} {node target : Nat} (leads : Leads p node p.length) :
    (setNextOfEnd node target).run p = pure ((), p ++ [⟨.hole, target - p.length⟩]) := by
  have behind : nextOf p p.length = 0 := by
    rw [nextOf, List.getD_eq_getElem?_getD, List.getElem?_eq_none (Nat.le_refl _)]
    rfl
  show setNextOfEnd node target p = _
  rw [setNextOfEnd, leads.endOfChain behind (Nat.le_refl _)]
  show pure ((), setNext p p.length (target - p.length)) = _
  rw [setNext, if_neg (Nat.lt_irrefl _), Nat.sub_self, List.replicate_zero, List.append_nil]

section Connect

variable (q : Program) {last x : Piece}

theorem connect_closed (closed : last.closed = true) :
    (setNextOfEnd q.length (q ++ last.pending).length).run (q ++ last.pending ++ x.pending) =
      pure ((), q ++ last.code last.size ++ x.pending) := by
  refine setNextOfEnd_block closed q last.size x.pending ?_ ?_ rfl (.refl _) ?_
  · rw [List.append_assoc]
  · rw [List.append_assoc]
  · rw [List.length_append, Piece.length_pending]
    omega

theorem connect_open (no : last.closed = false) :
    (setNextOfEnd q.length (q ++ last.pending).length).run (q ++ last.pending ++ x.pending) =
      pure ((), q ++ last.code last.size ++ if x.single then x.pending else x.circle) := by
  rw [Piece.pending_open no]
  have place : (q ++ last.code last.size).length = q.length + last.size := by rw [List.length_append, last.length_code]
  have sits : Sits (q ++ last.code last.size ++ x.pending) q.length (last.code last.size ++ x.pending) := by
    rw [List.append_assoc]
    exact sits_end q _
  have into := (last.leads sits.left).2 rfl
  rw [← place] at into
  by_cases closed : x.closed = true
  · obtain ⟨before, op, back, length, split⟩ := x.code_split closed
    by_cases first : x.exit = 0
    · rw [if_pos (by simp [Piece.single, closed, first])]
      have shape : x.pending = ⟨op, 0⟩ :: back := by
        rw [Piece.pending, split, Int.sub_self, List.length_eq_zero_iff.mp (length.trans first)]
        rfl
      rw [shape] at into ⊢
      exact setNextOfEnd_node _ op 0 back rfl rfl rfl into (by omega)
    · rw [if_neg (by simp [Piece.single, closed, first]), Piece.circle, if_pos closed]
      exact setNextOfEnd_block closed _ 0 [] (by simp) (by simp) rfl into (by omega)
  · rw [Bool.not_eq_true] at closed
    rw [if_neg (by simp [Piece.single, closed]), Piece.circle, if_neg (by simp [closed])]
    have whole : (q ++ last.code last.size ++ x.pending).length = (q ++ last.code last.size).length + x.size := by
      rw [List.length_append, Piece.length_pending]
    have onto := into.trans ((x.leads (Piece.pending_open closed ▸ sits_end _ _)).2 rfl)
    rw [← whole] at onto
    have offset : ((q ++ last.code last.size).length : Int) - (q ++ last.code last.size ++ x.pending).length = -x.size := by
      rw [whole]
      omega
    rw [setNextOfEnd_hole onto, offset, List.append_assoc _ x.pending]

end Connect

theorem connect_run (p : Program) (s : Sequence) (x : Piece) :
    (connect (s.chain p.length) (p ++ s.laid).length).run (p ++ s.laid ++ x.pending) =
      if s.broken then stuck else pure ((), p ++ (s.add x).laid) := by
  have added : (s.add x).laid = linked s.pieces ++ if s.breaks x then x.circle else x.pending := by
    unfold Sequence.laid Sequence.front Sequence.add
    dsimp only
    rw [List.getLast?_concat, List.dropLast_concat]
  rw [added]
  obtain ⟨pieces, broken, compound⟩ := s
  rcases Sequence.cases_last ⟨pieces, broken, compound⟩ with none | ⟨before, last, some⟩
  · dsimp only at none
    subst none
    have intact : broken = false := by
      cases broken with
      | false => rfl
      | true =>
        obtain ⟨_, has, _⟩ := compound rfl
        cases has
    subst intact
    simp [Sequence.laid, Sequence.chain, connect, Sequence.breaks, linked]
  · dsimp only at some
    subst some
    have chain : Sequence.chain ⟨before ++ [last], broken, compound⟩ p.length = some (p ++ linked before).length := by
      simp [Sequence.chain, Sequence.front]
    have linked_last : linked (before ++ [last]) = linked before ++ last.code last.size := by simp [linked]
    have laid : Sequence.laid ⟨before ++ [last], broken, compound⟩ =
        linked before ++ if broken then last.circle else last.pending := by
      unfold Sequence.laid Sequence.front
      dsimp only
      rw [List.getLast?_concat, List.dropLast_concat]
    rw [chain, laid, linked_last, connect]
    cases broken with
    | true =>
      rw [if_pos rfl, if_pos rfl, ← List.append_assoc p]
      obtain ⟨last', has, compound⟩ := compound rfl
      rw [List.getLast?_concat] at has
      cases has
      refine setNextOfEnd_stuck fun fuel => Piece.circle_endless compound ?_ (.refl _) fuel
      rw [List.append_assoc]
      exact (sits_end _ _).left
    | false =>
      have breaks : Sequence.breaks ⟨before ++ [last], false, compound⟩ x = (!last.closed && !x.single) := by
        simp [Sequence.breaks]
      simp only [Bool.false_eq_true, if_false, breaks]
      rw [← List.append_assoc p]
      cases closed : last.closed with
      | true => rw [connect_closed _ closed]; simp
      | false =>
        rw [connect_open _ closed]
        cases x.single <;> simp

/-- The nodes of a branch behind its `opBranch`. -/
def Sequence.operand (s : Sequence) : Program := if s.pieces = [] then Piece.nothing.pending else s.laid

theorem Piece.ofList_concat (before : List Piece) (last : Piece) :
    (Piece.ofList (before ++ [last])).size = (linked before).length + last.size ∧
      (Piece.ofList (before ++ [last])).exit = (linked before).length + last.exit ∧
      (Piece.ofList (before ++ [last])).closed = last.closed ∧
      ∀ q, (Piece.ofList (before ++ [last])).code q = linked before ++ last.code (q - (linked before).length) := by
  induction before with
  | nil => simp [Piece.ofList, linked]
  | cons x before ih =>
    obtain ⟨size, exit, closed, code⟩ := ih
    have list : Piece.ofList (x :: before ++ [last]) = .chain x (.ofList (before ++ [last])) := by
      cases before <;> rfl
    have front : linked (x :: before) = x.code x.size ++ linked before := by rw [linked, List.flatMap_cons, linked]
    rw [list, front, Piece.size, Piece.exit, Piece.closed, List.length_append, x.length_code, size, exit, closed]
    refine ⟨(Nat.add_assoc _ _ _).symm, (Nat.add_assoc _ _ _).symm, rfl, fun q => ?_⟩
    rw [Piece.code, code, List.append_assoc, Int.sub_sub]
    push_cast
    rfl

theorem Sequence.operand_intact {s : Sequence} (intact : s.broken = false) : s.operand = s.piece.pending := by
  unfold operand piece laid front
  rcases s.cases_last with nothing | ⟨before, last, pieces⟩
  · rw [nothing]
    rfl
  · obtain ⟨-, exit, -, code⟩ := Piece.ofList_concat before last
    rw [pieces, List.getLast?_concat, List.dropLast_concat, if_neg (by simp), Piece.pending, exit, code]
    simp only [intact, Bool.false_eq_true, if_false, Piece.pending]
    congr 2
    omega

theorem Sequence.operand_broken {s : Sequence} (broken : s.broken = true) {p : Program} {start : Nat}
    (sits : Sits p start s.operand) (fuel : Nat) : follow p fuel start = none := by
  obtain ⟨last, has, compound⟩ := s.compound broken
  have some : s.pieces ≠ [] := fun nothing => by simp [nothing] at has
  rw [operand, if_neg some, laid, has] at sits
  simp only [broken, if_true] at sits
  exact Piece.circle_endless compound sits.right (linked_leads _ sits.left) fuel

/-! ### Alternatives in sequence -/

def linkedBranches (l : List Sequence) : Program := l.flatMap fun s => ⟨.opBranch, s.operand.length + 1⟩ :: s.operand

def openBranches (l : List Sequence) : Program :=
  linkedBranches l.dropLast ++ l.getLast?.elim [] fun s => ⟨.opBranch, 0⟩ :: s.operand

theorem openBranches_concat (l : List Sequence) (s : Sequence) :
    openBranches (l ++ [s]) = linkedBranches l ++ ⟨.opBranch, 0⟩ :: s.operand := by
  simp [openBranches]

theorem length_openBranches (l : List Sequence) : (openBranches l).length = (linkedBranches l).length := by
  rcases List.eq_nil_or_concat l with rfl | ⟨before, s, rfl⟩
  · rfl
  · rw [List.concat_eq_append, openBranches_concat]
    simp [linkedBranches]

theorem length_le_linkedBranches (l : List Sequence) : l.length ≤ (linkedBranches l).length := by
  induction l with
  | nil => exact Nat.le_refl _
  | cons s l ih =>
    rw [linkedBranches, List.flatMap_cons, List.length_append, List.length_cons, List.length_cons]
    rw [linkedBranches] at ih
    omega

theorem linkedBranches_leads {p : Program} : ∀ (l : List Sequence) {start : Nat}, Sits p start (linkedBranches l) →
    Leads p start (start + (linkedBranches l).length)
  | [], start, _ => .refl start
  | s :: l, start, sits => by
    rw [linkedBranches, List.flatMap_cons] at sits ⊢
    have later := linkedBranches_leads l sits.right
    rw [Nat.add_assoc, ← List.length_append] at later
    exact .step (k := s.operand.length + 1) sits.left.nextOf (Nat.succ_pos _) later

theorem connectBranches_run {q : Program} {ret : Nat} (into : ∀ l, Leads (q ++ l) ret q.length) {l : List Sequence}
    (some : l ≠ []) (behind : Program) :
    (setNextOfEnd ret (q ++ openBranches l).length).run (q ++ openBranches l ++ behind) =
      pure ((), q ++ linkedBranches l ++ behind) := by
  obtain ⟨before, s, rfl⟩ := (List.eq_nil_or_concat l).resolve_left some
  rw [List.concat_eq_append, openBranches_concat]
  have leads : Leads (q ++ (linkedBranches before ++ ⟨.opBranch, 0⟩ :: s.operand) ++ behind) ret
      (q ++ linkedBranches before).length := by
    rw [List.append_assoc, List.length_append]
    refine (into _).trans (linkedBranches_leads before ?_)
    rw [List.append_assoc]
    exact (sits_end _ _).left
  refine setNextOfEnd_node (q ++ linkedBranches before) .opBranch (s.operand.length + 1) (s.operand ++ behind) ?_ ?_ rfl leads ?_
  · simp
  · simp [linkedBranches]
  · simp only [List.length_append, List.length_cons]
    omega

theorem hookBranch_run (q : Program) (s : Sequence) (rest : List Sequence) (last : Op) :
    (hookBranch (q ++ linkedBranches (s :: rest)).length q.length).run (q ++ linkedBranches (s :: rest) ++ [⟨last, 0⟩]) =
      if s.broken then stuck
      else pure ((), q ++ ⟨.opBranch, s.piece.size + 1⟩ ::
        (s.piece.code ((linkedBranches (s :: rest)).length - 1) ++ (linkedBranches rest ++ [⟨last, 0⟩]))) := by
  have shape : q ++ linkedBranches (s :: rest) ++ [⟨last, 0⟩] =
      q ++ ⟨.opBranch, s.operand.length + 1⟩ :: (s.operand ++ (linkedBranches rest ++ [⟨last, 0⟩])) := by
    simp [linkedBranches]
  have branch : (Program.nodeAt (q ++ linkedBranches (s :: rest) ++ [⟨last, 0⟩]) q.length).op.isBranch = true := by
    rw [shape, Program.nodeAt, Int.toNat_natCast, List.getD_eq_getElem?_getD, (sits_end q _).head]
    rfl
  rw [hookBranch, StateT.run_bind, StateT.run_get, pure_bind]
  dsimp only
  rw [if_pos branch, shape]
  have sits := (sits_end q (⟨.opBranch, s.operand.length + 1⟩ :: (s.operand ++ (linkedBranches rest ++ [⟨last, 0⟩])))).tail
  cases intact : s.broken with
  | true => exact setNextOfEnd_stuck (Sequence.operand_broken intact sits.left)
  | false =>
    have operand := Sequence.operand_intact intact
    have size : s.operand.length = s.piece.size := by rw [operand, Piece.length_pending]
    have total : (linkedBranches (s :: rest)).length = s.piece.size + 1 + (linkedBranches rest).length := by
      simp only [linkedBranches, List.flatMap_cons, List.length_append, List.length_cons, size]
    rw [size, operand] at sits ⊢
    rw [if_neg (by simp)]
    by_cases closed : s.piece.closed = true
    · refine setNextOfEnd_block closed (q ++ [⟨.opBranch, s.piece.size + 1⟩]) ((linkedBranches (s :: rest)).length - 1)
        (linkedBranches rest ++ [⟨last, 0⟩]) (by simp) (by simp) (by simp) (.refl _) ?_
      rw [List.length_append]
      omega
    · -- The chain goes on through the branches that follow and ends at the end of the expression.
      rw [Bool.not_eq_true] at closed
      rw [s.piece.code_open _ s.piece.size closed, ← Piece.pending_open closed]
      have onto := linkedBranches_leads rest (Sits.left sits.right)
      rw [Piece.length_pending] at onto
      have through := (s.piece.leads sits.left).2 (by rw [s.piece.exit_open closed])
      refine setNextOfEnd_node (q ++ ⟨.opBranch, s.piece.size + 1⟩ :: (s.piece.pending ++ linkedBranches rest)) last 0 [] (by simp)
        (by simp) ?_ (through.trans onto) ?_
      · simp only [List.length_append, List.length_cons, Piece.length_pending]
        omega
      · rw [List.length_append]
        omega

def hooked : List Sequence → Program
  | [] => []
  | s :: rest =>
    ⟨.opBranch, s.piece.size + 1⟩ :: (s.piece.code ((linkedBranches (s :: rest)).length - 1) ++ hooked rest)

theorem hookBranches_run (last : Op) (none : last.isBranch = false) (l : List Sequence) (q : Program) (fuel : Nat)
    (enough : l.length < fuel) :
    (hookBranches (q ++ linkedBranches l).length fuel q.length).run (q ++ linkedBranches l ++ [⟨last, 0⟩]) =
      if l.any (·.broken) then stuck else pure ((), q ++ hooked l ++ [⟨last, 0⟩]) := by
  induction l generalizing q fuel with
  | nil =>
    obtain ⟨f, rfl⟩ : ∃ f, fuel = f + 1 := ⟨fuel - 1, by omega⟩
    have here : Program.nodeAt (q ++ [⟨last, 0⟩]) q.length = ⟨last, 0⟩ := by
      rw [Program.nodeAt, Int.toNat_natCast, List.getD_eq_getElem?_getD, (sits_end q _).head]
      rfl
    have stop : nextOf (q ++ [⟨last, 0⟩]) q.length = 0 := (sits_end q [⟨last, 0⟩]).nextOf
    simp [hookBranches, hookBranch, linkedBranches, hooked, here, none, stop]
  | cons s rest ih =>
    obtain ⟨f, rfl⟩ : ∃ f, fuel = f + 1 := ⟨fuel - 1, by omega⟩
    rw [hookBranches, StateT.run_bind, hookBranch_run]
    cases broken : s.broken with
    | true => simp [broken]
    | false =>
      have size : s.operand.length = s.piece.size := by rw [Sequence.operand_intact broken, Piece.length_pending]
      simp only [Bool.false_eq_true, if_false, pure_bind, StateT.run_bind, StateT.run_get]
      have on : nextOf (q ++ ⟨.opBranch, s.piece.size + 1⟩ ::
          (s.piece.code ((linkedBranches (s :: rest)).length - 1) ++ (linkedBranches rest ++ [⟨last, 0⟩]))) q.length =
          s.piece.size + 1 := (sits_end q _).nextOf
      rw [on, if_neg (by omega)]
      have again := ih (q ++ ⟨.opBranch, s.piece.size + 1⟩ :: s.piece.code ((linkedBranches (s :: rest)).length - 1))
        f (Nat.lt_of_succ_lt_succ enough)
      have place : (q ++ ⟨.opBranch, s.piece.size + 1⟩ :: s.piece.code ((linkedBranches (s :: rest)).length - 1)).length =
          ((q.length : Int) + (s.piece.size + 1)).toNat := by
        rw [List.length_append, List.length_cons, Piece.length_code]
        omega
      have finish : (q ++ ⟨.opBranch, s.piece.size + 1⟩ :: s.piece.code ((linkedBranches (s :: rest)).length - 1) ++
          linkedBranches rest).length = (q ++ linkedBranches (s :: rest)).length := by
        simp only [linkedBranches, List.flatMap_cons, List.length_append, List.length_cons, Piece.length_code, size]
        omega
      rw [finish, place] at again
      simp only [List.append_assoc, List.cons_append] at again ⊢
      rw [again]
      simp only [List.any_cons, broken, Bool.false_or, hooked, List.append_assoc, List.cons_append]

theorem hooked_code : ∀ (branches : List Sequence) (first : Sequence),
    (first :: branches).any (·.broken) = false →
      (linkedBranches (first :: branches)).length = (Alts.ofList first.piece (branches.map (·.piece))).size ∧
        hooked (first :: branches) = (Alts.ofList first.piece (branches.map (·.piece))).code
          (Alts.ofList first.piece (branches.map (·.piece))).size
  | [], first, intact => by
    have operand := Sequence.operand_intact (s := first) (by simpa using intact)
    have size : (linkedBranches [first]).length = first.piece.size + 1 := by
      simp [linkedBranches, operand]
    refine ⟨size, ?_⟩
    rw [hooked, size, hooked, List.append_nil]
    rfl
  | second :: branches, first, intact => by
    rw [List.any_cons, Bool.or_eq_false_iff] at intact
    have operand := Sequence.operand_intact intact.1
    obtain ⟨later, code⟩ := hooked_code branches second intact.2
    have size : (linkedBranches (first :: second :: branches)).length =
        first.piece.size + 1 + (linkedBranches (second :: branches)).length := by
      simp only [linkedBranches, List.flatMap_cons, List.length_append, List.length_cons, operand, Piece.length_pending]
    rw [later] at size
    refine ⟨size, ?_⟩
    rw [hooked, size, code, List.map_cons, Alts.ofList, Alts.code, Alts.size]
    congr 4
    omega

def exprCode (opened : Option Nat) (a : Alts) : Program :=
  match opened with
  | some number => (Piece.group number a).pending
  | none => a.program

theorem finishExpr_run {q : Program} {ret : Nat} (into : ∀ l, Leads (q ++ l) ret q.length) (last : Op) (first : Sequence)
    (branches : List Sequence) (hooks : ∀ (l : List Sequence) (fuel : Nat), l.length + 1 < fuel →
      (hookBranches (q ++ linkedBranches l).length fuel ret).run (q ++ linkedBranches l ++ [⟨last, 0⟩]) =
        if l.any (·.broken) then stuck else pure ((), q ++ hooked l ++ [⟨last, 0⟩])) :
    (do
      setNextOfEnd ret (q ++ openBranches (first :: branches)).length
      let p ← get
      hookBranches (q ++ openBranches (first :: branches)).length (p.length + 1) ret : Compile Unit).run
        (q ++ openBranches (first :: branches) ++ [⟨last, 0⟩]) =
      if first.broken ∨ branches.any (·.broken) then stuck
      else pure ((), q ++ (Alts.ofList first.piece (branches.map (·.piece))).code
        (Alts.ofList first.piece (branches.map (·.piece))).size ++ [⟨last, 0⟩]) := by
  have length : (q ++ openBranches (first :: branches)).length = (q ++ linkedBranches (first :: branches)).length := by
    rw [List.length_append, List.length_append, length_openBranches]
  have many := length_le_linkedBranches (first :: branches)
  rw [StateT.run_bind, connectBranches_run into (List.cons_ne_nil _ _), pure_bind, StateT.run_bind, StateT.run_get, pure_bind]
  dsimp only
  rw [length, hooks (first :: branches) _ (by simp only [List.length_append, List.length_singleton]; omega)]
  by_cases broken : (first :: branches).any (·.broken) = true
  · rw [if_pos broken, if_pos (by simpa using broken)]
  · rw [if_neg broken, if_neg (by simpa using broken), (hooked_code branches first (by simpa using broken)).2]

section Pattern

variable (pattern : Bytes) {expr : Compile (Nat × Bool)} {parsed : Scan (Terminal × Bool)}
  (same : ∀ p, expr.run p = emitTerminal p <$> parsed)

include same

theorem branchPieces_run (p : Program) (fuel : Nat) (s : Sequence) (isnullable : Bool) :
    (branchPieces pattern expr fuel (s.chain p.length) isnullable).run (p ++ s.laid) =
      (fun r => ((r.1.chain p.length, r.2), p ++ r.1.laid)) <$> parsePieces pattern parsed fuel s isnullable := by
  induction fuel generalizing s isnullable with
  | zero => rfl
  | succ fuel ih =>
    refine run_step fun ch => run_step fun ended => run_ite rfl ?_
    refine run_emit (closure_run pattern _ same fuel) fun r => ?_
    dsimp only [emit]
    rw [StateT.run_bind, connect_run]
    cases intact : s.broken with
    | true => rfl
    | false =>
      simp only [Bool.false_eq_true, if_false, pure_bind]
      have chain : (s.add r.1).chain p.length = some (p ++ s.laid).length := by
        rw [Sequence.chain_add, List.length_append, Sequence.length_laid intact]
      rw [← chain]
      exact ih (s.add r.1) (isnullable && r.2)

theorem branch_run (p : Program) (fuel : Nat) :
    (branch pattern expr fuel).run p =
      (fun r => ((p.length, r.2), p ++ ⟨.opBranch, 0⟩ :: r.1.operand)) <$> parsePieces pattern parsed fuel .empty true := by
  have pieces := branchPieces_run pattern same (p ++ [⟨.opBranch, 0⟩]) fuel .empty true
  rw [Sequence.laid_empty, Sequence.chain_empty, List.append_nil] at pieces
  rw [branch, StateT.run_bind, appendNode_run, pure_bind, StateT.run_bind]
  dsimp only
  rw [pieces, bind_map_left, map_eq_pure_bind]
  refine bind_congr fun r => ?_
  obtain ⟨s, isnullable⟩ := r
  dsimp only
  unfold Sequence.operand
  rcases s.cases_last with nothing | ⟨before, last, pieces⟩
  · have chain : ∀ start, s.chain start = none := fun start => by simp [Sequence.chain, nothing]
    have laid : s.laid = [] := by simp [Sequence.laid, nothing]
    rw [chain, laid, if_pos rfl, if_pos nothing]
    simp [Piece.pending, Piece.code, Piece.exit]
  · have chain : ∀ start, s.chain start ≠ none := fun start => by simp [Sequence.chain, pieces]
    rw [if_neg (chain _), if_neg (by simp [pieces])]
    simp

theorem alternatives_run {q : Program} {ret : Nat} (into : ∀ l, Leads (q ++ l) ret q.length) (fuel : Nat) (first : Sequence)
    (branches : List Sequence) (isnullable : Bool) :
    (alternatives pattern expr ret fuel isnullable).run (q ++ openBranches (first :: branches)) =
      (fun r => (r.2, q ++ openBranches (first :: r.1))) <$> parseAlternatives pattern parsed fuel branches isnullable := by
  induction fuel generalizing branches isnullable with
  | zero => rfl
  | succ fuel ih =>
    refine run_step fun ended => run_step fun ch => run_ite rfl (run_step fun _ => ?_)
    refine run_emit (branch_run pattern same _ fuel) fun r => ?_
    rw [StateT.run_bind]
    dsimp only
    rw [connectBranches_run into (List.cons_ne_nil _ _), pure_bind, List.append_assoc, ← openBranches_concat]
    exact ih (branches ++ [r.1]) (isnullable || r.2)

theorem exprTail_run {q : Program} {ret : Nat} (into : ∀ l, Leads (q ++ l) ret q.length) (opened : Option Nat) {last : Op}
    (close : ∀ p, (closeExpr pattern opened).run p = (fun _ => (p.length, p ++ [⟨last, 0⟩])) <$> parseClose pattern opened)
    (hooks : ∀ (l : List Sequence) (fuel : Nat), l.length + 1 < fuel →
      (hookBranches (q ++ linkedBranches l).length fuel ret).run (q ++ linkedBranches l ++ [⟨last, 0⟩]) =
        if l.any (·.broken) then stuck else pure ((), q ++ hooked l ++ [⟨last, 0⟩]))
    (fuel : Nat) (first : Sequence) (branchnullable : Bool) :
    (do
      let isnullable ← alternatives pattern expr ret fuel branchnullable
      let finish ← closeExpr pattern opened
      setNextOfEnd ret finish
      let p ← get
      hookBranches finish (p.length + 1) ret
      return (ret, isnullable) : Compile (Nat × Bool)).run (q ++ ⟨.opBranch, 0⟩ :: first.operand) =
      (fun r : Alts × Bool => ((ret, r.2), q ++ r.1.code r.1.size ++ [⟨last, 0⟩])) <$> (do
        let (branches, isnullable) ← parseAlternatives pattern parsed fuel [] branchnullable
        parseClose pattern opened
        if first.broken ∨ branches.any (·.broken) then stuck
        else return (.ofList first.piece (branches.map (·.piece)), isnullable)) := by
  refine run_emit (alternatives_run pattern same into fuel first [] branchnullable) fun r => ?_
  refine run_emit (close _) fun _ => ?_
  have finished := finishExpr_run into last first r.1 hooks
  rw [← bind_assoc, ← bind_assoc, StateT.run_bind]
  simp only [bind_assoc]
  rw [finished]
  split
  · rfl
  · rfl

theorem exprWith_run (p : Program) (opened : Option Nat) (fuel : Nat) :
    (exprWith pattern expr opened fuel).run p =
      (fun r => ((p.length, r.2), p ++ exprCode opened r.1)) <$> parseExprWith pattern parsed opened fuel := by
  rw [exprWith, StateT.run_bind]
  cases opened with
  | none =>
    have into : ∀ l : Program, Leads (p ++ l) p.length p.length := fun _ => .refl _
    have hooks := fun (l : List Sequence) (fuel : Nat) (enough : l.length + 1 < fuel) =>
      hookBranches_run .opEnd rfl l p fuel (Nat.lt_of_succ_lt enough)
    rw [show (openExpr none).run p = pure (none, p) from rfl, pure_bind]
    refine run_emit (branch_run pattern same p fuel) fun r => ?_
    have tail := exprTail_run pattern same into none (fun _ => rfl) hooks fuel r.1 r.2
    simp only [List.append_assoc] at tail
    exact tail
  | some number =>
    have open' : ∀ k : Int, ∃ q : Program, q = p ++ [⟨.opOpen number, k⟩] := fun _ => ⟨_, rfl⟩
    obtain ⟨q₀, shape₀⟩ := open' 0
    obtain ⟨q, shape⟩ := open' 1
    have length₀ : q₀.length = p.length + 1 := by rw [shape₀, List.length_append, List.length_singleton]
    have length : q.length = p.length + 1 := by rw [shape, List.length_append, List.length_singleton]
    have on : ∀ l, nextOf (q ++ l) p.length = 1 := by
      intro l
      rw [shape, List.append_assoc]
      exact (sits_end p _).nextOf
    have connected : ∀ l, (setNextOfEnd p.length q₀.length).run (q₀ ++ l) = pure ((), q ++ l) := fun l =>
      setNextOfEnd_node p (.opOpen number) 1 l (by simp [shape₀]) (by simp [shape]) rfl (.refl _) (by omega)
    have hooks : ∀ (l : List Sequence) (fuel : Nat), l.length + 1 < fuel →
        (hookBranches (q ++ linkedBranches l).length fuel p.length).run (q ++ linkedBranches l ++ [⟨.opClose number, 0⟩]) =
          if l.any (·.broken) then stuck else pure ((), q ++ hooked l ++ [⟨.opClose number, 0⟩]) := by
      intro l fuel enough
      obtain ⟨f, rfl⟩ : ∃ f, fuel = f + 1 := ⟨fuel - 1, by omega⟩
      have later := hookBranches_run (.opClose number) rfl l q f (Nat.lt_of_succ_lt_succ enough)
      have here : (Program.nodeAt (q ++ (linkedBranches l ++ [⟨.opClose number, 0⟩])) p.length).op.isBranch = false := by
        rw [Program.nodeAt, Int.toNat_natCast, List.getD_eq_getElem?_getD, shape, List.append_assoc, List.singleton_append,
          (sits_end p _).head]
        rfl
      rw [hookBranches, StateT.run_bind, hookBranch, StateT.run_bind, StateT.run_get, pure_bind, List.append_assoc]
      dsimp only
      rw [here, if_neg (by simp), StateT.run_pure, pure_bind, StateT.run_bind, StateT.run_get, pure_bind]
      dsimp only
      rw [on, if_neg (by omega), show ((p.length : Int) + 1).toNat = q.length by omega, ← List.append_assoc]
      exact later
    have close : ∀ p, (closeExpr pattern (some number)).run p =
        (fun _ => (p.length, p ++ [⟨.opClose number, 0⟩])) <$> parseClose pattern (some number) := by
      intro p
      rw [closeExpr, StateT.run_bind, run_lift, bind_map_left, map_eq_pure_bind]
      rfl
    rw [show (openExpr (some number)).run p = pure (some p.length, q₀) by rw [shape₀]; rfl, pure_bind]
    refine run_emit (branch_run pattern same q₀ fuel) fun r => ?_
    have tail := exprTail_run pattern same (fun l => length ▸ .single (on l) Nat.one_pos) (some number) close hooks fuel r.1 r.2
    have code : ∀ a : Alts, q ++ a.code a.size ++ [⟨.opClose number, 0⟩] = p ++ exprCode (some number) a := by
      intro a
      have closed : ((Piece.group number a).exit : Int) - (a.size + 1) = 0 := by
        rw [Piece.exit]
        omega
      rw [exprCode, Piece.pending, Piece.code, closed, shape]
      simp
    simp only [code] at tail
    dsimp only [connect]
    rw [StateT.run_bind, connected, pure_bind]
    exact tail

end Pattern

/-! ### The whole pattern -/

variable (pattern : Bytes)

theorem expr_run (fuel : Nat) (p : Program) : (expr pattern fuel).run p = emitTerminal p <$> parseExpr pattern fuel := by
  induction fuel generalizing p with
  | zero => rfl
  | succ fuel ih =>
    rw [expr, parseExpr]
    refine run_step fun number => ?_
    rw [exprWith_run pattern ih, map_bind, map_eq_pure_bind]
    rfl

/-- What `compile` makes of a parsed expression. -/
def Alts.compiled (a : Alts) : Compiled := ⟨a.program, compiledPrefix a.program⟩

theorem compileWith_run (fuel : Nat) :
    (compileWith pattern fuel).run [] = (fun a => (a.compiled, a.program)) <$> parseWith pattern fuel := by
  have outer : (outermost pattern fuel).run [] =
      (fun r : Alts × Bool => ((0, r.2), r.1.program)) <$> parseOutermost pattern fuel :=
    run_step fun _ => exprWith_run pattern (expr_run pattern fuel) [] none fuel
  exact run_emit outer fun r => run_step fun _ => rfl

theorem compile_eq (fuel : Nat) :
    compile pattern fuel = (parse pattern fuel).map fun r => (r.1.map Alts.compiled, r.2) := by
  rw [compile, compileWith_run, parse, map_eq_pure_bind]
  match run : parseWith pattern fuel ⟨0, 0, 0, []⟩ with
  | none => rw [bind_of_stuck run]; rfl
  | some (none, c) => rw [bind_of_failure run]; rfl
  | some (some a, c) => rw [bind_of_ok run]; rfl

theorem compile_of_parse {pattern msg : Bytes} {fuel : Nat} {a : Alts} (reads : parse pattern fuel = some (some a, msg)) :
    compile pattern fuel = some (some a.compiled, msg) := by
  rw [compile_eq, reads]
  rfl

end Coast.Regex
