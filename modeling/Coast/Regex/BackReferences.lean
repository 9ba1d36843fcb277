import Coast.Regex.CaseFolding
import Coast.Regex.Invariants
import Coast.Regex.Termination

/-!
# What a back reference reads

The engine run next to the path that it is on: the groups opened and closed since the attempt began,
without what was tried in vain. `OP_BACKREF` reads the entries that were pushed first, the text that a
group matched last is on the path.
-/

namespace Coast.Regex

inductive Event where
  | opened (k i : Nat)
  | closed (k i : Nat)

abbrev Path := List Event

namespace Path

def lastOpened (k : Nat) : Path → Option Nat
  | [] => none
  | .opened j i :: rest => if j = k then some i else lastOpened k rest
  | .closed _ _ :: rest => lastOpened k rest

def lastPass (k : Nat) : Path → Option (Nat × Nat)
  | [] => none
  | .closed j e :: rest => if j = k then (lastOpened k rest).map fun s => (s, e) else lastPass k rest
  | .opened _ _ :: rest => lastPass k rest

theorem lastOpened_mem {k i : Nat} {path : Path} (last : path.lastOpened k = some i) : .opened k i ∈ path := by
  induction path with
  | nil => cases last
  | cons event rest ih =>
    cases event with
    | opened j s =>
      rw [lastOpened] at last
      split at last
      · rename_i same
        cases last
        rw [same]
        exact List.mem_cons_self
      · exact List.mem_cons_of_mem _ (ih last)
    | closed j e => exact List.mem_cons_of_mem _ (ih last)

theorem lastPass_mem {k s e : Nat} {path : Path} (last : path.lastPass k = some (s, e)) :
    .opened k s ∈ path ∧ .closed k e ∈ path := by
  induction path with
  | nil => cases last
  | cons event rest ih =>
    cases event with
    | opened j i =>
      have both := ih last
      exact ⟨List.mem_cons_of_mem _ both.1, List.mem_cons_of_mem _ both.2⟩
    | closed j i =>
      rw [lastPass] at last
      split at last
      · rename_i same
        obtain ⟨s', begins, is⟩ := Option.map_eq_some_iff.mp last
        cases is
        rw [same]
        exact ⟨List.mem_cons_of_mem _ (lastOpened_mem begins), List.mem_cons_self⟩
      · have both := ih last
        exact ⟨List.mem_cons_of_mem _ both.1, List.mem_cons_of_mem _ both.2⟩

end Path

/-- `OP_BACKREF` is evaluated. -/
structure BackrefStep where
  number : Nat
  idx : Nat
  captures : Captures
  path : Path

/-- A result with the path that leads to it, and the back references evaluated on the way; these are there
also while the engine is still running. -/
structure Traced where
  result : Option (Option (Nat × Path) × Captures)
  steps : List BackrefStep

namespace Traced

def forget (t : Traced) : Result := t.result.map fun r => (r.1.map Prod.fst, r.2)

def orElse (t : Traced) (second : Captures → Traced) : Traced :=
  match t.result with
  | some (none, c) => ⟨(second c).result, t.steps ++ (second c).steps⟩
  | _ => t

def andThen (t : Traced) (second : Nat → Captures → Path → Traced) : Traced :=
  match t.result with
  | some (some (idx, path), c) => ⟨(second idx c path).result, t.steps ++ (second idx c path).steps⟩
  | _ => t

def finish (t : Traced) (set pop : Captures → Captures) : Traced :=
  match t.result with
  | some (some e, c) => ⟨some (some e, set c), t.steps⟩
  | some (none, c) => ⟨some (none, pop c), t.steps⟩
  | none => t

def after (step : BackrefStep) (t : Traced) : Traced := ⟨t.result, step :: t.steps⟩

end Traced

namespace Matcher

variable (m : Matcher)

def traceLoop (rest operand : Nat → Captures → Path → Traced) : Nat → Nat → Captures → Path → Traced
  | 0, _, _, _ => ⟨none, []⟩
  | fuel + 1, idx, c, path =>
    (rest idx c path).orElse fun c => (operand idx c path).andThen (traceLoop rest operand fuel)

def traceBranches (operand : Int → Captures → Traced) : Nat → Int → Captures → Traced
  | 0, _, _ => ⟨none, []⟩
  | fuel + 1, node, c =>
    (operand (node + 1) c).orElse fun c =>
      let nextBranch := (m.program.nodeAt node).next
      if nextBranch ≠ 0 ∧ (m.program.nodeAt (node + nextBranch)).op.isBranch then
        traceBranches operand fuel (node + nextBranch) c
      else ⟨some (none, c), []⟩

/-- `matchNodes` with the path. -/
def traceNodes : Nat → Int → Int → Nat → Captures → Path → Traced
  | 0, _, _, _, _, _ => ⟨none, []⟩
  | fuel + 1, node, lastNode, idx, c, path =>
    if lastNode ≤ node then ⟨some (none, c), []⟩
    else
      let here := m.program.nodeAt node
      let next := node + short here.next
      let rest := traceNodes fuel next m.program.length
      let operand := traceNodes fuel (node + 1) next
      match here.op with
      | .opReluctantMaybe => (rest idx c path).orElse fun c => (operand idx c path).andThen rest
      | .opReluctantPlus => (operand idx c path).andThen (traceLoop rest operand fuel)
      | .opReluctantStar => traceLoop rest operand fuel idx c path
      | .opOpen k => (rest idx (c.pushOpen k idx) (.opened k idx :: path)).finish (·.setStart k idx) (·.popOpen k)
      | .opClose k => (rest idx (c.pushClose k idx) (.closed k idx :: path)).finish (·.setEnd k idx) (·.popClose k)
      | .opBranch =>
        if (m.program.nodeAt next).op.isBranch then
          m.traceBranches (fun node c => traceNodes fuel node m.program.length idx c path) fuel node c
        else traceNodes fuel (node + 1) lastNode idx c path
      | .opEnd => ⟨some (some (idx, path), c), []⟩
      | .hole => ⟨some (none, c), []⟩
      | .opBackref k =>
        .after ⟨k, idx, c, path⟩ (match m.matchBackref k idx c with
          | some idx => traceNodes fuel next lastNode idx c path
          | none => ⟨some (none, c), []⟩)
      | op =>
        match m.matchSimple op idx c with
        | some idx => traceNodes fuel next lastNode idx c path
        | none => ⟨some (none, c), []⟩

/-- The back references evaluated by the attempt to match at `i`. -/
def backrefs (fuel i : Nat) : List BackrefStep := (m.traceNodes fuel 0 m.program.length i (.start i) []).steps

/-! ### The path is only looked at -/

section Forget

variable {m}

theorem forget_orElse (t : Traced) {second : Captures → Traced} {plain : Captures → Result}
    (same : ∀ c, (second c).forget = plain c) :
    (t.orElse second).forget = match t.forget with
      | some (none, c) => plain c
      | other => other := by
  obtain ⟨_ | ⟨_ | ⟨idx, path⟩, c⟩, steps⟩ := t
  · rfl
  · exact same c
  · rfl

theorem forget_andThen (t : Traced) {second : Nat → Captures → Path → Traced} {plain : Nat → Captures → Result}
    (same : ∀ idx c path, (second idx c path).forget = plain idx c) :
    (t.andThen second).forget = match t.forget with
      | some (some idx, c) => plain idx c
      | other => other := by
  obtain ⟨_ | ⟨_ | ⟨idx, path⟩, c⟩, steps⟩ := t
  · rfl
  · rfl
  · exact same idx c path

theorem forget_finish (t : Traced) (set pop : Captures → Captures) :
    (t.finish set pop).forget = match t.forget with
      | some (some e, c) => some (some e, set c)
      | some (none, c) => some (none, pop c)
      | none => none := by
  obtain ⟨_ | ⟨_ | ⟨idx, path⟩, c⟩, steps⟩ := t <;> rfl

theorem traceLoop_forget {rest operand : Nat → Captures → Path → Traced} {rest' operand' : Nat → Captures → Result}
    (hrest : ∀ idx c path, (rest idx c path).forget = rest' idx c)
    (hoperand : ∀ idx c path, (operand idx c path).forget = operand' idx c) (n idx : Nat) (c : Captures) (path : Path) :
    (traceLoop rest operand n idx c path).forget = reluctantLoop rest' operand' n idx c := by
  induction n generalizing idx c path with
  | zero => rfl
  | succ n ih =>
    rw [traceLoop, reluctantLoop, forget_orElse _ fun c => forget_andThen (operand idx c path) ih, hrest]
    simp only [hoperand] <;> rfl

theorem traceBranches_forget {operand : Int → Captures → Traced} {operand' : Int → Captures → Result}
    (same : ∀ node c, (operand node c).forget = operand' node c) (n : Nat) (node : Int) (c : Captures) :
    (m.traceBranches operand n node c).forget = m.branchLoop operand' n node c := by
  induction n generalizing node c with
  | zero => rfl
  | succ n ih =>
    have others := fun c => congrArg (fun r : Result =>
      if (m.program.nodeAt node).next ≠ 0 ∧ (m.program.nodeAt (node + (m.program.nodeAt node).next)).op.isBranch then r
      else some (none, c)) (ih (node + (m.program.nodeAt node).next) c)
    rw [traceBranches, branchLoop, forget_orElse _ fun c => (apply_ite Traced.forget _ _ _).trans (others c), same] <;> rfl

theorem traceNodes_forget (fuel : Nat) (node lastNode : Int) (idx : Nat) (c : Captures) (path : Path) :
    (m.traceNodes fuel node lastNode idx c path).forget = m.matchNodes fuel node lastNode idx c := by
  induction fuel generalizing node lastNode idx c path with
  | zero => rfl
  | succ fuel ih =>
    rw [traceNodes, matchNodes]
    split
    · rfl
    · have going : ∀ (tried : Option Nat) (next : Int), (match tried with
          | some idx => m.traceNodes fuel next lastNode idx c path
          | none => ⟨some (none, c), []⟩).forget = match tried with
          | some idx => m.matchNodes fuel next lastNode idx c
          | none => some (none, c) := by
        intro tried next
        cases tried with
        | none => rfl
        | some idx' => exact ih _ _ idx' c path
      dsimp only
      cases op : (m.program.nodeAt node).op with
      | opReluctantMaybe =>
        dsimp only
        rw [forget_orElse _ fun c => forget_andThen _ (ih _ _), ih]
        simp only [ih] <;> rfl
      | opReluctantPlus =>
        dsimp only
        rw [forget_andThen _ (traceLoop_forget (ih _ _) (ih _ _) fuel), ih] <;> rfl
      | opReluctantStar => exact traceLoop_forget (ih _ _) (ih _ _) fuel idx c path
      | opOpen k =>
        dsimp only
        rw [forget_finish, ih] <;> rfl
      | opClose k =>
        dsimp only
        rw [forget_finish, ih] <;> rfl
      | opBranch =>
        dsimp only
        split
        · exact traceBranches_forget (fun node c => ih node _ idx c path) fuel node c
        · exact ih _ _ idx c path
      | opEnd => rfl
      | hole => rfl
      | opBackref k => exact going (m.matchBackref k idx c) _
      | opBol => exact going (m.matchSimple .opBol idx c) _
      | opEol => exact going (m.matchSimple .opEol idx c) _
      | opAny => exact going (m.matchSimple .opAny idx c) _
      | opAnyof set => exact going (m.matchSimple (.opAnyof set) idx c) _
      | opAtom text => exact going (m.matchSimple (.opAtom text) idx c) _
      | opNothing => exact going (some idx) _
      | opGoto => exact going (some idx) _
      | opBow boundary => exact going (m.matchSimple (.opBow boundary) idx c) _

end Forget

end Matcher

/-! ### The stacks hold what is on the path -/

namespace Captures

def Inside (c : Captures) (n : Nat) : Prop := ∀ k, (∀ i ∈ c.opened k, i ≤ n) ∧ ∀ i ∈ c.closed k, i ≤ n

def Grown (c c' : Captures) : Prop := ∀ k, c.opened k <+: c'.opened k ∧ c.closed k <+: c'.closed k

variable {c c' c'' : Captures} {k idx n : Nat}

theorem Grown.refl (c : Captures) : c.Grown c := fun _ => ⟨List.prefix_rfl, List.prefix_rfl⟩

theorem Grown.trans (first : c.Grown c') (second : c'.Grown c'') : c.Grown c'' :=
  fun k => ⟨(first k).1.trans (second k).1, (first k).2.trans (second k).2⟩

theorem mem_update_append {f : Nat → List Nat} {i j : Nat} (has : j ∈ update f k (f k ++ [idx]) i) : j ∈ f i ∨ j = idx := by
  unfold update at has
  split at has
  · rename_i same
    rw [same]
    simpa using has
  · exact .inl has

theorem mem_update_dropLast {f : Nat → List Nat} {i j : Nat} (has : j ∈ update f k (f k).dropLast i) : j ∈ f i := by
  unfold update at has
  split at has
  · rename_i same
    rw [same]
    exact List.mem_of_mem_dropLast has
  · exact has

theorem prefix_update_append (f : Nat → List Nat) (i : Nat) : f i <+: update f k (f k ++ [idx]) i := by
  unfold update
  split
  · rename_i same
    rw [same]
    exact List.prefix_append _ _
  · exact List.prefix_rfl

theorem prefix_update_dropLast {f g : Nat → List Nat} (grown : ∀ i, update f k (f k ++ [idx]) i <+: g i) (i : Nat) :
    f i <+: update g k (g k).dropLast i := by
  have here := grown i
  unfold update at here ⊢
  split
  · rename_i same
    rw [same, if_pos rfl] at here
    rw [same]
    exact prefix_dropLast here
  · rename_i other
    rwa [if_neg other] at here

theorem Inside.pushOpen (inside : c.Inside n) (le : idx ≤ n) : (c.pushOpen k idx).Inside n := by
  intro i
  refine ⟨fun j has => ?_, (inside i).2⟩
  rcases mem_update_append has with before | rfl
  · exact (inside i).1 j before
  · exact le

theorem Inside.pushClose (inside : c.Inside n) (le : idx ≤ n) : (c.pushClose k idx).Inside n := by
  intro i
  refine ⟨(inside i).1, fun j has => ?_⟩
  rcases mem_update_append has with before | rfl
  · exact (inside i).2 j before
  · exact le

theorem Inside.popOpen (inside : c.Inside n) : (c.popOpen k).Inside n :=
  fun i => ⟨fun j has => (inside i).1 j (mem_update_dropLast has), (inside i).2⟩

theorem Inside.popClose (inside : c.Inside n) : (c.popClose k).Inside n :=
  fun i => ⟨(inside i).1, fun j has => (inside i).2 j (mem_update_dropLast has)⟩

theorem grown_pushOpen (c : Captures) (k idx : Nat) : c.Grown (c.pushOpen k idx) :=
  fun i => ⟨prefix_update_append c.opened i, List.prefix_rfl⟩

theorem grown_pushClose (c : Captures) (k idx : Nat) : c.Grown (c.pushClose k idx) :=
  fun i => ⟨List.prefix_rfl, prefix_update_append c.closed i⟩

theorem Grown.popOpen (grown : (c.pushOpen k idx).Grown c') : c.Grown (c'.popOpen k) :=
  fun i => ⟨prefix_update_dropLast (fun i => (grown i).1) i, (grown i).2⟩

theorem Grown.popClose (grown : (c.pushClose k idx).Grown c') : c.Grown (c'.popClose k) :=
  fun i => ⟨(grown i).1, prefix_update_dropLast (fun i => (grown i).2) i⟩

theorem setStart_stacks (c : Captures) (k i : Nat) : (c.setStart k i).opened = c.opened ∧ (c.setStart k i).closed = c.closed := by
  unfold setStart
  split <;> exact ⟨rfl, rfl⟩

theorem setEnd_stacks (c : Captures) (k i : Nat) : (c.setEnd k i).opened = c.opened ∧ (c.setEnd k i).closed = c.closed := by
  unfold setEnd
  split <;> exact ⟨rfl, rfl⟩

end Captures

namespace Matcher

variable {m : Matcher}

structure Recorded (m : Matcher) (path : Path) (c : Captures) : Prop where
  inside : c.Inside m.search.length
  opened : ∀ k i, .opened k i ∈ path → i ∈ c.opened k
  closed : ∀ k i, .closed k i ∈ path → i ∈ c.closed k

namespace Recorded

variable {path : Path} {c c' : Captures} {k idx : Nat}

theorem grown (recorded : m.Recorded path c) (grown : c.Grown c') (inside : c'.Inside m.search.length) : m.Recorded path c' where
  inside
  opened j i has := (grown j).1.mem (recorded.opened j i has)
  closed j i has := (grown j).2.mem (recorded.closed j i has)

theorem pushOpen (recorded : m.Recorded path c) (le : idx ≤ m.search.length) :
    m.Recorded (.opened k idx :: path) (c.pushOpen k idx) := by
  have before := recorded.grown (c.grown_pushOpen k idx) (recorded.inside.pushOpen le)
  refine ⟨before.inside, fun j i has => ?_, fun j i has => ?_⟩
  · rcases List.mem_cons.mp has with new | old
    · cases new
      simp
    · exact before.opened j i old
  · rcases List.mem_cons.mp has with new | old
    · cases new
    · exact before.closed j i old

theorem pushClose (recorded : m.Recorded path c) (le : idx ≤ m.search.length) :
    m.Recorded (.closed k idx :: path) (c.pushClose k idx) := by
  have before := recorded.grown (c.grown_pushClose k idx) (recorded.inside.pushClose le)
  refine ⟨before.inside, fun j i has => ?_, fun j i has => ?_⟩
  · rcases List.mem_cons.mp has with new | old
    · cases new
    · exact before.opened j i old
  · rcases List.mem_cons.mp has with new | old
    · cases new
      simp
    · exact before.closed j i old

end Recorded

/-- What a run that starts with these captures returns, and what its back references see. -/
structure Sound (m : Matcher) (c : Captures) (t : Traced) : Prop where
  steps : ∀ step ∈ t.steps, step.idx ≤ m.search.length ∧ m.Recorded step.path step.captures
  kept : ∀ e c', t.result = some (e, c') → c.Grown c' ∧ c'.Inside m.search.length
  ends : ∀ idx path c', t.result = some (some (idx, path), c') → idx ≤ m.search.length ∧ m.Recorded path c'

namespace Sound

variable {c : Captures} {t : Traced}

theorem running : m.Sound c ⟨none, []⟩ where
  steps _ has := by cases has
  kept _ _ is := by cases is
  ends _ _ _ is := by cases is

theorem failed (inside : c.Inside m.search.length) : m.Sound c ⟨some (none, c), []⟩ where
  steps _ has := by cases has
  kept _ _ is := by
    cases is
    exact ⟨.refl c, inside⟩
  ends _ _ _ is := by cases is

theorem orElse {second : Captures → Traced} (first : m.Sound c t)
    (next : ∀ c', c.Grown c' → c'.Inside m.search.length → m.Sound c' (second c')) : m.Sound c (t.orElse second) := by
  obtain ⟨_ | ⟨_ | ⟨idx, path⟩, c'⟩, steps⟩ := t
  · exact first
  · obtain ⟨grown, inside⟩ := first.kept none c' rfl
    have later := next c' grown inside
    refine ⟨fun step has => ?_, fun e d is => ?_, later.ends⟩
    · rcases List.mem_append.mp has with early | late
      · exact first.steps step early
      · exact later.steps step late
    · have both := later.kept e d is
      exact ⟨grown.trans both.1, both.2⟩
  · exact first

theorem andThen {second : Nat → Captures → Path → Traced} (first : m.Sound c t)
    (next : ∀ idx c' path, idx ≤ m.search.length → m.Recorded path c' → m.Sound c' (second idx c' path)) :
    m.Sound c (t.andThen second) := by
  obtain ⟨_ | ⟨_ | ⟨idx, path⟩, c'⟩, steps⟩ := t
  · exact first
  · exact first
  · obtain ⟨grown, inside⟩ := first.kept _ c' rfl
    obtain ⟨le, recorded⟩ := first.ends idx path c' rfl
    have later := next idx c' path le recorded
    refine ⟨fun step has => ?_, fun e d is => ?_, later.ends⟩
    · rcases List.mem_append.mp has with early | late
      · exact first.steps step early
      · exact later.steps step late
    · have both := later.kept e d is
      exact ⟨grown.trans both.1, both.2⟩

theorem finish {c' : Captures} {set pop : Captures → Captures} (inner : m.Sound c' t) (grown : c.Grown c')
    (same : ∀ d, (set d).opened = d.opened ∧ (set d).closed = d.closed)
    (popped : ∀ d, c'.Grown d → d.Inside m.search.length → c.Grown (pop d) ∧ (pop d).Inside m.search.length) :
    m.Sound c (t.finish set pop) := by
  obtain ⟨_ | ⟨_ | ⟨idx, path⟩, d⟩, steps⟩ := t
  · refine ⟨inner.steps, fun e d is => ?_, inner.ends⟩
    cases is
  · refine ⟨inner.steps, fun e d' is => ?_, fun _ _ _ is => by cases is⟩
    cases is
    have both := inner.kept none d rfl
    exact popped d both.1 both.2
  · have both := inner.kept _ d rfl
    have ends := inner.ends idx path d rfl
    have stays : d.Grown (set d) := by
      intro i
      rw [(same d).1, (same d).2]
      exact Captures.Grown.refl d i
    have inside : (set d).Inside m.search.length := by
      intro i
      rw [(same d).1, (same d).2]
      exact both.2 i
    refine ⟨inner.steps, fun e d' is => ?_, fun idx' path' d' is => ?_⟩
    · cases is
      exact ⟨(grown.trans both.1).trans stays, inside⟩
    · cases is
      exact ⟨ends.1, ends.2.grown stays inside⟩

theorem after {step : BackrefStep} (here : step.idx ≤ m.search.length ∧ m.Recorded step.path step.captures) (later : m.Sound c t) :
    m.Sound c (t.after step) := by
  refine ⟨fun other has => ?_, later.kept, later.ends⟩
  rcases List.mem_cons.mp has with rfl | old
  · exact here
  · exact later.steps other old

end Sound

section Run

variable {path : Path} {c : Captures} {idx : Nat}

theorem traceLoop_sound {rest operand : Nat → Captures → Path → Traced}
    (hrest : ∀ idx c path, idx ≤ m.search.length → m.Recorded path c → m.Sound c (rest idx c path))
    (hoperand : ∀ idx c path, idx ≤ m.search.length → m.Recorded path c → m.Sound c (operand idx c path)) (n : Nat)
    (le : idx ≤ m.search.length) (recorded : m.Recorded path c) : m.Sound c (traceLoop rest operand n idx c path) := by
  induction n generalizing idx c path with
  | zero => exact .running
  | succ n ih =>
    refine (hrest idx c path le recorded).orElse fun c' grown inside => ?_
    exact (hoperand idx c' path le (recorded.grown grown inside)).andThen fun _ _ _ le recorded => ih le recorded

theorem traceBranches_sound {operand : Int → Captures → Traced}
    (hoperand : ∀ node c, m.Recorded path c → m.Sound c (operand node c)) (n : Nat) {node : Int} (recorded : m.Recorded path c) :
    m.Sound c (m.traceBranches operand n node c) := by
  induction n generalizing node c with
  | zero => exact .running
  | succ n ih =>
    refine (hoperand _ c recorded).orElse fun c' grown inside => ?_
    dsimp only
    split
    · exact ih (recorded.grown grown inside)
    · exact .failed inside

theorem traceNodes_sound (fuel : Nat) (node lastNode : Int) (le : idx ≤ m.search.length) (recorded : m.Recorded path c) :
    m.Sound c (m.traceNodes fuel node lastNode idx c path) := by
  induction fuel generalizing node lastNode idx c path with
  | zero => exact .running
  | succ fuel ih =>
    rw [traceNodes]
    split
    · exact .failed recorded.inside
    · have going : ∀ (op : Op) (next : Int), m.Sound c (match m.matchSimple op idx c with
          | some idx => m.traceNodes fuel next lastNode idx c path
          | none => ⟨some (none, c), []⟩) := by
        intro op next
        cases matched : m.matchSimple op idx c with
        | none => exact .failed recorded.inside
        | some idx' => exact ih _ _ (matchSimple_inside le matched) recorded
      dsimp only
      cases op : (m.program.nodeAt node).op with
      | opReluctantMaybe =>
        refine (ih _ _ le recorded).orElse fun c' grown inside => ?_
        exact (ih _ _ le (recorded.grown grown inside)).andThen fun _ _ _ le recorded => ih _ _ le recorded
      | opReluctantPlus =>
        exact (ih _ _ le recorded).andThen fun _ _ _ le recorded =>
          traceLoop_sound (fun _ _ _ => ih _ _) (fun _ _ _ => ih _ _) fuel le recorded
      | opReluctantStar => exact traceLoop_sound (fun _ _ _ => ih _ _) (fun _ _ _ => ih _ _) fuel le recorded
      | opOpen k =>
        exact (ih _ _ le (recorded.pushOpen le)).finish (c.grown_pushOpen k idx) (fun d => d.setStart_stacks k idx)
          fun d grown inside => ⟨grown.popOpen, inside.popOpen⟩
      | opClose k =>
        exact (ih _ _ le (recorded.pushClose le)).finish (c.grown_pushClose k idx) (fun d => d.setEnd_stacks k idx)
          fun d grown inside => ⟨grown.popClose, inside.popClose⟩
      | opBranch =>
        dsimp only
        split
        · exact traceBranches_sound (fun node c recorded => ih node _ le recorded) fuel recorded
        · exact ih _ _ le recorded
      | opEnd =>
        refine ⟨fun _ has => ?_, fun e c' is => ?_, fun idx' path' c' is => ?_⟩
        · cases has
        · cases is
          exact ⟨.refl c, recorded.inside⟩
        · cases is
          exact ⟨le, recorded⟩
      | hole => exact .failed recorded.inside
      | opBackref k => exact .after ⟨le, recorded⟩ (going (.opBackref k) _)
      | opNothing => exact going .opNothing _
      | opGoto => exact going .opGoto _
      | opBol => exact going .opBol _
      | opEol => exact going .opEol _
      | opAny => exact going .opAny _
      | opAnyof set => exact going (.opAnyof set) _
      | opAtom text => exact going (.opAtom text) _
      | opBow boundary => exact going (.opBow boundary) _

theorem recorded_start (i : Nat) : m.Recorded [] (.start i) where
  inside _ := ⟨fun _ has => (List.not_mem_nil has).elim, fun _ has => (List.not_mem_nil has).elim⟩
  opened _ _ has := by cases has
  closed _ _ has := by cases has

theorem backrefs_recorded {fuel i : Nat} (inside : i ≤ m.search.length) :
    ∀ step ∈ m.backrefs fuel i, step.idx ≤ m.search.length ∧ m.Recorded step.path step.captures :=
  (traceNodes_sound fuel 0 _ inside (recorded_start i)).steps

end Run

/-! ### A copy of the text -/

variable (m)

def text (s e : Nat) : Bytes := subString m.search s (e - s)

def sameText (t t' : Bytes) : Bool := if m.flags.icase then t.map tolower == t'.map tolower else t == t'

/-- The index behind a copy of the text from `s` to `e` that stands at `idx`. -/
def copyAt (s e idx : Nat) : Option Nat :=
  if idx + (e - s) ≤ m.search.length ∧ m.sameText (subString m.search idx (e - s)) (m.text s e) then some (idx + (e - s))
  else none

/-- The reference consumes a copy of what its group has matched last. -/
def ReadsLast (step : BackrefStep) : Prop :=
  ∀ pass ∈ step.path.lastPass step.number,
    m.matchBackref step.number step.idx step.captures = m.copyAt pass.1 pass.2 step.idx

/-- The text of the last pass has no NUL in it, and the group has not been opened and closed more than once since the
attempt began, or what was opened and closed first delimits the same text. -/
def FirstIsLast (step : BackrefStep) : Prop :=
  ∀ pass ∈ step.path.lastPass step.number, 0 ∉ m.text pass.1 pass.2 ∧
    ∀ s ∈ (step.captures.opened step.number).head?, ∀ e ∈ (step.captures.closed step.number).head?, s ≤ e ∧
      ((step.captures.opened step.number).length = 1 ∧ (step.captures.closed step.number).length = 1 ∨
        m.sameText (m.text s e) (m.text pass.1 pass.2) = true)

instance (step : BackrefStep) : Decidable (m.FirstIsLast step) :=
  inferInstanceAs (Decidable (∀ _ ∈ _, _ ∧ ∀ _ ∈ _, ∀ _ ∈ _, _ ∧ (_ ∧ _ ∨ _)))

variable {m}

theorem length_text {s e : Nat} (le : e ≤ m.search.length) : (m.text s e).length = e - s := by
  rw [text, subString, List.length_take, List.length_drop]
  omega

theorem eq_zero_of_tolower {a : UInt8} (zero : tolower a = 0) : a = 0 := by
  unfold tolower at zero
  split at zero
  · rename_i upper
    have bounds := upper_bounds upper
    have same := congrArg UInt8.toNat zero
    rw [UInt8.toNat_add] at same
    simp only [UInt8.reduceToNat] at same
    omega
  · exact zero

theorem plain_of_fold {t t' : Bytes} (same : t.map tolower = t'.map tolower) (plain : 0 ∉ t') : 0 ∉ t := by
  intro has
  have folded : tolower 0 ∈ t'.map tolower := same ▸ List.mem_map_of_mem has
  obtain ⟨a, member, zero⟩ := List.mem_map.mp folded
  rw [eq_zero_of_tolower zero] at member
  exact plain member

theorem length_sameText {t t' : Bytes} (same : m.sameText t t' = true) : t.length = t'.length := by
  unfold sameText at same
  split at same
  · simpa using congrArg List.length (beq_iff_eq.mp same)
  · rw [beq_iff_eq.mp same]

theorem plain_of_sameText {t t' : Bytes} (same : m.sameText t t' = true) (plain : 0 ∉ t') : 0 ∉ t := by
  unfold sameText at same
  split at same
  · exact plain_of_fold (beq_iff_eq.mp same) plain
  · rwa [beq_iff_eq.mp same]

theorem sameText_congr {t t' u : Bytes} (same : m.sameText t t' = true) : m.sameText u t = m.sameText u t' := by
  unfold sameText at same ⊢
  split at same
  · rename_i icase
    rw [if_pos icase, if_pos icase, beq_iff_eq.mp same]
  · rename_i exact'
    rw [if_neg exact', if_neg exact', beq_iff_eq.mp same]

theorem caselessEq_of_plain {s t : Bytes} (lengths : s.length = t.length) (plain : 0 ∉ t) :
    caselessEq s t = (s.map tolower == t.map tolower) := by
  rw [caselessEq, cstr_of_plain plain, Bool.eq_iff_iff, beq_iff_eq, beq_iff_eq]
  constructor
  · intro same
    -- what stands before a NUL is shorter than the text it is compared with
    have whole : cstr s = s := by
      refine (List.takeWhile_prefix _).eq_of_length ?_
      have := congrArg List.length same
      rw [List.length_map, List.length_map] at this
      exact this.trans lengths.symm
    rwa [whole] at same
  · intro same
    rw [cstr_of_plain (plain_of_fold same plain), same]

theorem matchBackref_copies {k idx s e : Nat} {c : Captures} (opened : (c.opened k).head? = some s)
    (closed : (c.closed k).head? = some e) (le : s ≤ e) (inside : e ≤ m.search.length) (here : idx ≤ m.search.length)
    (plain : 0 ∉ m.text s e) : m.matchBackref k idx c = m.copyAt s e idx := by
  have behind : ((idx : Int) + ((e : Int) - s)).toNat = idx + (e - s) := by omega
  rw [matchBackref, opened, closed]
  dsimp only
  rw [behind]
  unfold copyAt
  by_cases empty : s = e
  · rw [if_pos empty, empty, Nat.sub_self, if_pos]
    · rfl
    · refine ⟨here, ?_⟩
      have nothing : ∀ i, subString m.search i 0 = [] := fun i => List.take_zero
      rw [text, Nat.sub_self, nothing, nothing]
      unfold sameText
      split <;> rfl
  · rw [if_neg empty]
    by_cases fits : idx + (e - s) ≤ m.search.length
    · rw [if_neg (by omega)]
      have lengths : (subString m.search idx (e - s)).length = (m.text s e).length := by
        rw [length_text inside, subString, List.length_take, List.length_drop]
        omega
      simp only [fits, true_and]
      split
      · rename_i icase
        rw [sameText, if_pos icase, ← caselessEq_of_plain lengths plain]
        rfl
      · rename_i exact'
        rw [sameText, if_neg exact', strncmpEq_of_plain plain (by rw [List.length_drop]; omega)]
        rfl
    · rw [if_pos (by omega), if_neg fun both => fits both.1]

theorem copyAt_congr {s e s' e' idx : Nat} (inside : e ≤ m.search.length) (inside' : e' ≤ m.search.length)
    (same : m.sameText (m.text s e) (m.text s' e') = true) : m.copyAt s e idx = m.copyAt s' e' idx := by
  have lengths := length_sameText same
  rw [length_text inside, length_text inside'] at lengths
  rw [copyAt, copyAt, lengths, sameText_congr same]

theorem sole_entry {l : List Nat} {a b : Nat} (sole : l.length = 1) (first : l.head? = some a) (has : b ∈ l) : a = b := by
  obtain ⟨c, rfl⟩ := List.length_eq_one_iff.mp sole
  cases first
  exact (List.mem_singleton.mp has).symm

theorem readsLast_of_firstIsLast {step : BackrefStep} (here : step.idx ≤ m.search.length)
    (recorded : m.Recorded step.path step.captures) (first : m.FirstIsLast step) : m.ReadsLast step := by
  rintro ⟨s, e⟩ last
  obtain ⟨passOpened, passClosed⟩ := Path.lastPass_mem last
  have opened := recorded.opened _ s passOpened
  have closed := recorded.closed _ e passClosed
  obtain ⟨plain, same⟩ := first (s, e) last
  obtain ⟨s₀, bottom⟩ : ∃ s₀, (step.captures.opened step.number).head? = some s₀ :=
    Option.isSome_iff_exists.mp (List.isSome_head?.mpr (List.ne_nil_of_mem opened))
  obtain ⟨e₀, bottom'⟩ : ∃ e₀, (step.captures.closed step.number).head? = some e₀ :=
    Option.isSome_iff_exists.mp (List.isSome_head?.mpr (List.ne_nil_of_mem closed))
  have inside := (recorded.inside step.number).2
  obtain ⟨le, once | alike⟩ := same s₀ bottom e₀ bottom'
  · have begins := sole_entry once.1 bottom opened
    have ends := sole_entry once.2 bottom' closed
    subst begins ends
    exact matchBackref_copies bottom bottom' le (inside _ closed) here plain
  · have within : e₀ ≤ m.search.length := inside _ (List.mem_of_head? bottom')
    rw [matchBackref_copies bottom bottom' le within here (plain_of_sameText alike plain)]
    exact copyAt_congr within (inside e closed) alike

/-- In an attempt whose references all read a group that was passed once, or whose first pass matched what the last one did,
they all consume a copy of what their group has matched last. -/
theorem backref_reads_last (m : Matcher) (fuel i : Nat) (inside : i ≤ m.search.length)
    (first : ∀ step ∈ m.backrefs fuel i, m.FirstIsLast step) : ∀ step ∈ m.backrefs fuel i, m.ReadsLast step := by
  intro step has
  obtain ⟨here, recorded⟩ := backrefs_recorded inside step has
  exact readsLast_of_firstIsLast here recorded (first step has)

theorem backref_reads_last_repeated : ∃ c, compile (ascii "((a)\\2)+") 40 = some (some c, []) ∧
    (backrefs ⟨c.program, .normal, ascii "aaaa"⟩ 30 0).map (fun step => step.path.lastPass 2) = [some (0, 1), some (2, 3)] ∧
    ∀ step ∈ backrefs ⟨c.program, .normal, ascii "aaaa"⟩ 30 0, ReadsLast ⟨c.program, .normal, ascii "aaaa"⟩ step := by
  obtain ⟨a, shape⟩ : ∃ a, a = Alts.last (.plus (.group 1 (.last (.chain (.group 2 (.last (.simple (.opAtom [97]))))
    (.simple (.opBackref 2)))))) := ⟨_, rfl⟩
  have reads : parse (ascii "((a)\\2)+") 40 = some (some a, []) := by
    rw [shape]
    rfl
  refine ⟨a.compiled, compile_of_parse reads, ?_, ?_⟩
  · rw [shape]
    rfl
  · refine backref_reads_last _ 30 0 (Nat.zero_le _) ?_
    rw [shape]
    decide +kernel

/-- In `((a|b)\2)+` over `aabb` the reference is compared with the `a` of the first pass where the second one has matched
`b`, and the search ends there. -/
theorem backref_reads_first : ∃ c, compile (ascii "((a|b)\\2)+") 40 = some (some c, []) ∧
    (matchAt ⟨c.program, .normal, ascii "aabb"⟩ 30 0).map (fun found => found.map (·.endRegister 0)) = some (some (some 2)) ∧
    ∃ step ∈ backrefs ⟨c.program, .normal, ascii "aabb"⟩ 30 0, step.path.lastPass step.number = some (2, 3) ∧
      copyAt ⟨c.program, .normal, ascii "aabb"⟩ 2 3 step.idx = some 4 ∧ ¬ReadsLast ⟨c.program, .normal, ascii "aabb"⟩ step := by
  obtain ⟨a, shape⟩ : ∃ a, a = Alts.last (.plus (.group 1 (.last (.chain (.group 2 (.alt (.simple (.opAtom [97]))
    (.last (.simple (.opAtom [98]))))) (.simple (.opBackref 2)))))) := ⟨_, rfl⟩
  have reads : parse (ascii "((a|b)\\2)+") 40 = some (some a, []) := by
    rw [shape]
    rfl
  refine ⟨a.compiled, compile_of_parse reads, ?_, ?_⟩
  · rw [shape]
    rfl
  · subst shape
    refine ⟨_, List.mem_of_getElem? (i := 1) rfl, rfl, rfl, fun reads => ?_⟩
    cases reads (2, 3) rfl

end Matcher

end Coast.Regex
