import Coast.Graph.Heap

/-!
# Export

`XrefAnyPrinter` writes a node where it meets it first, and a reference to that place where it meets it
again. What it writes is the text of a tree whose nodes are the nodes of the graph, each once.
-/

namespace Coast

open Anything (Key Entries)
open Graphs

variable {D α : Type}

/-- `PrinterXrefHandler`: the level of the slot at hand, and the levels of the nodes that were printed. -/
structure PrinterXref (α : Type) where
  fParseLevel : List Level := []
  fXrefs : List (α × List Level) := []

namespace PrinterXref

def push (xref : PrinterXref α) (l : Level) : PrinterXref α := { xref with fParseLevel := xref.fParseLevel ++ [l] }

def pop (xref : PrinterXref α) : PrinterXref α := { xref with fParseLevel := xref.fParseLevel.dropLast }

def defineBackRef (xref : PrinterXref α) (id : α) : PrinterXref α :=
  { xref with fXrefs := xref.fXrefs ++ [(id, xref.fParseLevel)] }

def getBackRef [BEq α] (xref : PrinterXref α) (id : α) : Option (List Level) := xref.fXrefs.lookup id

end PrinterXref

def printReference (path : List Level) : Bytes := '%'.toUInt8 :: '"'.toUInt8 :: Level.pathText path ++ ['"'.toUInt8]

/-- The braces around the slots of an array, with the indentation of `PrettyAnyPrinter`. -/
def printBraces (level : Nat) (slots : Bytes) : Bytes :=
  '{'.toUInt8 :: newline true ++ slots ++ tab true level ++ ['}'.toUInt8]

def printSlot (level : Nat) (key : Option Key) (value : Bytes) : Bytes :=
  tab true level ++ printName key ++ value ++ newline true

abbrev Visit (α : Type) := Option α → PrinterXref α → Option (Bytes × PrinterXref α)

/-- The slots of an array from number `i` on. -/
def visitSlots (visit : Visit α) (level : Nat) : Nat → Entries (Option α) → PrinterXref α → Option (Bytes × PrinterXref α)
  | _, [], xref => some ([], xref)
  | i, (key, value) :: slots, xref => do
    let (text, xref) ← visit value (xref.push (.ofSlot key i))
    let (texts, xref) ← visitSlots visit level (i + 1) slots xref.pop
    return (printSlot level key text ++ texts, xref)

/-- `Accept` of an `XrefAnyPrinter`. -/
def visitAny [BEq α] (env : Environment D) (heap : AnyHeap D α) : Nat → Nat → Visit α
  | _, _, none, xref => some (['*'.toUInt8], xref)
  | 0, _, some _, _ => none
  | fuel + 1, level, some id, xref =>
    match xref.getBackRef id with
    | some path => some (printReference path, xref)
    | none =>
      match heap id with
      | .leaf s => some (printAny env true level s.toTree, xref.defineBackRef id)
      | .branch slots => do
        let (texts, xref) ← visitSlots (visitAny env heap fuel (level + 1)) (level + 1) 0 slots (xref.defineBackRef id)
        return (printBraces level texts, xref)

def exportAny [BEq α] (env : Environment D) (heap : AnyHeap D α) (fuel : Nat) (any : Option α) (level : Nat) : Option Bytes :=
  (visitAny env heap fuel level any {}).map Prod.fst

/-! ### The tree that is written -/

abbrev Step := Nat × Level

abbrev Visited (α : Type) := List (α × List Step)

inductive CutTree (D α : Type) where
  | null
  | ref (place : List Step)
  | leaf (id : α) (s : Scalar D)
  | array (id : α) (slots : List (Option Key × CutTree D α))

namespace CutTree

theorem induct {p : CutTree D α → Prop} (simple : ∀ t, (∀ id slots, t ≠ .array id slots) → p t)
    (array : ∀ id slots, (∀ e ∈ slots, p e.2) → p (.array id slots)) : ∀ t, p t
  | .array id slots => array id slots fun e _mem => induct simple array e.2
  | .null => simple _ nofun
  | .ref _ => simple _ nofun
  | .leaf _ _ => simple _ nofun
termination_by t => sizeOf t
decreasing_by
  have smaller := List.sizeOf_lt_of_mem _mem
  cases e
  simp only [Prod.mk.sizeOf_spec, CutTree.array.sizeOf_spec] at smaller ⊢
  omega

mutual

def print (env : Environment D) (level : Nat) : CutTree D α → Bytes
  | .null => ['*'.toUInt8]
  | .ref place => printReference (place.map Prod.snd)
  | .leaf _ s => printAny env true level s.toTree
  | .array _ slots => printBraces level (printAll env (level + 1) slots)

def printAll (env : Environment D) (level : Nat) : List (Option Key × CutTree D α) → Bytes
  | [] => []
  | (key, t) :: slots => printSlot level key (print env level t) ++ printAll env level slots

end

def find : CutTree D α → List Step → Option (CutTree D α)
  | t, [] => some t
  | .array _ slots, (i, l) :: place =>
    match slots[i]? with
    | some (key, t) => if Level.ofSlot key i = l then find t place else none
    | none => none
  | _, _ :: _ => none

end CutTree

def cutSlots (cut : List Step → Option α → Visited α → Option (CutTree D α × Visited α)) (place : List Step) :
    Nat → Entries (Option α) → Visited α → Option (List (Option Key × CutTree D α) × Visited α)
  | _, [], visited => some ([], visited)
  | i, (key, value) :: slots, visited => do
    let (t, visited) ← cut (place ++ [(i, .ofSlot key i)]) value visited
    let (ts, visited) ← cutSlots cut place (i + 1) slots visited
    return ((key, t) :: ts, visited)

def cut [BEq α] (heap : AnyHeap D α) : Nat → List Step → Option α → Visited α → Option (CutTree D α × Visited α)
  | _, _, none, visited => some (.null, visited)
  | 0, _, some _, _ => none
  | fuel + 1, place, some id, visited =>
    match visited.lookup id with
    | some first => some (.ref first, visited)
    | none =>
      match heap id with
      | .leaf s => some (.leaf id s, visited ++ [(id, place)])
      | .branch slots => do
        let (ts, visited) ← cutSlots (cut heap fuel) place 0 slots (visited ++ [(id, place)])
        return (.array id ts, visited)

def PrinterXref.ofVisited (place : List Step) (visited : Visited α) : PrinterXref α :=
  ⟨place.map Prod.snd, visited.map fun e => (e.1, e.2.map Prod.snd)⟩

theorem lookup_map_snd {β γ : Type} [BEq α] (f : β → γ) (a : α) (es : List (α × β)) :
    (es.map fun e => (e.1, f e.2)).lookup a = (es.lookup a).map f := by
  induction es with
  | nil => rfl
  | cons e es ih =>
    rw [List.map_cons, List.lookup_cons, List.lookup_cons, ih]
    cases a == e.1 <;> rfl

section

variable (env : Environment D) (heap : AnyHeap D α)

theorem visitSlots_eq_cut {visit : Visit α} {level : Nat}
    {inner : List Step → Option α → Visited α → Option (CutTree D α × Visited α)}
    (same : ∀ place value visited, visit value (.ofVisited place visited) =
      (inner place value visited).map fun r => (r.1.print env level, .ofVisited place r.2))
    (place : List Step) (slots : Entries (Option α)) (i : Nat) (visited : Visited α) :
    visitSlots visit level i slots (.ofVisited place visited) =
      (cutSlots inner place i slots visited).map fun r => (CutTree.printAll env level r.1, .ofVisited place r.2) := by
  induction slots generalizing i visited with
  | nil => rfl
  | cons e slots ih =>
    obtain ⟨key, value⟩ := e
    have pushed : (PrinterXref.ofVisited place visited).push (.ofSlot key i) =
        .ofVisited (place ++ [(i, .ofSlot key i)]) visited := by
      simp [PrinterXref.ofVisited, PrinterXref.push]
    rw [visitSlots, pushed, same, cutSlots]
    cases inner (place ++ [(i, .ofSlot key i)]) value visited with
    | none => rfl
    | some r =>
      obtain ⟨t, visited'⟩ := r
      have popped : (PrinterXref.ofVisited (place ++ [(i, .ofSlot key i)]) visited').pop = .ofVisited place visited' := by
        simp [PrinterXref.ofVisited, PrinterXref.pop]
      simp only [Option.map_some, Option.bind_eq_bind, Option.bind_some, popped, ih]
      cases cutSlots inner place (i + 1) slots visited' <;> rfl

theorem visitAny_eq_cut [DecidableEq α] (fuel level : Nat) (place : List Step) (value : Option α) (visited : Visited α) :
    visitAny env heap fuel level value (.ofVisited place visited) =
      (cut heap fuel place value visited).map fun r => (r.1.print env level, .ofVisited place r.2) := by
  induction fuel generalizing level place value visited with
  | zero => cases value <;> rfl
  | succ fuel ih =>
    cases value with
    | none => rfl
    | some id =>
      have defined : (PrinterXref.ofVisited place visited).defineBackRef id = .ofVisited place (visited ++ [(id, place)]) := by
        simp [PrinterXref.ofVisited, PrinterXref.defineBackRef]
      rw [visitAny, cut, PrinterXref.getBackRef, PrinterXref.ofVisited, lookup_map_snd, ← PrinterXref.ofVisited, defined]
      cases visited.lookup id with
      | some first => rfl
      | none =>
        cases heap id with
        | leaf s => rfl
        | branch slots =>
          simp only [Option.map_none, visitSlots_eq_cut env (ih (level + 1))]
          cases cutSlots (cut heap fuel) place 0 slots (visited ++ [(id, place)]) <;> rfl

end

/-! ### Visiting a graph without cycles -/

def Ranked (heap : AnyHeap D α) (rank : α → Nat) : Prop :=
  ∀ a k b, (k, some b) ∈ (heap a).slots → rank b < rank a

section

variable {heap : AnyHeap D α}

theorem cutSlots_isSome {inner : List Step → Option α → Visited α → Option (CutTree D α × Visited α)}
    {slots : Entries (Option α)} (each : ∀ e ∈ slots, ∀ place visited, (inner place e.2 visited).isSome = true)
    (place : List Step) (i : Nat) (visited : Visited α) : (cutSlots inner place i slots visited).isSome = true := by
  induction slots generalizing i visited with
  | nil => rfl
  | cons e slots ih =>
    obtain ⟨key, value⟩ := e
    obtain ⟨⟨t, visited'⟩, own⟩ :=
      Option.isSome_iff_exists.mp (each (key, value) (List.mem_cons_self ..) (place ++ [(i, .ofSlot key i)]) visited)
    obtain ⟨⟨ts, visited''⟩, others⟩ :=
      Option.isSome_iff_exists.mp (ih (fun e mem => each e (List.mem_cons_of_mem _ mem)) (i + 1) visited')
    rw [cutSlots, own]
    simp [others]

theorem cut_isSome [DecidableEq α] {rank : α → Nat} (ranked : Ranked heap rank) {fuel : Nat} {value : Option α}
    (enough : ∀ a ∈ value, rank a < fuel) (place : List Step) (visited : Visited α) :
    (cut heap fuel place value visited).isSome = true := by
  induction fuel generalizing value place visited with
  | zero =>
    cases value with
    | none => rfl
    | some id => exact absurd (enough id rfl) (Nat.not_lt_zero _)
  | succ fuel ih =>
    cases value with
    | none => rfl
    | some id =>
      rw [cut]
      split
      · rfl
      · split
        · rfl
        · rename_i slots node
          have inner : ∀ e ∈ slots, ∀ place visited, (cut heap fuel place e.2 visited).isSome = true := by
            rintro ⟨key, value⟩ mem place visited
            refine ih ?_ place visited
            rintro b rfl
            have below := ranked id key b (by rw [node]; exact mem)
            have := enough id rfl
            omega
          have all := cutSlots_isSome inner place 0 (visited ++ [(id, place)])
          obtain ⟨r, done⟩ := Option.isSome_iff_exists.mp all
          simp [done]

theorem cut_rule [DecidableEq α] {P : List Step → Option α → Visited α → CutTree D α → Visited α → Prop}
    {Q : List Step → Nat → Entries (Option α) → Visited α → List (Option Key × CutTree D α) → Visited α → Prop}
    (null : ∀ place visited, P place none visited .null visited)
    (ref : ∀ place id visited first, (id, first) ∈ visited → P place (some id) visited (.ref first) visited)
    (leaf : ∀ place id visited s, id ∉ visited.map Prod.fst → heap id = .leaf s →
      P place (some id) visited (.leaf id s) (visited ++ [(id, place)]))
    (array : ∀ place id visited slots ts visited', id ∉ visited.map Prod.fst → heap id = .branch slots →
      Q place 0 slots (visited ++ [(id, place)]) ts visited' → P place (some id) visited (.array id ts) visited')
    (nil : ∀ place i visited, Q place i [] visited [] visited)
    (cons : ∀ place i key value slots visited t visited' ts visited'',
      P (place ++ [(i, .ofSlot key i)]) value visited t visited' → Q place (i + 1) slots visited' ts visited'' →
        Q place i ((key, value) :: slots) visited ((key, t) :: ts) visited'')
    {fuel : Nat} {place : List Step} {value : Option α} {visited : Visited α} {t : CutTree D α} {visited' : Visited α}
    (done : cut heap fuel place value visited = some (t, visited')) : P place value visited t visited' := by
  have all : ∀ {inner : List Step → Option α → Visited α → Option (CutTree D α × Visited α)},
      (∀ place value visited t visited', inner place value visited = some (t, visited') → P place value visited t visited') →
      ∀ {place i slots visited ts visited'}, cutSlots inner place i slots visited = some (ts, visited') →
        Q place i slots visited ts visited' := by
    intro inner each place i slots
    induction slots generalizing i with
    | nil =>
      intro visited ts visited' done
      cases done
      exact nil place i _
    | cons e slots ih =>
      obtain ⟨key, value⟩ := e
      intro visited ts visited' done
      obtain ⟨⟨t, visited₁⟩, own, done⟩ := Option.bind_eq_some_iff.mp done
      obtain ⟨⟨ts, visited₂⟩, others, done⟩ := Option.bind_eq_some_iff.mp done
      cases done
      exact cons _ _ _ _ _ _ _ _ _ _ (each _ _ _ _ _ own) (ih others)
  induction fuel generalizing place value visited t visited' with
  | zero =>
    cases value with
    | none =>
      cases done
      exact null place _
    | some id => cases done
  | succ fuel ih =>
    cases value with
    | none =>
      cases done
      exact null place _
    | some id =>
      rw [cut] at done
      split at done
      · rename_i first met
        cases done
        obtain ⟨before, after, shape, -⟩ := List.lookup_eq_some_iff.mp met
        exact ref place id _ first (by rw [shape]; simp)
      · rename_i unmet
        have fresh : id ∉ visited.map Prod.fst := by
          intro mem
          obtain ⟨e, mem, same⟩ := List.mem_map.mp mem
          have other := List.lookup_eq_none_iff.mp unmet e mem
          rw [same] at other
          simp at other
        split at done
        · rename_i s node
          cases done
          exact leaf place id visited s fresh node
        · rename_i slots node
          obtain ⟨⟨ts, visited₁⟩, inner, done⟩ := Option.bind_eq_some_iff.mp done
          cases done
          exact array place id visited slots ts _ fresh node (all (fun _ _ _ _ _ done => ih done) inner)

end

end Coast
