import Coast.Lib.Runs
import Coast.Oracle.ConnectionLists
import Mathlib.Data.Multiset.Range

/-!
# The callers of an Oracle connection pool

Every caller borrows a connection and puts it back. `BorrowConnection` waits for a permit of the
semaphore before it locks `fStructureMutex`; `ReleaseConnection` gives the permit back before it unlocks.
In between `CheckCloseOpenedConnections` may close connections.
-/

namespace Coast.Oracle.ConnectionPool

open Any

/-! ### The connections in the lists -/

def children : Lists → List Lists
  | array _ slots => slots.map Prod.snd
  | _ => []

def slotChildren (name : Bytes) (lists : Lists) : List Lists :=
  match lists.findIndex name with
  | some i => children (lists.child i)
  | none => []

def unusedList (lists : Lists) : List (Option Nat) := (slotChildren (ascii "Unused") lists).map asIFAObject

def openList (lists : Lists) : List (Option Nat) :=
  (slotChildren (ascii "Open") lists).flatMap fun stamp => (children stamp).map fun entry => asIFAObject (entry.child 0)

/-! ### Steps -/

inductive Phase where
  | waiting (server user : Bytes)
  | acquired (server user : Bytes)
  | holding (pConnection : Nat)
  /-- The connection is in the lists again, and the mutex is locked. -/
  | stored
  /-- `BorrowConnection` has returned `false`. -/
  | refused
  deriving DecidableEq

/-- Whether the caller is inside `BorrowConnection` or `ReleaseConnection`. -/
def Phase.inCall : Phase → Bool
  | waiting .. | acquired .. | stored => true
  | holding _ | refused => false

def Phase.held : Phase → Option (Option Nat)
  | holding pConnection => some (some pConnection)
  | _ => none

structure State where
  lists : Lists
  permits : Nat
  locked : Bool
  callers : List Phase

/-- An initialised pool; a semaphore counts in an `unsigned`. -/
def initial (nrOfConnections : Nat) : State := ⟨init nrOfConnections, nrOfConnections % 2 ^ 32, false, []⟩

inductive Event where
  | call (server user : Bytes)
  | acquire (place : Nat)
  | borrow (place : Nat)
  | store (place : Nat) (isOpen : Option (Bytes × Bytes)) (aStamp : Bytes)
  | release (place : Nat)
  | check (close : Nat → Bool) (old : Option Bytes → Bool)

def step : Event → State → Except Unit State
  | .call server user, s => .ok { s with callers := s.callers ++ [.waiting server user] }
  | .acquire place, s =>
    match s.callers[place]? with
    | some (.waiting server user) =>
      if s.permits = 0 then .error ()
      else .ok { s with permits := s.permits - 1, callers := Pool.replace s.callers place (some (.acquired server user)) }
    | _ => .error ()
  | .borrow place, s =>
    match s.callers[place]? with
    | some (.acquired server user) =>
      if s.locked then .error ()
      else
        match intBorrowConnection server user s.lists with
        | (some pConnection, lists) => .ok { s with lists := lists, callers := Pool.replace s.callers place (some (.holding pConnection)) }
        | (none, lists) => .ok { s with lists := lists, callers := Pool.replace s.callers place (some .refused) }
    | _ => .error ()
  | .store place isOpen aStamp, s =>
    match s.callers[place]? with
    | some (.holding pConnection) =>
      if s.locked then .error ()
      else
        .ok { s with
          lists := intReleaseConnection pConnection isOpen aStamp s.lists
          locked := true
          callers := Pool.replace s.callers place (some .stored) }
    | _ => .error ()
  | .release place, s =>
    match s.callers[place]? with
    | some .stored => .ok { s with permits := s.permits + 1, locked := false, callers := Pool.replace s.callers place none }
    | _ => .error ()
  | .check close old, s =>
    if s.locked then .error () else .ok { s with lists := (checkCloseOpenedConnections close old s.lists).2 }

/-! ### The invariant -/

def holds : Phase → Multiset Nat
  | .holding pConnection => {pConnection}
  | _ => 0

def inside : Phase → Nat
  | .acquired .. | .stored => 1
  | _ => 0

structure Follows (n : Nat) (s : State) (stored : Stored) : Prop where
  lists : s.lists = stored.any
  size : stored.size = n
  empty : n = 0 → stored.opened = none
  kept : ∀ t ∈ stored.opened.getD [], t.2 ≠ []
  conserved : stored.connections + Pool.total holds s.callers = Multiset.range n
  permits : s.permits + Pool.total inside s.callers = stored.connections.card
  served : .refused ∉ s.callers

section Steps

variable {n : Nat} {s s' : State} {stored : Stored}

theorem Follows.card_le (follows : Follows n s stored) : stored.connections.card ≤ n := by
  have card := congrArg Multiset.card follows.conserved
  rw [Multiset.card_add, Multiset.card_range] at card
  omega

theorem Follows.good (follows : Follows n s stored) (fits : n < 2 ^ 32) (some : n ≠ 0) : stored.Good := by
  have card := follows.card_le
  exact ⟨by rwa [follows.size], follows.kept, by omega⟩

theorem Follows.ne_zero (follows : Follows n s stored) {place : Nat} {pConnection : Nat}
    (here : s.callers[place]? = some (.holding pConnection)) : n ≠ 0 := by
  have exchanged := Pool.total_replace holds here none
  have mem : pConnection ∈ Pool.total holds s.callers := by
    rw [Option.map_none, Option.getD_none, add_zero] at exchanged
    rw [← exchanged]
    exact Multiset.mem_add.mpr (.inr (Multiset.mem_singleton_self pConnection))
  have less : pConnection ∈ Multiset.range n := by
    rw [← follows.conserved]
    exact Multiset.mem_add.mpr (.inr mem)
  exact Nat.ne_zero_of_lt (Multiset.mem_range.mp less)

theorem served_replace {callers : List Phase} (served : Phase.refused ∉ callers) {place : Nat} (next : Option Phase)
    (other : next ≠ some .refused) : Phase.refused ∉ Pool.replace callers place next := by
  intro mem
  obtain mem | same := Pool.mem_replace mem
  · exact served mem
  · exact other same

theorem call_keeps (follows : Follows n s stored) (server user : Bytes) :
    Follows n { s with callers := s.callers ++ [.waiting server user] } stored := by
  obtain ⟨lists, size, empty, kept, conserved, permits, served⟩ := follows
  refine ⟨lists, size, empty, kept, ?_, ?_, ?_⟩
  · rw [Pool.total_append, Pool.total_cons, Pool.total_nil]
    exact (congrArg (stored.connections + ·) (add_zero _)).trans conserved
  · rw [Pool.total_append]
    exact permits
  · intro mem
    obtain mem | mem := List.mem_append.mp mem
    · exact served mem
    · cases List.mem_singleton.mp mem

theorem acquire_keeps (follows : Follows n s stored) {place : Nat} {server user : Bytes}
    (here : s.callers[place]? = some (.waiting server user)) (more : s.permits ≠ 0) :
    Follows n { s with permits := s.permits - 1, callers := Pool.replace s.callers place (some (.acquired server user)) } stored := by
  obtain ⟨lists, size, empty, kept, conserved, permits, served⟩ := follows
  have held : (_ + 0 : Multiset Nat) = _ + 0 := Pool.total_replace holds here (some (.acquired server user))
  have count : _ + 0 = _ + 1 := Pool.total_replace inside here (some (.acquired server user))
  refine ⟨lists, size, empty, kept, ?_, ?_, served_replace served (some (.acquired server user)) nofun⟩
  · rwa [add_right_cancel held]
  · dsimp only
    omega

theorem borrow_keeps (fits : n < 2 ^ 32) (follows : Follows n s stored) {place : Nat} {server user : Bytes}
    (here : s.callers[place]? = some (.acquired server user)) : ∃ pConnection lists stored',
      intBorrowConnection server user s.lists = (some pConnection, lists) ∧
        Follows n { s with lists := lists, callers := Pool.replace s.callers place (some (.holding pConnection)) } stored' := by
  have below := follows.card_le
  have good := follows.good fits
  obtain ⟨lists, size, empty, kept, conserved, permits, served⟩ := follows
  have one : 1 ≤ Pool.total inside s.callers := @Pool.le_total _ inside _ _ (List.mem_of_getElem? here)
  have some : stored.connections ≠ 0 := by
    intro none
    rw [none, Multiset.card_zero] at permits
    omega
  obtain ⟨pConnection, stored', found, good', size', less⟩ :=
    Stored.intBorrowConnection_any (good (by omega)) server user some
  have held : (_ + 0 : Multiset Nat) = _ + {pConnection} := Pool.total_replace holds here (.some (.holding pConnection))
  have count : _ + 1 = _ + 0 := Pool.total_replace inside here (.some (.holding pConnection))
  refine ⟨pConnection, stored'.any, stored', by rw [lists, found], rfl, size'.trans size, ?_, good'.kept, ?_, ?_,
    served_replace served (.some (.holding pConnection)) nofun⟩
  · intro none
    exact absurd (size'.trans size) (by rw [none]; exact good'.sized)
  · rw [add_zero] at held
    rw [held, ← conserved, less, Multiset.cons_add, ← Multiset.add_assoc, Multiset.add_comm _ {pConnection}]
    rfl
  · rw [less, Multiset.card_cons] at permits
    dsimp only
    omega

theorem store_keeps (follows : Follows n s stored) {place pConnection : Nat} (here : s.callers[place]? = some (.holding pConnection))
    (isOpen : Option (Bytes × Bytes)) (aStamp : Bytes) : ∃ stored', Follows n { s with
      lists := intReleaseConnection pConnection isOpen aStamp s.lists
      locked := true
      callers := Pool.replace s.callers place (some .stored) } stored' := by
  have some := follows.ne_zero here
  obtain ⟨lists, size, empty, kept, conserved, permits, served⟩ := follows
  obtain ⟨stored', put, size', kept', more⟩ :=
    Stored.intReleaseConnection_any (s := stored) (by rwa [size]) kept pConnection isOpen aStamp
  have held : (_ + {pConnection} : Multiset Nat) = _ + 0 := Pool.total_replace holds here (.some .stored)
  have count : _ + 0 = _ + 1 := Pool.total_replace inside here (.some .stored)
  refine ⟨stored', ?_, size'.trans size, fun none => absurd none some, kept', ?_, ?_, served_replace served (.some .stored) nofun⟩
  · rw [lists, put]
  · rw [more, Multiset.cons_add, ← conserved, ← add_zero (Pool.total holds s.callers), ← held, ← Multiset.add_assoc,
      Multiset.add_comm _ {pConnection}]
    rfl
  · rw [more, Multiset.card_cons]
    dsimp only
    omega

theorem release_keeps (follows : Follows n s stored) {place : Nat} (here : s.callers[place]? = some .stored) :
    Follows n { s with permits := s.permits + 1, locked := false, callers := Pool.replace s.callers place none } stored := by
  obtain ⟨lists, size, empty, kept, conserved, permits, served⟩ := follows
  have held : (_ + 0 : Multiset Nat) = _ + 0 := Pool.total_replace holds here none
  have count : _ + 1 = _ + 0 := Pool.total_replace inside here none
  refine ⟨lists, size, empty, kept, ?_, ?_, served_replace served none nofun⟩
  · rwa [add_right_cancel held]
  · dsimp only
    omega

theorem check_keeps (follows : Follows n s stored) (close : Nat → Bool) (old : Option Bytes → Bool) :
    ∃ stored', Follows n { s with lists := (checkCloseOpenedConnections close old s.lists).2 } stored' := by
  obtain ⟨lists, size, empty, kept, conserved, permits, served⟩ := follows
  by_cases none : n = 0
  · refine ⟨stored, ?_, size, empty, kept, conserved, permits, served⟩
    obtain ⟨size', unused, opened⟩ := stored
    obtain rfl : size' = 0 := size.trans none
    obtain rfl : opened = .none := empty none
    rw [lists]
    rfl
  · obtain ⟨bRet, stored', closed, size', fewer, same⟩ :=
      Stored.checkCloseOpenedConnections_any (s := stored) (by rwa [size]) close old
    refine ⟨stored', ?_, size'.trans size, fun zero => absurd zero none, fun t mem => kept t (fewer t mem), ?_, ?_, served⟩
    · rw [lists, closed]
    · rw [same, conserved]
    · rw [same, permits]

theorem step_keeps (fits : n < 2 ^ 32) (follows : Follows n s stored) {e : Event} (done : step e s = .ok s') :
    ∃ stored', Follows n s' stored' := by
  cases e with
  | call server user =>
    cases done
    exact ⟨stored, call_keeps follows server user⟩
  | acquire place =>
    dsimp only [step] at done
    split at done
    · rename_i server user here
      split at done
      · cases done
      · rename_i more
        cases done
        exact ⟨stored, acquire_keeps follows here more⟩
    · cases done
  | borrow place =>
    dsimp only [step] at done
    split at done
    · rename_i server user here
      obtain ⟨pConnection, lists, stored', found, follows'⟩ := borrow_keeps fits follows here
      rw [found] at done
      split at done
      · cases done
      · cases done
        exact ⟨stored', follows'⟩
    · cases done
  | store place isOpen aStamp =>
    dsimp only [step] at done
    split at done
    · rename_i pConnection here
      split at done
      · cases done
      · cases done
        exact store_keeps follows here isOpen aStamp
    · cases done
  | release place =>
    dsimp only [step] at done
    split at done
    · rename_i here
      cases done
      exact ⟨stored, release_keeps follows here⟩
    · cases done
  | check close old =>
    dsimp only [step] at done
    split at done
    · cases done
    · cases done
      exact check_keeps follows close old

theorem initial_follows (fits : n < 2 ^ 32) : Follows n (initial n) ⟨n, List.range n, none⟩ := by
  refine ⟨Stored.init_any, rfl, fun _ => rfl, nofun, ?_, ?_, nofun⟩
  · exact (add_zero _).trans (add_zero _)
  · have all : (Stored.connections ⟨n, List.range n, none⟩).card = n := by
      rw [Stored.connections, Multiset.card_add, Multiset.coe_card, List.length_range]
      rfl
    rw [all]
    exact Nat.mod_eq_of_lt fits

theorem run_follows (fits : n < 2 ^ 32) {evs : List Event} (done : Runs.run step evs (initial n) = .ok s) :
    ∃ stored, Follows n s stored := by
  have always : Runs.Meets step (fun _ _ => True) evs (initial n) := Runs.meets_of_forall (fun _ _ => trivial) evs _
  exact @Runs.run_ok_keeps _ _ _ step (fun _ _ => True) (fun s => ∃ stored, Follows n s stored)
    (fun _ _ _ ⟨_, follows⟩ _ done => step_keeps fits follows done) evs _ _ ⟨_, initial_follows fits⟩ always done

end Steps

/-! ### What the lists show -/

section Lists

variable {n : Nat} {s : State} {stored : Stored}

theorem Follows.without (follows : Follows 0 s stored) : s.lists = array () [(some (ascii "Size"), simple (.long 0))] ∧
    stored.unused = [] ∧ stored.opened = none := by
  obtain ⟨lists, size, empty, -, conserved, -, -⟩ := follows
  have opened := empty rfl
  have card := congrArg Multiset.card conserved
  rw [Stored.connections, Multiset.card_add, Multiset.card_add, Multiset.coe_card, Multiset.card_range] at card
  have unused : stored.unused = [] := List.length_eq_zero_iff.mp (by omega)
  refine ⟨?_, unused, opened⟩
  rw [lists, Stored.any, size, opened]
  rfl

theorem unusedList_any (follows : Follows n s stored) : unusedList s.lists = stored.unused.map some := by
  by_cases none : n = 0
  · subst none
    obtain ⟨lists, unused, -⟩ := follows.without
    rw [lists, unused]
    rfl
  · have sized : stored.size ≠ 0 := by rwa [follows.size]
    have shown : unusedList s.lists = ((stored.unused.map Stored.ofUnused).map Prod.snd).map asIFAObject := by
      rw [follows.lists, Stored.any_of_ne_zero sized]
      rfl
    rw [shown, List.map_map, List.map_map]
    rfl

theorem openList_stamps (ts : Stamps) : (((ts.map Stored.ofStamp).map Prod.snd).flatMap fun stamp =>
    (children stamp).map fun entry => asIFAObject (entry.child 0)) = (Stored.entries ts).map fun e => some e.1 := by
  induction ts with
  | nil => rfl
  | cons t ts ih =>
    have front : Stored.entries (t :: ts) = t.2 ++ Stored.entries ts := List.flatMap_cons
    have first : ((children (Stored.ofStamp t).2).map fun entry => asIFAObject (entry.child 0)) = t.2.map fun e => some e.1 := by
      show (((t.2.map Stored.ofEntry).map Prod.snd).map fun entry => asIFAObject (entry.child 0)) = _
      rw [List.map_map, List.map_map]
      rfl
    rw [List.map_cons, List.map_cons, List.flatMap_cons, ih, first, front, List.map_append]

theorem openList_entries (follows : Follows n s stored) : openList s.lists = (Stored.entries (stored.opened.getD [])).map fun e => some e.1 := by
  by_cases none : n = 0
  · subst none
    obtain ⟨lists, -, opened⟩ := follows.without
    rw [lists, opened]
    rfl
  · have sized : stored.size ≠ 0 := by rwa [follows.size]
    rw [follows.lists, Stored.any_of_ne_zero sized]
    cases stored.opened with
    | none => rfl
    | some ts => exact openList_stamps ts

theorem openList_any (follows : Follows n s stored) : (openList s.lists : Multiset (Option Nat)) =
    (Stored.openConnections (stored.opened.getD [])).map some := by
  rw [openList_entries follows, Stored.openConnections_entries, Multiset.map_coe, List.map_map]
  rfl

theorem held_callers (callers : List Phase) : (callers.filterMap Phase.held : Multiset (Option Nat)) = (Pool.total holds callers).map some := by
  induction callers with
  | nil => rfl
  | cons p callers ih =>
    rw [Pool.total_cons, Multiset.map_add, ← ih]
    cases p <;> rfl

theorem inside_eq_zero {callers : List Phase} (idle : ∀ p ∈ callers, p.inCall = false) : Pool.total inside callers = 0 := by
  induction callers with
  | nil => rfl
  | cons p callers ih =>
    have first := idle p List.mem_cons_self
    rw [Pool.total_cons, ih fun p mem => idle p (List.mem_cons_of_mem _ mem)]
    cases p <;> first | rfl | cases first

end Lists

/-- Each of the `n` connections is in one of the lists, once, or one caller holds it. While no call is in
progress there are as many permits as connections in the lists, and `BorrowConnection` never returns `false`. -/
theorem connections_conserved {n : Nat} (fits : n < 2 ^ 32) {evs : List Event} {s : State} (done : Runs.run step evs (initial n) = .ok s) :
    (unusedList s.lists ++ openList s.lists ++ s.callers.filterMap Phase.held).Perm ((List.range n).map some) ∧
      ((∀ p ∈ s.callers, p.inCall = false) → s.permits = (unusedList s.lists).length + (openList s.lists).length) ∧
      .refused ∉ s.callers := by
  obtain ⟨stored, follows⟩ := run_follows fits done
  have unused := unusedList_any follows
  have opened := openList_any follows
  refine ⟨?_, fun idle => ?_, follows.served⟩
  · have all := congrArg (Multiset.map some) follows.conserved
    rw [Stored.connections, Multiset.map_add, Multiset.map_add] at all
    rw [← Multiset.coe_eq_coe, ← Multiset.coe_add, ← Multiset.coe_add, unused, opened, held_callers, ← Multiset.map_coe, all]
    rfl
  · have count := follows.permits
    have shown : (openList s.lists).length = (Stored.openConnections (stored.opened.getD [])).card := by
      rw [← Multiset.coe_card, opened, Multiset.card_map]
    rw [inside_eq_zero idle, Stored.connections, Multiset.card_add, Multiset.coe_card] at count
    rw [unused, List.length_map, shown]
    exact count

def reuse : List Event :=
  [.call (ascii "a") (ascii "u"), .acquire 0, .borrow 0, .store 0 (some (ascii "a", ascii "u")) (ascii "1"), .release 0,
    .call (ascii "a") (ascii "u"), .acquire 0, .borrow 0, .call (ascii "b") (ascii "u"), .acquire 1, .borrow 1,
    .store 0 (some (ascii "a", ascii "u")) (ascii "2"), .release 0, .check (fun _ => true) (fun _ => true), .call [] [], .acquire 1, .borrow 1]

theorem connections_conserved_reuse : ∃ s, Runs.run step reuse (initial 2) = .ok s ∧
    (unusedList s.lists ++ openList s.lists ++ s.callers.filterMap Phase.held).Perm ((List.range 2).map some) ∧
    ((∀ p ∈ s.callers, p.inCall = false) → s.permits = (unusedList s.lists).length + (openList s.lists).length) ∧
    .refused ∉ s.callers :=
  ⟨_, rfl, connections_conserved (by decide) (rfl : Runs.run step reuse (initial 2) = _)⟩

end Coast.Oracle.ConnectionPool
