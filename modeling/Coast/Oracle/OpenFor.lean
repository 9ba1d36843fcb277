import Coast.Oracle.ConnectionPool
import Mathlib.Logic.Function.Basic

/-!
# For whom the connections of a pool are open

`IntGetOpen` does not ask a connection for whom it is open. It compares the text that was stored with the
connection when it was put back, in which the server and the user are joined by a dot.
-/

namespace Coast.Oracle.OpenFor

open Any
open Regex (cstr)
open ConnectionPool (Event Follows Phase closedOnBorrow intBorrowConnection openList unusedList)

/-- A pool, and the server and the user that each connection is open for. -/
structure State where
  pool : ConnectionPool.State
  openFor : Nat → Option (Bytes × Bytes)

def close (closed : Option Nat) (openFor : Nat → Option (Bytes × Bytes)) (p : Nat) : Option (Bytes × Bytes) :=
  if closed = some p then none else openFor p

def openAfter : Event → State → Nat → Option (Bytes × Bytes)
  | .borrow place, s =>
    match s.pool.callers[place]? with
    | some (.acquired server user) => close (closedOnBorrow server user s.pool.lists) s.openFor
    | _ => s.openFor
  | .store place isOpen _, s =>
    match s.pool.callers[place]? with
    | some (.holding pConnection) => Function.update s.openFor pConnection isOpen
    | _ => s.openFor
  | .check closes old, s => fun p =>
    -- a connection is closed on its way from `Open` to `Unused`
    if some p ∈ openList s.pool.lists ∧ some p ∈ unusedList (ConnectionPool.checkCloseOpenedConnections closes old s.pool.lists).2 then none
    else s.openFor p
  | _, s => s.openFor

def step (e : Event) (s : State) : Except Unit State :=
  match ConnectionPool.step e s.pool with
  | .ok pool => .ok ⟨pool, openAfter e s⟩
  | .error failed => .error failed

def initial (nrOfConnections : Nat) : State := ⟨ConnectionPool.initial nrOfConnections, fun _ => none⟩

/-! ### The texts that are stored -/

structure Tracks (openFor : Nat → Option (Bytes × Bytes)) (stored : Stored) : Prop where
  opened : ∀ e ∈ Stored.entries (stored.opened.getD []),
    ∃ server user, openFor e.1 = some (server, user) ∧ e.2 = serverDotUser server user
  unused : ∀ p ∈ stored.unused, openFor p = none

section Tracks

variable {openFor : Nat → Option (Bytes × Bytes)} {s s' : Stored}

theorem mem_connections {s : Stored} {p : Nat} :
    p ∈ s.connections ↔ p ∈ s.unused ∨ ∃ e ∈ Stored.entries (s.opened.getD []), e.1 = p := by
  rw [Stored.connections, Stored.openConnections_entries, Multiset.mem_add, Multiset.mem_coe, Multiset.mem_coe, List.mem_map]

theorem close_nothing : close none openFor = openFor := funext fun p => if_neg (by simp)

theorem close_of_ne {closed : Option Nat} {p : Nat} (other : closed ≠ some p) : close closed openFor p = openFor p := if_neg other

theorem close_none {p : Nat} (closed : Option Nat) (isClosed : openFor p = none) : close closed openFor p = none := by
  rw [close, isClosed, ite_self]

theorem Tracks.fewer (tracks : Tracks openFor s) (nodup : s.connections.Nodup) {e : Nat × Bytes} {strToLookup : Bytes}
    (first : s.TakesFirst strToLookup e s') {closed : Option Nat} (which : ∀ p, closed = some p → p = e.1) :
    Tracks (close closed openFor) s' := by
  obtain ⟨before, after, whole, left, -⟩ := first.first
  have gone : e.1 ∉ s'.connections := by
    rw [first.takes.2.2] at nodup
    exact (Multiset.nodup_cons.mp nodup).1
  refine ⟨fun x mem => ?_, fun p mem => ?_⟩
  · have here := mem_connections.mpr (.inr ⟨x, mem, rfl⟩)
    have old : x ∈ Stored.entries (s.opened.getD []) := by
      rw [left] at mem
      rw [whole]
      exact List.mem_append.mpr ((List.mem_append.mp mem).imp_right (List.mem_cons_of_mem e))
    rw [close_of_ne fun same => gone (which x.1 same ▸ here)]
    exact tracks.opened x old
  · rw [first.unused] at mem
    exact close_none closed (tracks.unused p mem)

theorem Tracks.borrow (tracks : Tracks openFor s) (nodup : s.connections.Nodup) {server user : Bytes} {returned closed : Option Nat}
    (borrows : s.Borrows server user returned s' closed) : Tracks (close closed openFor) s' := by
  cases borrows with
  | matching _ _ first => exact tracks.fewer nodup first fun p closed => by cases closed
  | unused _ shape =>
    rw [close_nothing]
    refine ⟨tracks.opened, fun p mem => tracks.unused p ?_⟩
    rw [shape]
    exact List.mem_cons_of_mem _ mem
  | other _ _ first => exact tracks.fewer nodup first fun p same => (Option.some.inj same).symm
  | nothing _ _ =>
    rw [close_nothing]
    exact tracks

theorem Tracks.put (tracks : Tracks openFor s) {pConnection : Nat} (held : pConnection ∉ s.connections)
    (isOpen : Option (Bytes × Bytes)) (aStamp : Bytes) :
    Tracks (Function.update openFor pConnection isOpen) (s.put pConnection isOpen aStamp) := by
  have entry : ∀ e ∈ Stored.entries (s.opened.getD []), Function.update openFor pConnection isOpen e.1 = openFor e.1 := fun e mem =>
    Function.update_of_ne (fun same => held (mem_connections.mpr (.inr ⟨e, mem, same⟩))) _ _
  have closed : ∀ p ∈ s.unused, Function.update openFor pConnection isOpen p = none := by
    intro p mem
    have other : p ≠ pConnection := by
      rintro rfl
      exact held (mem_connections.mpr (.inl mem))
    rw [Function.update_of_ne other]
    exact tracks.unused p mem
  cases isOpen with
  | none =>
    refine ⟨fun e mem => ?_, fun p mem => ?_⟩
    · rw [entry e mem]
      exact tracks.opened e mem
    · obtain mem | mem := List.mem_append.mp mem
      · exact closed p mem
      · obtain rfl := List.mem_singleton.mp mem
        exact Function.update_self _ _ _
  | some who =>
    refine ⟨fun e mem => ?_, closed⟩
    obtain rfl | mem := Stored.mem_entries_addEntry mem
    · exact ⟨who.1, who.2, Function.update_self _ _ _, rfl⟩
    · rw [entry e mem]
      exact tracks.opened e mem

end Tracks

/-! ### Runs -/

section Runs

variable {n : Nat} {s s' : State} {pool : ConnectionPool.State} {stored : Stored}

theorem nodup_all (follows : Follows n pool stored) : (stored.connections + Pool.total ConnectionPool.holds pool.callers).Nodup := by
  rw [follows.conserved]
  exact Multiset.nodup_range n

theorem nodup_connections (follows : Follows n pool stored) : stored.connections.Nodup := (Multiset.nodup_add.mp (nodup_all follows)).1

theorem not_mem_of_held (follows : Follows n pool stored) {place pConnection : Nat}
    (here : pool.callers[place]? = some (.holding pConnection)) : pConnection ∉ stored.connections := by
  intro mem
  have held : pConnection ∈ Pool.total ConnectionPool.holds pool.callers :=
    Pool.mem_total.mpr ⟨_, List.mem_of_getElem? here, Multiset.mem_singleton_self pConnection⟩
  exact Multiset.disjoint_left.mp (Multiset.nodup_add.mp (nodup_all follows)).2.2 mem held

theorem Borrows.size {server user : Bytes} {s s' : Stored} {returned closed : Option Nat} (borrows : s.Borrows server user returned s' closed) :
    s'.size = s.size := by
  cases borrows with
  | matching _ _ first => exact first.takes.2.1
  | unused => rfl
  | other _ _ first => exact first.takes.2.1
  | nothing => rfl

theorem mem_unusedList (follows : Follows n pool stored) {p : Nat} : some p ∈ unusedList pool.lists ↔ p ∈ stored.unused := by
  rw [ConnectionPool.unusedList_any follows, List.mem_map_of_injective (Option.some_injective Nat)]

theorem mem_openList (follows : Follows n pool stored) {p : Nat} :
    some p ∈ openList pool.lists ↔ ∃ e ∈ Stored.entries (stored.opened.getD []), e.1 = p := by
  simp only [ConnectionPool.openList_entries follows, List.mem_map, Option.some.injEq]

def Inv (n : Nat) (s : State) : Prop := ∃ stored, Follows n s.pool stored ∧ Tracks s.openFor stored

theorem borrow_inv (fits : n < 2 ^ 32) (follows : Follows n s.pool stored) (tracks : Tracks s.openFor stored) {place : Nat}
    {server user : Bytes} (here : s.pool.callers[place]? = some (.acquired server user)) : ∃ pConnection lists,
      intBorrowConnection server user s.pool.lists = (some pConnection, lists) ∧
        Inv n ⟨{ s.pool with lists := lists, callers := Pool.replace s.pool.callers place (some (.holding pConnection)) },
          close (closedOnBorrow server user s.pool.lists) s.openFor⟩ := by
  obtain ⟨pConnection, lists, stored', found, follows'⟩ := ConnectionPool.borrow_keeps fits follows here
  obtain ⟨inside, -⟩ := List.getElem?_eq_some_iff.mp here
  have some : n ≠ 0 := follows'.ne_zero (List.getElem?_set_self inside)
  obtain ⟨returned, after, found', borrows⟩ := Stored.intBorrowConnection_borrows (follows.good fits some) server user
  rw [← follows.lists] at found' borrows
  have same : after = stored' := by
    refine Stored.any_injective ?_ (by rwa [follows'.size]) ?_
    · rwa [Borrows.size borrows, follows.size]
    · rw [← follows'.lists]
      exact (Prod.mk.inj (found'.symm.trans found)).2
  rw [same] at borrows
  exact ⟨pConnection, lists, found, stored', follows', tracks.borrow (nodup_connections follows) borrows⟩

theorem store_inv (follows : Follows n s.pool stored) (tracks : Tracks s.openFor stored) {place pConnection : Nat}
    (here : s.pool.callers[place]? = some (.holding pConnection)) (isOpen : Option (Bytes × Bytes)) (aStamp : Bytes) :
    Inv n ⟨{ s.pool with
      lists := ConnectionPool.intReleaseConnection pConnection isOpen aStamp s.pool.lists
      locked := true
      callers := Pool.replace s.pool.callers place (some .stored) }, Function.update s.openFor pConnection isOpen⟩ := by
  have some := follows.ne_zero here
  have sized : stored.size ≠ 0 := by rwa [follows.size]
  obtain ⟨stored', follows'⟩ := ConnectionPool.store_keeps follows here isOpen aStamp
  have same : stored.put pConnection isOpen aStamp = stored' := by
    refine Stored.any_injective ?_ (by rwa [follows'.size]) ?_
    · cases isOpen <;> exact sized
    · rw [← Stored.intReleaseConnection_put sized, ← follows.lists, ← follows'.lists]
  refine ⟨stored', follows', ?_⟩
  rw [← same]
  exact tracks.put (not_mem_of_held follows here) isOpen aStamp

theorem check_inv (follows : Follows n s.pool stored) (tracks : Tracks s.openFor stored) (closes : Nat → Bool) (old : Option Bytes → Bool) :
    Inv n ⟨{ s.pool with lists := (ConnectionPool.checkCloseOpenedConnections closes old s.pool.lists).2 },
      openAfter (.check closes old) s⟩ := by
  obtain ⟨stored', follows'⟩ := ConnectionPool.check_keeps follows closes old
  refine ⟨stored', follows', ?_⟩
  by_cases without : n = 0
  · subst without
    obtain ⟨-, unused, opened⟩ := follows'.without
    refine ⟨fun e mem => ?_, fun p mem => ?_⟩
    · rw [opened] at mem
      cases mem
    · rw [unused] at mem
      cases mem
  · obtain ⟨bRet, after, closed, size, fewer, same⟩ :=
      Stored.checkCloseOpenedConnections_any (s := stored) (by rwa [follows.size]) closes old
    have eq : after = stored' := by
      refine Stored.any_injective (by rwa [size, follows.size]) (by rwa [follows'.size]) ?_
      rw [← follows'.lists, follows.lists, closed]
    rw [eq] at fewer same
    refine ⟨fun e mem => ?_, fun p mem => ?_⟩
    · have old : e ∈ Stored.entries (stored.opened.getD []) := by
        obtain ⟨t, stamp, within⟩ := List.mem_flatMap.mp mem
        exact List.mem_flatMap.mpr ⟨t, fewer t stamp, within⟩
      have apart : e.1 ∉ stored'.unused := by
        intro unused
        have nodup := nodup_connections follows'
        rw [Stored.connections, Stored.openConnections_entries] at nodup
        exact Multiset.disjoint_left.mp (Multiset.nodup_add.mp nodup).2.2 unused (List.mem_map_of_mem mem)
      dsimp only [openAfter]
      rw [if_neg fun both => apart ((mem_unusedList follows').mp both.2)]
      exact tracks.opened e old
    · have here := mem_connections.mpr (.inl mem)
      rw [same] at here
      dsimp only [openAfter]
      obtain unused | opened := mem_connections.mp here
      · rw [tracks.unused p unused, ite_self]
      · exact if_pos ⟨(mem_openList follows).mpr opened, (mem_unusedList follows').mpr mem⟩

theorem step_inv (fits : n < 2 ^ 32) (inv : Inv n s) {e : Event} (done : step e s = .ok s') : Inv n s' := by
  obtain ⟨stored, follows, tracks⟩ := inv
  rw [step] at done
  split at done
  · rename_i pool taken
    cases done
    cases e with
    | call server user =>
      cases taken
      exact ⟨stored, ConnectionPool.call_keeps follows server user, tracks⟩
    | acquire place =>
      dsimp only [ConnectionPool.step] at taken
      split at taken
      · rename_i server user here
        split at taken
        · cases taken
        · rename_i more
          cases taken
          exact ⟨stored, ConnectionPool.acquire_keeps follows here more, tracks⟩
      · cases taken
    | borrow place =>
      dsimp only [ConnectionPool.step] at taken
      split at taken
      · rename_i server user here
        have told : openAfter (.borrow place) s = close (closedOnBorrow server user s.pool.lists) s.openFor := by rw [openAfter, here]
        obtain ⟨pConnection, lists, found, inv⟩ := borrow_inv fits follows tracks here
        rw [found] at taken
        split at taken
        · cases taken
        · cases taken
          rw [told]
          exact inv
      · cases taken
    | store place isOpen aStamp =>
      dsimp only [ConnectionPool.step] at taken
      split at taken
      · rename_i pConnection here
        have told : openAfter (.store place isOpen aStamp) s = Function.update s.openFor pConnection isOpen := by rw [openAfter, here]
        split at taken
        · cases taken
        · cases taken
          rw [told]
          exact store_inv follows tracks here isOpen aStamp
      · cases taken
    | release place =>
      dsimp only [ConnectionPool.step] at taken
      split at taken
      · rename_i here
        cases taken
        exact ⟨stored, ConnectionPool.release_keeps follows here, tracks⟩
      · cases taken
    | check closes old =>
      dsimp only [ConnectionPool.step] at taken
      split at taken
      · cases taken
      · cases taken
        exact check_inv follows tracks closes old
  · cases done

theorem run_inv (fits : n < 2 ^ 32) {evs : List Event} (done : Runs.run step evs (initial n) = .ok s) : Inv n s := by
  have always : Runs.Meets step (fun _ _ => True) evs (initial n) := Runs.meets_of_forall (fun _ _ => trivial) evs _
  have start : Inv n (initial n) := ⟨_, ConnectionPool.initial_follows fits, nofun, fun _ _ => rfl⟩
  exact @Runs.run_ok_keeps _ _ _ step (fun _ _ => True) (Inv n) (fun _ _ _ inv _ done => step_inv fits inv done) evs _ _ start always done

end Runs

/-! ### Borrowing for a server and a user -/

section Serves

variable (server user : Bytes) (s : State)

def returned : Option Nat := (intBorrowConnection server user s.pool.lists).1

/-- For whom the connections are open when `IntBorrowConnection` returns. -/
def openThen : Nat → Option (Bytes × Bytes) := close (closedOnBorrow server user s.pool.lists) s.openFor

/-- Who has a permit gets a connection that is closed or open for the server and the user, and one that is open
for them if there is one. -/
structure Serves : Prop where
  usable : unusedList s.pool.lists ++ openList s.pool.lists ≠ [] →
    ∃ p, returned server user s = some p ∧ (openThen server user s p = none ∨ openThen server user s p = some (server, user))
  kept : (∃ q, some q ∈ openList s.pool.lists ∧ s.openFor q = some (server, user)) →
    ∃ p, returned server user s = some p ∧ some p ∈ openList s.pool.lists ∧ openThen server user s p = some (server, user)

/-- In front of a connection of others with the same text there is one for the server and the user. -/
def Unmixed : Prop :=
  ∀ before p after other, openList s.pool.lists = before ++ some p :: after → s.openFor p = some other →
    cstr (serverDotUser other.1 other.2) = cstr (serverDotUser server user) → other ≠ (server, user) →
    ∃ q, some q ∈ before ∧ s.openFor q = some (server, user)

end Serves

section Iff

variable {server user : Bytes} {openFor : Nat → Option (Bytes × Bytes)} {s : State} {stored : Stored}

theorem lookedUp_both (someServer : server ≠ []) (someUser : user ≠ []) : Stored.lookedUp server user = serverDotUser server user :=
  if_pos ⟨List.isEmpty_eq_false_iff.mpr someServer, List.isEmpty_eq_false_iff.mpr someUser⟩

theorem Tracks.answers_iff (tracks : Tracks openFor stored) (someServer : server ≠ []) (someUser : user ≠ []) {e : Nat × Bytes}
    (mem : e ∈ Stored.entries (stored.opened.getD [])) {other : Bytes × Bytes} (isOpen : openFor e.1 = some other) :
    Stored.answers (Stored.lookedUp server user) e = true ↔ cstr (serverDotUser other.1 other.2) = cstr (serverDotUser server user) := by
  obtain ⟨server', user', told, text⟩ := tracks.opened e mem
  obtain rfl := Option.some.inj (isOpen.symm.trans told)
  have some : (serverDotUser server user).isEmpty = false := by
    rw [List.isEmpty_eq_false_iff, serverDotUser]
    exact List.append_ne_nil_of_right_ne_nil _ (List.cons_ne_nil _ _)
  rw [Stored.answers, lookedUp_both someServer someUser, some, Bool.false_or, beq_iff_eq, text, eq_comm]

theorem Tracks.different (tracks : Tracks openFor stored) (someServer : server ≠ []) (someUser : user ≠ [])
    (unmatched : stored.Unmatched server user) {e : Nat × Bytes} (mem : e ∈ Stored.entries (stored.opened.getD [])) {other : Bytes × Bytes}
    (isOpen : openFor e.1 = some other) : cstr (serverDotUser other.1 other.2) ≠ cstr (serverDotUser server user) := by
  intro same
  have asked := (tracks.answers_iff someServer someUser mem isOpen).mpr same
  rw [unmatched someServer someUser e mem] at asked
  cases asked

theorem first_iff_unmixed (follows : Follows n s.pool stored) (tracks : Tracks s.openFor stored) (someServer : server ≠ []) (someUser : user ≠ [])
    {e : Nat × Bytes} {before after : List (Nat × Bytes)} (whole : Stored.entries (stored.opened.getD []) = before ++ e :: after)
    (asked : Stored.answers (Stored.lookedUp server user) e = true)
    (others : ∀ x ∈ before, Stored.answers (Stored.lookedUp server user) x = false) :
    s.openFor e.1 = some (server, user) ↔ Unmixed server user s := by
  have shown : openList s.pool.lists = before.map (fun x => some x.1) ++ some e.1 :: after.map fun x => some x.1 := by
    rw [ConnectionPool.openList_entries follows, whole, List.map_append, List.map_cons]
  have skipped : ∀ x ∈ before, ∀ other, s.openFor x.1 = some other →
      cstr (serverDotUser other.1 other.2) ≠ cstr (serverDotUser server user) := by
    intro x mem other isOpen same
    have inside : x ∈ Stored.entries (stored.opened.getD []) := by
      rw [whole]
      exact List.mem_append_left _ mem
    have answer := (tracks.answers_iff someServer someUser inside isOpen).mpr same
    rw [others x mem] at answer
    cases answer
  constructor
  · intro ours before' p after' other split isOpen same apart
    rw [shown] at split
    obtain ⟨between, isBefore, isAfter⟩ | ⟨between, isBefore, isAfter⟩ := List.append_eq_append_iff.mp split
    · cases between with
      | nil =>
        obtain ⟨rfl, -⟩ : e.1 = p ∧ _ := by simpa using isAfter
        exact absurd (Option.some.inj (isOpen.symm.trans ours)) apart
      | cons first between =>
        obtain ⟨rfl, -⟩ := List.cons.inj isAfter
        refine ⟨e.1, ?_, ours⟩
        rw [isBefore]
        exact List.mem_append_right _ List.mem_cons_self
    · cases between with
      | nil =>
        obtain ⟨rfl, -⟩ : p = e.1 ∧ _ := by simpa using isAfter
        exact absurd (Option.some.inj (isOpen.symm.trans ours)) apart
      | cons first between =>
        obtain ⟨rfl, -⟩ := List.cons.inj isAfter
        have early : some p ∈ before.map fun x => some x.1 := by
          rw [isBefore]
          exact List.mem_append_right _ List.mem_cons_self
        obtain ⟨x, mem, is⟩ := List.mem_map.mp early
        obtain rfl := Option.some.inj is
        exact absurd same (skipped x mem other isOpen)
  · intro unmixed
    have inside : e ∈ Stored.entries (stored.opened.getD []) := by
      rw [whole]
      exact List.mem_append_right _ List.mem_cons_self
    obtain ⟨server', user', isOpen, text⟩ := tracks.opened e inside
    by_contra apart
    have same := (tracks.answers_iff someServer someUser inside isOpen).mp asked
    have apart : (server', user') ≠ (server, user) := by
      intro eq
      rw [isOpen, eq] at apart
      exact apart rfl
    obtain ⟨q, mem, ours⟩ := unmixed _ e.1 _ _ shown isOpen same apart
    obtain ⟨x, early, is⟩ := List.mem_map.mp mem
    obtain rfl := Option.some.inj is
    exact skipped x early _ ours rfl

theorem serves_iff_of_matching (follows : Follows n s.pool stored) (tracks : Tracks s.openFor stored) (someServer : server ≠ [])
    (someUser : user ≠ []) {e : Nat × Bytes} {s' : Stored} (first : stored.TakesFirst (Stored.lookedUp server user) e s')
    (found : returned server user s = some e.1) (unclosed : openThen server user s = s.openFor) :
    Serves server user s ↔ Unmixed server user s := by
  obtain ⟨before, after, whole, -, others⟩ := first.first
  have mem : e ∈ Stored.entries (stored.opened.getD []) := by
    rw [whole]
    exact List.mem_append_right _ List.mem_cons_self
  have inside : some e.1 ∈ openList s.pool.lists := (mem_openList follows).mpr ⟨e, mem, rfl⟩
  rw [← first_iff_unmixed follows tracks someServer someUser whole first.asked others]
  constructor
  · intro serves
    have usable := serves.usable (List.append_ne_nil_of_right_ne_nil _ (List.ne_nil_of_mem inside))
    rw [unclosed, found] at usable
    obtain ⟨p, same, either⟩ := usable
    obtain rfl := Option.some.inj same
    obtain closed | ours := either
    · obtain ⟨server', user', isOpen, -⟩ := tracks.opened e mem
      cases closed.symm.trans isOpen
    · exact ours
  · intro ours
    rw [← unclosed] at ours
    exact ⟨fun _ => ⟨e.1, found, .inr ours⟩, fun _ => ⟨e.1, found, inside, ours⟩⟩

theorem serves_iff_of_unmatched (follows : Follows n s.pool stored) (tracks : Tracks s.openFor stored) (someServer : server ≠ [])
    (someUser : user ≠ []) (unmatched : stored.Unmatched server user)
    (usable : unusedList s.pool.lists ++ openList s.pool.lists ≠ [] → ∃ p, returned server user s = some p ∧ openThen server user s p = none) :
    Serves server user s ↔ Unmixed server user s := by
  have different : ∀ p other, some p ∈ openList s.pool.lists → s.openFor p = some other →
      cstr (serverDotUser other.1 other.2) ≠ cstr (serverDotUser server user) := by
    intro p other mem isOpen
    obtain ⟨e, inside, rfl⟩ := (mem_openList follows).mp mem
    exact tracks.different someServer someUser unmatched inside isOpen
  refine iff_of_true ⟨fun some => ?_, ?_⟩ ?_
  · obtain ⟨p, same, closed⟩ := usable some
    exact ⟨p, same, .inl closed⟩
  · rintro ⟨q, mem, ours⟩
    exact absurd rfl (different q _ mem ours)
  · intro before p after other split isOpen same _
    refine absurd same (different p other ?_ isOpen)
    rw [split]
    exact List.mem_append_right _ List.mem_cons_self

theorem serves_iff (fits : n < 2 ^ 32) (inv : Inv n s) (someServer : server ≠ []) (someUser : user ≠ []) :
    Serves server user s ↔ Unmixed server user s := by
  obtain ⟨stored, follows, tracks⟩ := inv
  by_cases without : n = 0
  · subst without
    obtain ⟨-, unused, opened⟩ := follows.without
    have noUnused : unusedList s.pool.lists = [] := by rw [ConnectionPool.unusedList_any follows, unused, List.map_nil]
    have noOpen : openList s.pool.lists = [] := by
      rw [ConnectionPool.openList_entries follows, opened]
      rfl
    refine serves_iff_of_unmatched follows tracks someServer someUser (fun _ _ e mem => ?_) fun some => ?_
    · rw [opened] at mem
      cases mem
    · exact absurd (by rw [noUnused, noOpen]; rfl) some
  · obtain ⟨p, s', found, borrows⟩ := Stored.intBorrowConnection_borrows (follows.good fits without) server user
    rw [← follows.lists] at found borrows
    have is : returned server user s = p := (Prod.mk.inj found).1
    have closes : openThen server user s = close (closedOnBorrow server user s.pool.lists) s.openFor := rfl
    generalize closedOnBorrow server user s.pool.lists = closed at borrows closes
    cases borrows with
    | matching _ _ first => exact serves_iff_of_matching follows tracks someServer someUser first is (closes.trans close_nothing)
    | unused unmatched shape =>
      refine serves_iff_of_unmatched follows tracks someServer someUser unmatched fun _ => ⟨_, is, ?_⟩
      rw [closes]
      exact close_none none (tracks.unused _ (by rw [shape]; exact List.mem_cons_self))
    | other unmatched shape first =>
      refine serves_iff_of_unmatched follows tracks someServer someUser unmatched fun _ => ⟨_, is, ?_⟩
      rw [closes]
      exact if_pos rfl
    | nothing unmatched none =>
      refine serves_iff_of_unmatched follows tracks someServer someUser unmatched fun some => absurd ?_ some
      have noUnused : stored.unused = [] := List.eq_nil_iff_forall_not_mem.mpr fun p mem => by
        have here := mem_connections.mpr (.inl mem)
        rw [none] at here
        exact absurd here (Multiset.notMem_zero p)
      have noEntry : Stored.entries (stored.opened.getD []) = [] := List.eq_nil_iff_forall_not_mem.mpr fun e mem => by
        have here := mem_connections.mpr (.inr ⟨e, mem, rfl⟩)
        rw [none] at here
        exact absurd here (Multiset.notMem_zero e.1)
      rw [ConnectionPool.unusedList_any follows, ConnectionPool.openList_entries follows, noUnused, noEntry]
      rfl

end Iff

/-- In every state of a pool `IntBorrowConnection` serves a server and a user exactly if no connection of others
with the same text comes first. -/
theorem intBorrowConnection_serves_iff {n : Nat} (fits : n < 2 ^ 32) {evs : List Event} {s : State}
    (done : Runs.run step evs (initial n) = .ok s) {server user : Bytes} (someServer : server ≠ []) (someUser : user ≠ []) :
    Serves server user s ↔ Unmixed server user s := serves_iff fits (run_inv fits done) someServer someUser

def opens (server user : Bytes) : List Event :=
  [.call server user, .acquire 0, .borrow 0, .store 0 (some (server, user)) (ascii "1"), .release 0]

theorem intBorrowConnection_serves_iff_opens : ∃ s, Runs.run step (opens (ascii "db") (ascii "u")) (initial 1) = .ok s ∧
    (Serves (ascii "db") (ascii "u") s ↔ Unmixed (ascii "db") (ascii "u") s) :=
  ⟨_, rfl, intBorrowConnection_serves_iff (by decide) (rfl : Runs.run step (opens (ascii "db") (ascii "u")) (initial 1) = _)
    (by decide) (by decide)⟩

/-- The connection that was opened for the user `c` of `a.b` is given to the user `b.c` of `a`, open. -/
theorem intBorrowConnection_mixes : ∃ s, Runs.run step (opens (ascii "a.b") (ascii "c")) (initial 1) = .ok s ∧
    returned (ascii "a") (ascii "b.c") s = some 0 ∧ openThen (ascii "a") (ascii "b.c") s 0 = some (ascii "a.b", ascii "c") ∧
    ¬ Serves (ascii "a") (ascii "b.c") s := by
  refine ⟨_, rfl, rfl, rfl, fun serves => ?_⟩
  obtain ⟨p, same, wrong⟩ := serves.usable (by decide)
  obtain rfl : 0 = p := Option.some.inj same
  revert wrong
  decide

end Coast.Oracle.OpenFor
