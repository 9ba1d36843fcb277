import Coast.Lib.Pool
import Coast.Lib.Runs
import Mathlib.Algebra.Order.BigOperators.Group.List
import Mathlib.Algebra.Order.Group.Nat
import Mathlib.Logic.Function.Basic

/-!
# The LDAP connection manager

One pool of connections: the entries of `fLdapConnectionStore` and of `fFreeList` under one pool id. The
pools share the two mutexes and nothing else. A step is one section under a mutex, or a wait for the
semaphore; `ReleaseHandleInfo` holds `fLdapConnectionStoreMutex` over two steps.
-/

namespace Coast.Ldap

open Pool

/-- A connection that is not open is `none`. -/
abbrev Handle := Option Nat

/-- `Mutex`, which a thread may lock again. -/
structure SlotMutex where
  fLocker : Option Nat
  count : Nat
  deriving DecidableEq, Repr

namespace SlotMutex

def tryLock (me : Nat) (mutex : SlotMutex) : Option SlotMutex :=
  match mutex.fLocker with
  | none => some ⟨some me, 1⟩
  | some locker => if locker = me then some ⟨some me, mutex.count + 1⟩ else none

def unlock (me : Nat) (mutex : SlotMutex) : SlotMutex :=
  if mutex.fLocker = some me then
    if mutex.count - 1 = 0 then ⟨none, 0⟩ else ⟨some me, mutex.count - 1⟩
  else mutex

end SlotMutex

structure Store where
  sema : Option Nat
  size : Nat
  /-- The thread that has an entry; `none` is `-1`, also where the list does not reach. -/
  freeList : Nat → Option Nat
  mutexes : Nat → Option SlotMutex
  handles : Nat → Handle
  /-- The thread that keeps `fLdapConnectionStoreMutex` over several steps. -/
  storeMutex : Option Nat

namespace Store

variable (s : Store)

def lookupSema (maxConnections : Nat) : Store :=
  match s.sema with
  | none => { s with sema := some maxConnections, size := maxConnections }
  | some _ => s

def getUnusedFreeListEntry (maxConnections : Nat) : Option Nat :=
  (List.range maxConnections).find? fun l => s.freeList l = none

def getThisThreadsFreeListEntry (myId maxConnections : Nat) : Option Nat :=
  (List.range maxConnections).find? fun l => s.freeList l = some myId

def setEntry (l : Nat) (entry : Option Nat) : Store := { s with freeList := Function.update s.freeList l entry }

def setMutex (l : Nat) (mutex : SlotMutex) : Store := { s with mutexes := Function.update s.mutexes l (some mutex) }

def setHandle (l : Nat) (handle : Handle) : Store := { s with handles := Function.update s.handles l handle }

end Store

inductive Use where
  /-- `GetLdapConnection` with `isLocked`. -/
  | reget
  /-- `ReGetHandleInfo` in `SetLdapConnection`; `disconnects` is what `Disconnect` of an old handle returns. -/
  | set (handle : Handle) (disconnects : Bool)
  /-- `SetHandleInfo` in `SetLdapConnection`, which will return `ret`. -/
  | store (handle : Handle) (ret : Bool)
  deriving DecidableEq, Repr

inductive Place where
  /-- Between `ReleaseHandleInfo` and `GetLdapConnection`. -/
  | outside
  | lookupSema (maxConnections : Nat)
  | acquire (maxConnections : Nat)
  | getUnusedFreeListEntry (maxConnections : Nat)
  /-- The section of `GetAndLockSlot`. -/
  | lockSlot (l : Nat)
  | getHandleInfo (l : Nat)
  /-- Between two calls, before `ReleaseHandleInfo`. -/
  | holding
  | getThisThreadsFreeListEntry (u : Use) (maxConnections : Nat)
  /-- The section of `ReGetLockedSlot`. -/
  | reGetLockedSlot (u : Use) (maxConnections l : Nat)
  /-- The section of `ReGetHandleInfo` and `SetHandleInfo`. -/
  | use (u : Use) (maxConnections l : Nat)
  | release (maxConnections : Nat)
  | unlockSlot (l : Nat)
  | freeEntry (l : Nat)
  deriving DecidableEq, Repr

structure Client where
  place : Place
  /-- Between `Acquire` and the end of `ReleaseHandleInfo`. -/
  acquired : Bool
  slot : Option Nat
  /-- What it has stored with `SetLdapConnection` since then. -/
  stored : Option Handle
  /-- It has got `-1` for an entry or a slot. -/
  missed : Bool
  deriving DecidableEq, Repr

def Client.new : Client where
  place := .outside
  acquired := false
  slot := none
  stored := none
  missed := false

inductive Result where
  | getLdapConnection (handle : Handle)
  | setLdapConnection (ret : Bool)
  | releaseHandleInfo (ret : Bool)
  deriving DecidableEq, Repr

def Use.fails : Use → Result
  | reget => .getLdapConnection none
  | set _ _ => .setLdapConnection false
  | store _ ret => .setLdapConnection ret

structure State where
  store : Store
  clients : List Client
  returned : List (Nat × Result)

inductive Fault where
  | assertion
  | notEnabled
  deriving DecidableEq, Repr

def Use.perform (maxConnections l : Nat) (s : Store) (c : Client) : Use → Store × Client × Option Result
  | reget => (s, { c with place := .holding }, some (.getLdapConnection (s.handles l)))
  | set handle disconnects =>
    (s, { c with place := .getThisThreadsFreeListEntry (.store handle ((s.handles l).isNone || disconnects)) maxConnections }, none)
  | store handle ret => (s.setHandle l handle, { c with place := .holding, stored := some handle }, some (.setLdapConnection ret))

/-- The next operation of the thread `me`. -/
def Client.next (me : Nat) (s : Store) (c : Client) : Except Fault (Store × Client × Option Result) :=
  match c.place with
  | .outside | .holding => .error .notEnabled
  | .lookupSema maxConnections =>
    if s.storeMutex.isSome then .error .notEnabled
    else .ok (s.lookupSema maxConnections, { c with place := .acquire maxConnections }, none)
  | .acquire maxConnections =>
    match s.sema with
    | some (permits + 1) =>
      .ok ({ s with sema := some permits }, { c with place := .getUnusedFreeListEntry maxConnections, acquired := true }, none)
    | _ => .error .notEnabled
  | .getUnusedFreeListEntry maxConnections =>
    match s.getUnusedFreeListEntry maxConnections with
    | some l => .ok (s.setEntry l (some me), { c with place := .lockSlot l, slot := some l }, none)
    | none => .ok (s, { c with place := .holding, missed := true }, some (.getLdapConnection none))
  | .lockSlot l =>
    if s.storeMutex.isSome then .error .notEnabled
    else
      match s.mutexes l with
      | none => .ok (s.setMutex l ⟨some me, 1⟩, { c with place := .getHandleInfo l }, none)
      | some mutex =>
        match mutex.tryLock me with
        | some mutex => .ok (s.setMutex l mutex, { c with place := .getHandleInfo l }, none)
        | none => .ok (s, { c with place := .holding, missed := true }, some (.getLdapConnection none))
  | .getHandleInfo l =>
    if s.storeMutex.isSome then .error .notEnabled
    else .ok (s, { c with place := .holding }, some (.getLdapConnection (s.handles l)))
  | .getThisThreadsFreeListEntry u maxConnections =>
    match s.getThisThreadsFreeListEntry me maxConnections with
    | some l => .ok (s, { c with place := .reGetLockedSlot u maxConnections l }, none)
    | none => .ok (s, { c with place := .holding, missed := true }, some u.fails)
  | .reGetLockedSlot u maxConnections l =>
    if s.storeMutex.isSome then .error .notEnabled
    else if (s.mutexes l).bind SlotMutex.fLocker = some me then .ok (s, { c with place := .use u maxConnections l }, none)
    else .error .assertion
  | .use u maxConnections l => if s.storeMutex.isSome then .error .notEnabled else .ok (u.perform maxConnections l s c)
  | .release maxConnections =>
    match s.getThisThreadsFreeListEntry me maxConnections with
    | some l => .ok (s, { c with place := .unlockSlot l }, none)
    | none => .ok (s, { c with place := .outside, acquired := false, missed := true }, some (.releaseHandleInfo false))
  | .unlockSlot l =>
    if s.storeMutex.isSome then .error .notEnabled
    else
      match s.mutexes l with
      | some mutex => .ok ({ s.setMutex l (mutex.unlock me) with storeMutex := some me }, { c with place := .freeEntry l }, none)
      | none => .ok ({ s with storeMutex := some me }, { c with place := .freeEntry l }, none)
  | .freeEntry l =>
    .ok ({ s.setEntry l none with sema := s.sema.map (· + 1), storeMutex := none },
      { c with place := .outside, acquired := false, slot := none, stored := none }, some (.releaseHandleInfo true))

inductive Event where
  /-- `GetLdapConnection(false, ..)`. -/
  | getLdapConnection (me maxConnections : Nat)
  /-- `GetLdapConnection(true, ..)`. -/
  | reGetLdapConnection (me maxConnections : Nat)
  | setLdapConnection (me maxConnections : Nat) (handle : Handle) (disconnects : Bool)
  | releaseHandleInfo (me maxConnections : Nat)
  | advance (me : Nat)
  deriving DecidableEq, Repr

def limit (fDefMaxConnections maxConnections : Nat) : Nat := if maxConnections ≠ 0 then maxConnections else fDefMaxConnections

def call (σ : State) (me : Nat) (place next : Place) : Except Fault State :=
  match σ.clients[me]? with
  | some c => if c.place = place then .ok { σ with clients := σ.clients.set me { c with place := next } } else .error .notEnabled
  | none => .error .notEnabled

def step (fDefMaxConnections : Nat) : Event → State → Except Fault State
  | .getLdapConnection me maxConnections, σ => call σ me .outside (.lookupSema (limit fDefMaxConnections maxConnections))
  | .reGetLdapConnection me maxConnections, σ =>
    call σ me .holding (.getThisThreadsFreeListEntry .reget (limit fDefMaxConnections maxConnections))
  | .setLdapConnection me maxConnections handle disconnects, σ =>
    call σ me .holding (.getThisThreadsFreeListEntry (.set handle disconnects) (limit fDefMaxConnections maxConnections))
  | .releaseHandleInfo me maxConnections, σ => call σ me .holding (.release (limit fDefMaxConnections maxConnections))
  | .advance me, σ =>
    match σ.clients[me]? with
    | none => .error .notEnabled
    | some c =>
      (c.next me σ.store).map fun (s, c, result) => ⟨s, σ.clients.set me c, σ.returned ++ (result.map (me, ·)).toList⟩

def State.new (threads : Nat) : State where
  store :=
    { sema := none
      size := 0
      freeList := fun _ => none
      mutexes := fun _ => none
      handles := fun _ => none
      storeMutex := none }
  clients := List.replicate threads .new
  returned := []

abbrev run (fDefMaxConnections : Nat) : List Event → State → Except Fault State := Runs.run (step fDefMaxConnections)

/-! ### Slots -/

/-- No slot is held by two threads, nobody has missed an entry, who has stored a handle finds it in its own
slot, and the permits and the threads between `Acquire` and `Release` are the size of the pool. -/
structure State.Sound (σ : State) : Prop where
  apart : ∀ {t t' : Nat} {c c' : Client} {l : Nat}, σ.clients[t]? = some c → σ.clients[t']? = some c' → c.slot = some l → c'.slot = some l → t = t'
  found : ∀ c ∈ σ.clients, c.missed = false
  stored : ∀ c ∈ σ.clients, ∀ handle, c.stored = some handle → ∃ l, c.slot = some l ∧ σ.store.handles l = handle
  permits : ∀ permits, σ.store.sema = some permits →
    permits + total (fun c : Client => if c.acquired then 1 else 0) σ.clients = σ.store.size

def Reaches (σ : State) (c : Client) : Prop :=
  match c.place with
  | .getUnusedFreeListEntry maxConnections => ∃ l < maxConnections, ∀ c' ∈ σ.clients, c'.slot ≠ some l
  | .getThisThreadsFreeListEntry _ maxConnections => ∃ l < maxConnections, c.slot = some l
  | .release maxConnections => ∃ l < maxConnections, c.slot = some l
  | _ => True

def InReach : Event → State → Prop
  | .advance me, σ => ∀ c ∈ σ.clients[me]?, Reaches σ c
  | _, _ => True

namespace Store

variable (s : Store)

def Unlocked (l : Nat) : Prop := s.mutexes l = none ∨ s.mutexes l = some ⟨none, 0⟩

def LockedBy (t l : Nat) : Prop := s.mutexes l = some ⟨some t, 1⟩

end Store

def Place.Has (s : Store) (t : Nat) (acquired : Bool) (slot : Option Nat) : Place → Prop
  | outside | lookupSema _ => acquired = false ∧ slot = none
  | acquire _ => acquired = false ∧ slot = none ∧ s.sema ≠ none
  | getUnusedFreeListEntry _ => acquired = true ∧ slot = none
  | lockSlot l | freeEntry l => acquired = true ∧ slot = some l ∧ s.Unlocked l
  | getHandleInfo l | reGetLockedSlot _ _ l | use _ _ l | unlockSlot l => acquired = true ∧ slot = some l ∧ s.LockedBy t l
  | holding | getThisThreadsFreeListEntry _ _ | release _ => acquired = true ∧ ∃ l, slot = some l ∧ s.LockedBy t l

structure State.Inv (σ : State) : Prop where
  entry : ∀ {t : Nat} {c : Client}, σ.clients[t]? = some c → ∀ {l}, c.slot = some l → σ.store.freeList l = some t
  free : ∀ {l}, (∀ c ∈ σ.clients, c.slot ≠ some l) → σ.store.freeList l = none ∧ σ.store.Unlocked l
  has : ∀ {t : Nat} {c : Client}, σ.clients[t]? = some c → c.place.Has σ.store t c.acquired c.slot
  found : ∀ c ∈ σ.clients, c.missed = false
  stored : ∀ c ∈ σ.clients, ∀ handle, c.stored = some handle → ∃ l, c.slot = some l ∧ σ.store.handles l = handle
  permits : ∀ permits, σ.store.sema = some permits →
    permits + total (fun c : Client => if c.acquired then 1 else 0) σ.clients = σ.store.size
  fresh : σ.store.sema = none → ∀ c ∈ σ.clients, c.acquired = false

theorem State.Inv.sound {σ : State} (inv : σ.Inv) : σ.Sound := by
  refine ⟨?_, inv.found, inv.stored, inv.permits⟩
  intro t t' c c' l here there mine yours
  have taken := inv.entry here mine
  rw [inv.entry there yours] at taken
  exact (Option.some.inj taken).symm

/-! ### Steps of one thread -/

section Steps

variable {σ : State} {s s' : Store} {me t : Nat} {c c' d : Client}

theorem Place.Has.frame {acquired : Bool} {slot : Option Nat} {place : Place} (has : place.Has s t acquired slot)
    (mutexes : ∀ l, slot = some l → s'.mutexes l = s.mutexes l) (sema : s.sema ≠ none → s'.sema ≠ none) :
    place.Has s' t acquired slot := by
  cases place with
  | outside => exact has
  | lookupSema => exact has
  | acquire => exact ⟨has.1, has.2.1, sema has.2.2⟩
  | getUnusedFreeListEntry => exact has
  | lockSlot l | freeEntry l =>
    obtain ⟨acquired, mine, unlocked⟩ := has
    refine ⟨acquired, mine, ?_⟩
    unfold Store.Unlocked
    rwa [mutexes l mine]
  | getHandleInfo l | reGetLockedSlot _ _ l | use _ _ l | unlockSlot l =>
    obtain ⟨acquired, mine, locked⟩ := has
    exact ⟨acquired, mine, (mutexes l mine).trans locked⟩
  | holding | getThisThreadsFreeListEntry | release =>
    obtain ⟨acquired, l, mine, locked⟩ := has
    exact ⟨acquired, l, mine, (mutexes l mine).trans locked⟩

theorem State.Inv.moves (inv : σ.Inv) (here : σ.clients[me]? = some c) (s' : Store) (c' : Client)
    (takes : ∀ l, c'.slot = some l → s'.freeList l = some me ∧ (c.slot = some l ∨ ∀ d ∈ σ.clients, d.slot ≠ some l))
    (leaves : ∀ l, c.slot = some l → c'.slot ≠ some l → s'.freeList l = none ∧ s'.Unlocked l)
    (frame : ∀ l, c.slot ≠ some l → c'.slot ≠ some l →
      s'.freeList l = σ.store.freeList l ∧ s'.mutexes l = σ.store.mutexes l ∧ s'.handles l = σ.store.handles l)
    (has : c'.place.Has s' me c'.acquired c'.slot) (found : c'.missed = false)
    (stored : ∀ handle, c'.stored = some handle → ∃ l, c'.slot = some l ∧ s'.handles l = handle)
    (sema : σ.store.sema ≠ none → s'.sema ≠ none)
    (permits : ∀ permits, s'.sema = some permits →
      permits + total (fun c : Client => if c.acquired then 1 else 0) (σ.clients.set me c') = s'.size)
    (fresh : s'.sema = none → c'.acquired = false) (returned : List (Nat × Result)) :
    (⟨s', σ.clients.set me c', returned⟩ : State).Inv := by
  -- the slots of the other threads are not touched
  have others : ∀ {t d}, t ≠ me ∧ σ.clients[t]? = some d → ∀ {l}, d.slot = some l → c.slot ≠ some l ∧ c'.slot ≠ some l := by
    rintro t d ⟨other, there⟩ l yours
    have entry := inv.entry there yours
    have before : c.slot ≠ some l := by
      intro mine
      rw [inv.entry here mine] at entry
      exact other (Option.some.inj entry).symm
    refine ⟨before, fun mine => ?_⟩
    exact (takes l mine).2.elim before fun nobody => nobody d (List.mem_of_getElem? there) yours
  constructor
  · intro t d there l yours
    rcases (getElem?_set_iff here c').mp there with ⟨rfl, rfl⟩ | other
    · exact (takes l yours).1
    · obtain ⟨before, after⟩ := others other yours
      exact (frame l before after).1.trans (inv.entry other.2 yours)
  · intro l nobody
    have notMine : c'.slot ≠ some l := nobody c' ((mem_set_iff here c').mpr (.inl rfl))
    by_cases mine : c.slot = some l
    · exact leaves l mine notMine
    · have before : ∀ d ∈ σ.clients, d.slot ≠ some l := by
        intro d member
        obtain ⟨t, there⟩ := List.mem_iff_getElem?.mp member
        by_cases same : t = me
        · rw [same, here] at there
          rwa [← Option.some.inj there]
        · exact nobody d ((mem_set_iff here c').mpr (.inr ⟨t, same, there⟩))
      obtain ⟨entries, mutexes, -⟩ := frame l mine notMine
      obtain ⟨none, unlocked⟩ := inv.free before
      refine ⟨entries.trans none, ?_⟩
      unfold Store.Unlocked
      rwa [mutexes]
  · intro t d there
    rcases (getElem?_set_iff here c').mp there with ⟨rfl, rfl⟩ | other
    · exact has
    · refine (inv.has other.2).frame (fun l yours => ?_) sema
      obtain ⟨before, after⟩ := others other yours
      exact (frame l before after).2.1
  · intro d member
    rcases (mem_set_iff here c').mp member with rfl | ⟨t, -, there⟩
    · exact found
    · exact inv.found d (List.mem_of_getElem? there)
  · intro d member handle kept
    rcases (mem_set_iff here c').mp member with rfl | ⟨t, other⟩
    · exact stored handle kept
    · obtain ⟨l, yours, is⟩ := inv.stored d (List.mem_of_getElem? other.2) handle kept
      obtain ⟨before, after⟩ := others other yours
      exact ⟨l, yours, (frame l before after).2.2.trans is⟩
  · exact permits
  · intro none d member
    rcases (mem_set_iff here c').mp member with rfl | ⟨t, -, there⟩
    · exact fresh none
    · exact inv.fresh (not_not.mp (mt sema (not_not.mpr none))) d (List.mem_of_getElem? there)

theorem State.Inv.works (inv : σ.Inv) (here : σ.clients[me]? = some c) (s' : Store) (c' : Client) (slot : c'.slot = c.slot)
    (acquired : c'.acquired = c.acquired) (entries : s'.freeList = σ.store.freeList) (sema : s'.sema = σ.store.sema)
    (size : s'.size = σ.store.size)
    (frame : ∀ l, c.slot ≠ some l → s'.mutexes l = σ.store.mutexes l ∧ s'.handles l = σ.store.handles l)
    (has : c'.place.Has s' me c'.acquired c'.slot) (found : c'.missed = false)
    (stored : ∀ handle, c'.stored = some handle → ∃ l, c'.slot = some l ∧ s'.handles l = handle) (returned : List (Nat × Result)) :
    (⟨s', σ.clients.set me c', returned⟩ : State).Inv := by
  have totals := total_replace (fun c : Client => if c.acquired then 1 else 0) here (some c')
  apply inv.moves here
  case takes =>
    intro l mine
    rw [slot] at mine
    exact ⟨entries ▸ inv.entry here mine, .inl mine⟩
  case leaves => exact fun l mine gone => absurd (slot.trans mine) gone
  case frame => exact fun l mine _ => ⟨congrFun entries l, frame l mine⟩
  case has => exact has
  case found => exact found
  case stored => exact stored
  case sema =>
    rw [sema]
    exact id
  case permits =>
    intro permits is
    rw [sema] at is
    rw [size, ← inv.permits permits is]
    simp only [Option.map_some, Option.getD_some, acquired] at totals
    exact congrArg (permits + ·) (Nat.add_right_cancel totals)
  case fresh =>
    intro none
    rw [acquired]
    exact inv.fresh (sema ▸ none) c (List.mem_of_getElem? here)

theorem State.Inv.stays (inv : σ.Inv) (here : σ.clients[me]? = some c) {place : Place}
    (has : place.Has σ.store me c.acquired c.slot) (returned : List (Nat × Result)) :
    (⟨σ.store, σ.clients.set me { c with place := place }, returned⟩ : State).Inv :=
  have mem := List.mem_of_getElem? here
  inv.works here σ.store { c with place := place } rfl rfl rfl rfl rfl (fun _ _ => ⟨rfl, rfl⟩) has (inv.found c mem)
    (inv.stored c mem) returned

theorem State.Inv.own (inv : σ.Inv) (here : σ.clients[me]? = some c) {l : Nat} (entry : σ.store.freeList l = some me) :
    c.slot = some l := by
  by_contra notMine
  have nobody : ∀ d ∈ σ.clients, d.slot ≠ some l := by
    intro d member yours
    obtain ⟨t, there⟩ := List.mem_iff_getElem?.mp member
    have same := Option.some.inj (entry.symm.trans (inv.entry there yours))
    rw [← same, here] at there
    exact notMine (Option.some.inj there ▸ yours)
  rw [(inv.free nobody).1] at entry
  cases entry

theorem getThisThreadsFreeListEntry_eq (inv : σ.Inv) (here : σ.clients[me]? = some c) {l : Nat} (mine : c.slot = some l)
    (maxConnections : Nat) :
    σ.store.getThisThreadsFreeListEntry me maxConnections = if l < maxConnections then some l else none := by
  have only : ∀ k, σ.store.freeList k = some me → k = l := fun k entry => Option.some.inj ((inv.own here entry).symm.trans mine)
  unfold Store.getThisThreadsFreeListEntry
  split
  · rename_i reached
    cases found : (List.range maxConnections).find? fun k => σ.store.freeList k = some me with
    | none =>
      have missed := List.find?_eq_none.mp found l (List.mem_range.mpr reached)
      exact absurd (decide_eq_true (inv.entry here mine)) missed
    | some k =>
      have entry := List.find?_some found
      rw [only k (of_decide_eq_true entry)]
  · rename_i beyond
    refine List.find?_eq_none.mpr fun k reached entry => beyond ?_
    rw [← only k (of_decide_eq_true entry)]
    exact List.mem_range.mp reached

theorem getUnusedFreeListEntry_some (inv : σ.Inv) {l maxConnections : Nat}
    (found : σ.store.getUnusedFreeListEntry maxConnections = some l) : ∀ d ∈ σ.clients, d.slot ≠ some l := by
  intro d member yours
  obtain ⟨t, there⟩ := List.mem_iff_getElem?.mp member
  unfold Store.getUnusedFreeListEntry at found
  have free := List.find?_some found
  rw [inv.entry there yours] at free
  cases free

theorem getUnusedFreeListEntry_none (inv : σ.Inv) {maxConnections : Nat} :
    σ.store.getUnusedFreeListEntry maxConnections = none ↔ ¬ ∃ l < maxConnections, ∀ d ∈ σ.clients, d.slot ≠ some l := by
  unfold Store.getUnusedFreeListEntry
  rw [List.find?_eq_none]
  constructor
  · rintro none ⟨l, reached, nobody⟩
    exact none l (List.mem_range.mpr reached) (decide_eq_true (inv.free nobody).1)
  · intro all l reached free
    refine all ⟨l, List.mem_range.mp reached, fun d member yours => ?_⟩
    obtain ⟨t, there⟩ := List.mem_iff_getElem?.mp member
    have free := of_decide_eq_true free
    rw [inv.entry there yours] at free
    cases free

theorem State.Inv.locks (inv : σ.Inv) {l : Nat} {kept : Option Handle} {missed : Bool}
    (here : σ.clients[me]? = some ⟨.lockSlot l, true, some l, kept, missed⟩) (found : missed = false)
    (stored : ∀ handle, kept = some handle → ∃ k, some l = some k ∧ σ.store.handles k = handle) (returned : List (Nat × Result)) :
    (⟨σ.store.setMutex l ⟨some me, 1⟩, σ.clients.set me ⟨.getHandleInfo l, true, some l, kept, missed⟩, returned⟩ : State).Inv := by
  apply inv.works here
  case slot => rfl
  case acquired => rfl
  case entries => rfl
  case sema => rfl
  case size => rfl
  case frame => exact fun k other => ⟨Function.update_of_ne (fun same => other (congrArg some same.symm)) .., rfl⟩
  case has => exact ⟨rfl, rfl, Function.update_self ..⟩
  case found => exact found
  case stored => exact stored

theorem State.Inv.creates (inv : σ.Inv) {maxConnections : Nat} {kept : Option Handle} {missed : Bool}
    (here : σ.clients[me]? = some ⟨.lookupSema maxConnections, false, none, kept, missed⟩) (returned : List (Nat × Result)) :
    (⟨σ.store.lookupSema maxConnections, σ.clients.set me ⟨.acquire maxConnections, false, none, kept, missed⟩, returned⟩ : State).Inv := by
  have mem := List.mem_of_getElem? here
  have found := inv.found _ mem
  have stored := inv.stored _ mem
  unfold Store.lookupSema
  split
  · rename_i uncreated
    have totals := total_replace (fun c : Client => if c.acquired then 1 else 0) here
      (some ⟨.acquire maxConnections, false, none, kept, missed⟩)
    apply inv.moves here
    case takes => rintro _ ⟨⟩
    case leaves => rintro _ ⟨⟩
    case frame => exact fun _ _ _ => ⟨rfl, rfl, rfl⟩
    case has => exact ⟨rfl, rfl, Option.some_ne_none _⟩
    case found => exact found
    case stored => exact stored
    case sema => rintro _ ⟨⟩
    case permits =>
      rintro permits ⟨⟩
      have nobody : total (fun c : Client => if c.acquired then 1 else 0) σ.clients = 0 := by
        by_contra some
        obtain ⟨d, member, acquired⟩ := exists_of_total_ne_zero some
        rw [inv.fresh uncreated d member] at acquired
        exact acquired rfl
      simp only [Option.map_some, Option.getD_some, Bool.false_eq_true, if_false, replace] at totals
      dsimp only
      omega
    case fresh => rintro ⟨⟩
  · rename_i permits is
    refine inv.stays here ?_ returned
    exact ⟨rfl, rfl, is ▸ Option.some_ne_none _⟩

theorem State.Inv.acquires (inv : σ.Inv) {maxConnections permits : Nat} {kept : Option Handle} {missed : Bool}
    (here : σ.clients[me]? = some ⟨.acquire maxConnections, false, none, kept, missed⟩) (is : σ.store.sema = some (permits + 1))
    (returned : List (Nat × Result)) :
    (⟨{ σ.store with sema := some permits }, σ.clients.set me ⟨.getUnusedFreeListEntry maxConnections, true, none, kept, missed⟩,
      returned⟩ : State).Inv := by
  have mem := List.mem_of_getElem? here
  have found := inv.found _ mem
  have stored := inv.stored _ mem
  have totals := total_replace (fun c : Client => if c.acquired then 1 else 0) here
    (some ⟨.getUnusedFreeListEntry maxConnections, true, none, kept, missed⟩)
  apply inv.moves here
  case takes => rintro _ ⟨⟩
  case leaves => rintro _ ⟨⟩
  case frame => exact fun _ _ _ => ⟨rfl, rfl, rfl⟩
  case has => exact ⟨rfl, rfl⟩
  case found => exact found
  case stored => exact stored
  case sema => rintro _ ⟨⟩
  case permits =>
    rintro left ⟨⟩
    have sum := inv.permits _ is
    simp only [Option.map_some, Option.getD_some, if_true, Bool.false_eq_true, if_false, replace] at totals
    dsimp only
    omega
  case fresh => rintro ⟨⟩

theorem State.Inv.takesEntry (inv : σ.Inv) {maxConnections l : Nat} {kept : Option Handle} {missed : Bool}
    (here : σ.clients[me]? = some ⟨.getUnusedFreeListEntry maxConnections, true, none, kept, missed⟩)
    (nobody : ∀ d ∈ σ.clients, d.slot ≠ some l) (returned : List (Nat × Result)) :
    (⟨σ.store.setEntry l (some me), σ.clients.set me ⟨.lockSlot l, true, some l, kept, missed⟩, returned⟩ : State).Inv := by
  have mem := List.mem_of_getElem? here
  have found := inv.found _ mem
  have stored := inv.stored _ mem
  have totals := total_replace (fun c : Client => if c.acquired then 1 else 0) here (some ⟨.lockSlot l, true, some l, kept, missed⟩)
  apply inv.moves here
  case takes =>
    rintro _ ⟨⟩
    exact ⟨Function.update_self .., .inr nobody⟩
  case leaves => rintro _ ⟨⟩
  case frame =>
    intro k _ other
    exact ⟨Function.update_of_ne (fun same => other (congrArg some same.symm)) .., rfl, rfl⟩
  case has => exact ⟨rfl, rfl, (inv.free nobody).2⟩
  case found => exact found
  case stored =>
    intro handle is
    obtain ⟨_, ⟨⟩, _⟩ := stored handle is
  case sema => exact id
  case permits =>
    intro permits is
    exact (congrArg (permits + ·) (Nat.add_right_cancel totals)).trans (inv.permits permits is)
  case fresh =>
    intro none
    cases inv.fresh none _ mem

theorem State.Inv.stores (inv : σ.Inv) {maxConnections l : Nat} {handle : Handle} {ret missed : Bool} {kept : Option Handle}
    (here : σ.clients[me]? = some ⟨.use (.store handle ret) maxConnections l, true, some l, kept, missed⟩)
    (locked : σ.store.LockedBy me l) (returned : List (Nat × Result)) :
    (⟨σ.store.setHandle l handle, σ.clients.set me ⟨.holding, true, some l, some handle, missed⟩, returned⟩ : State).Inv := by
  have found := inv.found _ (List.mem_of_getElem? here)
  apply inv.works here
  case slot => rfl
  case acquired => rfl
  case entries => rfl
  case sema => rfl
  case size => rfl
  case frame => exact fun k other => ⟨rfl, Function.update_of_ne (fun same => other (congrArg some same.symm)) ..⟩
  case has => exact ⟨rfl, l, rfl, locked⟩
  case found => exact found
  case stored =>
    rintro _ ⟨⟩
    exact ⟨l, rfl, Function.update_self ..⟩

theorem State.Inv.unlocks (inv : σ.Inv) {l : Nat} {kept : Option Handle} {missed : Bool}
    (here : σ.clients[me]? = some ⟨.unlockSlot l, true, some l, kept, missed⟩) (returned : List (Nat × Result)) :
    (⟨{ σ.store.setMutex l (SlotMutex.unlock me ⟨some me, 1⟩) with storeMutex := some me },
      σ.clients.set me ⟨.freeEntry l, true, some l, kept, missed⟩, returned⟩ : State).Inv := by
  have mem := List.mem_of_getElem? here
  have found := inv.found _ mem
  have stored := inv.stored _ mem
  apply inv.works here
  case slot => rfl
  case acquired => rfl
  case entries => rfl
  case sema => rfl
  case size => rfl
  case frame => exact fun k other => ⟨Function.update_of_ne (fun same => other (congrArg some same.symm)) .., rfl⟩
  case has =>
    refine ⟨rfl, rfl, .inr ((Function.update_self ..).trans ?_)⟩
    simp [SlotMutex.unlock]
  case found => exact found
  case stored => exact stored

theorem State.Inv.freesEntry (inv : σ.Inv) {l : Nat} {kept : Option Handle} {missed : Bool}
    (here : σ.clients[me]? = some ⟨.freeEntry l, true, some l, kept, missed⟩) (unlocked : σ.store.Unlocked l)
    (returned : List (Nat × Result)) :
    (⟨{ σ.store.setEntry l none with sema := σ.store.sema.map (· + 1), storeMutex := none },
      σ.clients.set me ⟨.outside, false, none, none, missed⟩, returned⟩ : State).Inv := by
  have found := inv.found _ (List.mem_of_getElem? here)
  have totals := total_replace (fun c : Client => if c.acquired then 1 else 0) here (some ⟨.outside, false, none, none, missed⟩)
  apply inv.moves here
  case takes => rintro _ ⟨⟩
  case leaves =>
    rintro _ ⟨⟩ -
    exact ⟨Function.update_self .., unlocked⟩
  case frame =>
    intro k other _
    exact ⟨Function.update_of_ne (fun same => other (congrArg some same.symm)) .., rfl, rfl⟩
  case has => exact ⟨rfl, rfl⟩
  case found => exact found
  case stored => rintro _ ⟨⟩
  case sema => exact fun created none => created (Option.map_eq_none_iff.mp none)
  case permits =>
    intro permits is
    obtain ⟨before, isBefore, rfl⟩ := Option.map_eq_some_iff.mp is
    have sum := inv.permits before isBefore
    simp only [Option.map_some, Option.getD_some, if_true, Bool.false_eq_true, if_false, replace] at totals
    dsimp only [Store.setEntry]
    omega
  case fresh => exact fun _ => rfl

theorem next_inv (inv : σ.Inv) (here : σ.clients[me]? = some c) (reaches : Reaches σ c) {result : Option Result}
    (moved : c.next me σ.store = .ok (s', c', result)) (returned : List (Nat × Result)) :
    (⟨s', σ.clients.set me c', returned⟩ : State).Inv := by
  have mem := List.mem_of_getElem? here
  have has := inv.has here
  rcases c with ⟨place, acquired, slot, kept, missed⟩
  cases place with
  | outside => cases moved
  | holding => cases moved
  | lookupSema maxConnections =>
    obtain ⟨rfl, rfl⟩ := has
    dsimp only [Client.next] at moved
    split at moved <;> cases moved
    exact inv.creates here returned
  | acquire maxConnections =>
    obtain ⟨rfl, rfl, -⟩ := has
    dsimp only [Client.next] at moved
    split at moved
    · rename_i permits is
      cases moved
      exact inv.acquires here is returned
    · cases moved
  | getUnusedFreeListEntry maxConnections =>
    obtain ⟨rfl, rfl⟩ := has
    dsimp only [Client.next] at moved
    split at moved
    · rename_i l free
      cases moved
      exact inv.takesEntry here (getUnusedFreeListEntry_some inv free) returned
    · rename_i none
      exact absurd reaches ((getUnusedFreeListEntry_none inv).mp none)
  | lockSlot l =>
    obtain ⟨rfl, rfl, unlocked⟩ := has
    dsimp only [Client.next] at moved
    split at moved
    · cases moved
    · rcases unlocked with is | is <;>
      · rw [is] at moved
        cases moved
        exact inv.locks here (inv.found _ mem) (inv.stored _ mem) returned
  | getHandleInfo l =>
    obtain ⟨rfl, rfl, locked⟩ := has
    dsimp only [Client.next] at moved
    split at moved
    · cases moved
    · cases moved
      refine inv.stays here ?_ returned
      exact ⟨rfl, l, rfl, locked⟩
  | getThisThreadsFreeListEntry _ maxConnections | release maxConnections =>
    obtain ⟨rfl, l, rfl, locked⟩ := has
    obtain ⟨_, reached, ⟨⟩⟩ := reaches
    dsimp only [Client.next] at moved
    rw [getThisThreadsFreeListEntry_eq inv here rfl, if_pos reached] at moved
    cases moved
    refine inv.stays here ?_ returned
    exact ⟨rfl, rfl, locked⟩
  | reGetLockedSlot u maxConnections l =>
    obtain ⟨rfl, rfl, locked⟩ := has
    dsimp only [Client.next] at moved
    split at moved
    · cases moved
    · split at moved <;> cases moved
      refine inv.stays here ?_ returned
      exact ⟨rfl, rfl, locked⟩
  | use u maxConnections l =>
    obtain ⟨rfl, rfl, locked⟩ := has
    dsimp only [Client.next] at moved
    split at moved
    · cases moved
    · cases u with
      | reget | set handle disconnects =>
        cases moved
        refine inv.stays here ?_ returned
        exact ⟨rfl, l, rfl, locked⟩
      | store handle ret =>
        cases moved
        exact inv.stores here locked returned
  | unlockSlot l =>
    obtain ⟨rfl, rfl, locked⟩ := has
    dsimp only [Client.next] at moved
    split at moved
    · cases moved
    · rw [show σ.store.mutexes l = some ⟨some me, 1⟩ from locked] at moved
      cases moved
      exact inv.unlocks here returned
  | freeEntry l =>
    obtain ⟨rfl, rfl, unlocked⟩ := has
    cases moved
    exact inv.freesEntry here unlocked returned

theorem next_misses (inv : σ.Inv) (here : σ.clients[me]? = some c) (beyond : ¬ Reaches σ c) :
    ∃ c' result, c.next me σ.store = .ok (σ.store, c', result) ∧ c'.missed = true := by
  have has := inv.has here
  rcases c with ⟨place, acquired, slot, kept, missed⟩
  cases place with
  | getUnusedFreeListEntry maxConnections =>
    dsimp only [Client.next]
    rw [(getUnusedFreeListEntry_none inv).mpr beyond]
    exact ⟨_, _, rfl, rfl⟩
  | getThisThreadsFreeListEntry _ maxConnections | release maxConnections =>
    obtain ⟨-, l, rfl, -⟩ := has
    dsimp only [Client.next]
    rw [getThisThreadsFreeListEntry_eq inv here rfl, if_neg fun reached => beyond ⟨l, reached, rfl⟩]
    exact ⟨_, _, rfl, rfl⟩
  | _ => exact absurd trivial beyond

end Steps

/-! ### Runs -/

section Runs

variable {fDefMaxConnections : Nat} {σ σ' : State}

theorem call_inv (inv : σ.Inv) {me : Nat} {place next : Place} (called : call σ me place next = .ok σ')
    (has : ∀ {acquired slot}, place.Has σ.store me acquired slot → next.Has σ.store me acquired slot) : σ'.Inv := by
  unfold call at called
  split at called
  · rename_i c here
    split at called
    · rename_i is
      cases called
      exact inv.stays here (has (is ▸ inv.has here)) σ.returned
    · cases called
  · cases called

theorem step_inv {e : Event} (inv : σ.Inv) (reach : InReach e σ) (stepped : step fDefMaxConnections e σ = .ok σ') : σ'.Inv := by
  cases e with
  | getLdapConnection me maxConnections => exact call_inv inv stepped id
  | reGetLdapConnection me maxConnections => exact call_inv inv stepped id
  | setLdapConnection me maxConnections handle disconnects => exact call_inv inv stepped id
  | releaseHandleInfo me maxConnections => exact call_inv inv stepped id
  | advance me =>
    simp only [step] at stepped
    split at stepped
    · cases stepped
    · rename_i c here
      cases moved : c.next me σ.store with
      | error fault =>
        rw [moved] at stepped
        cases stepped
      | ok next =>
        rw [moved] at stepped
        cases stepped
        exact next_inv inv here (reach c here) moved _

theorem step_misses {e : Event} (inv : σ.Inv) (beyond : ¬ InReach e σ) :
    ∃ σ', step fDefMaxConnections e σ = .ok σ' ∧ ¬ σ'.Sound := by
  cases e with
  | advance me =>
    obtain ⟨c, there, beyond⟩ : ∃ c, c ∈ σ.clients[me]? ∧ ¬ Reaches σ c := by
      simpa only [InReach, not_forall, exists_prop] using beyond
    have here : σ.clients[me]? = some c := there
    obtain ⟨c', result, moved, missed⟩ := next_misses inv here beyond
    simp only [step]
    rw [here]
    dsimp only
    rw [moved]
    refine ⟨_, rfl, fun sound => ?_⟩
    have found := sound.found c' ((mem_set_iff here c').mpr (.inl rfl))
    rw [missed] at found
    cases found
  | _ => exact absurd trivial beyond

theorem new_inv (threads : Nat) : (State.new threads).Inv := by
  have all : ∀ {c}, c ∈ (State.new threads).clients → c = .new := List.eq_of_mem_replicate
  constructor
  case entry =>
    intro t c here l mine
    rw [all (List.mem_of_getElem? here)] at mine
    cases mine
  case free => exact fun _ => ⟨rfl, .inl rfl⟩
  case has =>
    intro t c here
    rw [all (List.mem_of_getElem? here)]
    exact ⟨rfl, rfl⟩
  case found => exact fun c mem => all mem ▸ rfl
  case stored =>
    intro c mem handle kept
    rw [all mem] at kept
    cases kept
  case permits => exact nofun
  case fresh => exact fun _ c mem => all mem ▸ rfl

/-- All states of a run are sound exactly if all limits reach. -/
theorem connections_sound_iff (fDefMaxConnections threads : Nat) (events : List Event) :
    (∀ before, before <+: events → ∀ σ, run fDefMaxConnections before (.new threads) = .ok σ → σ.Sound) ↔
      Runs.Meets (step fDefMaxConnections) InReach events (.new threads) :=
  Runs.always_good_iff (fun _ inv => inv.sound) (fun _ _ _ inv reach stepped => step_inv inv reach stepped)
    (fun _ _ inv beyond => step_misses inv beyond) events (new_inv threads)

def connect (me maxConnections : Nat) : List Event := .getLdapConnection me maxConnections :: List.replicate 5 (.advance me)

/-- The thread in the second slot releases with a limit of one: its permit is lost. -/
theorem release_beyond_limit : ∃ σ, run 5 (connect 0 2 ++ connect 1 2 ++ [.releaseHandleInfo 1 1, .advance 1]) (.new 2) = .ok σ ∧
    σ.store.sema = some 0 ∧ ¬ σ.Sound := by
  refine ⟨_, rfl, rfl, fun sound => ?_⟩
  have sum := sound.permits 0 rfl
  cases sum

end Runs

end Coast.Ldap
