import Coast.Lib.Pool
import Coast.Lib.Runs
import Mathlib.Algebra.Order.Group.Multiset

/-!
# The queue

`QueueBase` with the calls that are in progress in any number of threads. A step is one operation on a
semaphore, one look at `feBlocked`, or one section under a lock; the sections of `EmptyQueue` and
`Block` keep `fQueueLock` over several steps. The queue is alive all the time: no call of the runs is
its destructor.
-/

namespace Coast.Queueing

inductive Side where
  | put
  | get
  deriving DecidableEq, Repr

inductive BlockingSide where
  | eNone
  | ePutSide
  | eGetSide
  | eBothSides
  deriving DecidableEq, Repr

/-- The sides in a mask, in the order in which `Block` works on them. -/
def BlockingSide.sides : BlockingSide → List Side
  | eNone => []
  | ePutSide => [.put]
  | eGetSide => [.get]
  | eBothSides => [.put, .get]

inductive StatusCode where
  | eSuccess
  | eEmpty
  | eFull
  | eBlocked
  | eEmptyError
  deriving DecidableEq, Repr

inductive Request (α : Type) where
  | put (anyElement : α)
  | get
  deriving DecidableEq, Repr

inductive Result (α : Type) where
  | put (anyElement : α) (eRet : StatusCode)
  | get (anyElement : Option α) (eRet : StatusCode)
  | emptied (anyElements : List α)
  deriving DecidableEq, Repr

namespace Request

variable {α : Type}

def side : Request α → Side
  | put _ => .put
  | get => .get

def fails (eRet : StatusCode) : Request α → Result α
  | put anyElement => .put anyElement eRet
  | get => .get none eRet

/-- The code when `TryAcquire` fails. -/
def noPermit : Request α → StatusCode
  | put _ => .eFull
  | get => .eEmpty

end Request

/-- Where the call that holds `fQueueLock` stands. -/
inductive Section (α : Type) where
  /-- `IntEmptyQueue` before its next round. -/
  | emptying (lSize : Nat) (anyElements : List α)
  /-- After `TryAcquire`. -/
  | moving (lSize : Nat) (anyElements : List α)
  /-- `Block` in front of the loop for the first of the sides. -/
  | releasing (sides : List Side)
  /-- In `Wait` of the loop for a side; `signalled` once the condition has been signalled. -/
  | waiting (side : Side) (rest : List Side) (signalled : Bool)
  deriving DecidableEq, Repr

/-- The members of the queue, and the history of its elements. A semaphore, a count of callers and a
flag belong to each side: `fSemaEmptySlots` to the put side and `fSemaFullSlots` to the get side. -/
structure Members (α : Type) where
  fSema : Side → Nat
  fBlockingCount : Side → Nat
  feBlocked : Side → Bool
  fQueueLock : Option (Section α)
  fContainer : List α
  fPutCount : Nat
  fGetCount : Nat
  fMaxLoad : Nat
  /-- The elements in the order in which they were pushed. -/
  pushed : List α
  /-- The elements in the order in which they were taken. -/
  taken : List α
  returned : List (Result α)
  everBlocked : Bool

namespace Members

variable {α : Type} (s : Members α)

def release (side : Side) : Members α := { s with fSema := Function.update s.fSema side (s.fSema side + 1) }

def acquire (side : Side) : Members α := { s with fSema := Function.update s.fSema side (s.fSema side - 1) }

/-- The constructor of `LockedValueIncrementDecrementEntry`. -/
def countIn (side : Side) : Members α :=
  { s with fBlockingCount := Function.update s.fBlockingCount side (s.fBlockingCount side + 1) }

def signal (side : Side) : Members α :=
  match s.fQueueLock with
  | some (.waiting waits rest signalled) => { s with fQueueLock := some (.waiting waits rest (signalled || waits == side)) }
  | _ => s

def countOut (side : Side) : Members α :=
  { s with fBlockingCount := Function.update s.fBlockingCount side (s.fBlockingCount side - 1) }.signal side

def lock (holder : Option (Section α)) : Members α := { s with fQueueLock := holder }

def report (r : Result α) : Members α := { s with returned := s.returned ++ [r] }

def block (aSide : BlockingSide) : Members α :=
  { s with
    feBlocked := fun side => s.feBlocked side || aSide.sides.contains side
    everBlocked := s.everBlocked || aSide != .eNone }

def unBlock (aSide : BlockingSide) : Members α :=
  { s with feBlocked := fun side => s.feBlocked side && !aSide.sides.contains side }

def doPut (anyElement : α) : Members α :=
  { s with
    fContainer := s.fContainer ++ [anyElement]
    fPutCount := s.fPutCount + 1
    fMaxLoad := max s.fMaxLoad (s.fContainer.length + 1)
    pushed := s.pushed ++ [anyElement] }.release .get

def doGet (anyElement : α) (fContainer : List α) : Members α :=
  { s with
    fContainer := fContainer
    fGetCount := s.fGetCount + 1
    taken := s.taken ++ [anyElement] }.release .put

/-- What `IntEmptyQueue` does with an element. -/
def moveElement (anyElement : α) (fContainer : List α) : Members α :=
  { s with
    fContainer := fContainer
    taken := s.taken ++ [anyElement] }.release .put

end Members

/-! ### Calls -/

/-- The next operation of a call. `counted` callers are those behind `fBlockingPutCount` and
`fBlockingGetCount`. -/
inductive Call (α : Type) where
  /-- `IsBlocked` at the beginning of `Put` and `Get`. -/
  | check (r : Request α) (bTryLock : Bool)
  | tryAcquire (r : Request α)
  | countIn (r : Request α)
  | acquire (r : Request α)
  /-- `IsBlocked` in `DoPut` and `DoGet`. -/
  | recheck (r : Request α) (counted : Bool)
  /-- In front of `fQueueLock`. -/
  | locking (r : Request α) (counted : Bool)
  | countOut (side : Side) (returns : Result α)
  | emptyCheck
  | emptyLocking
  | block (aSide : BlockingSide)
  | blockLocking (aSide : BlockingSide)
  | unBlock (aSide : BlockingSide)
  deriving DecidableEq, Repr

section Steps

variable {α : Type}

def leave (side : Side) (counted : Bool) (returns : Result α) (s : Members α) : Members α × Option (Call α) :=
  if counted then (s, some (.countOut side returns)) else (s.report returns, none)

def serve (s : Members α) : Request α → Members α × Result α
  | .put anyElement => (s.doPut anyElement, .put anyElement .eSuccess)
  | .get =>
    match s.fContainer with
    | [] => (s, .get none .eEmptyError)
    | anyElement :: rest => (s.doGet anyElement rest, .get (some anyElement) .eSuccess)

/-- The members after the next operation of a call, and where the call stands then; nothing if the
operation has to wait. -/
def Call.next (s : Members α) : Call α → Option (Members α × Option (Call α))
  | .check r bTryLock =>
    if s.feBlocked r.side then some (s.report (r.fails .eBlocked), none)
    else some (s, some (if bTryLock then .tryAcquire r else .countIn r))
  | .tryAcquire r =>
    if s.fSema r.side = 0 then some (s.report (r.fails r.noPermit), none)
    else some (s.acquire r.side, some (.recheck r false))
  | .countIn r => some (s.countIn r.side, some (.acquire r))
  | .acquire r => if s.fSema r.side = 0 then none else some (s.acquire r.side, some (.recheck r true))
  | .recheck r counted =>
    if s.feBlocked r.side then some (leave r.side counted (r.fails .eBlocked) s) else some (s, some (.locking r counted))
  | .locking r counted =>
    if s.fQueueLock.isSome then none else some (leave r.side counted (serve s r).2 (serve s r).1)
  | .countOut side returns => some ((s.countOut side).report returns, none)
  | .emptyCheck =>
    if s.feBlocked .put && s.feBlocked .get then some (s.report (.emptied []), none) else some (s, some .emptyLocking)
  | .emptyLocking => if s.fQueueLock.isSome then none else some (s.lock (some (.emptying s.fContainer.length [])), none)
  | .block aSide => some (s.block aSide, some (.blockLocking aSide))
  | .blockLocking aSide => if s.fQueueLock.isSome then none else some (s.lock (some (.releasing aSide.sides)), none)
  | .unBlock aSide => some (s.unBlock aSide, none)

/-- The next operation of the call that holds `fQueueLock`. -/
def Section.next (s : Members α) : Section α → Option (Members α)
  | .emptying 0 anyElements => some ((s.lock none).report (.emptied anyElements))
  | .emptying (lSize + 1) anyElements => some ((s.acquire .get).lock (some (.moving lSize anyElements)))
  | .moving lSize anyElements =>
    match s.fContainer with
    | [] => none
    | anyElement :: rest => some ((s.moveElement anyElement rest).lock (some (.emptying lSize (anyElements ++ [anyElement]))))
  | .releasing [] => some (s.lock none)
  | .releasing (side :: rest) =>
    if s.fBlockingCount side = 0 then some (s.lock (some (.releasing rest)))
    else some ((s.release side).lock (some (.waiting side rest false)))
  | .waiting side rest signalled => if signalled then some (s.lock (some (.releasing (side :: rest)))) else none

/-! ### Runs -/

inductive Start (α : Type) where
  | put (anyElement : α) (bTryLock : Bool)
  | get (bTryLock : Bool)
  | emptyQueue
  | block (aSide : BlockingSide)
  | unBlock (aSide : BlockingSide)

def Start.call : Start α → Call α
  | put anyElement bTryLock => .check (.put anyElement) bTryLock
  | get bTryLock => .check .get bTryLock
  | emptyQueue => .emptyCheck
  | block aSide => .block aSide
  | unBlock aSide => .unBlock aSide

structure State (α : Type) where
  members : Members α
  calls : List (Call α)

inductive Event (α : Type) where
  | start (c : Start α)
  | advance (place : Nat)
  /-- The call that holds `fQueueLock` takes its next step. -/
  | advanceSection
  /-- `Wait` returns without a signal. -/
  | spurious

inductive NotEnabled where
  | notEnabled
  deriving DecidableEq, Repr

def step : Event α → State α → Except NotEnabled (State α)
  | .start c, σ => .ok { σ with calls := σ.calls ++ [c.call] }
  | .advance place, σ =>
    match σ.calls[place]?.bind (Call.next σ.members) with
    | some (s, next) => .ok ⟨s, Pool.replace σ.calls place next⟩
    | none => .error .notEnabled
  | .advanceSection, σ =>
    match σ.members.fQueueLock.bind (Section.next σ.members) with
    | some s => .ok { σ with members := s }
    | none => .error .notEnabled
  | .spurious, σ =>
    match σ.members.fQueueLock with
    | some (.waiting side rest false) => .ok { σ with members := σ.members.lock (some (.releasing (side :: rest))) }
    | _ => .error .notEnabled

def State.new (fQueueSize : Nat) : State α where
  members :=
    { fSema := fun side => match side with | .put => fQueueSize | .get => 0
      fBlockingCount := fun _ => 0
      feBlocked := fun _ => false
      fQueueLock := none
      fContainer := []
      fPutCount := 0
      fGetCount := 0
      fMaxLoad := 0
      pushed := []
      taken := []
      returned := []
      everBlocked := false }
  calls := []

def State.Quiet (σ : State α) : Prop := σ.calls = [] ∧ σ.members.fQueueLock = none

abbrev run : List (Event α) → State α → Except NotEnabled (State α) := Runs.run step

/-! ### What a step can do -/

inductive CallStep (s : Members α) : Call α → Members α → Option (Call α) → Prop
  | refused {r : Request α} {bTryLock : Bool} (blocked : s.feBlocked r.side = true) :
    CallStep s (.check r bTryLock) (s.report (r.fails .eBlocked)) none
  | tries {r : Request α} (free : s.feBlocked r.side = false) : CallStep s (.check r true) s (some (.tryAcquire r))
  | waits {r : Request α} (free : s.feBlocked r.side = false) : CallStep s (.check r false) s (some (.countIn r))
  | noPermit {r : Request α} (empty : s.fSema r.side = 0) :
    CallStep s (.tryAcquire r) (s.report (r.fails r.noPermit)) none
  | triedPermit {r : Request α} (permit : 0 < s.fSema r.side) :
    CallStep s (.tryAcquire r) (s.acquire r.side) (some (.recheck r false))
  | countedIn {r : Request α} : CallStep s (.countIn r) (s.countIn r.side) (some (.acquire r))
  | permit {r : Request α} (permit : 0 < s.fSema r.side) : CallStep s (.acquire r) (s.acquire r.side) (some (.recheck r true))
  | dropped {r : Request α} {counted : Bool} (blocked : s.feBlocked r.side = true) :
    CallStep s (.recheck r counted) (leave r.side counted (r.fails .eBlocked) s).1 (leave r.side counted (r.fails .eBlocked) s).2
  | passed {r : Request α} {counted : Bool} (free : s.feBlocked r.side = false) :
    CallStep s (.recheck r counted) s (some (.locking r counted))
  | pushed {anyElement : α} {counted : Bool} (unlocked : s.fQueueLock = none) :
    CallStep s (.locking (.put anyElement) counted) (leave .put counted (.put anyElement .eSuccess) (s.doPut anyElement)).1
      (leave .put counted (.put anyElement .eSuccess) (s.doPut anyElement)).2
  | popped {anyElement : α} {rest : List α} {counted : Bool} (unlocked : s.fQueueLock = none)
      (front : s.fContainer = anyElement :: rest) :
    CallStep s (.locking .get counted) (leave .get counted (.get (some anyElement) .eSuccess) (s.doGet anyElement rest)).1
      (leave .get counted (.get (some anyElement) .eSuccess) (s.doGet anyElement rest)).2
  | foundEmpty {counted : Bool} (unlocked : s.fQueueLock = none) (empty : s.fContainer = []) :
    CallStep s (.locking .get counted) (leave .get counted (.get none .eEmptyError) s).1
      (leave .get counted (.get none .eEmptyError) s).2
  | countedOut {side : Side} {returns : Result α} : CallStep s (.countOut side returns) ((s.countOut side).report returns) none
  | keptFull (blocked : s.feBlocked .put = true ∧ s.feBlocked .get = true) :
    CallStep s .emptyCheck (s.report (.emptied [])) none
  | empties : CallStep s .emptyCheck s (some .emptyLocking)
  | emptyLocked (unlocked : s.fQueueLock = none) :
    CallStep s .emptyLocking (s.lock (some (.emptying s.fContainer.length []))) none
  | blocked {aSide : BlockingSide} : CallStep s (.block aSide) (s.block aSide) (some (.blockLocking aSide))
  | blockLocked {aSide : BlockingSide} (unlocked : s.fQueueLock = none) :
    CallStep s (.blockLocking aSide) (s.lock (some (.releasing aSide.sides))) none
  | unBlocked {aSide : BlockingSide} : CallStep s (.unBlock aSide) (s.unBlock aSide) none

theorem call_cases {s s' : Members α} {c : Call α} {next : Option (Call α)} (h : c.next s = some (s', next)) :
    CallStep s c s' next := by
  cases c with
  | check r bTryLock =>
    dsimp only [Call.next] at h
    split at h
    · cases h
      exact .refused ‹_›
    · rename_i free
      rw [Bool.not_eq_true] at free
      cases h
      cases bTryLock
      · exact .waits free
      · exact .tries free
  | tryAcquire r =>
    dsimp only [Call.next] at h
    split at h <;> cases h
    · exact .noPermit ‹_›
    · exact .triedPermit (Nat.pos_of_ne_zero ‹_›)
  | countIn r =>
    cases h
    exact .countedIn
  | acquire r =>
    dsimp only [Call.next] at h
    split at h <;> cases h
    exact .permit (Nat.pos_of_ne_zero ‹_›)
  | recheck r counted =>
    dsimp only [Call.next] at h
    split at h
    · obtain ⟨rfl, rfl⟩ := Prod.mk.inj (Option.some.inj h)
      exact .dropped ‹_›
    · rename_i free
      rw [Bool.not_eq_true] at free
      cases h
      exact .passed free
  | locking r counted =>
    dsimp only [Call.next] at h
    split at h
    · cases h
    · rename_i free
      rw [Option.not_isSome_iff_eq_none] at free
      cases r with
      | put anyElement =>
        obtain ⟨rfl, rfl⟩ := Prod.mk.inj (Option.some.inj h)
        exact .pushed free
      | get =>
        cases front : s.fContainer with
        | nil =>
          have served : serve s .get = (s, .get none .eEmptyError) := by simp only [serve, front]
          rw [served] at h
          obtain ⟨rfl, rfl⟩ := Prod.mk.inj (Option.some.inj h)
          exact .foundEmpty free front
        | cons anyElement rest =>
          have served : serve s .get = (s.doGet anyElement rest, .get (some anyElement) .eSuccess) := by
            simp only [serve, front]
          rw [served] at h
          obtain ⟨rfl, rfl⟩ := Prod.mk.inj (Option.some.inj h)
          exact .popped free front
  | countOut side returns =>
    cases h
    exact .countedOut
  | emptyCheck =>
    dsimp only [Call.next] at h
    split at h
    · rename_i both
      rw [Bool.and_eq_true] at both
      cases h
      exact .keptFull both
    · cases h
      exact .empties
  | emptyLocking =>
    dsimp only [Call.next] at h
    split at h
    · cases h
    · rename_i free
      rw [Option.not_isSome_iff_eq_none] at free
      cases h
      exact .emptyLocked free
  | block aSide =>
    cases h
    exact .blocked
  | blockLocking aSide =>
    dsimp only [Call.next] at h
    split at h
    · cases h
    · rename_i free
      rw [Option.not_isSome_iff_eq_none] at free
      cases h
      exact .blockLocked free
  | unBlock aSide =>
    cases h
    exact .unBlocked

inductive SectionStep (s : Members α) : Section α → Members α → Prop
  | emptied {anyElements : List α} : SectionStep s (.emptying 0 anyElements) ((s.lock none).report (.emptied anyElements))
  | tried {lSize : Nat} {anyElements : List α} :
    SectionStep s (.emptying (lSize + 1) anyElements) ((s.acquire .get).lock (some (.moving lSize anyElements)))
  | moved {lSize : Nat} {anyElements rest : List α} {anyElement : α} (front : s.fContainer = anyElement :: rest) :
    SectionStep s (.moving lSize anyElements)
      ((s.moveElement anyElement rest).lock (some (.emptying lSize (anyElements ++ [anyElement]))))
  | unlocked : SectionStep s (.releasing []) (s.lock none)
  | released {side : Side} {rest : List Side} (nobody : s.fBlockingCount side = 0) :
    SectionStep s (.releasing (side :: rest)) (s.lock (some (.releasing rest)))
  | wakes {side : Side} {rest : List Side} (somebody : s.fBlockingCount side ≠ 0) :
    SectionStep s (.releasing (side :: rest)) ((s.release side).lock (some (.waiting side rest false)))
  | woken {side : Side} {rest : List Side} {signalled : Bool} :
    SectionStep s (.waiting side rest signalled) (s.lock (some (.releasing (side :: rest))))

theorem section_cases {s s' : Members α} {holder : Section α} (h : holder.next s = some s') : SectionStep s holder s' := by
  cases holder with
  | emptying lSize anyElements =>
    cases lSize with
    | zero =>
      cases h
      exact .emptied
    | succ lSize =>
      cases h
      exact .tried
  | moving lSize anyElements =>
    dsimp only [Section.next] at h
    split at h
    · cases h
    · cases h
      exact .moved ‹_›
  | releasing sides =>
    cases sides with
    | nil =>
      cases h
      exact .unlocked
    | cons side rest =>
      dsimp only [Section.next] at h
      split at h <;> cases h
      · exact .released ‹_›
      · exact .wakes ‹_›
  | waiting side rest signalled =>
    dsimp only [Section.next] at h
    split at h <;> cases h
    exact .woken

theorem step_cases {e : Event α} {σ σ' : State α} (h : step e σ = .ok σ') :
    (∃ c, e = .start c ∧ σ' = { σ with calls := σ.calls ++ [c.call] }) ∨
    (∃ place c s next, e = .advance place ∧ σ.calls[place]? = some c ∧ CallStep σ.members c s next ∧
      σ' = ⟨s, Pool.replace σ.calls place next⟩) ∨
    (∃ holder s, (e = .advanceSection ∨ e = .spurious) ∧ σ.members.fQueueLock = some holder ∧ SectionStep σ.members holder s ∧
      σ' = { σ with members := s }) := by
  cases e with
  | start c =>
    cases h
    exact .inl ⟨c, rfl, rfl⟩
  | advance place =>
    simp only [step] at h
    split at h
    · rename_i s next moves
      obtain ⟨c, here, moves⟩ := Option.bind_eq_some_iff.mp moves
      cases h
      exact .inr (.inl ⟨place, c, s, next, rfl, here, call_cases moves, rfl⟩)
    · cases h
  | advanceSection =>
    simp only [step] at h
    split at h
    · rename_i s moves
      obtain ⟨holder, held, moves⟩ := Option.bind_eq_some_iff.mp moves
      cases h
      exact .inr (.inr ⟨holder, s, .inl rfl, held, section_cases moves, rfl⟩)
    · cases h
  | spurious =>
    simp only [step] at h
    split at h
    · rename_i side rest held
      cases h
      exact .inr (.inr ⟨_, _, .inr rfl, held, .woken, rfl⟩)
    · cases h

end Steps

end Coast.Queueing
