import Mathlib.Algebra.Order.BigOperators.Group.List
import Mathlib.Tactic.Linarith
import Coast.Threading.ThreadLifeCycle

/-!
# Thread pools

The calls of `Init`, `Start` and `Terminate` come one after the other, and the threads of the pool change
their states between any two steps of a call.
-/

namespace Coast.Threading

open Pool EThreadState

/-- The thread has entered `eRunning` and not yet `eTerminated`. -/
def LifeCycle.State.ran (σ : LifeCycle.State) : Bool :=
  σ.changes.foldl (fun ran c => if c.new = eRunning then true else if c.new = eTerminated then false else ran) false

namespace ThreadPool

open LifeCycle (NotEnabled)

structure PoolThread where
  thread : LifeCycle.State
  /-- How often the manager is in its list of observers. -/
  observers : Nat
  deriving DecidableEq, Repr

/-- `roaThreadArgs` decide how many calls of `DoAllocThread` and of the threads' `Init` succeed. -/
structure InitArgs where
  maxParallelRequests : Int
  allocates : Nat
  inits : Nat
  deriving DecidableEq, Repr

/-- The call that is going on, with its loop variables. A `Terminate` may be part of an `Init`. -/
inductive Call where
  | idle
  | starting (i : Nat)
  | startingThread (i : Nat)
  | terminating (i result : Nat) (init : Option InitArgs)
  /-- `CheckState(eTerminated)`. -/
  | checking (i result : Nat) (init : Option InitArgs)
  | joining (init : Option InitArgs)
  | allocating (i : Nat) (init : InitArgs)
  | initing (i : Nat) (init : InitArgs)
  deriving DecidableEq, Repr

structure Counters where
  fStartedThreads : Int
  fRunningThreads : Int
  fTerminatedThreads : Int
  deriving DecidableEq, Repr

structure State extends Counters where
  fTerminated : Bool
  fThreadPool : List PoolThread
  lost : List PoolThread
  /-- How many threads the last `Init` has allocated. -/
  threads : Nat
  call : Call
  deriving DecidableEq, Repr

/-- `Update`, for a new `ThreadState`. -/
def Counters.update (c : Counters) : EThreadState → Counters
  | eStarted => { c with fStartedThreads := c.fStartedThreads + 1 }
  | eRunning => { c with fRunningThreads := c.fRunningThreads + 1 }
  | eTerminated => { c with fRunningThreads := c.fRunningThreads - 1, fTerminatedThreads := c.fTerminatedThreads + 1 }
  | _ => c

/-- `NotifyAll` for the changes that a step of a thread has made. -/
def Counters.notify (c : Counters) (t : PoolThread) (next : LifeCycle.State) : Counters :=
  ((next.changes.drop t.thread.changes.length).flatMap fun change => List.replicate t.observers change.new).foldl Counters.update c

inductive Event where
  | init (args : InitArgs)
  | start
  | terminate
  /-- `Start` goes on to the next thread, with an allocator for it or without. -/
  | startNext (allocator hook : Bool)
  | advance
  | startThread (ok : Bool)
  /-- `CheckState(eTerminated)` gives up. -/
  | timeOut
  | system (i j : Nat)
  | lost (i j : Nat)
  deriving DecidableEq, Repr

namespace State

variable (σ : State)

def perform (i : Nat) (e : LifeCycle.Event) : Except NotEnabled State :=
  match σ.fThreadPool[i]? with
  | none => .error .notEnabled
  | some t =>
    match LifeCycle.step e t.thread with
    | .error e => .error e
    | .ok next =>
      .ok { σ with toCounters := σ.toCounters.notify t next, fThreadPool := σ.fThreadPool.set i { t with thread := next } }

def goTo (call : Call) : State := { σ with call := call }

/-- `Init` after the old threads are gone. -/
def allocPool (init : InitArgs) : State :=
  { σ with
    fTerminated := false, fStartedThreads := 0, fTerminatedThreads := 0, threads := 0,
    call := if 0 < init.maxParallelRequests then .allocating 0 init else .idle }

/-- `fThreadPool[i] = t`. -/
def store (i : Nat) (t : PoolThread) : State :=
  { σ with
    fThreadPool := if i < σ.fThreadPool.length then σ.fThreadPool.set i t else σ.fThreadPool ++ [t],
    lost := σ.lost ++ (σ.fThreadPool[i]?).toList, threads := σ.threads + 1 }

/-- `Join` has returned `fRunningThreads`. -/
def deletePool : State := if σ.fRunningThreads = 0 then { σ with fThreadPool := [] } else σ

end State

def advance (σ : State) : Except NotEnabled State :=
  match σ.call with
  | .idle => .error .notEnabled
  | .starting _ => .error .notEnabled
  | .startingThread i =>
    match σ.fThreadPool[i]? with
    | none => .error .notEnabled
    | some t => if t.thread.starter = .idle then .ok (σ.goTo (.starting (i + 1))) else σ.perform i .advance
  | .terminating i result init =>
    if i < σ.fThreadPool.length then (σ.perform i .terminate).map fun σ => σ.goTo (.checking i result init)
    else .ok ({ σ with fTerminated := true }.goTo (if result = 0 then .joining init else .idle))
  | .checking i result init =>
    match σ.fThreadPool[i]? with
    | none => .error .notEnabled
    | some t => if t.thread.fState = eTerminated then .ok (σ.goTo (.terminating (i + 1) result init)) else .error .notEnabled
  | .joining none => .ok (σ.deletePool.goTo .idle)
  | .joining (some init) => .ok (σ.deletePool.allocPool init)
  | .allocating i init =>
    if i < init.maxParallelRequests then
      if i < init.allocates then .ok ((σ.store i ⟨LifeCycle.State.new, 0⟩).goTo (.allocating (i + 1) init)) else .ok (σ.goTo .idle)
    else .ok (σ.goTo (.initing 0 init))
  | .initing i init =>
    match σ.fThreadPool[i]? with
    | none => .ok (σ.goTo .idle)
    | some t =>
      if i < init.inits then
        .ok ({ σ with fThreadPool := σ.fThreadPool.set i { t with observers := t.observers + 1 } }.goTo (.initing (i + 1) init))
      else .ok (σ.goTo .idle)

def step : Event → State → Except NotEnabled State
  | .init args, σ =>
    if σ.call = .idle then .ok (if σ.fTerminated then σ.allocPool args else σ.goTo (.terminating 0 0 (some args))) else .error .notEnabled
  | .start, σ => if σ.call = .idle ∧ σ.fThreadPool ≠ [] then .ok (σ.goTo (.starting 0)) else .error .notEnabled
  | .terminate, σ => if σ.call = .idle then .ok (σ.goTo (.terminating 0 0 none)) else .error .notEnabled
  | .startNext allocator hook, σ =>
    match σ.call with
    | .starting i =>
      if i < σ.fThreadPool.length then
        if allocator then (σ.perform i (.start true hook)).map fun σ => σ.goTo (.startingThread i) else .ok (σ.goTo (.starting (i + 1)))
      else .ok (σ.goTo .idle)
    | _ => .error .notEnabled
  | .advance, σ => advance σ
  | .startThread ok, σ =>
    match σ.call with
    | .startingThread i => σ.perform i (.startThread ok)
    | _ => .error .notEnabled
  | .timeOut, σ =>
    match σ.call with
    | .checking i result init =>
      match σ.fThreadPool[i]? with
      | none => .error .notEnabled
      | some t => if t.thread.fState = eTerminated then .error .notEnabled else .ok (σ.goTo (.terminating (i + 1) (result + 1) init))
    | _ => .error .notEnabled
  | .system i j, σ => σ.perform i (.system j)
  | .lost i j, σ =>
    match σ.lost[i]? with
    | none => .error .notEnabled
    | some t =>
      match LifeCycle.step (.system j) t.thread with
      | .error e => .error e
      | .ok next => .ok { σ with toCounters := σ.toCounters.notify t next, lost := σ.lost.set i { t with thread := next } }

def State.new : State where
  fStartedThreads := 0
  fRunningThreads := 0
  fTerminatedThreads := 0
  fTerminated := true
  fThreadPool := []
  lost := []
  threads := 0
  call := .idle

abbrev run : List Event → State → Except NotEnabled State := Runs.run step

/-! ### What the counters say -/

def PoolThread.running (t : PoolThread) : Int := if t.thread.ran then 1 else 0

structure State.Counted (σ : State) : Prop where
  running : σ.fRunningThreads = total PoolThread.running σ.fThreadPool
  terminated : σ.fTerminatedThreads ≤ σ.threads
  /-- `Join` returns 0. -/
  joins : (∀ t ∈ σ.fThreadPool, t.thread.fState = eTerminated) → σ.fRunningThreads = 0
  deletes : ∀ init, σ.call = .joining init → ∀ σ', step .advance σ = .ok σ' → σ'.fThreadPool = []

/-- The thread that a loop of `Start` or `DoTerminate` has come to. -/
def State.next (σ : State) : Option PoolThread :=
  match σ.call with
  | .starting i | .terminating i _ _ => σ.fThreadPool[i]?
  | _ => none

def Orderly : Event → State → Prop
  | .init _, σ => σ.fTerminated = true → σ.fThreadPool = []
  | .startNext true hook, σ =>
    ∀ t, σ.next = some t → t.thread.fState ≠ eTerminated ∧ (t.thread.fState = eCreated → t.observers ≠ 0 ∧ hook = true)
  | .advance, σ => ∀ t, σ.next = some t → t.observers = 0 ∨ eRunning ≤ t.thread.fState
  | _, _ => True

instance : (e : Event) → (σ : State) → Decidable (Orderly e σ)
  | .init _, _ => inferInstanceAs (Decidable (_ → _))
  | .startNext true _, σ | .advance, σ =>
    match next : σ.next with
    | none => .isTrue fun t is => by rw [next] at is; cases is
    | some t => decidable_of_iff _ ⟨fun holds t' is => by rw [next] at is; cases is; exact holds, fun holds => holds t next⟩
  | .startNext false _, _ | .start, _ | .terminate, _ | .startThread _, _ | .timeOut, _ | .system _ _, _ | .lost _ _, _ => .isTrue trivial

/-! ### One thread -/

/-- Where a starter stands whose thread has not been terminated. -/
def Begun (fState : EThreadState) : LifeCycle.Starter → Prop
  | .idle | .setStartInProgress | .setStarted => True
  | .startThread => fState = eStartRequested
  | .getState allocator hook | .getStateAgain allocator hook => fState = eCreated ∧ allocator = true ∧ hook = true
  | .setStartRequested hook => fState = eCreated ∧ hook = true
  | .setCreated _ _ | .setTerminationRequested => False

structure PoolThread.Inv (t : PoolThread) : Prop where
  inv : t.thread.Inv
  once : t.observers ≤ 1
  ran : t.thread.ran = true ↔ eRunning ≤ t.thread.fState ∧ t.thread.fState < eTerminated
  begun : Begun t.thread.fState t.thread.starter
  unobserved : t.observers = 0 → t.thread.starter = .idle ∧ (t.thread.fState = eCreated ∨ t.thread.fState = eTerminated)

def PoolThread.pending (t : PoolThread) : Int := if t.observers ≠ 0 ∧ t.thread.fState = eTerminated then 0 else 1

/-- The changes of a thread that is terminated only when it runs. -/
def Allowed (t : PoolThread) (new : EThreadState) : Prop :=
  if t.observers = 0 then t.thread.fState = eCreated ∧ new = eTerminated
  else t.thread.fState < new ∧ (eRunning < new → eRunning ≤ t.thread.fState)

section Thread

variable {t : PoolThread} {next : LifeCycle.State}

theorem ran_change {σ σ' : LifeCycle.State} {c : LifeCycle.Change} (changes : σ'.changes = σ.changes ++ [c]) :
    σ'.ran = if c.new = eRunning then true else if c.new = eTerminated then false else σ.ran := by
  unfold LifeCycle.State.ran
  rw [changes, List.foldl_append]
  rfl

theorem notify_none (changed : t.thread.Changed next none) (c : Counters) : c.notify t next = c := by
  unfold Counters.notify
  rw [changed.1, List.drop_length]
  rfl

theorem notify_some {new : EThreadState} (changed : t.thread.Changed next (some new)) (c : Counters) :
    c.notify t next = (List.replicate t.observers new).foldl Counters.update c := by
  obtain ⟨⟨actor, start, changes⟩, -⟩ := changed
  unfold Counters.notify
  rw [changes, List.drop_left, List.flatMap_singleton]

theorem PoolThread.Inv.accounts (inv : t.Inv) {new : Option EThreadState} (changed : t.thread.Changed next new)
    (allowed : ∀ s, new = some s → Allowed t s) (c : Counters) :
    (c.notify t next).fRunningThreads + t.running = c.fRunningThreads + { t with thread := next }.running ∧
      (c.notify t next).fTerminatedThreads + { t with thread := next }.pending = c.fTerminatedThreads + t.pending ∧
      (next.ran = true ↔ eRunning ≤ next.fState ∧ next.fState < eTerminated) := by
  cases new with
  | none =>
    rw [notify_none changed c]
    have same : next.ran = t.thread.ran := by
      unfold LifeCycle.State.ran
      rw [changed.1]
    unfold PoolThread.running PoolThread.pending
    dsimp only
    rw [same, changed.2]
    exact ⟨rfl, rfl, inv.ran⟩
  | some new =>
    have may := allowed new rfl
    have ran := inv.ran
    rw [notify_some changed c]
    obtain ⟨⟨actor, start, changes⟩, is⟩ := changed
    have after := ran_change changes
    unfold PoolThread.running PoolThread.pending
    dsimp only at after ⊢
    rw [after, is]
    by_cases none : t.observers = 0
    · rw [Allowed, if_pos none] at may
      obtain ⟨old, rfl⟩ := may
      rw [old] at ran
      have notRan : t.thread.ran = false := by
        cases h : t.thread.ran with
        | false => rfl
        | true => exact absurd (ran.mp h).1 (by decide)
      rw [none, notRan]
      simp [lt_iff]
    · rw [Allowed, if_neg none] at may
      have one : t.observers = 1 := Nat.le_antisymm inv.once (Nat.one_le_iff_ne_zero.mpr none)
      rw [one]
      revert may ran
      cases t.thread.fState <;> cases new <;> cases t.thread.ran <;> simp [lt_iff, le_iff, value, Counters.update]

structure PoolThread.Keeps (t : PoolThread) (next : LifeCycle.State) : Prop where
  changed : ∃ new, t.thread.Changed next new ∧ ∀ s, new = some s → Allowed t s
  inv : next.Inv
  begun : Begun next.fState next.starter
  unobserved : t.observers = 0 → next.starter = .idle ∧ (next.fState = eCreated ∨ next.fState = eTerminated)

theorem PoolThread.Inv.observed (inv : t.Inv) (busy : t.thread.starter ≠ .idle) : t.observers ≠ 0 :=
  fun none => busy (inv.unobserved none).1

theorem PoolThread.Inv.system (inv : t.Inv) {j : Nat} (done : LifeCycle.step (.system j) t.thread = .ok next) : t.Keeps next := by
  obtain ⟨ongoing, free, same, new, changed, forward⟩ := inv.inv.system_changed done
  have observed : t.observers ≠ 0 := fun none => (inv.unobserved none).2.elim ongoing.1 ongoing.2
  refine ⟨⟨new, changed, fun s is => ?_⟩, inv.inv.step (e := .system j) trivial done, ?_, fun none => absurd none observed⟩
  · rw [Allowed, if_neg observed]
    exact forward s is
  · rw [same]
    rcases free with is | is | is <;> rw [is] <;> trivial

theorem PoolThread.Inv.terminate (inv : t.Inv) (idle : t.thread.starter = .idle) (late : t.observers = 0 ∨ eRunning ≤ t.thread.fState)
    (done : LifeCycle.step .terminate t.thread = .ok next) : t.Keeps next := by
  have nextInv : next.Inv := inv.inv.step (e := .terminate) (fun both => nomatch idle.symm.trans both.1) done
  have unobserved := inv.unobserved
  cases done
  refine ⟨⟨_, LifeCycle.setState_changed .., fun s set => ?_⟩, nextInv, ?_, fun none => ⟨?_, ?_⟩⟩
  · unfold Allowed
    split
    · rename_i none
      rcases (unobserved none).2 with is | is
      · rw [is] at set ⊢
        exact ⟨rfl, (Option.some.inj set).symm⟩
      · rw [is] at set
        cases set
    · rename_i observed
      have running := late.resolve_left observed
      revert set running
      cases t.thread.fState <;> cases s <;> simp [EThreadState.setState, intSetState, value, lt_iff, le_iff]
  · rw [LifeCycle.setState_starter, idle]
    trivial
  · rw [LifeCycle.setState_starter, idle]
  · rw [LifeCycle.setState_fState]
    rcases (unobserved none).2 with is | is <;> rw [is] <;> decide

theorem PoolThread.Inv.start (inv : t.Inv) (idle : t.thread.starter = .idle) {hook : Bool}
    (fresh : t.thread.fState ≠ eTerminated ∧ (t.thread.fState = eCreated → t.observers ≠ 0 ∧ hook = true))
    (done : LifeCycle.step (.start true hook) t.thread = .ok next) : t.Keeps next := by
  have nextInv : next.Inv := inv.inv.step (e := .start true hook) trivial done
  dsimp only [LifeCycle.step] at done
  rw [if_pos idle] at done
  split at done
  · cases done
    exact ⟨⟨none, ⟨rfl, rfl⟩, nofun⟩, nextInv, inv.begun, inv.unobserved⟩
  · rename_i notAlive
    cases done
    have created : t.thread.fState = eCreated := by
      have notTerminated := fresh.1
      revert notAlive notTerminated
      cases t.thread.fState <;> decide
    obtain ⟨observed, accepts⟩ := fresh.2 created
    exact ⟨⟨none, ⟨rfl, rfl⟩, nofun⟩, nextInv, ⟨created, rfl, accepts⟩, fun none => absurd none observed⟩

theorem PoolThread.Inv.startThread (inv : t.Inv) {ok : Bool} (done : LifeCycle.step (.startThread ok) t.thread = .ok next) :
    t.Keeps next := by
  have begun := inv.begun
  have orderly : LifeCycle.Orderly (.startThread ok) t.thread := by
    cases ok with
    | false => trivial
    | true =>
      intro at_
      rwa [at_] at begun
  have nextInv : next.Inv := inv.inv.step orderly done
  dsimp only [LifeCycle.step] at done
  split at done
  · rename_i at_
    have observed := inv.observed (by rw [at_]; exact nofun)
    split at done <;> cases done <;> exact ⟨⟨none, ⟨rfl, rfl⟩, nofun⟩, nextInv, trivial, fun none => absurd none observed⟩
  · cases done

theorem PoolThread.Inv.advance (inv : t.Inv) (done : LifeCycle.step .advance t.thread = .ok next) : t.Keeps next := by
  have begun := inv.begun
  have nextInv : next.Inv := inv.inv.step (e := .advance) trivial done
  have observed : t.observers ≠ 0 := by
    refine inv.observed fun idle => ?_
    rw [LifeCycle.step, LifeCycle.advance, idle] at done
    cases done
  suffices after : (∃ new, t.thread.Changed next new ∧ ∀ s, new = some s → t.thread.fState < s ∧ (eRunning < s → eRunning ≤ t.thread.fState)) ∧
      Begun next.fState next.starter by
    obtain ⟨⟨new, changed, forward⟩, goesOn⟩ := after
    refine ⟨⟨new, changed, fun s is => ?_⟩, nextInv, goesOn, fun none => absurd none observed⟩
    rw [Allowed, if_neg observed]
    exact forward s is
  rw [LifeCycle.step, LifeCycle.advance] at done
  cases at_ : t.thread.starter with
  | idle | startThread =>
    rw [at_] at done
    cases done
  | setCreated allocator hook | setTerminationRequested =>
    rw [at_] at begun
    cases begun
  | getState allocator hook =>
    rw [at_] at done begun
    cases done
    refine ⟨⟨none, ⟨rfl, rfl⟩, nofun⟩, ?_⟩
    rw [if_neg (by rw [begun.1]; decide)]
    exact begun
  | getStateAgain allocator hook =>
    rw [at_] at done begun
    cases done
    refine ⟨⟨none, ⟨rfl, rfl⟩, nofun⟩, ?_⟩
    rw [if_pos ⟨by rw [begun.1]; decide, begun.2.1⟩]
    exact ⟨begun.1, begun.2.2⟩
  | setStartRequested hook =>
    rw [at_] at done begun
    obtain ⟨created, rfl⟩ := begun
    cases done
    refine ⟨⟨_, (LifeCycle.setState_changed ..).goTo _, fun s set => ?_⟩, ?_⟩
    · rw [created] at set ⊢
      cases set
      decide
    · rw [LifeCycle.setState_snd, created]
      show Begun (t.thread.setState .starter false true eStartRequested).1.fState _
      rw [LifeCycle.setState_fState, created]
      rfl
  | setStartInProgress | setStarted =>
    rw [at_] at done
    cases done
    refine ⟨⟨_, (LifeCycle.setState_changed ..).goTo _, fun s set => ?_⟩, trivial⟩
    revert set
    cases t.thread.fState <;> cases s <;> simp [EThreadState.setState, intSetState, value, lt_iff, le_iff]

end Thread

/-! ### All threads -/

structure State.Books (σ : State) : Prop where
  threads : ∀ t ∈ σ.fThreadPool, t.Inv
  lost : σ.lost = []
  running : σ.fRunningThreads = total PoolThread.running σ.fThreadPool
  terminated : σ.fTerminatedThreads + total PoolThread.pending σ.fThreadPool ≤ σ.threads

def Call.Fits (pool : List PoolThread) : Call → Prop
  | idle | starting _ | startingThread _ => True
  | terminating i result _ | checking i result _ =>
    result = 0 → ∀ (j : Nat) (t : PoolThread), j < i → pool[j]? = some t → t.thread.fState = eTerminated
  | joining _ => ∀ t ∈ pool, t.thread.fState = eTerminated
  | allocating i _ => pool.length = i ∧ ∀ t ∈ pool, t.observers = 0
  | initing i _ => ∀ (j : Nat) (t : PoolThread), i ≤ j → pool[j]? = some t → t.observers = 0

structure State.Inv (σ : State) : Prop extends σ.Books where
  idle : ∀ (i : Nat) (t : PoolThread), σ.fThreadPool[i]? = some t → t.thread.starter ≠ .idle → σ.call = .startingThread i
  fits : σ.call.Fits σ.fThreadPool

section Invariant

variable {σ σ' : State}

theorem State.Books.goTo (books : σ.Books) (call : Call) : (σ.goTo call).Books :=
  ⟨books.threads, books.lost, books.running, books.terminated⟩

theorem perform_cases {i : Nat} {e : LifeCycle.Event} (done : σ.perform i e = .ok σ') :
    ∃ t next, σ.fThreadPool[i]? = some t ∧ LifeCycle.step e t.thread = .ok next ∧
      σ' = { σ with toCounters := σ.toCounters.notify t next, fThreadPool := σ.fThreadPool.set i { t with thread := next } } := by
  unfold State.perform at done
  split at done
  · cases done
  rename_i t here
  split at done
  · cases done
  rename_i next stepped
  cases done
  exact ⟨t, next, here, stepped, rfl⟩

theorem State.Books.perform (books : σ.Books) {i : Nat} {t : PoolThread} {next : LifeCycle.State} (here : σ.fThreadPool[i]? = some t)
    (keeps : t.Keeps next) :
    State.Books
      { σ with toCounters := σ.toCounters.notify t next, fThreadPool := σ.fThreadPool.set i { t with thread := next } } := by
  have inv := books.threads t (List.mem_of_getElem? here)
  obtain ⟨new, changed, allowed⟩ := keeps.changed
  obtain ⟨running, terminated, ran⟩ := inv.accounts changed allowed σ.toCounters
  have runs := total_replace PoolThread.running here (some { t with thread := next })
  have pends := total_replace PoolThread.pending here (some { t with thread := next })
  dsimp only [replace, Option.map_some, Option.getD_some] at runs pends
  have before := books.running
  have below := books.terminated
  refine ⟨fun u mem => ?_, books.lost, ?_, ?_⟩
  · obtain rfl | ⟨j, -, there⟩ := (mem_set_iff here _).mp mem
    · exact ⟨keeps.inv, inv.once, ran, keeps.begun, keeps.unobserved⟩
    · exact books.threads u (List.mem_of_getElem? there)
  · show (σ.toCounters.notify t next).fRunningThreads = total _ (σ.fThreadPool.set i _)
    linarith
  · show (σ.toCounters.notify t next).fTerminatedThreads + total _ (σ.fThreadPool.set i _) ≤ _
    linarith

theorem State.Inv.starter (inv : σ.Inv) {i : Nat} {t : PoolThread} (here : σ.fThreadPool[i]? = some t)
    (other : σ.call ≠ .startingThread i) : t.thread.starter = .idle :=
  by_contra fun busy => other (inv.idle i t here busy)

theorem State.Inv.goTo (inv : σ.Inv) {call : Call} (quiet : ∀ i, σ.call ≠ .startingThread i) (fits : call.Fits σ.fThreadPool) :
    (σ.goTo call).Inv :=
  ⟨inv.toBooks.goTo call, fun i t here busy => absurd (inv.idle i t here busy) (quiet i), fits⟩

theorem State.Inv.system (inv : σ.Inv) {i j : Nat} (done : σ.perform i (.system j) = .ok σ') : σ'.Inv := by
  obtain ⟨t, next, here, stepped, rfl⟩ := perform_cases done
  have threadInv := inv.threads t (List.mem_of_getElem? here)
  obtain ⟨ongoing, -, same, -⟩ := threadInv.inv.system_changed stepped
  refine ⟨inv.toBooks.perform here (threadInv.system stepped), ?_, ?_⟩
  · intro k u at_k busy
    rcases (getElem?_set_iff here _).mp at_k with ⟨rfl, rfl⟩ | ⟨-, at_k⟩
    · exact inv.idle k t here (by rwa [← same])
    · exact inv.idle k u at_k busy
  · have fits := inv.fits
    have other : ∀ {k : Nat} {u : PoolThread}, (σ.fThreadPool.set i { t with thread := next })[k]? = some u →
        ∃ u', σ.fThreadPool[k]? = some u' ∧ u.observers = u'.observers ∧ (u'.thread.fState = eTerminated → u = u') := by
      intro k u at_k
      rcases (getElem?_set_iff here _).mp at_k with ⟨rfl, rfl⟩ | ⟨-, at_k⟩
      · exact ⟨t, here, rfl, fun terminated => absurd terminated ongoing.2⟩
      · exact ⟨u, at_k, rfl, fun _ => rfl⟩
    show σ.call.Fits (σ.fThreadPool.set i _)
    cases at_ : σ.call with
    | idle | starting k | startingThread k => trivial
    | terminating k result init | checking k result init =>
      rw [at_] at fits
      intro isZero l u before at_l
      obtain ⟨u', there, -, same⟩ := other at_l
      have ended := fits isZero l u' before there
      rw [same ended, ended]
    | joining init =>
      rw [at_] at fits
      intro u mem
      obtain ⟨l, at_l⟩ := List.getElem?_of_mem mem
      obtain ⟨u', there, -, same⟩ := other at_l
      have ended := fits u' (List.mem_of_getElem? there)
      rw [same ended, ended]
    | allocating k init =>
      rw [at_] at fits
      refine ⟨(List.length_set ..).trans fits.1, fun u mem => ?_⟩
      obtain ⟨l, at_l⟩ := List.getElem?_of_mem mem
      obtain ⟨u', there, same, -⟩ := other at_l
      rw [same, fits.2 u' (List.mem_of_getElem? there)]
    | initing k init =>
      rw [at_] at fits
      intro l u after at_l
      obtain ⟨u', there, same, -⟩ := other at_l
      rw [same, fits l u' after there]

theorem State.Books.joins (books : σ.Books) (ended : ∀ t ∈ σ.fThreadPool, t.thread.fState = eTerminated) : σ.fRunningThreads = 0 := by
  rw [books.running]
  refine List.sum_eq_zero fun n mem => ?_
  obtain ⟨t, inPool, rfl⟩ := List.mem_map.mp mem
  unfold PoolThread.running
  rw [if_neg]
  intro ran
  have before := ((books.threads t inPool).ran.mp ran).2
  rw [ended t inPool] at before
  exact absurd before (by decide)

theorem deletePool_empty (books : σ.Books) (ended : ∀ t ∈ σ.fThreadPool, t.thread.fState = eTerminated) :
    σ.deletePool = { σ with fThreadPool := [] } := if_pos (books.joins ended)

theorem total_pending_nonneg (pool : List PoolThread) : 0 ≤ total PoolThread.pending pool := by
  refine List.sum_nonneg fun n mem => ?_
  obtain ⟨t, -, rfl⟩ := List.mem_map.mp mem
  unfold PoolThread.pending
  split <;> decide

theorem State.Books.deleted (books : σ.Books) (ended : ∀ t ∈ σ.fThreadPool, t.thread.fState = eTerminated) :
    State.Books { σ with fThreadPool := [] } := by
  refine ⟨nofun, books.lost, books.joins ended, ?_⟩
  have below := books.terminated
  have nonneg := total_pending_nonneg σ.fThreadPool
  show σ.fTerminatedThreads + 0 ≤ _
  linarith

theorem State.Books.allocPool (books : σ.Books) (empty : σ.fThreadPool = []) (init : InitArgs) : (σ.allocPool init).Inv := by
  have running := books.running
  refine ⟨⟨books.threads, books.lost, running, ?_⟩, ?_, ?_⟩
  · show 0 + total _ σ.fThreadPool ≤ 0
    rw [empty]
    decide
  · intro i t here
    rw [show (σ.allocPool init).fThreadPool = [] from empty] at here
    cases here
  · show Call.Fits σ.fThreadPool (if _ then _ else _)
    rw [empty]
    split
    · exact ⟨rfl, nofun⟩
    · trivial

theorem State.Inv.joined (inv : σ.Inv) {init : Option InitArgs} (at_ : σ.call = .joining init) (done : ThreadPool.advance σ = .ok σ') :
    σ'.Inv ∧ σ'.fThreadPool = [] := by
  have fits := inv.fits
  rw [at_] at fits
  have deleted := deletePool_empty inv.toBooks fits
  have books := inv.toBooks.deleted fits
  unfold ThreadPool.advance at done
  rw [at_] at done
  cases init with
  | none =>
    cases done
    rw [deleted]
    exact ⟨⟨books.goTo .idle, nofun, trivial⟩, rfl⟩
  | some init =>
    cases done
    rw [deleted]
    exact ⟨books.allocPool rfl init, rfl⟩

theorem State.Inv.stored (inv : σ.Inv) {i : Nat} {init : InitArgs} (at_ : σ.call = .allocating i init) :
    ((σ.store i ⟨LifeCycle.State.new, 0⟩).goTo (.allocating (i + 1) init)).Inv := by
  have fits := inv.fits
  rw [at_] at fits
  obtain ⟨length, unobserved⟩ := fits
  have isNew : (σ.store i ⟨LifeCycle.State.new, 0⟩).fThreadPool = σ.fThreadPool ++ [⟨LifeCycle.State.new, 0⟩] :=
    if_neg (by omega)
  have noOther : (σ.store i ⟨LifeCycle.State.new, 0⟩).lost = [] := by
    show σ.lost ++ (σ.fThreadPool[i]?).toList = []
    rw [inv.lost, List.getElem?_eq_none (by omega)]
    rfl
  have below := inv.terminated
  refine ⟨⟨?_, noOther, ?_, ?_⟩, ?_, ?_⟩
  · show ∀ t ∈ (σ.store i ⟨LifeCycle.State.new, 0⟩).fThreadPool, t.Inv
    rw [isNew]
    intro t mem
    rcases List.mem_append.mp mem with mem | mem
    · exact inv.threads t mem
    · rw [List.mem_singleton.mp mem]
      exact ⟨LifeCycle.State.inv_new, by decide, by decide, trivial, fun _ => ⟨rfl, .inl rfl⟩⟩
  · show σ.fRunningThreads = total _ (σ.store i ⟨LifeCycle.State.new, 0⟩).fThreadPool
    rw [isNew, total_append, inv.running]
    exact (add_zero _).symm
  · show σ.fTerminatedThreads + total _ (σ.store i ⟨LifeCycle.State.new, 0⟩).fThreadPool ≤ ((σ.threads + 1 : Nat) : Int)
    rw [isNew, total_append, Int.natCast_add]
    have one : total PoolThread.pending [⟨LifeCycle.State.new, 0⟩] = 1 := rfl
    rw [one]
    push_cast
    linarith
  · show ∀ (k : Nat) (t : PoolThread), (σ.store i ⟨LifeCycle.State.new, 0⟩).fThreadPool[k]? = some t → _
    rw [isNew]
    intro k t at_k busy
    rcases List.mem_append.mp (List.mem_of_getElem? at_k) with mem | mem
    · exact absurd ((inv.threads t mem).unobserved (unobserved t mem)).1 busy
    · rw [List.mem_singleton.mp mem] at busy
      exact absurd rfl busy
  · show _ = _ ∧ ∀ t ∈ (σ.store i ⟨LifeCycle.State.new, 0⟩).fThreadPool, _
    rw [isNew, show ((σ.store i ⟨LifeCycle.State.new, 0⟩).goTo (.allocating (i + 1) init)).fThreadPool = _ from isNew]
    refine ⟨by rw [List.length_append, length]; rfl, fun t mem => ?_⟩
    rcases List.mem_append.mp mem with mem | mem
    · exact unobserved t mem
    · rw [List.mem_singleton.mp mem]

theorem State.Inv.inited (inv : σ.Inv) {i : Nat} {init : InitArgs} (at_ : σ.call = .initing i init) {t : PoolThread}
    (here : σ.fThreadPool[i]? = some t) :
    ({ σ with fThreadPool := σ.fThreadPool.set i { t with observers := t.observers + 1 } }.goTo (.initing (i + 1) init)).Inv := by
  have fits := inv.fits
  rw [at_] at fits
  have none : t.observers = 0 := fits i t (Nat.le_refl i) here
  have threadInv := inv.threads t (List.mem_of_getElem? here)
  have runs := total_replace PoolThread.running here (some { t with observers := t.observers + 1 })
  have pends := total_replace PoolThread.pending here (some { t with observers := t.observers + 1 })
  dsimp only [replace, Option.map_some, Option.getD_some] at runs pends
  have below := inv.terminated
  refine ⟨⟨fun u mem => ?_, inv.lost, ?_, ?_⟩, ?_, ?_⟩
  · obtain rfl | ⟨j, -, there⟩ := (mem_set_iff here _).mp mem
    · exact ⟨threadInv.inv, by show t.observers + 1 ≤ 1; omega, threadInv.ran, threadInv.begun, fun zero => absurd zero (Nat.succ_ne_zero _)⟩
    · exact inv.threads u (List.mem_of_getElem? there)
  · show σ.fRunningThreads = total _ (σ.fThreadPool.set i _)
    have same : PoolThread.running { t with observers := t.observers + 1 } = t.running := rfl
    have before := inv.running
    linarith
  · show σ.fTerminatedThreads + total _ (σ.fThreadPool.set i _) ≤ (σ.threads : Int)
    have less : PoolThread.pending { t with observers := t.observers + 1 } ≤ t.pending := by
      have whole : t.pending = 1 := if_neg fun both => both.1 none
      rw [whole]
      unfold PoolThread.pending
      split <;> decide
    linarith
  · intro k u at_k busy
    rcases (getElem?_set_iff here _).mp at_k with ⟨rfl, rfl⟩ | ⟨-, at_k⟩
    · exact absurd (threadInv.unobserved none).1 busy
    · have elsewhere := inv.idle k u at_k busy
      rw [at_] at elsewhere
      cases elsewhere
  · intro k u after at_k
    rcases (getElem?_set_iff here _).mp at_k with ⟨rfl, -⟩ | ⟨-, at_k⟩
    · exact absurd after (Nat.not_succ_le_self _)
    · exact fits k u (Nat.le_of_succ_le after) at_k

theorem State.Inv.terminating (inv : σ.Inv) {i result : Nat} {init : Option InitArgs} (at_ : σ.call = .terminating i result init)
    (late : ∀ t, σ.fThreadPool[i]? = some t → t.observers = 0 ∨ eRunning ≤ t.thread.fState)
    (done : σ.perform i .terminate = .ok σ') : (σ'.goTo (.checking i result init)).Inv := by
  obtain ⟨t, next, here, stepped, rfl⟩ := perform_cases done
  have fits := inv.fits
  have quiet : ∀ k, σ.call ≠ .startingThread k := by
    rw [at_]
    exact nofun
  have keeps := (inv.threads t (List.mem_of_getElem? here)).terminate (inv.starter here (quiet i)) (late t here) stepped
  have idle : next.starter = .idle := by
    cases stepped
    exact (LifeCycle.setState_starter ..).trans (inv.starter here (quiet i))
  refine ⟨(inv.toBooks.perform here keeps).goTo _, fun k u at_k busy => ?_, fun isZero j u before at_j => ?_⟩
  · rcases (getElem?_set_iff here _).mp at_k with ⟨rfl, rfl⟩ | ⟨-, at_k⟩
    · exact absurd idle busy
    · exact absurd (inv.idle k u at_k busy) (quiet k)
  · rw [at_] at fits
    rcases (getElem?_set_iff here _).mp at_j with ⟨rfl, -⟩ | ⟨-, at_j⟩
    · exact absurd before (Nat.lt_irrefl _)
    · exact fits isZero j u before at_j

theorem State.Inv.starting (inv : σ.Inv) {i : Nat} {e : LifeCycle.Event} (quiet : ∀ k, σ.call = .startingThread k → k = i)
    (keeps : ∀ t next, σ.fThreadPool[i]? = some t → LifeCycle.step e t.thread = .ok next → t.Keeps next)
    (done : σ.perform i e = .ok σ') : (σ'.goTo (.startingThread i)).Inv := by
  obtain ⟨t, next, here, stepped, rfl⟩ := perform_cases done
  refine ⟨(inv.toBooks.perform here (keeps t next here stepped)).goTo _, fun k u at_k busy => ?_, trivial⟩
  rcases (getElem?_set_iff here _).mp at_k with ⟨rfl, -⟩ | ⟨-, at_k⟩
  · rfl
  · rw [quiet k (inv.idle k u at_k busy)]
    rfl

theorem goTo_startingThread {i : Nat} (at_ : σ.call = .startingThread i) {e : LifeCycle.Event} (done : σ.perform i e = .ok σ') :
    σ'.goTo (.startingThread i) = σ' := by
  obtain ⟨t, next, -, -, rfl⟩ := perform_cases done
  unfold State.goTo
  rw [← at_]

theorem State.Inv.advance (inv : σ.Inv) (orderly : Orderly .advance σ) (done : ThreadPool.advance σ = .ok σ') : σ'.Inv := by
  have fits := inv.fits
  have joins := @State.Inv.joined σ σ' inv
  unfold ThreadPool.advance at done
  cases at_ : σ.call with
  | idle | starting i =>
    rw [at_] at done
    cases done
  | startingThread i =>
    rw [at_] at done
    dsimp only at done
    split at done
    · cases done
    rename_i t here
    split at done
    · rename_i idle
      cases done
      refine ⟨inv.toBooks.goTo _, fun k u at_k busy => ?_, trivial⟩
      have same := inv.idle k u at_k busy
      rw [at_] at same
      cases same
      have at_k : σ.fThreadPool[i]? = some u := at_k
      rw [here] at at_k
      cases at_k
      exact absurd idle busy
    · rw [← goTo_startingThread at_ done]
      refine inv.starting (fun k same => ?_) (fun t next here stepped => ?_) done
      · rw [at_] at same
        exact (Call.startingThread.inj same).symm
      · exact (inv.threads t (List.mem_of_getElem? here)).advance stepped
  | terminating i result init =>
    rw [at_] at done fits
    dsimp only at done
    split at done
    · cases performed : σ.perform i .terminate with
      | error e =>
        rw [performed] at done
        cases done
      | ok σ₁ =>
        rw [performed] at done
        cases done
        refine inv.terminating at_ (fun t here => orderly t ?_) performed
        rw [State.next, at_]
        exact here
    · rename_i beyond
      cases done
      refine State.Inv.goTo (σ := { σ with fTerminated := true })
        ⟨⟨inv.threads, inv.lost, inv.running, inv.terminated⟩, inv.idle, inv.fits⟩ (fun k => by rw [at_]; exact nofun) ?_
      split
      · rename_i isZero
        intro t mem
        obtain ⟨j, inside, rfl⟩ := List.mem_iff_getElem.mp mem
        exact fits isZero j _ (Nat.lt_of_lt_of_le inside (Nat.le_of_not_lt beyond)) (List.getElem?_eq_getElem inside)
      · trivial
  | checking i result init =>
    rw [at_] at done fits
    dsimp only at done
    split at done
    · cases done
    rename_i t here
    split at done
    · rename_i ended
      cases done
      refine inv.goTo (fun k => by rw [at_]; exact nofun) fun isZero j u before at_j => ?_
      rcases Nat.lt_succ_iff_lt_or_eq.mp before with before | rfl
      · exact fits isZero j u before at_j
      · rw [here] at at_j
        cases at_j
        exact ended
    · cases done
  | joining init =>
    refine (joins at_ ?_).1
    unfold ThreadPool.advance
    exact done
  | allocating i init =>
    rw [at_] at done fits
    dsimp only at done
    have quiet : ∀ k, σ.call ≠ .startingThread k := fun k => by rw [at_]; exact nofun
    split at done
    · split at done
      · cases done
        exact inv.stored at_
      · cases done
        exact inv.goTo quiet trivial
    · cases done
      exact inv.goTo quiet fun j t _ at_j => fits.2 t (List.mem_of_getElem? at_j)
  | initing i init =>
    rw [at_] at done
    dsimp only at done
    have quiet : ∀ k, σ.call ≠ .startingThread k := fun k => by rw [at_]; exact nofun
    split at done
    · cases done
      exact inv.goTo quiet trivial
    rename_i t here
    split at done
    · cases done
      exact inv.inited at_ here
    · cases done
      exact inv.goTo quiet trivial

theorem State.Inv.step {e : Event} (inv : σ.Inv) (orderly : Orderly e σ) (done : step e σ = .ok σ') : σ'.Inv := by
  cases e with
  | init args =>
    dsimp only [ThreadPool.step] at done
    split at done
    · rename_i at_
      cases done
      split
      · rename_i again
        exact inv.toBooks.allocPool (orderly again) args
      · exact inv.goTo (fun k => by rw [at_]; exact nofun) fun _ j t before => absurd before (Nat.not_lt_zero j)
    · cases done
  | start =>
    dsimp only [ThreadPool.step] at done
    split at done
    · rename_i at_
      cases done
      exact inv.goTo (fun k => by rw [at_.1]; exact nofun) trivial
    · cases done
  | terminate =>
    dsimp only [ThreadPool.step] at done
    split at done
    · rename_i at_
      cases done
      exact inv.goTo (fun k => by rw [at_]; exact nofun) fun _ j t before => absurd before (Nat.not_lt_zero j)
    · cases done
  | startNext allocator hook =>
    dsimp only [ThreadPool.step] at done
    split at done
    · rename_i i at_
      have quiet : ∀ k, σ.call ≠ .startingThread k := fun k => by rw [at_]; exact nofun
      split at done
      · split at done
        · rename_i given
          subst given
          cases performed : σ.perform i (.start true hook) with
          | error e =>
            rw [performed] at done
            cases done
          | ok σ₁ =>
            rw [performed] at done
            cases done
            refine inv.starting (fun k same => absurd same (quiet k)) (fun t next here stepped => ?_) performed
            have fresh := orderly t (by rw [State.next, at_]; exact here)
            exact (inv.threads t (List.mem_of_getElem? here)).start (inv.starter here (quiet i)) fresh stepped
        · cases done
          exact inv.goTo quiet trivial
      · cases done
        exact inv.goTo quiet trivial
    · cases done
  | advance => exact inv.advance orderly done
  | startThread ok =>
    dsimp only [ThreadPool.step] at done
    split at done
    · rename_i i at_
      rw [← goTo_startingThread at_ done]
      refine inv.starting (fun k same => ?_) (fun t next here stepped => ?_) done
      · rw [at_] at same
        exact (Call.startingThread.inj same).symm
      · exact (inv.threads t (List.mem_of_getElem? here)).startThread stepped
    · cases done
  | timeOut =>
    dsimp only [ThreadPool.step] at done
    split at done
    · rename_i i result init at_
      split at done
      · cases done
      split at done
      · cases done
      cases done
      exact inv.goTo (fun k => by rw [at_]; exact nofun) fun isZero => absurd isZero (Nat.succ_ne_zero result)
    · cases done
  | system i j => exact inv.system done
  | lost i j =>
    dsimp only [ThreadPool.step] at done
    rw [inv.lost] at done
    cases done

theorem State.Inv.counted (inv : σ.Inv) : σ.Counted where
  running := inv.running
  terminated := by
    have below := inv.terminated
    have nonneg := total_pending_nonneg σ.fThreadPool
    linarith
  joins := inv.toBooks.joins
  deletes init at_ σ' done := (inv.joined at_ done).2

end Invariant

theorem inv_new : State.new.Inv := ⟨⟨nofun, rfl, rfl, Int.le_refl 0⟩, nofun, trivial⟩

/-- A pool of one thread that is started, terminated and deleted. -/
def startedOnce : List Event :=
  [.init ⟨1, 1, 1⟩, .advance, .advance, .advance, .advance, .start, .startNext true true, .advance, .advance, .advance, .startThread true,
    .advance, .advance, .advance, .startNext true true, .system 0 0, .system 0 0, .terminate, .advance, .system 0 0, .system 0 0,
    .system 0 0, .system 0 0, .advance, .advance, .advance]

def neverStarted : List Event :=
  [.init ⟨1, 1, 1⟩, .advance, .advance, .advance, .advance, .terminate, .advance, .advance, .advance, .advance]

end ThreadPool

end Coast.Threading
