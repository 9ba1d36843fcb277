import Coast.Lib.Pool
import Coast.Lib.Runs
import Coast.Threading.ThreadState

/-!
# Pools of workers

Callers of `Enter` hand their workloads to the workers of a pool that has been started. All threads of
the pool stay in `eRunning`. `fMutex` is the mutex of the manager; each worker has its `fStateMutex`.
-/

namespace Coast.Threading

open Pool ERunningState

/-! ### The statistics -/

structure WPMStatHandler where
  fPoolSize : Int
  fMaxParallelRequests : Int
  fCurrentParallelRequests : Int
  fTotalRequests : Int
  deriving DecidableEq, Repr

namespace WPMStatHandler

inductive StatEvt where
  | eEnter
  | eLeave
  deriving DecidableEq, Repr

def new (poolSize : Int) : WPMStatHandler where
  fPoolSize := poolSize
  fMaxParallelRequests := 0
  fCurrentParallelRequests := 0
  fTotalRequests := 0

/-- `DoHandleStatEvt` without the timer. -/
def handleStatEvt (s : WPMStatHandler) : StatEvt → WPMStatHandler
  | .eEnter =>
    { s with
      fCurrentParallelRequests := s.fCurrentParallelRequests + 1,
      fMaxParallelRequests := max s.fMaxParallelRequests (s.fCurrentParallelRequests + 1) }
  | .eLeave =>
    { s with fCurrentParallelRequests := s.fCurrentParallelRequests - 1, fTotalRequests := s.fTotalRequests + 1 }

end WPMStatHandler

namespace WorkerPool

/-- What is being done under the `fStateMutex` of a worker. -/
inductive Section where
  /-- `CheckRunningState(eWorking)` of the worker. -/
  | checking
  /-- `SetReady` has set `fRunningState`; `Update` is to come. -/
  | leaving
  | left
  /-- `SetWorking` of a caller has set `fRunningState`; `DoWorkingHook` is to come. -/
  | entering (caller : Nat)
  /-- `Update` is to come. -/
  | entered (caller : Nat)
  | counted (caller : Nat)
  deriving DecidableEq, Repr

/-- Where a worker stands in `Run`. -/
inductive Place where
  | checkRunningState
  | doProcessWorkload
  | setReady
  deriving DecidableEq, Repr

structure Worker (W : Type*) where
  fRunningState : ERunningState
  /-- What `DoWorkingHook` has stored. -/
  workload : Option W
  /-- The `fStateMutex` is locked for a section. -/
  fStateMutex : Option Section
  place : Place
  deriving DecidableEq, Repr

/-- Where a caller stands in `Enter`. -/
inductive Entering where
  /-- Before `fMutex` is locked. -/
  | lock
  | findNextRunnable
  /-- In `TimedWait`. -/
  | asleep
  | searching (i : Int)
  | setWorking (i : Nat)
  | returning (success : Bool)
  | returned (success : Bool)
  deriving DecidableEq, Repr

structure Caller (W : Type*) where
  workload : W
  lFindWorkerHint : Int
  place : Entering
  deriving DecidableEq, Repr

inductive Entry (W : Type*) where
  | handed (caller worker : Nat) (workload : W)
  | processed (worker : Nat) (workload : Option W)
  | ready (worker : Nat)
  deriving DecidableEq, Repr

structure State (W : Type*) where
  workers : List (Worker W)
  callers : List (Caller W)
  /-- The caller that has locked `fMutex`. -/
  fMutex : Option Nat
  fBlockRequestHandling : Bool
  fpStatEvtHandler : WPMStatHandler
  log : List (Entry W)
  deriving DecidableEq, Repr

inductive Event (W : Type*) where
  | enter (workload : W) (lFindWorkerHint : Int)
  | caller (k : Nat)
  | worker (i : Nat)
  | setBlockRequests (block : Bool)
  deriving DecidableEq, Repr

inductive NotEnabled where
  | notEnabled
  deriving DecidableEq, Repr

namespace State

variable {W : Type*} (σ : State W)

def getPoolSize : Int := σ.workers.length

def currentParallelRequests : Int := σ.fpStatEvtHandler.fCurrentParallelRequests

def doGetWorker (i : Int) : Option (Worker W) := if i < 0 then none else σ.workers[i.toNat]?

def setCaller (k : Nat) (c : Caller W) (place : Entering) : State W :=
  { σ with callers := σ.callers.set k { c with place := place } }

def setWorker (i : Nat) (w : Worker W) : State W := { σ with workers := σ.workers.set i w }

def update (evt : WPMStatHandler.StatEvt) : State W := { σ with fpStatEvtHandler := σ.fpStatEvtHandler.handleStatEvt evt }

def record (entry : Entry W) : State W := { σ with log := σ.log ++ [entry] }

/-- Where `FindNextRunnable` begins to search. -/
def firstIndex (lFindWorkerHint : Int) : Int :=
  if lFindWorkerHint < 0 then (σ.currentParallelRequests + 1).tmod σ.getPoolSize else lFindWorkerHint.tmod σ.getPoolSize

/-- The next operation of `Enter`. -/
def advance (k : Nat) (c : Caller W) : Except NotEnabled (State W) :=
  match c.place with
  | .lock | .asleep =>
    if σ.fMutex = none then .ok { σ.setCaller k c .findNextRunnable with fMutex := some k } else .error .notEnabled
  | .findNextRunnable =>
    if σ.getPoolSize ≤ σ.currentParallelRequests ∨ σ.fBlockRequestHandling then .ok { σ.setCaller k c .asleep with fMutex := none }
    else .ok (σ.setCaller k c (.searching (σ.firstIndex c.lFindWorkerHint)))
  | .searching i =>
    match σ.doGetWorker i with
    | none => .ok (σ.setCaller k c (.returning false))
    | some w =>
      -- `IsReady` locks with `TryLock`
      if w.fStateMutex = none ∧ w.fRunningState = eReady then .ok (σ.setCaller k c (.setWorking i.toNat))
      else .ok (σ.setCaller k c (.searching ((i + 1).tmod σ.getPoolSize)))
  | .setWorking i =>
    match σ.workers[i]? with
    | none => .error .notEnabled
    | some w =>
      if w.fStateMutex = none then
        if w.fRunningState = eWorking then .ok (σ.setCaller k c (.returning false))
        else .ok (σ.setWorker i { w with fRunningState := eWorking, fStateMutex := some (.entering k) })
      else if w.fStateMutex = some (.entering k) then
        .ok ((σ.setWorker i { w with workload := some c.workload, fStateMutex := some (.entered k) }).record (.handed k i c.workload))
      else if w.fStateMutex = some (.entered k) then
        .ok ((σ.setWorker i { w with fStateMutex := some (.counted k) }).update .eEnter)
      else if w.fStateMutex = some (.counted k) then
        .ok ((σ.setWorker i { w with fStateMutex := none }).setCaller k c (.returning true))
      else .error .notEnabled
  | .returning success => .ok { σ.setCaller k c (.returned success) with fMutex := none }
  | .returned _ => .error .notEnabled

/-- The next operation of `Run`. -/
def advanceWorker (i : Nat) (w : Worker W) : Except NotEnabled (State W) :=
  match w.place, w.fStateMutex with
  | .checkRunningState, none => .ok (σ.setWorker i { w with fStateMutex := some .checking })
  | .checkRunningState, some .checking =>
    .ok (σ.setWorker i
      { w with fStateMutex := none, place := if w.fRunningState = eWorking then .doProcessWorkload else .checkRunningState })
  | .doProcessWorkload, _ => .ok ((σ.setWorker i { w with place := .setReady }).record (.processed i w.workload))
  | .setReady, none =>
    if w.fRunningState = eReady then .ok (σ.setWorker i { w with place := .checkRunningState })
    else .ok ((σ.setWorker i { w with fRunningState := eReady, fStateMutex := some .leaving }).record (.ready i))
  | .setReady, some .leaving => .ok ((σ.setWorker i { w with fStateMutex := some .left }).update .eLeave)
  | .setReady, some .left => .ok (σ.setWorker i { w with fStateMutex := none, place := .checkRunningState })
  | _, _ => .error .notEnabled

end State

variable {W : Type*}

def step : Event W → State W → Except NotEnabled (State W)
  | .enter workload hint, σ => .ok { σ with callers := σ.callers ++ [⟨workload, hint, .lock⟩] }
  | .caller k, σ =>
    match σ.callers[k]? with
    | none => .error .notEnabled
    | some c => σ.advance k c
  | .worker i, σ =>
    match σ.workers[i]? with
    | none => .error .notEnabled
    | some w => σ.advanceWorker i w
  | .setBlockRequests block, σ => if σ.fMutex = none then .ok { σ with fBlockRequestHandling := block } else .error .notEnabled

def Worker.new : Worker W where
  fRunningState := eReady
  workload := none
  fStateMutex := none
  place := .checkRunningState

/-- The pool after `Init`. -/
def State.started (poolSize : Nat) : State W where
  workers := List.replicate poolSize .new
  callers := []
  fMutex := none
  fBlockRequestHandling := false
  fpStatEvtHandler := .new poolSize
  log := []

abbrev run : List (Event W) → State W → Except NotEnabled (State W) := Runs.run step

/-! ### What the pool promises -/

def Entry.worker : Entry W → Nat
  | handed _ worker _ => worker
  | processed worker _ => worker
  | ready worker => worker

def Entry.caller : Entry W → Option Nat
  | handed caller _ _ => some caller
  | processed _ _ => none
  | ready _ => none

inductive Phase (W : Type*) where
  | ready
  | handed (workload : W)
  | processed
  deriving DecidableEq, Repr

inductive Cycle : List (Entry W) → Phase W → Prop where
  | start : Cycle [] .ready
  | handed {entries} (caller worker workload) (cycle : Cycle entries .ready) : Cycle (entries ++ [.handed caller worker workload]) (.handed workload)
  | processed {entries} (worker workload) (cycle : Cycle entries (.handed workload)) : Cycle (entries ++ [.processed worker (some workload)]) .processed
  | ready {entries} (worker) (cycle : Cycle entries .processed) : Cycle (entries ++ [.ready worker]) .ready

def Worker.changing (w : Worker W) : Bool :=
  match w.fStateMutex with
  | some .leaving | some (.entering _) | some (.entered _) => true
  | _ => false

/-- The number of workers in `eWorking`. -/
def State.working (σ : State W) : Nat := σ.workers.countP fun w => w.fRunningState = eWorking

structure State.Sound (σ : State W) : Prop where
  cycles : ∀ i < σ.workers.length, ∃ phase, Cycle (σ.log.filter fun e => e.worker = i) phase
  handed : ∀ (k : Nat) (c : Caller W), σ.callers[k]? = some c → c.place = .returned true →
    ∃ i < σ.workers.length, (σ.log.filter fun e => e.caller = some k) = [.handed k i c.workload]
  refused : ∀ (k : Nat) (c : Caller W), σ.callers[k]? = some c → c.place = .returned false → (σ.log.filter fun e => e.caller = some k) = []
  counted : (∀ w ∈ σ.workers, w.changing = false) → σ.currentParallelRequests = σ.working
  bounded : 0 ≤ σ.currentParallelRequests ∧ σ.currentParallelRequests ≤ σ.getPoolSize
  free : (∀ w ∈ σ.workers, w.changing = false) → σ.currentParallelRequests < σ.getPoolSize → ∃ w ∈ σ.workers, w.fRunningState = eReady

/-! ### The invariant -/

/-- The caller of `SetWorking` that has locked the `fStateMutex`. -/
def Section.caller : Section → Option Nat
  | entering k | entered k | counted k => some k
  | _ => none

def Worker.caller (w : Worker W) : Option Nat := w.fStateMutex.bind Section.caller

/-- The workload of the phase is the one that `DoWorkingHook` has stored. -/
def Worker.HasWork (w : Worker W) (phase : Phase W) : Prop :=
  w.fRunningState = eWorking ∧ ∃ x, phase = .handed x ∧ w.workload = some x

def Worker.Fits (w : Worker W) (phase : Phase W) : Prop :=
  match w.place, w.fStateMutex with
  | .checkRunningState, none | .checkRunningState, some .checking => w.fRunningState = eReady ∧ phase = .ready ∨ w.HasWork phase
  | .checkRunningState, some (.entering _) => w.fRunningState = eWorking ∧ phase = .ready
  | .checkRunningState, some (.entered _) | .checkRunningState, some (.counted _) => w.HasWork phase
  | .doProcessWorkload, none => w.HasWork phase
  | .setReady, none => w.fRunningState = eWorking ∧ phase = .processed
  | .setReady, some .leaving | .setReady, some .left => w.fRunningState = eReady ∧ phase = .ready
  | _, _ => False

def Worker.counts (w : Worker W) : Int :=
  match w.fStateMutex with
  | some .leaving => 1
  | some (.entering _) | some (.entered _) => 0
  | _ => if w.fRunningState = eWorking then 1 else 0

/-- The caller is in the section under `fMutex`. -/
def Entering.Inside : Entering → Prop
  | findNextRunnable | searching _ | setWorking _ | returning _ => True
  | _ => False

def Caller.Logged (σ : State W) (k : Nat) (c : Caller W) : Prop :=
  match c.place with
  | .setWorking i =>
    ∃ w, σ.workers[i]? = some w ∧
      (w.fRunningState = eReady ∧ w.caller = none ∧ (σ.log.filter fun e => e.caller = some k) = [] ∨
        w.fStateMutex = some (.entering k) ∧ (σ.log.filter fun e => e.caller = some k) = [] ∨
        (w.fStateMutex = some (.entered k) ∨ w.fStateMutex = some (.counted k)) ∧
          (σ.log.filter fun e => e.caller = some k) = [.handed k i c.workload])
  | .returning true | .returned true => ∃ i < σ.workers.length, (σ.log.filter fun e => e.caller = some k) = [.handed k i c.workload]
  | _ => (σ.log.filter fun e => e.caller = some k) = []

structure State.Inv (σ : State W) : Prop where
  cycles : ∀ (i : Nat) (w : Worker W), σ.workers[i]? = some w → ∃ phase, Cycle (σ.log.filter fun e => e.worker = i) phase ∧ w.Fits phase
  counted : σ.currentParallelRequests = total Worker.counts σ.workers
  inside : ∀ (k : Nat) (c : Caller W), σ.callers[k]? = some c → (c.place.Inside ↔ σ.fMutex = some k)
  holder : ∀ k, σ.fMutex = some k → k < σ.callers.length
  handing : ∀ (i : Nat) (w : Worker W) (k : Nat), σ.workers[i]? = some w → w.caller = some k →
    ∃ c, σ.callers[k]? = some c ∧ c.place = .setWorking i
  logged : ∀ (k : Nat) (c : Caller W), σ.callers[k]? = some c → c.Logged σ k
  fresh : ∀ k, σ.callers.length ≤ k → (σ.log.filter fun e => e.caller = some k) = []

section Invariant

variable {σ σ' : State W}

theorem Cycle.snoc {log : List (Entry W)} {i : Nat} {phase phase' : Phase W} {e : Entry W} (cycle : Cycle (log.filter fun e => e.worker = i) phase)
    (mine : e.worker = i) (goesOn : ∀ entries, Cycle entries phase → Cycle (entries ++ [e]) phase') :
    Cycle ((log ++ [e]).filter fun e => e.worker = i) phase' := by
  rw [List.filter_append, List.filter_cons_of_pos (by simpa using mine)]
  exact goesOn _ cycle

theorem filter_append_of_forall {log es : List (Entry W)} {p : Entry W → Bool} (none : ∀ e ∈ es, p e = false) :
    (log ++ es).filter p = log.filter p := by
  have nothing : es.filter p = [] := List.filter_eq_nil_iff.mpr fun e mem => by simp [none e mem]
  rw [List.filter_append, nothing, List.append_nil]

theorem State.Inv.set_worker (inv : σ.Inv) {i : Nat} {w w' : Worker W} {es : List (Entry W)} (here : σ.workers[i]? = some w)
    (workers : σ'.workers = σ.workers.set i w') (log : σ'.log = σ.log ++ es) (mine : ∀ e ∈ es, e.worker = i)
    (cycle : ∃ phase, Cycle ((σ.log ++ es).filter fun e => e.worker = i) phase ∧ w'.Fits phase)
    (counts : σ'.currentParallelRequests + w.counts = σ.currentParallelRequests + w'.counts) :
    (∀ (j : Nat) (u : Worker W), σ'.workers[j]? = some u →
      ∃ phase, Cycle (σ'.log.filter fun e => e.worker = j) phase ∧ u.Fits phase) ∧
      σ'.currentParallelRequests = total Worker.counts σ'.workers := by
  rw [workers, log]
  constructor
  · intro j u at_j
    rcases (getElem?_set_iff here w').mp at_j with ⟨rfl, rfl⟩ | ⟨other, at_j⟩
    · exact cycle
    · rw [filter_append_of_forall fun e mem => by simpa [mine e mem] using fun same => other same.symm]
      exact inv.cycles j u at_j
  · have totals := total_replace Worker.counts here (some w')
    dsimp only [replace, Option.map_some, Option.getD_some] at totals
    have before := inv.counted
    omega

theorem State.Inv.worker (inv : σ.Inv) {i : Nat} {w w' : Worker W} {es : List (Entry W)} (here : σ.workers[i]? = some w)
    (workers : σ'.workers = σ.workers.set i w') (callers : σ'.callers = σ.callers) (mutex : σ'.fMutex = σ.fMutex)
    (log : σ'.log = σ.log ++ es) (mine : ∀ e ∈ es, e.worker = i ∧ e.caller = none)
    (cycle : ∃ phase, Cycle ((σ.log ++ es).filter fun e => e.worker = i) phase ∧ w'.Fits phase)
    (counts : σ'.currentParallelRequests + w.counts = σ.currentParallelRequests + w'.counts)
    (own : w.caller = none ∧ w'.caller = none) (ready : w.fRunningState = eReady → w'.fRunningState = eReady) : σ'.Inv := by
  obtain ⟨cycles, counted⟩ := inv.set_worker here workers log (fun e mem => (mine e mem).1) cycle counts
  have byCaller : ∀ k, (σ'.log.filter fun e => e.caller = some k) = σ.log.filter fun e => e.caller = some k := by
    intro k
    rw [log]
    exact filter_append_of_forall fun e mem => by simp [(mine e mem).2]
  have length : σ'.workers.length = σ.workers.length := by rw [workers, List.length_set]
  refine ⟨cycles, counted, ?_, ?_, ?_, ?_, ?_⟩
  · rw [callers, mutex]
    exact inv.inside
  · rw [callers, mutex]
    exact inv.holder
  · rw [callers, workers]
    intro j u k at_j handing
    rcases (getElem?_set_iff here w').mp at_j with ⟨-, rfl⟩ | ⟨-, at_j⟩
    · rw [own.2] at handing
      cases handing
    · exact inv.handing j u k at_j handing
  · rw [callers]
    intro k c is
    have logged := inv.logged k c is
    unfold Caller.Logged at logged ⊢
    rw [byCaller k, length, workers]
    split
    · rename_i j at_
      rw [at_] at logged
      obtain ⟨u, at_j, state⟩ := logged
      by_cases same : j = i
      · subst same
        rw [here] at at_j
        cases at_j
        refine ⟨w', (getElem?_set_iff here w').mpr (.inl ⟨rfl, rfl⟩), .inl ?_⟩
        have noCaller := own.1
        unfold Worker.caller at noCaller
        rcases state with ⟨isReady, -, none⟩ | ⟨locked, -⟩ | ⟨locked | locked, -⟩
        · exact ⟨ready isReady, own.2, none⟩
        all_goals
          rw [locked] at noCaller
          cases noCaller
      · exact ⟨u, (getElem?_set_iff here w').mpr (.inr ⟨same, at_j⟩), state⟩
    all_goals
      rename_i at_
      simpa only [at_] using logged
  · rw [callers]
    intro k beyond
    rw [byCaller k]
    exact inv.fresh k beyond

theorem State.Inv.worker_silent (inv : σ.Inv) {i : Nat} {w w' : Worker W} (here : σ.workers[i]? = some w)
    (workers : σ'.workers = σ.workers.set i w') (callers : σ'.callers = σ.callers) (mutex : σ'.fMutex = σ.fMutex)
    (log : σ'.log = σ.log) (fits : ∀ phase, w.Fits phase → w'.Fits phase)
    (counts : σ'.currentParallelRequests + w.counts = σ.currentParallelRequests + w'.counts)
    (own : w.caller = none ∧ w'.caller = none) (ready : w.fRunningState = eReady → w'.fRunningState = eReady) : σ'.Inv := by
  obtain ⟨phase, cycle, before⟩ := inv.cycles i w here
  refine inv.worker here workers callers mutex (log.trans (List.append_nil _).symm) nofun ?_ counts own ready
  rw [List.append_nil]
  exact ⟨phase, cycle, fits phase before⟩

theorem State.Inv.advanceWorker (inv : σ.Inv) {i : Nat} {w : Worker W} (here : σ.workers[i]? = some w)
    (done : σ.advanceWorker i w = .ok σ') : σ'.Inv := by
  obtain ⟨phase, cycle, fits⟩ := inv.cycles i w here
  obtain ⟨state, work, mutex, place⟩ := w
  unfold State.advanceWorker at done
  split at done
  · -- `CheckRunningState` locks
    rename_i at_ free
    dsimp only at at_ free
    subst at_ free
    cases done
    exact inv.worker_silent here rfl rfl rfl rfl (fun phase fits => fits) rfl ⟨rfl, rfl⟩ id
  · -- and has looked at `fRunningState`
    rename_i at_ locked
    dsimp only at at_ locked
    subst at_ locked
    cases done
    refine inv.worker_silent here rfl rfl rfl rfl (fun phase fits => ?_) rfl ⟨rfl, rfl⟩ id
    rcases fits with ⟨isReady, is⟩ | hasWork
    · dsimp only at isReady
      subst isReady
      exact .inl ⟨rfl, is⟩
    · have isWorking := hasWork.1
      dsimp only at isWorking
      subst isWorking
      exact hasWork
  · rename_i at_
    dsimp only at at_
    subst at_
    cases done
    cases mutex with
    | some locked => cases fits
    | none =>
      obtain ⟨isWorking, x, rfl, stored⟩ := fits
      dsimp only at isWorking stored
      subst isWorking stored
      refine inv.worker here rfl rfl rfl rfl ?_ ⟨.processed, ?_, rfl, rfl⟩ rfl ⟨rfl, rfl⟩ nofun
      · intro e mem
        rw [List.mem_singleton.mp mem]
        exact ⟨rfl, rfl⟩
      · exact cycle.snoc rfl fun _ => .processed i x
  · rename_i at_ free
    dsimp only at at_ free
    subst at_ free
    obtain ⟨isWorking, rfl⟩ := fits
    dsimp only at isWorking
    subst isWorking
    cases done
    refine inv.worker here rfl rfl rfl rfl ?_ ⟨.ready, ?_, rfl, rfl⟩ rfl ⟨rfl, rfl⟩ nofun
    · intro e mem
      rw [List.mem_singleton.mp mem]
      exact ⟨rfl, rfl⟩
    · exact cycle.snoc rfl fun _ => .ready i
  · rename_i at_ locked
    dsimp only at at_ locked
    subst at_ locked
    obtain ⟨isReady, -⟩ := fits
    dsimp only at isReady
    subst isReady
    cases done
    refine inv.worker_silent here rfl rfl rfl rfl (fun phase fits => fits) ?_ ⟨rfl, rfl⟩ id
    show σ.currentParallelRequests - 1 + 1 = σ.currentParallelRequests + 0
    omega
  · rename_i at_ locked
    dsimp only at at_ locked
    subst at_ locked
    obtain ⟨isReady, -⟩ := fits
    dsimp only at isReady
    subst isReady
    cases done
    exact inv.worker_silent here rfl rfl rfl rfl (fun phase fits => .inl fits) rfl ⟨rfl, rfl⟩ id
  · cases done

theorem Caller.Logged.congr {k : Nat} {c : Caller W} (logged : c.Logged σ k) (outside : ¬ c.place.Inside)
    (log : (σ'.log.filter fun e => e.caller = some k) = σ.log.filter fun e => e.caller = some k)
    (length : σ'.workers.length = σ.workers.length) : c.Logged σ' k := by
  unfold Caller.Logged at logged ⊢
  rw [log, length]
  split
  · rename_i at_
    rw [at_] at outside
    exact absurd trivial outside
  all_goals
    rename_i at_
    simpa only [at_] using logged

theorem State.Inv.hand (inv : σ.Inv) {i k : Nat} {w w' : Worker W} {c : Caller W} (c' : Caller W) (es : List (Entry W))
    (here : σ.workers[i]? = some w) (is : σ.callers[k]? = some c) (at_ : c.place = .setWorking i)
    (workers : σ'.workers = σ.workers.set i w') (callers : σ'.callers = σ.callers.set k c') (mutex : σ'.fMutex = σ.fMutex)
    (log : σ'.log = σ.log ++ es) (mine : ∀ e ∈ es, e.worker = i ∧ e.caller = some k)
    (cycle : ∃ phase, Cycle ((σ.log ++ es).filter fun e => e.worker = i) phase ∧ w'.Fits phase)
    (counts : σ'.currentParallelRequests + w.counts = σ.currentParallelRequests + w'.counts) (inside : c'.place.Inside)
    (handing : ∀ k', w'.caller = some k' → k' = k ∧ c'.place = .setWorking i) (logged : c'.Logged σ' k) : σ'.Inv := by
  obtain ⟨cycles, counted⟩ := inv.set_worker here workers log (fun e mem => (mine e mem).1) cycle counts
  have holds : σ.fMutex = some k := (inv.inside k c is).mp (by rw [at_]; trivial)
  refine ⟨cycles, counted, ?_, ?_, ?_, ?_, ?_⟩
  · rw [callers, mutex]
    intro j d at_j
    rcases (getElem?_set_iff is c').mp at_j with ⟨rfl, rfl⟩ | ⟨-, at_j⟩
    · exact ⟨fun _ => holds, fun _ => inside⟩
    · exact inv.inside j d at_j
  · rw [callers, mutex, List.length_set]
    exact inv.holder
  · rw [callers, workers]
    intro j u k' at_j byCaller
    rcases (getElem?_set_iff here w').mp at_j with ⟨rfl, rfl⟩ | ⟨other, at_j⟩
    · obtain ⟨rfl, place⟩ := handing k' byCaller
      exact ⟨c', (getElem?_set_iff is c').mpr (.inl ⟨rfl, rfl⟩), place⟩
    · obtain ⟨d, at_k', place⟩ := inv.handing j u k' at_j byCaller
      refine ⟨d, (getElem?_set_iff is c').mpr (.inr ⟨?_, at_k'⟩), place⟩
      rintro rfl
      rw [is] at at_k'
      cases at_k'
      rw [at_] at place
      exact other (Entering.setWorking.inj place).symm
  · rw [callers]
    intro j d at_j
    rcases (getElem?_set_iff is c').mp at_j with ⟨rfl, rfl⟩ | ⟨other, at_j⟩
    · exact logged
    · refine (inv.logged j d at_j).congr (fun insideToo => ?_) ?_ (by rw [workers, List.length_set])
      · have same := ((inv.inside j d at_j).mp insideToo).symm.trans holds
        exact other (Option.some.inj same)
      · rw [log]
        exact filter_append_of_forall fun e mem => by simpa [(mine e mem).2] using Ne.symm other
  · rw [callers, List.length_set, log]
    intro j beyond
    rw [filter_append_of_forall fun e mem => ?_]
    · exact inv.fresh j beyond
    · have inRange := (List.getElem?_eq_some_iff.mp is).1
      have other : k ≠ j := by omega
      simpa [(mine e mem).2] using other

theorem State.Inv.caller (inv : σ.Inv) {k : Nat} {c : Caller W} {place : Entering} (is : σ.callers[k]? = some c)
    (workers : σ'.workers = σ.workers) (callers : σ'.callers = σ.callers.set k { c with place := place })
    (stat : σ'.fpStatEvtHandler = σ.fpStatEvtHandler) (log : σ'.log = σ.log) (inside : place.Inside ↔ σ'.fMutex = some k)
    (others : ∀ j, j ≠ k → (σ.fMutex = some j ↔ σ'.fMutex = some j))
    (handing : ∀ (i : Nat) (w : Worker W), σ.workers[i]? = some w → w.caller ≠ some k)
    (logged : { c with place := place }.Logged σ k) : σ'.Inv := by
  have same : ∀ (j : Nat) (d : Caller W), d.Logged σ j → d.Logged σ' j := by
    intro j d
    unfold Caller.Logged
    rw [workers, log]
    exact id
  refine ⟨?_, ?_, ?_, ?_, ?_, ?_, ?_⟩
  · rw [workers, log]
    exact inv.cycles
  · have counted := inv.counted
    unfold State.currentParallelRequests at counted ⊢
    rw [workers, stat]
    exact counted
  · rw [callers]
    intro j d at_j
    rcases (getElem?_set_iff is _).mp at_j with ⟨rfl, rfl⟩ | ⟨other, at_j⟩
    · exact inside
    · exact (inv.inside j d at_j).trans (others j other)
  · rw [callers, List.length_set]
    intro j holds
    by_cases mine : j = k
    · rw [mine]
      exact (List.getElem?_eq_some_iff.mp is).1
    · exact inv.holder j ((others j mine).mpr holds)
  · rw [callers, workers]
    intro i w j here byCaller
    obtain ⟨d, at_j, at_⟩ := inv.handing i w j here byCaller
    refine ⟨d, (getElem?_set_iff is _).mpr (.inr ⟨?_, at_j⟩), at_⟩
    rintro rfl
    exact handing i w here byCaller
  · rw [callers]
    intro j d at_j
    rcases (getElem?_set_iff is _).mp at_j with ⟨rfl, rfl⟩ | ⟨-, at_j⟩
    · exact same j _ logged
    · exact same j d (inv.logged j d at_j)
  · rw [callers, List.length_set, log]
    exact inv.fresh

theorem State.Inv.enter (inv : σ.Inv) (workload : W) (hint : Int) :
    State.Inv { σ with callers := σ.callers ++ [⟨workload, hint, .lock⟩] } := by
  have isNew : ∀ {k : Nat} {c : Caller W}, (σ.callers ++ [⟨workload, hint, .lock⟩])[k]? = some c →
      σ.callers[k]? = some c ∨ k = σ.callers.length ∧ c = ⟨workload, hint, .lock⟩ := by
    intro k c at_k
    rw [List.getElem?_append] at at_k
    split at at_k
    · exact .inl at_k
    · rw [List.getElem?_singleton] at at_k
      split at at_k
      · cases at_k
        exact .inr ⟨by omega, rfl⟩
      · cases at_k
  refine ⟨inv.cycles, inv.counted, fun k c at_k => ?_, fun k holds => ?_, fun i w k here byCaller => ?_, fun k c at_k => ?_, fun k beyond => ?_⟩
  · rcases isNew at_k with at_k | ⟨rfl, rfl⟩
    · exact inv.inside k c at_k
    · exact ⟨False.elim, fun holds => absurd (inv.holder _ holds) (Nat.lt_irrefl _)⟩
  · rw [List.length_append]
    exact Nat.lt_of_lt_of_le (inv.holder k holds) (Nat.le_add_right _ _)
  · obtain ⟨c, at_k, at_⟩ := inv.handing i w k here byCaller
    exact ⟨c, by rw [List.getElem?_append_left (List.getElem?_eq_some_iff.mp at_k).1, at_k], at_⟩
  · rcases isNew at_k with at_k | ⟨rfl, rfl⟩
    · exact inv.logged k c at_k
    · exact inv.fresh _ (Nat.le_refl _)
  · rw [List.length_append] at beyond
    exact inv.fresh k (Nat.le_trans (Nat.le_add_right _ _) beyond)

theorem State.Inv.setWorking (inv : σ.Inv) {i k : Nat} {workload : W} {hint : Int}
    (is : σ.callers[k]? = some ⟨workload, hint, .setWorking i⟩) (done : σ.advance k ⟨workload, hint, .setWorking i⟩ = .ok σ') : σ'.Inv := by
  have logged := inv.logged k _ is
  unfold State.advance at done
  obtain ⟨w, here, state⟩ := logged
  obtain ⟨phase, cycle, fits⟩ := inv.cycles i w here
  dsimp only at done
  rw [here] at done
  dsimp only at done
  obtain ⟨running, work, mutex, place⟩ := w
  rcases state with ⟨isReady, noCaller, none⟩ | ⟨locked, none⟩ | ⟨locked | locked, one⟩
  · dsimp only at isReady done
    subst isReady
    split at done
    · rename_i free
      subst free
      cases done
      have waits : place = .checkRunningState ∧ phase = .ready := by
        cases place with
        | checkRunningState => exact ⟨rfl, fits.elim And.right fun hasWork => nomatch hasWork.1⟩
        | doProcessWorkload => cases fits.1
        | setReady => cases fits.1
      obtain ⟨rfl, rfl⟩ := waits
      refine inv.hand ⟨workload, hint, .setWorking i⟩ [] here is rfl rfl (set_self is).symm rfl
        (List.append_nil _).symm nofun ?_ rfl trivial (fun k' same => ⟨(Option.some.inj same).symm, rfl⟩) ?_
      · rw [List.append_nil]
        exact ⟨.ready, cycle, rfl, rfl⟩
      · exact ⟨_, (getElem?_set_iff here _).mpr (.inl ⟨rfl, rfl⟩), .inr (.inl ⟨rfl, none⟩)⟩
    · -- another section is going on
      rename_i notFree
      exfalso
      revert done noCaller
      cases mutex with
      | none => exact absurd rfl notFree
      | some s => cases s <;> simp [Worker.caller, Section.caller]
  · dsimp only at locked
    subst locked
    rw [if_neg nofun, if_pos rfl] at done
    cases done
    have waits : place = .checkRunningState ∧ running = eWorking ∧ phase = .ready := by
      cases place with
      | checkRunningState => exact ⟨rfl, fits.1, fits.2⟩
      | doProcessWorkload | setReady => cases fits
    obtain ⟨rfl, rfl, rfl⟩ := waits
    refine inv.hand ⟨workload, hint, .setWorking i⟩ [.handed k i workload] here is rfl rfl (set_self is).symm rfl rfl ?_
      ⟨.handed workload, cycle.snoc rfl fun _ => .handed k i workload, rfl, workload, rfl, rfl⟩ rfl trivial
      (fun k' same => ⟨(Option.some.inj same).symm, rfl⟩) ?_
    · intro e mem
      rw [List.mem_singleton.mp mem]
      exact ⟨rfl, rfl⟩
    · refine ⟨_, (getElem?_set_iff here _).mpr (.inl ⟨rfl, rfl⟩), .inr (.inr ⟨.inl rfl, ?_⟩)⟩
      show (σ.log ++ [Entry.handed k i workload]).filter _ = _
      rw [List.filter_append, none]
      simp [Entry.caller]
  · dsimp only at locked
    subst locked
    rw [if_neg nofun, if_neg nofun, if_pos rfl] at done
    cases done
    have waits : place = .checkRunningState ∧ running = eWorking := by
      cases place with
      | checkRunningState => exact ⟨rfl, fits.1⟩
      | doProcessWorkload | setReady => cases fits
    obtain ⟨rfl, rfl⟩ := waits
    refine inv.hand ⟨workload, hint, .setWorking i⟩ [] here is rfl rfl (set_self is).symm rfl (List.append_nil _).symm nofun ?_ ?_
      trivial (fun k' same => ⟨(Option.some.inj same).symm, rfl⟩) ?_
    · rw [List.append_nil]
      exact ⟨phase, cycle, fits⟩
    · show σ.currentParallelRequests + 1 + 0 = σ.currentParallelRequests + 1
      omega
    · exact ⟨_, (getElem?_set_iff here _).mpr (.inl ⟨rfl, rfl⟩), .inr (.inr ⟨.inr rfl, one⟩)⟩
  · dsimp only at locked
    subst locked
    rw [if_neg nofun, if_neg nofun, if_neg nofun, if_pos rfl] at done
    cases done
    have waits : place = .checkRunningState := by
      cases place with
      | checkRunningState => rfl
      | doProcessWorkload | setReady => cases fits
    subst waits
    refine inv.hand ⟨workload, hint, .returning true⟩ [] here is rfl rfl rfl rfl (List.append_nil _).symm nofun ?_ rfl trivial nofun ?_
    · rw [List.append_nil]
      exact ⟨phase, cycle, .inr fits⟩
    · refine ⟨i, ?_, one⟩
      show i < (σ.workers.set i _).length
      rw [List.length_set]
      exact (List.getElem?_eq_some_iff.mp here).1

theorem State.Inv.advance (inv : σ.Inv) {k : Nat} {c : Caller W} (is : σ.callers[k]? = some c)
    (done : σ.advance k c = .ok σ') : σ'.Inv := by
  have logged := inv.logged k c is
  have inside := inv.inside k c is
  -- no worker is in the hands of a caller that stands elsewhere
  have handing : (∀ i, c.place ≠ .setWorking i) → ∀ (i : Nat) (w : Worker W), σ.workers[i]? = some w → w.caller ≠ some k := by
    intro elsewhere i w here byCaller
    obtain ⟨d, at_k, at_⟩ := inv.handing i w k here byCaller
    rw [is] at at_k
    cases at_k
    exact elsewhere i at_
  obtain ⟨workload, hint, place⟩ := c
  cases place with
  | lock | asleep =>
    dsimp only [State.advance] at done
    split at done
    · rename_i unlocked
      cases done
      refine inv.caller is rfl rfl rfl rfl ⟨fun _ => rfl, fun _ => trivial⟩ (fun j other => ?_) (handing nofun) logged
      rw [unlocked]
      exact ⟨nofun, fun same => absurd (Option.some.inj same).symm other⟩
    · cases done
  | findNextRunnable =>
    have holds := inside.mp trivial
    dsimp only [State.advance] at done
    split at done
    · cases done
      refine inv.caller is rfl rfl rfl rfl ⟨False.elim, nofun⟩ (fun j other => ?_) (handing nofun) logged
      rw [holds]
      exact ⟨fun same => absurd (Option.some.inj same).symm other, nofun⟩
    · cases done
      exact inv.caller is rfl rfl rfl rfl ⟨fun _ => holds, fun _ => trivial⟩ (fun _ _ => Iff.rfl) (handing nofun) logged
  | searching i =>
    have holds := inside.mp trivial
    dsimp only [State.advance] at done
    split at done
    · cases done
      exact inv.caller is rfl rfl rfl rfl ⟨fun _ => holds, fun _ => trivial⟩ (fun _ _ => Iff.rfl) (handing nofun) logged
    · rename_i w found
      split at done
      · rename_i isReady
        cases done
        refine inv.caller is rfl rfl rfl rfl ⟨fun _ => holds, fun _ => trivial⟩ (fun _ _ => Iff.rfl) (handing nofun) ?_
        unfold State.doGetWorker at found
        split at found
        · cases found
        · refine ⟨w, found, .inl ⟨isReady.2, ?_, logged⟩⟩
          unfold Worker.caller
          rw [isReady.1]
          rfl
      · cases done
        exact inv.caller is rfl rfl rfl rfl ⟨fun _ => holds, fun _ => trivial⟩ (fun _ _ => Iff.rfl) (handing nofun) logged
  | returning success =>
    have holds := inside.mp trivial
    dsimp only [State.advance] at done
    cases done
    refine inv.caller is rfl rfl rfl rfl ⟨False.elim, nofun⟩ (fun j other => ?_) (handing nofun) ?_
    · rw [holds]
      exact ⟨fun same => absurd (Option.some.inj same).symm other, nofun⟩
    · cases success <;> exact logged
  | returned success => cases done
  | setWorking i => exact inv.setWorking is done

theorem State.Inv.step {e : Event W} (inv : σ.Inv) (done : step e σ = .ok σ') : σ'.Inv := by
  cases e with
  | enter workload hint =>
    cases done
    exact inv.enter workload hint
  | caller k =>
    dsimp only [WorkerPool.step] at done
    split at done
    · cases done
    · rename_i c is
      exact inv.advance is done
  | worker i =>
    dsimp only [WorkerPool.step] at done
    split at done
    · cases done
    · rename_i w here
      exact inv.advanceWorker here done
  | setBlockRequests block =>
    dsimp only [WorkerPool.step] at done
    split at done
    · cases done
      exact ⟨inv.cycles, inv.counted, inv.inside, inv.holder, inv.handing, inv.logged, inv.fresh⟩
    · cases done

theorem counts_bounds (w : Worker W) : 0 ≤ w.counts ∧ w.counts ≤ 1 := by
  unfold Worker.counts
  split
  · decide
  · decide
  · decide
  · split <;> decide

theorem counts_of_not_changing {w : Worker W} (still : w.changing = false) : w.counts = if w.fRunningState = eWorking then 1 else 0 := by
  unfold Worker.counts
  unfold Worker.changing at still
  split <;> simp_all

theorem total_counts_bounds (workers : List (Worker W)) : 0 ≤ total Worker.counts workers ∧ total Worker.counts workers ≤ workers.length := by
  induction workers with
  | nil => exact ⟨Int.le_refl 0, Int.le_refl 0⟩
  | cons w workers ih =>
    have first := counts_bounds w
    rw [total_cons, List.length_cons]
    omega

theorem total_counts_of_still {workers : List (Worker W)} (still : ∀ w ∈ workers, w.changing = false) :
    total Worker.counts workers = workers.countP fun w => w.fRunningState = eWorking := by
  induction workers with
  | nil => rfl
  | cons w workers ih =>
    have first := counts_of_not_changing (still w List.mem_cons_self)
    have rest := ih fun u mem => still u (List.mem_cons_of_mem w mem)
    rw [total_cons, first, rest, List.countP_cons]
    by_cases isWorking : w.fRunningState = eWorking <;> simp [isWorking, Int.add_comm]

theorem State.Inv.sound (inv : σ.Inv) : σ.Sound := by
  have counted : (∀ w ∈ σ.workers, w.changing = false) → σ.currentParallelRequests = σ.working :=
    fun still => inv.counted.trans (total_counts_of_still still)
  refine ⟨fun i inside => ?_, fun k c is at_ => ?_, fun k c is at_ => ?_, counted, ?_, fun still less => ?_⟩
  · obtain ⟨phase, cycle, -⟩ := inv.cycles i _ (List.getElem?_eq_getElem inside)
    exact ⟨phase, cycle⟩
  · have logged := inv.logged k c is
    unfold Caller.Logged at logged
    rwa [at_] at logged
  · have logged := inv.logged k c is
    unfold Caller.Logged at logged
    rwa [at_] at logged
  · rw [inv.counted]
    exact total_counts_bounds σ.workers
  · -- otherwise all workers would count
    by_contra none
    have all : σ.working = σ.workers.length := by
      refine List.countP_eq_length.mpr fun w mem => ?_
      cases state : w.fRunningState with
      | eReady => exact absurd ⟨w, mem, state⟩ none
      | eWorking => rfl
    rw [counted still, all] at less
    exact absurd less (Int.lt_irrefl _)

end Invariant

theorem inv_started (poolSize : Nat) : (State.started (W := W) poolSize).Inv := by
  have isNew : ∀ {i : Nat} {w : Worker W}, (List.replicate poolSize Worker.new)[i]? = some w → w = .new :=
    fun here => List.eq_of_mem_replicate (List.mem_of_getElem? here)
  refine ⟨fun i w here => ?_, ?_, nofun, nofun, fun i w k here byCaller => ?_, nofun, fun k _ => rfl⟩
  · rw [isNew here]
    exact ⟨.ready, .start, .inl ⟨rfl, rfl⟩⟩
  · show (0 : Int) = total Worker.counts (List.replicate poolSize Worker.new)
    unfold total
    rw [List.map_replicate, List.sum_replicate]
    exact (nsmul_zero poolSize).symm
  · rw [isNew here] at byCaller
    cases byCaller

/-- Workloads are handed to ready workers and processed once, and the statistics count the workers in
`eWorking`. -/
theorem workloads_processed_once (poolSize : Nat) (es : List (Event W)) {σ : State W} (done : run es (.started poolSize) = .ok σ) :
    σ.Sound :=
  (Runs.run_ok_keeps (fun _ _ _ inv _ done => State.Inv.step inv done) (inv_started poolSize)
    (Runs.meets_of_forall (fun _ _ => trivial) es _) done).sound

def twoCallers : List (Event Nat) :=
  [.enter 7 (-1), .enter 8 3, .caller 0, .caller 0, .caller 0, .worker 0, .worker 0, .caller 0, .caller 0, .caller 0, .caller 0, .caller 0,
    .caller 1, .caller 1, .worker 0, .worker 0, .worker 0, .worker 0, .worker 0, .worker 0, .caller 1, .caller 1, .caller 1, .caller 1,
    .caller 1, .caller 1, .caller 1, .caller 1]

theorem workloads_processed_once_twoCallers : ∃ σ, run twoCallers (.started 1) = .ok σ ∧ σ.Sound ∧
    σ.log = [.handed 0 0 7, .processed 0 (some 7), .ready 0, .handed 1 0 8] :=
  ⟨_, rfl, workloads_processed_once 1 twoCallers rfl, rfl⟩

end WorkerPool

end Coast.Threading
