import Coast.Lib.Pool
import Coast.Lib.Runs
import Coast.Threading.ThreadState

/-!
# The life cycle of a thread object

A starter that calls `Start`, threads that terminate the object, and the system threads that `Start` has
created. A step is one section under `fStateMutex`, or the creation of a system thread.
-/

namespace Coast.Threading

open Pool EThreadState

namespace LifeCycle

inductive Starter where
  /-- Between two calls of `Start`. -/
  | idle
  | getState (allocator hook : Bool)
  | setCreated (allocator hook : Bool)
  | getStateAgain (allocator hook : Bool)
  | setStartRequested (hook : Bool)
  | startThread
  | setStartInProgress
  | setStarted
  | setTerminationRequested
  deriving DecidableEq, Repr

inductive Place where
  /-- `CheckState(eStarted)`. -/
  | checkState
  | setRunning
  | running
  | setTerminatedRunMethod
  /-- `fThreadId = 0` in `Exit`. -/
  | exit
  | setTerminated
  | ended
  deriving DecidableEq, Repr

structure SystemThread where
  /-- The number of the `Start` that created it. -/
  start : Nat
  place : Place
  deriving DecidableEq, Repr

inductive Actor where
  | starter
  | terminator
  /-- The system thread of a `Start`. -/
  | system (start : Nat)
  deriving DecidableEq, Repr

structure Change where
  actor : Actor
  old : EThreadState
  new : EThreadState
  /-- The number of the `Start` in which it was made. -/
  start : Nat
  deriving DecidableEq, Repr

structure State where
  fState : EThreadState
  fThreadId : Option Nat
  starter : Starter
  systems : List SystemThread
  /-- How often the state has been set to `eStartRequested`. -/
  starts : Nat
  changes : List Change
  deriving DecidableEq, Repr

namespace State

variable (σ : State)

/-- `SetState`, with what it returns. -/
def setState (actor : Actor) (own hook : Bool) (state : EThreadState) : State × Bool :=
  match σ.fState.setState own hook state with
  | none => (σ, false)
  | some new =>
    let starts := if new = eStartRequested then σ.starts + 1 else σ.starts
    ({ σ with fState := new, starts := starts, changes := σ.changes ++ [⟨actor, σ.fState, new, starts⟩] }, true)

def goTo (starter : Starter) : State := { σ with starter := starter }

def move (i : Nat) (t : SystemThread) (place : Place) : State := { σ with systems := σ.systems.set i { t with place := place } }

end State

inductive Event where
  /-- `Start` is called, with an allocator or none; `hook` is what `DoStartRequestedHook` will return. -/
  | start (allocator hook : Bool)
  | advance
  /-- `STARTTHREAD`. -/
  | startThread (ok : Bool)
  /-- `SetState(eTerminationRequested)` of a `Terminate`. -/
  | terminate
  | system (i : Nat)
  deriving DecidableEq, Repr

inductive NotEnabled where
  | notEnabled
  deriving DecidableEq, Repr

/-- The next operation of `Start`. -/
def advance (σ : State) : Except NotEnabled State :=
  match σ.starter with
  | .idle => .error .notEnabled
  | .startThread => .error .notEnabled
  | .getState allocator hook =>
    .ok (σ.goTo (if σ.fState = eTerminated then .setCreated allocator hook else .getStateAgain allocator hook))
  | .setCreated allocator hook => .ok ((σ.setState .starter false true eCreated).1.goTo (.getStateAgain allocator hook))
  | .getStateAgain allocator hook =>
    .ok (σ.goTo (if σ.fState < eStartRequested ∧ allocator then .setStartRequested hook else .setTerminationRequested))
  | .setStartRequested hook =>
    .ok ((σ.setState .starter false hook eStartRequested).1.goTo
      (if (σ.setState .starter false hook eStartRequested).2 then .startThread else .setTerminationRequested))
  | .setStartInProgress => .ok ((σ.setState .starter false true eStartInProgress).1.goTo .setStarted)
  | .setStarted => .ok ((σ.setState .starter false true eStarted).1.goTo .idle)
  | .setTerminationRequested => .ok ((σ.setState .starter false true eTerminationRequested).1.goTo .idle)

/-- The next operation of `IntRun` and `Exit`. -/
def advanceSystem (i : Nat) (t : SystemThread) (σ : State) : Except NotEnabled State :=
  let own := σ.fThreadId = some i
  match t.place with
  | .checkState =>
    match σ.fState.checkState eStarted with
    | none => .error .notEnabled
    | some true => .ok (σ.move i t .setRunning)
    | some false => .ok (σ.move i t .setTerminatedRunMethod)
  | .setRunning =>
    .ok ((σ.setState (.system t.start) own true eRunning).1.move i t
      (if (σ.setState (.system t.start) own true eRunning).2 then .running else .setTerminatedRunMethod))
  | .running => .ok (σ.move i t .setTerminatedRunMethod)
  | .setTerminatedRunMethod => .ok ((σ.setState (.system t.start) own true eTerminatedRunMethod).1.move i t .exit)
  | .exit => .ok ({ σ with fThreadId := none }.move i t .setTerminated)
  | .setTerminated => .ok ((σ.setState (.system t.start) own true eTerminated).1.move i t .ended)
  | .ended => .error .notEnabled

def step : Event → State → Except NotEnabled State
  | .start allocator hook, σ =>
    if σ.starter = .idle then
      if eCreated < σ.fState ∧ σ.fState < eTerminated then .ok σ else .ok (σ.goTo (.getState allocator hook))
    else .error .notEnabled
  | .advance, σ => advance σ
  | .startThread ok, σ =>
    if σ.starter = .startThread then
      if ok then
        .ok { σ with fThreadId := some σ.systems.length, systems := σ.systems ++ [⟨σ.starts, .checkState⟩], starter := .setStartInProgress }
      else .ok { σ with fThreadId := none, starter := .idle }
    else .error .notEnabled
  | .terminate, σ => .ok (σ.setState .terminator false true eTerminationRequested).1
  | .system i, σ =>
    match σ.systems[i]? with
    | none => .error .notEnabled
    | some t => advanceSystem i t σ

def State.new : State where
  fState := eCreated
  fThreadId := none
  starter := .idle
  systems := []
  starts := 0
  changes := []

abbrev run : List Event → State → Except NotEnabled State := Runs.run step

/-! ### Forward -/

/-- The state goes forward, or a new `Start` begins again. -/
def Change.Forward (c : Change) : Prop := c.old < c.new ∨ (c.actor = .starter ∧ c.old = eTerminated ∧ c.new = eCreated)

/-- All changes go forward, and a system thread makes none after `eTerminated` in its `Start`. -/
structure State.Monotone (σ : State) : Prop where
  forward : ∀ c ∈ σ.changes, c.Forward
  last : σ.changes.Pairwise fun c later => c.new = eTerminated → later.actor ≠ .system c.start

/-- A `Start` that is terminated in `eStartRequested` creates no system thread. -/
def Orderly : Event → State → Prop
  | .startThread true, σ => σ.starter = .startThread → σ.fState = eStartRequested
  | .terminate, σ => ¬ (σ.starter = .setStartInProgress ∧ σ.fState = eStartRequested)
  | _, _ => True

instance : (e : Event) → (σ : State) → Decidable (Orderly e σ)
  | .startThread true, _ => inferInstanceAs (Decidable (_ → _))
  | .terminate, _ => inferInstanceAs (Decidable (¬ _))
  | .startThread false, _ | .start _ _, _ | .advance, _ | .system _, _ => .isTrue trivial

section SetState

variable (σ : State) (actor : Actor) (own hook : Bool) (state : EThreadState)

@[simp] theorem setState_systems : (σ.setState actor own hook state).1.systems = σ.systems := by
  unfold State.setState
  split <;> rfl

@[simp] theorem setState_starter : (σ.setState actor own hook state).1.starter = σ.starter := by
  unfold State.setState
  split <;> rfl

@[simp] theorem setState_fState :
    (σ.setState actor own hook state).1.fState = (σ.fState.setState own hook state).getD σ.fState := by
  unfold State.setState
  split <;> simp_all

@[simp] theorem setState_snd : (σ.setState actor own hook state).2 = (σ.fState.setState own hook state).isSome := by
  unfold State.setState
  split <;> simp_all

end SetState

theorem setState_starts {σ : State} {actor : Actor} {own hook : Bool} {state : EThreadState} (other : state ≠ eStartRequested) :
    (σ.setState actor own hook state).1.starts = σ.starts := by
  unfold State.setState
  cases set : σ.fState.setState own hook state with
  | none => rfl
  | some new =>
    have notRequested : new ≠ eStartRequested := by
      rcases setState_new set with rfl | ⟨-, rfl⟩
      · exact other
      · decide
    dsimp only
    rw [if_neg notRequested]

def State.Changed (σ σ' : State) : Option EThreadState → Prop
  | none => σ'.changes = σ.changes ∧ σ'.fState = σ.fState
  | some new => (∃ actor start, σ'.changes = σ.changes ++ [⟨actor, σ.fState, new, start⟩]) ∧ σ'.fState = new

theorem setState_changed (σ : State) (actor : Actor) (own hook : Bool) (state : EThreadState) :
    σ.Changed (σ.setState actor own hook state).1 (σ.fState.setState own hook state) := by
  unfold State.setState
  cases σ.fState.setState own hook state with
  | none => exact ⟨rfl, rfl⟩
  | some new => exact ⟨⟨_, _, rfl⟩, rfl⟩

/-! ### Changes -/

/-- What the changes say, with the numbers of their calls of `Start`. -/
structure State.Logged (σ : State) : Prop extends σ.Monotone where
  bounded : ∀ c ∈ σ.changes, c.start ≤ σ.starts
  ongoing : σ.fState ≠ eCreated → σ.fState ≠ eTerminated → ∀ c ∈ σ.changes, c.new = eTerminated → c.start ≠ σ.starts

/-- The states between the beginning of a `Start` and its end. -/
def Ongoing (fState : EThreadState) : Prop := fState ≠ eCreated ∧ fState ≠ eTerminated

section Changes

variable {σ σ' : State} {actor : Actor} {own hook : Bool} {state new : EThreadState}

theorem setState_ongoing {fState : EThreadState} (set : fState.setState own hook state = some new) (created : new ≠ eCreated)
    (requested : new ≠ eStartRequested) (terminated : new ≠ eTerminated) : Ongoing fState ∨ own = true := by
  unfold Ongoing
  revert set created requested terminated
  cases fState <;> cases state <;> cases own <;> cases hook <;> decide +revert

theorem State.Logged.change (logged : σ.Logged)
    (mine : own = true → Ongoing σ.fState ∧ (state = eTerminatedRunMethod → σ.fState < eTerminatedRunMethod))
    (actors : ∀ k, actor = .system k → k = σ.starts ∧ Ongoing σ.fState ∧ state ≠ eStartRequested)
    (again : state = eCreated → actor = .starter) : (σ.setState actor own hook state).1.Logged := by
  unfold State.setState
  cases set : σ.fState.setState own hook state with
  | none => exact logged
  | some new =>
    dsimp only
    have forward : σ.fState < new ∨ state = eCreated ∧ σ.fState = eTerminated ∧ new = eCreated := by
      rcases setState_forward set with forward | ⟨old, asked, is⟩ | ⟨isOwn, asked, -, late⟩ | ⟨isOwn, -, late⟩
      · exact .inl forward
      · exact .inr ⟨asked, old, is⟩
      · have early := (mine isOwn).2 asked
        rw [lt_iff] at early
        exact absurd late (Nat.not_le.mpr early)
      · exact absurd late (mine isOwn).1.2
    refine ⟨⟨?_, ?_⟩, ?_, ?_⟩
    · intro c mem
      rcases List.mem_append.mp mem with mem | mem
      · exact logged.forward c mem
      · rw [List.mem_singleton.mp mem]
        rcases forward with forward | ⟨asked, old, is⟩
        · exact .inl forward
        · exact .inr ⟨again asked, old, is⟩
    · refine List.pairwise_append.mpr ⟨logged.last, List.pairwise_singleton _ _, ?_⟩
      intro c mem later isNew terminated bySystem
      rw [List.mem_singleton.mp isNew] at bySystem
      obtain ⟨same, ongoing, -⟩ := actors c.start bySystem
      exact logged.ongoing ongoing.1 ongoing.2 c mem terminated same
    · intro c mem
      rcases List.mem_append.mp mem with mem | mem
      · refine Nat.le_trans (logged.bounded c mem) ?_
        split
        · exact Nat.le_succ _
        · exact Nat.le_refl _
      · exact Nat.le_of_eq (congrArg _ (List.mem_singleton.mp mem))
    · intro notCreated notTerminated c mem terminated
      rcases List.mem_append.mp mem with mem | mem
      · split
        · exact Nat.ne_of_lt (Nat.lt_succ_of_le (logged.bounded c mem))
        · rename_i notRequested
          have ongoing := (setState_ongoing set notCreated notRequested notTerminated).elim id fun isOwn => (mine isOwn).1
          exact logged.ongoing ongoing.1 ongoing.2 c mem terminated
      · rw [List.mem_singleton.mp mem] at terminated
        exact absurd terminated notTerminated

end Changes

/-! ### The invariant -/

def Place.Fits (fState : EThreadState) : Place → Prop
  | checkState => eStartRequested ≤ fState ∧ fState ≤ eTerminationRequested ∧ fState ≠ eRunning
  | setRunning => fState = eStarted ∨ fState = eTerminationRequested
  | running | setTerminatedRunMethod => fState = eRunning ∨ fState = eTerminationRequested
  | exit | setTerminated => eRunning ≤ fState ∧ fState ≤ eTerminatedRunMethod
  | ended => True

def Starter.Fits (fState : EThreadState) (quiet : Prop) : Starter → Prop
  | idle | setStartInProgress | setStarted => True
  | startThread => quiet ∧ (fState = eStartRequested ∨ fState = eTerminated)
  | _ => quiet ∧ (fState = eCreated ∨ fState = eTerminated)

structure State.Inv (σ : State) : Prop where
  logged : σ.Logged
  live : ∀ t ∈ σ.systems, t.place ≠ .ended → t.start = σ.starts ∧ t.place.Fits σ.fState
  one : ∀ {i j : Nat} {t u : SystemThread}, σ.systems[i]? = some t → σ.systems[j]? = some u → t.place ≠ .ended → u.place ≠ .ended → i = j
  window : σ.fState = eStartRequested → (∃ t ∈ σ.systems, t.place ≠ .ended) → σ.starter = .setStartInProgress
  starter : σ.starter.Fits σ.fState (∀ t ∈ σ.systems, t.place = .ended)

section Invariant

variable {σ σ' : State}

theorem Place.Fits.ongoing {fState : EThreadState} {place : Place} (fits : place.Fits fState) (notEnded : place ≠ .ended) :
    Ongoing fState := by
  unfold Ongoing
  revert fits notEnded
  cases place <;> cases fState <;> simp [Place.Fits, le_iff, value]

theorem State.Inv.quiet (inv : σ.Inv) (still : ¬ Ongoing σ.fState) : ∀ t ∈ σ.systems, t.place = .ended := by
  intro t mem
  by_contra notEnded
  exact still ((inv.live t mem notEnded).2.ongoing notEnded)

theorem State.Inv.silent (logged : σ'.Logged) (quiet : ∀ t ∈ σ'.systems, t.place = .ended)
    (starter : σ'.starter.Fits σ'.fState (∀ t ∈ σ'.systems, t.place = .ended)) : σ'.Inv where
  logged := logged
  live t mem notEnded := absurd (quiet t mem) notEnded
  one at_i _ notEnded _ := absurd (quiet _ (List.mem_of_getElem? at_i)) notEnded
  window := fun _ ⟨t, mem, notEnded⟩ => absurd (quiet t mem) notEnded
  starter := starter

theorem State.Inv.starter_alive (inv : σ.Inv) {t : SystemThread} (mem : t ∈ σ.systems) (notEnded : t.place ≠ .ended) :
    σ.starter = .idle ∨ σ.starter = .setStartInProgress ∨ σ.starter = .setStarted := by
  have fits := inv.starter
  have alive : ¬ ∀ t ∈ σ.systems, t.place = .ended := fun quiet => notEnded (quiet t mem)
  revert fits
  cases σ.starter <;> simp [Starter.Fits, alive]

theorem State.Inv.moved (inv : σ.Inv) {i : Nat} {t : SystemThread} {place : Place} (here : σ.systems[i]? = some t)
    (notEnded : t.place ≠ .ended) (systems : σ'.systems = σ.systems) (starts : σ'.starts = σ.starts)
    (starter : σ'.starter = σ.starter) (logged : σ'.Logged) (requested : σ'.fState = eStartRequested → σ.fState = eStartRequested)
    (fits : place ≠ .ended → place.Fits σ'.fState) : (σ'.move i t place).Inv := by
  have mem := List.mem_of_getElem? here
  have alone : ∀ {j u}, (σ'.move i t place).systems[j]? = some u → u.place ≠ .ended → j = i ∧ u = { t with place := place } := by
    intro j u at_j alive
    rw [State.move, systems, getElem?_set_iff here] at at_j
    rcases at_j with ⟨rfl, rfl⟩ | ⟨other, at_j⟩
    · exact ⟨rfl, rfl⟩
    · exact absurd (inv.one at_j here alive notEnded) other
  refine ⟨⟨⟨logged.forward, logged.last⟩, logged.bounded, logged.ongoing⟩, ?_, ?_, ?_, ?_⟩
  · intro u memU alive
    obtain ⟨j, at_j⟩ := List.getElem?_of_mem memU
    obtain ⟨-, rfl⟩ := alone at_j alive
    exact ⟨(inv.live t mem notEnded).1.trans starts.symm, fits alive⟩
  · intro j k u v at_j at_k aliveU aliveV
    exact (alone at_j aliveU).1.trans (alone at_k aliveV).1.symm
  · intro isRequested _
    exact starter.trans (inv.window (requested isRequested) ⟨t, mem, notEnded⟩)
  · show σ'.starter.Fits _ _
    rw [starter]
    rcases inv.starter_alive mem notEnded with at_ | at_ | at_ <;> rw [at_] <;> trivial

theorem State.Inv.logged_change (inv : σ.Inv) {actor : Actor} {state : EThreadState} (hook : Bool) (outside : ∀ k, actor ≠ .system k)
    (again : state = eCreated → actor = .starter) : (σ.setState actor false hook state).1.Logged :=
  inv.logged.change (fun isOwn => absurd isOwn (by decide)) (fun k isSystem => absurd isSystem (outside k)) again

theorem State.Inv.changed (inv : σ.Inv) {actor : Actor} {state : EThreadState} {starter : Starter} (outside : ∀ k, actor ≠ .system k) (other : state ≠ eCreated ∧ state ≠ eStartRequested)
    (fits : ∀ place, place ≠ .ended → Place.Fits σ.fState place → Place.Fits ((σ.fState.setState false true state).getD σ.fState) place)
    (window : (σ.fState.setState false true state).getD σ.fState = eStartRequested → starter = .setStartInProgress)
    (free : starter = .idle ∨ starter = .setStartInProgress ∨ starter = .setStarted) :
    ((σ.setState actor false true state).1.goTo starter).Inv := by
  have logged := inv.logged_change true outside fun isCreated => absurd isCreated other.1
  refine ⟨⟨⟨logged.forward, logged.last⟩, logged.bounded, logged.ongoing⟩, ?_, ?_, ?_, ?_⟩
  · intro t mem notEnded
    rw [State.goTo, setState_systems] at mem
    obtain ⟨same, placed⟩ := inv.live t mem notEnded
    refine ⟨same.trans (setState_starts other.2).symm, ?_⟩
    simpa only [State.goTo, setState_fState] using fits t.place notEnded placed
  · intro i j t u at_i at_j
    rw [State.goTo, setState_systems] at at_i at_j
    exact inv.one at_i at_j
  · intro isRequested _
    exact window (by simpa only [State.goTo, setState_fState] using isRequested)
  · rcases free with rfl | rfl | rfl <;> trivial

theorem State.Inv.changed_silent (inv : σ.Inv) (quiet : ∀ t ∈ σ.systems, t.place = .ended) {actor : Actor} {hook : Bool}
    {state : EThreadState} {starter : Starter} (outside : ∀ k, actor ≠ .system k) (again : state = eCreated → actor = .starter)
    (fits : starter.Fits ((σ.fState.setState false hook state).getD σ.fState) True) :
    ((σ.setState actor false hook state).1.goTo starter).Inv := by
  have logged := inv.logged_change hook outside again
  have still : ∀ t ∈ ((σ.setState actor false hook state).1.goTo starter).systems, t.place = .ended := by
    simpa only [State.goTo, setState_systems] using quiet
  refine .silent ⟨⟨logged.forward, logged.last⟩, logged.bounded, logged.ongoing⟩ still ?_
  rw [eq_true still]
  simpa only [State.goTo, setState_fState] using fits

theorem State.Inv.start (inv : σ.Inv) {allocator hook : Bool} (done : step (.start allocator hook) σ = .ok σ') : σ'.Inv := by
  dsimp only [step] at done
  split at done
  · split at done
    · cases done
      exact inv
    · rename_i notAlive
      cases done
      have still : σ.fState = eCreated ∨ σ.fState = eTerminated := by
        revert notAlive
        cases σ.fState <;> decide
      have quiet := inv.quiet (fun ongoing => still.elim ongoing.1 ongoing.2)
      exact .silent ⟨⟨inv.logged.forward, inv.logged.last⟩, inv.logged.bounded, inv.logged.ongoing⟩ quiet ⟨quiet, still⟩
  · cases done

theorem State.Inv.advance (inv : σ.Inv) (done : advance σ = .ok σ') : σ'.Inv := by
  have logged := inv.logged
  have fits := inv.starter
  unfold LifeCycle.advance at done
  cases at_ : σ.starter with
  | idle | startThread =>
    rw [at_] at done
    cases done
  | getState allocator hook | getStateAgain allocator hook =>
    rw [at_] at done fits
    cases done
    refine .silent ⟨⟨logged.forward, logged.last⟩, logged.bounded, logged.ongoing⟩ fits.1 ?_
    dsimp only [State.goTo]
    split <;> exact fits
  | setCreated allocator hook =>
    rw [at_] at done fits
    cases done
    refine inv.changed_silent fits.1 nofun (fun _ => rfl) ⟨trivial, ?_⟩
    rcases fits.2 with at_ | at_ <;> rw [at_] <;> decide
  | setStartRequested hook =>
    rw [at_] at done fits
    cases done
    refine inv.changed_silent fits.1 nofun nofun ?_
    rw [setState_snd]
    rcases fits.2 with at_ | at_ <;> rw [at_] <;> cases hook <;> simp [EThreadState.setState, intSetState, value, Starter.Fits, lt_iff]
  | setTerminationRequested =>
    rw [at_] at done fits
    cases done
    exact inv.changed_silent fits.1 nofun nofun trivial
  | setStartInProgress =>
    rw [at_] at done
    cases done
    refine inv.changed nofun ⟨nofun, nofun⟩ ?_ ?_ (.inr (.inr rfl))
    · intro place notEnded
      revert notEnded
      cases σ.fState <;> cases place <;> simp [EThreadState.setState, intSetState, Place.Fits, value, lt_iff, le_iff]
    · cases σ.fState <;> decide
  | setStarted =>
    rw [at_] at done
    cases done
    by_cases alive : ∃ t ∈ σ.systems, t.place ≠ .ended
    · refine inv.changed nofun ⟨nofun, nofun⟩ ?_ ?_ (.inl rfl)
      · intro place notEnded
        revert notEnded
        cases σ.fState <;> cases place <;> simp [EThreadState.setState, intSetState, Place.Fits, value, lt_iff, le_iff]
      · intro isRequested
        have requested : σ.fState = eStartRequested := by
          revert isRequested
          cases σ.fState <;> decide
        rw [inv.window requested alive] at at_
        cases at_
    · have quiet : ∀ t ∈ σ.systems, t.place = .ended := fun t mem => by_contra fun notEnded => alive ⟨t, mem, notEnded⟩
      exact inv.changed_silent quiet nofun nofun trivial

theorem State.Inv.startThread (inv : σ.Inv) {ok : Bool} (orderly : Orderly (.startThread ok) σ)
    (done : step (.startThread ok) σ = .ok σ') : σ'.Inv := by
  have logged := inv.logged
  have starterFits := inv.starter
  dsimp only [step] at done
  split at done
  · rename_i at_
    rw [at_] at starterFits
    have quiet := starterFits.1
    cases ok with
    | false =>
      cases done
      exact .silent ⟨⟨logged.forward, logged.last⟩, logged.bounded, logged.ongoing⟩ quiet trivial
    | true =>
      cases done
      have requested := orderly at_
      have isNew : ∀ {i : Nat} {t : SystemThread}, (σ.systems ++ [⟨σ.starts, .checkState⟩])[i]? = some t → t.place ≠ .ended →
          i = σ.systems.length ∧ t = ⟨σ.starts, .checkState⟩ := by
        intro i t at_i notEnded
        rw [List.getElem?_append] at at_i
        split at at_i
        · exact absurd (quiet t (List.mem_of_getElem? at_i)) notEnded
        · rw [List.getElem?_singleton] at at_i
          split at at_i
          · cases at_i
            exact ⟨by omega, rfl⟩
          · cases at_i
      refine ⟨⟨⟨logged.forward, logged.last⟩, logged.bounded, logged.ongoing⟩, ?_, ?_, fun _ _ => rfl, trivial⟩
      · intro t mem notEnded
        obtain ⟨i, at_i⟩ := List.getElem?_of_mem mem
        obtain ⟨-, rfl⟩ := isNew at_i notEnded
        refine ⟨rfl, ?_⟩
        show Place.Fits σ.fState .checkState
        rw [requested]
        exact ⟨by decide, by decide, by decide⟩
      · intro i j t u at_i at_j aliveT aliveU
        exact (isNew at_i aliveT).1.trans (isNew at_j aliveU).1.symm
  · cases done

theorem State.Inv.terminate (inv : σ.Inv) (orderly : Orderly .terminate σ) (done : step .terminate σ = .ok σ') : σ'.Inv := by
  cases done
  have same : (σ.setState .terminator false true eTerminationRequested).1.goTo σ.starter =
      (σ.setState .terminator false true eTerminationRequested).1 := by
    rw [← setState_starter σ .terminator false true eTerminationRequested]
    rfl
  rw [← same]
  by_cases alive : ∃ t ∈ σ.systems, t.place ≠ .ended
  · have notRequested : σ.fState ≠ eStartRequested := fun requested => orderly ⟨inv.window requested alive, requested⟩
    obtain ⟨t, mem, notEnded⟩ := alive
    refine inv.changed nofun ⟨nofun, nofun⟩ ?_ ?_ (inv.starter_alive mem notEnded)
    · intro place notEnded
      revert notEnded notRequested
      cases σ.fState <;> cases place <;> simp [EThreadState.setState, intSetState, Place.Fits, value, lt_iff, le_iff]
    · revert notRequested
      cases σ.fState <;> simp [EThreadState.setState, intSetState, value, lt_iff]
  · have quiet : ∀ t ∈ σ.systems, t.place = .ended := fun t mem => by_contra fun notEnded => alive ⟨t, mem, notEnded⟩
    refine inv.changed_silent quiet nofun nofun ?_
    have fits := inv.starter
    revert fits
    cases σ.starter <;> cases σ.fState <;> simp [EThreadState.setState, intSetState, Starter.Fits, value, lt_iff]

theorem State.Inv.system (inv : σ.Inv) {i : Nat} {t : SystemThread} (here : σ.systems[i]? = some t)
    (done : advanceSystem i t σ = .ok σ') : σ'.Inv := by
  have mem := List.mem_of_getElem? here
  have logged := inv.logged
  by_cases ended : t.place = .ended
  · rw [advanceSystem, ended] at done
    cases done
  obtain ⟨same, fits⟩ := inv.live t mem ended
  have ongoing := fits.ongoing ended
  -- what a change by this thread needs
  have change : ∀ (own : Bool) (state : EThreadState), state ≠ eCreated → state ≠ eStartRequested →
      (state = eTerminatedRunMethod → σ.fState < eTerminatedRunMethod) →
      (σ.setState (.system t.start) own true state).1.Logged := fun own state notCreated notRequested before =>
    logged.change (fun _ => ⟨ongoing, before⟩)
      (fun k isSystem => ⟨(Actor.system.inj isSystem).symm.trans same, ongoing, notRequested⟩)
      (fun isCreated => absurd isCreated notCreated)
  unfold advanceSystem at done
  cases at_ : t.place with
  | ended => exact absurd at_ ended
  | checkState =>
    rw [at_] at done fits
    dsimp only at done
    split at done
    · cases done
    · rename_i checked
      cases done
      refine inv.moved here ended rfl rfl rfl logged id fun _ => ?_
      revert checked fits
      cases σ.fState <;> simp [EThreadState.checkState, Place.Fits, lt_iff, le_iff, value]
    · rename_i checked
      cases done
      refine inv.moved here ended rfl rfl rfl logged id fun _ => ?_
      revert checked fits
      cases σ.fState <;> simp [EThreadState.checkState, Place.Fits, lt_iff, le_iff, value]
  | setRunning =>
    rw [at_] at done fits
    cases done
    refine inv.moved here ended (setState_systems ..) (setState_starts nofun) (setState_starter ..)
      (change _ _ nofun nofun nofun) ?_ fun _ => ?_
    · rw [setState_fState]
      rcases fits with is | is <;> rw [is] <;> cases decide (σ.fThreadId = some i) <;> decide
    · rw [setState_fState, setState_snd]
      rcases fits with is | is <;> rw [is] <;> cases decide (σ.fThreadId = some i) <;>
        simp [EThreadState.setState, intSetState, Place.Fits, value, lt_iff]
  | running =>
    rw [at_] at done fits
    cases done
    exact inv.moved here ended rfl rfl rfl logged id fun _ => fits
  | setTerminatedRunMethod =>
    rw [at_] at done fits
    cases done
    have before : σ.fState < eTerminatedRunMethod := by
      rcases fits with is | is <;> rw [is] <;> decide
    refine inv.moved here ended (setState_systems ..) (setState_starts nofun) (setState_starter ..)
      (change _ _ nofun nofun fun _ => before) ?_ fun _ => ?_
    · rw [setState_fState]
      rcases fits with is | is <;> rw [is] <;> cases decide (σ.fThreadId = some i) <;> decide
    · rw [setState_fState]
      rcases fits with is | is <;> rw [is] <;> cases decide (σ.fThreadId = some i) <;> 
        simp [EThreadState.setState, intSetState, Place.Fits, value, lt_iff, le_iff]
  | exit =>
    rw [at_] at done fits
    cases done
    exact inv.moved here ended rfl rfl rfl ⟨⟨logged.forward, logged.last⟩, logged.bounded, logged.ongoing⟩ id fun _ => fits
  | setTerminated =>
    rw [at_] at done fits
    cases done
    refine inv.moved here ended (setState_systems ..) (setState_starts nofun) (setState_starter ..)
      (change _ _ nofun nofun nofun) ?_ fun notEnded => absurd rfl notEnded
    rw [setState_fState]
    revert ongoing
    cases σ.fState <;> cases decide (σ.fThreadId = some i) <;> simp [EThreadState.setState, intSetState, Ongoing, value, lt_iff]

theorem State.Inv.step {e : Event} (inv : σ.Inv) (orderly : Orderly e σ) (done : step e σ = .ok σ') : σ'.Inv := by
  cases e with
  | start allocator hook => exact inv.start done
  | advance => exact inv.advance done
  | startThread ok => exact inv.startThread orderly done
  | terminate => exact inv.terminate orderly done
  | system i =>
    dsimp only [LifeCycle.step] at done
    split at done
    · cases done
    · rename_i t here
      exact inv.system here done

/-! ### What changes a step makes -/

theorem State.Changed.move {new : Option EThreadState} (changed : σ.Changed σ' new) (i : Nat) (t : SystemThread) (place : Place) :
    σ.Changed (σ'.move i t place) new := by
  cases new <;> exact changed

theorem State.Changed.goTo {new : Option EThreadState} (changed : σ.Changed σ' new) (starter : Starter) :
    σ.Changed (σ'.goTo starter) new := by
  cases new <;> exact changed

theorem State.Inv.system_changed (inv : σ.Inv) {i : Nat} (done : LifeCycle.step (.system i) σ = .ok σ') :
    Ongoing σ.fState ∧ (σ.starter = .idle ∨ σ.starter = .setStartInProgress ∨ σ.starter = .setStarted) ∧ σ'.starter = σ.starter ∧
      ∃ new, σ.Changed σ' new ∧ ∀ s, new = some s → σ.fState < s ∧ (eRunning < s → eRunning ≤ σ.fState) := by
  dsimp only [LifeCycle.step] at done
  split at done
  · cases done
  rename_i t here
  by_cases ended : t.place = .ended
  · rw [advanceSystem, ended] at done
    cases done
  obtain ⟨-, fits⟩ := inv.live t (List.mem_of_getElem? here) ended
  refine ⟨fits.ongoing ended, inv.starter_alive (List.mem_of_getElem? here) ended, ?_⟩
  unfold advanceSystem at done
  cases at_ : t.place with
  | ended => exact absurd at_ ended
  | checkState =>
    rw [at_] at done
    dsimp only at done
    split at done
    · cases done
    · cases done
      exact ⟨rfl, none, ⟨rfl, rfl⟩, nofun⟩
    · cases done
      exact ⟨rfl, none, ⟨rfl, rfl⟩, nofun⟩
  | running | exit =>
    rw [at_] at done
    cases done
    exact ⟨rfl, none, ⟨rfl, rfl⟩, nofun⟩
  | setRunning | setTerminatedRunMethod | setTerminated =>
    rw [at_] at done fits
    cases done
    refine ⟨setState_starter .., _, (setState_changed ..).move .., fun s set => ?_⟩
    revert fits set
    cases σ.fState <;> cases decide (σ.fThreadId = some i) <;> cases s <;>
      simp [EThreadState.setState, intSetState, Place.Fits, value, lt_iff, le_iff]

end Invariant

theorem State.inv_new : State.new.Inv :=
  .silent ⟨⟨nofun, .nil⟩, nofun, fun notCreated => absurd rfl notCreated⟩ nofun trivial

/-- The life cycle goes forward where no system thread comes after the short cut to `eTerminated`. -/
theorem states_forward (es : List Event) (orderly : Runs.Meets step Orderly es State.new) {σ : State}
    (done : run es State.new = .ok σ) : σ.Monotone :=
  (Runs.run_ok_keeps (fun _ _ _ inv orderly done => State.Inv.step inv orderly done) State.inv_new orderly done).logged.toMonotone

def twoLives : List Event :=
  [.start true true, .advance, .advance, .advance, .startThread true, .advance, .advance, .system 0, .system 0, .terminate, .system 0,
    .system 0, .system 0, .system 0, .start true true, .advance, .advance, .advance, .advance, .startThread true, .advance]

theorem states_forward_twoLives : ∃ σ, run twoLives State.new = .ok σ ∧ σ.fState = eStartInProgress ∧ σ.Monotone := by
  exact ⟨_, rfl, rfl, states_forward twoLives (Runs.meets_of_decide (by decide)) rfl⟩

/-- `Terminate` takes the short cut after `STARTTHREAD`, and `IntRun` goes on. -/
def terminatedEarly : List Event :=
  [.start true true, .advance, .advance, .advance, .startThread true, .terminate, .system 0, .system 0]

theorem state_goes_back : ∃ σ, run terminatedEarly State.new = .ok σ ∧ σ.fState = eTerminatedRunMethod ∧
    ⟨.system 1, eTerminated, eTerminatedRunMethod, 1⟩ ∈ σ.changes ∧ ¬ σ.Monotone := by
  refine ⟨_, rfl, rfl, by decide, fun monotone => ?_⟩
  have forward := monotone.forward ⟨.system 1, eTerminated, eTerminatedRunMethod, 1⟩ (by decide)
  rcases forward with forward | ⟨isStarter, -⟩
  · exact absurd forward (by decide)
  · cases isStarter

end LifeCycle

end Coast.Threading
