import Mathlib.Tactic.Common

/-!
# States of threads
-/

namespace Coast.Threading

inductive EThreadState where
  | eCreated
  | eStartRequested
  | eStartInProgress
  | eStarted
  | eRunning
  | eTerminationRequested
  | eTerminatedRunMethod
  | eTerminated
  deriving DecidableEq, Repr

inductive ERunningState where
  | eReady
  | eWorking
  deriving DecidableEq, Repr

namespace EThreadState

def value : EThreadState → Nat
  | eCreated => 0
  | eStartRequested => 1
  | eStartInProgress => 2
  | eStarted => 3
  | eRunning => 4
  | eTerminationRequested => 5
  | eTerminatedRunMethod => 6
  | eTerminated => 7

instance : LT EThreadState := ⟨fun a b => a.value < b.value⟩

instance : LE EThreadState := ⟨fun a b => a.value ≤ b.value⟩

instance (a b : EThreadState) : Decidable (a < b) := inferInstanceAs (Decidable (a.value < b.value))

instance (a b : EThreadState) : Decidable (a ≤ b) := inferInstanceAs (Decidable (a.value ≤ b.value))

theorem lt_iff {a b : EThreadState} : a < b ↔ a.value < b.value := Iff.rfl

theorem le_iff {a b : EThreadState} : a ≤ b ↔ a.value ≤ b.value := Iff.rfl

/-- `CheckState` without a timeout: what it returns, or nothing while it waits. -/
def checkState (fState state : EThreadState) : Option Bool :=
  if fState = state then some true else if state < fState then some false else none

/-- `IntSetState`: only `DoStartRequestedHook` can refuse. -/
def intSetState (hook : Bool) (state : EThreadState) : Option EThreadState :=
  if state = eStartRequested ∧ hook = false then none else some state

/-- `SetState`: the state that `fState` is changed to, if it is. `own` is `MyId() == GetId()`. -/
def setState (own hook : Bool) (fState state : EThreadState) : Option EThreadState :=
  if state.value = fState.value + 1 then intSetState hook state
  else if state = eTerminationRequested ∧ fState < eTerminationRequested then
    intSetState hook (if fState = eCreated ∨ fState = eStartRequested then eTerminated else state)
  else if fState = eTerminated ∧ state = eCreated then intSetState hook state
  else if state = eTerminatedRunMethod ∧ own then intSetState hook state
  else if state = eTerminated ∧ own then intSetState hook state
  else none

theorem setState_new {own hook : Bool} {fState state new : EThreadState} (set : setState own hook fState state = some new) :
    new = state ∨ state = eTerminationRequested ∧ new = eTerminated := by
  revert set
  cases fState <;> cases state <;> cases own <;> cases hook <;> decide +revert

theorem setState_forward {own hook : Bool} {fState state new : EThreadState} (set : setState own hook fState state = some new) :
    fState < new ∨ (fState = eTerminated ∧ state = eCreated ∧ new = eCreated) ∨
      (own = true ∧ state = eTerminatedRunMethod ∧ new = eTerminatedRunMethod ∧ eTerminatedRunMethod ≤ fState) ∨
      (own = true ∧ state = eTerminated ∧ fState = eTerminated) := by
  revert set
  cases fState <;> cases state <;> cases own <;> cases hook <;> decide +revert

end EThreadState

end Coast.Threading
