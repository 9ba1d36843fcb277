import Coast.Session.Requests

/-!
# The limit of sessions

`MakeSession` reads the number of sessions in one section and `AddSession` adds one in another, so that the
requests in between count as well.
-/

namespace Coast.Session

variable {σ : Type} [DecidableEq σ]

def Request.pending (r : Request σ) : Nat :=
  match r.phase with
  | .making | .made _ _ | .deleting _ true => 1
  | _ => 0

/-- Whether the request is about to leave the cleanup of a `CreateSession`. -/
def Request.cleansForCreate (r : Request σ) : Bool :=
  match r.phase with
  | .sweeping true 0 _ creates => creates
  | _ => false

namespace Server

variable {fMaxSessionsAllowed : Int} {v v' : Server σ}

/-- A number of sessions that lets `CreateSession` go on leaves room for the sessions that are on their way. -/
def Room (fMaxSessionsAllowed : Int) (v : Server σ) : Prop := v.manager.getNumberOfSessions < fMaxSessionsAllowed →
  v.manager.getNumberOfSessions + Pool.total Request.pending v.requests < fMaxSessionsAllowed

/-- The condition for the events in which `CreateSession` reads the number of sessions. -/
def HasRoom (fMaxSessionsAllowed : Int) : Event σ → Server σ → Prop
  | .createSession _, v => v.Room fMaxSessionsAllowed
  | .swept place, v => v.requests[place]?.any Request.cleansForCreate = true → v.Room fMaxSessionsAllowed
  | _, _ => True

instance : Decidable (v.Room fMaxSessionsAllowed) :=
  inferInstanceAs (Decidable (v.manager.getNumberOfSessions < fMaxSessionsAllowed → _ < _))

instance : (e : Event σ) → (v : Server σ) → Decidable (HasRoom fMaxSessionsAllowed e v)
  | .createSession _, v => inferInstanceAs (Decidable (v.Room fMaxSessionsAllowed))
  | .swept place, v => inferInstanceAs (Decidable (v.requests[place]?.any Request.cleansForCreate = true → v.Room fMaxSessionsAllowed))
  | .request, _ | .lookupSession .., _ | .push _, _ | .unRef _, _ | .makeSession .., _ | .addSession .., _
  | .disableSession .., _ | .cleanupSessions _, _ | .visit .., _ | .deleteSession _, _ | .finish _, _ => isTrue trivial

def Within (fMaxSessionsAllowed : Int) (v : Server σ) : Prop := ∃ d disabled, SessionListManager.Holds v.manager d disabled ∧
  d.slots.length + Pool.total Request.pending v.requests ≤ fMaxSessionsAllowed

section Steps

variable {d d' : Directory σ} {disabled disabled' : List σ} {place : Nat} {r : Request σ} {fSession : Option σ} {phase : Phase σ}
  {m : SessionListManager σ} {live : List σ}

omit [DecidableEq σ] in
theorem within_moved (le : d.slots.length + Pool.total Request.pending v.requests ≤ fMaxSessionsAllowed)
    (here : v.requests[place]? = some r) (holds : SessionListManager.Holds m d' disabled')
    (less : d'.slots.length + Request.pending ⟨fSession, phase⟩ ≤ d.slots.length + r.pending) :
    Within fMaxSessionsAllowed (v.moved place fSession phase m live) := by
  have exchanged : Pool.total Request.pending (v.moved place fSession phase m live).requests + r.pending =
      Pool.total Request.pending v.requests + Request.pending ⟨fSession, phase⟩ :=
    Pool.total_replace Request.pending here (some ⟨fSession, phase⟩)
  exact ⟨d', disabled', holds, by omega⟩

omit [DecidableEq σ] in
theorem within_disabled (le : d.slots.length + Pool.total Request.pending v.requests ≤ fMaxSessionsAllowed)
    (here : v.requests[place]? = some r) (holds : SessionListManager.Holds v.manager d disabled) (id : Id)
    (less : Request.pending ⟨fSession, phase⟩ ≤ r.pending) :
    Within fMaxSessionsAllowed (v.moved place fSession phase (v.manager.disableSession id).2 live) := by
  rcases SessionListManager.disableSession_cases holds id with none | ⟨_, -, -, -, holds'⟩
  · rw [none]
    exact within_moved le here holds (Nat.add_le_add_left less _)
  · exact within_moved le here holds' (Nat.add_le_add List.length_eraseP_le less)

omit [DecidableEq σ] in
theorem within_passed (room : v.Room fMaxSessionsAllowed) (holds : SessionListManager.Holds v.manager d disabled)
    (here : v.requests[place]? = some r) (few : v.manager.getNumberOfSessions < fMaxSessionsAllowed)
    (one : Request.pending ⟨fSession, phase⟩ ≤ 1) : Within fMaxSessionsAllowed (v.moved place fSession phase v.manager live) := by
  have exchanged : Pool.total Request.pending (v.moved place fSession phase v.manager live).requests + r.pending =
      Pool.total Request.pending v.requests + Request.pending ⟨fSession, phase⟩ :=
    Pool.total_replace Request.pending here (some ⟨fSession, phase⟩)
  have count := SessionListManager.getNumberOfSessions_eq holds
  have left := room few
  exact ⟨d, disabled, holds, by omega⟩

omit [DecidableEq σ] in
theorem within_finished (le : d.slots.length + Pool.total Request.pending v.requests ≤ fMaxSessionsAllowed)
    (here : v.requests[place]? = some r) (holds : SessionListManager.Holds m d disabled) :
    Within fMaxSessionsAllowed ⟨m, live, Pool.replace v.requests place none⟩ := by
  have exchanged : Pool.total Request.pending (Pool.replace v.requests place none) + r.pending =
      Pool.total Request.pending v.requests + 0 := Pool.total_replace Request.pending here none
  exact ⟨d, disabled, holds, by dsimp only; omega⟩

theorem step_within (within : Within fMaxSessionsAllowed v) {e : Event σ} (room : HasRoom fMaxSessionsAllowed e v)
    (done : step fMaxSessionsAllowed e v = .ok v') : Within fMaxSessionsAllowed v' := by
  obtain ⟨d, disabled, holds, le⟩ := within
  have same : ∀ {m : SessionListManager σ}, m.fSessions = v.manager.fSessions →
      m.fDisabledSessions = v.manager.fDisabledSessions → SessionListManager.Holds m d disabled :=
    fun sessions disabledSessions => ⟨sessions.trans holds.sessions, disabledSessions ▸ holds.disabledSessions⟩
  cases takes_of_step done with
  | request => exact ⟨d, disabled, holds, by rw [Pool.total_append]; exact le⟩
  | found here | notFound here =>
    exact within_moved le here (SessionListManager.intLookupSession_holds holds _ _).1 (Nat.le_refl _)
  | pushSame here | createFull here | sweptActive here => exact within_moved le here holds (Nat.le_refl _)
  | @push place fSession s here =>
    refine within_moved le here (same rfl rfl) ?_
    cases fSession <;> exact Nat.le_refl _
  | unRef here | unRefMade here | make here => exact within_moved le here (same rfl rfl) (Nat.le_refl _)
  | create here few => exact within_passed room holds here few (Nat.le_refl 1)
  | @add place id fSession s here =>
    exact within_moved le here (SessionListManager.addSession_holds holds id s) (Directory.length_put id s d.slots)
  | disableOwn here | disable here => exact within_disabled le here holds _ (Nat.le_refl _)
  | @cleanup place fSession creates here =>
    refine within_moved le here holds ?_
    cases creates <;> exact Nat.le_refl _
  | @visit place left check fSession roleNotRelevant creates sessions2Delete here =>
    cases found : v.manager.sessionAt roleNotRelevant left with
    | none =>
      rw [SessionListManager.visitSlot_none found]
      exact within_moved le here holds (Nat.le_refl _)
    | some s =>
      obtain ⟨d', disabled', holds', less, -⟩ :=
        SessionListManager.visitSlot_lists holds found check sessions2Delete fSession
      exact within_moved le here holds' less
  | @sweptDisabled place fSession creates sessions2Delete here =>
    cases creates with
    | false => exact within_moved le here holds (Nat.le_refl _)
    | true =>
      by_cases few : v.manager.getNumberOfSessions < fMaxSessionsAllowed
      · rw [HasRoom, here] at room
        rw [decide_eq_true few]
        exact within_passed (room rfl) holds here few (Nat.le_refl 1)
      · rw [decide_eq_false few]
        exact within_moved le here holds (Nat.le_refl _)
  | @delete place fSession s creates sessions2Delete here =>
    refine within_moved le here holds ?_
    cases creates <;> exact Nat.le_refl _
  | @deleted place fSession creates here =>
    refine within_moved le here holds ?_
    cases creates <;> exact Nat.le_refl _
  | finish here => exact within_finished le here (same rfl rfl)
  | finishNone here => exact within_finished le here holds

end Steps

omit [DecidableEq σ] in
theorem initial_within (some : 0 ≤ fMaxSessionsAllowed) : Within fMaxSessionsAllowed (initial : Server σ) :=
  ⟨.empty, [], SessionListManager.new_holds, some⟩

/-- The limit is kept as long as no request goes on at a number of sessions that leaves room only for others. -/
theorem limit_kept {fMaxSessionsAllowed : Int} {evs : List (Event σ)} {v : Server σ} (some : 0 ≤ fMaxSessionsAllowed)
    (room : Runs.Meets (step fMaxSessionsAllowed) (HasRoom fMaxSessionsAllowed) evs .initial)
    (done : Runs.run (step fMaxSessionsAllowed) evs .initial = .ok v) : v.manager.getNumberOfSessions ≤ fMaxSessionsAllowed := by
  obtain ⟨d, disabled, holds, le⟩ :=
    Runs.run_ok_keeps (fun _ _ _ within room done => step_within within room done) (initial_within some) room done
  rw [SessionListManager.getNumberOfSessions_eq holds]
  omega

def creation : List (Event Nat) :=
  [.request, .createSession 0, .makeSession 0 7, .addSession 0 ⟨ascii "a", by decide, by decide⟩]

theorem limit_kept_one : ∃ v, Runs.run (step 1) creation .initial = .ok v ∧ v.manager.getNumberOfSessions ≤ 1 :=
  ⟨_, rfl, @limit_kept Nat _ 1 creation _ (by decide) (Runs.meets_of_decide (by decide)) rfl⟩

/-- Two requests read the number before one of them adds its session. -/
theorem limit_exceeded : ¬ ∀ (fMaxSessionsAllowed : Int) (evs : List (Event Nat)) (v : Server Nat), 0 ≤ fMaxSessionsAllowed →
    Runs.run (step fMaxSessionsAllowed) evs .initial = .ok v → v.manager.getNumberOfSessions ≤ fMaxSessionsAllowed := by
  intro all
  have limit := all 1 [.request, .request, .createSession 0, .createSession 1, .makeSession 0 7, .makeSession 1 8,
    .addSession 0 ⟨ascii "a", by decide, by decide⟩, .addSession 1 ⟨ascii "b", by decide, by decide⟩] _ (by decide) rfl
  revert limit
  decide

end Server

end Coast.Session
