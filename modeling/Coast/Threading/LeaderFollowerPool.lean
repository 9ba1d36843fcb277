import Coast.Lib.Pool
import Coast.Lib.Runs
import Coast.Threading.ThreadState

/-!
# The leader/follower pool

A step is one section under `fLFMutex`: `WaitForRequest` up to a wait or up to `ProcessEvents`, the call
of `PromoteNewLeader` in `ProcessEvents`, `RequestTermination`. The threads change their own states at any
time.
-/

namespace Coast.Threading

open Pool

namespace LeaderFollower

inductive Leader where
  | cNoCurrentLeader
  | cBlockPromotion
  | thread (id : Nat)
  deriving DecidableEq, Repr

structure Members where
  fCurrentLeader : Leader
  fOldLeader : Leader
  fPoolState : EThreadState
  deriving DecidableEq, Repr

/-- Where a thread stands. -/
inductive Place where
  | outside
  /-- On `fFollowersCondition`. -/
  | asleep
  /-- Signalled, timed out, or woken without a signal, and not yet back under the mutex. -/
  | woken
  /-- From `fCurrentLeader = MyId()` to its own `PromoteNewLeader`. -/
  | leading
  /-- From there to the lock after `ProcessEvents`. -/
  | processing
  deriving DecidableEq, Repr

structure Follower where
  place : Place
  fState : EThreadState
  deriving DecidableEq, Repr

structure State where
  members : Members
  threads : List Follower
  deriving DecidableEq, Repr

structure Outcome where
  members : Members
  place : Place
  signals : Bool

namespace Members

variable (s : Members)

def promoteNewLeader : Members :=
  if s.fCurrentLeader ≠ .cBlockPromotion then { s with fCurrentLeader := .cNoCurrentLeader }
  else { s with fOldLeader := .cNoCurrentLeader }

/-- `PromoteNewLeader` at the end of `WaitForRequest`. -/
def returns : Outcome := ⟨s.promoteNewLeader, .outside, true⟩

def follow (me : Nat) : Outcome :=
  if s.fCurrentLeader ≠ .cNoCurrentLeader then ⟨s, .asleep, false⟩ else ⟨{ s with fCurrentLeader := .thread me }, .leading, false⟩

def loop (me : Nat) : Outcome := if s.fPoolState = .eRunning then s.follow me else s.returns

/-- `WaitForRequest` from the beginning. -/
def waitForRequest (me : Nat) : Outcome :=
  (if s.fPoolState < .eRunning then { s with fPoolState := .eRunning } else s).loop me

/-- After the wait; nothing while `CheckState` waits. -/
def resume (me : Nat) (fState : EThreadState) : Option Outcome :=
  if .eTerminationRequested ≤ s.fPoolState then some s.returns
  else (fState.checkState .eRunning).map fun running => if running then s.follow me else s.returns

def requestTermination : Members := { s with fPoolState := .eTerminationRequested, fCurrentLeader := .cBlockPromotion }

end Members

inductive Event where
  /-- The sections of a thread; a signal wakes `wakes` if somebody is asleep. -/
  | waitForRequest (me wakes : Nat)
  | resume (me wakes : Nat)
  | promoteNewLeader (me wakes : Nat)
  | processed (me wakes : Nat)
  | wake (me : Nat)
  | setState (me : Nat) (state : EThreadState)
  | requestTermination
  deriving DecidableEq, Repr

inductive NotEnabled where
  | notEnabled
  deriving DecidableEq, Repr

def Follower.wake (f : Follower) : Follower := if f.place = .asleep then { f with place := .woken } else f

def signal (threads : List Follower) (wakes : Nat) : Except NotEnabled (List Follower) :=
  if ∀ f ∈ threads, f.place ≠ .asleep then .ok threads
  else
    match threads[wakes]? with
    | some f => if f.place = .asleep then .ok (threads.set wakes f.wake) else .error .notEnabled
    | none => .error .notEnabled

def perform (me wakes : Nat) (place : Place) (outcome : Follower → Option Outcome) (σ : State) : Except NotEnabled State :=
  match σ.threads[me]? with
  | none => .error .notEnabled
  | some f =>
    if f.place = place then
      match outcome f with
      | none => .error .notEnabled
      | some o =>
        let threads := σ.threads.set me { f with place := o.place }
        if o.signals then (signal threads wakes).map fun threads => ⟨o.members, threads⟩ else .ok ⟨o.members, threads⟩
    else .error .notEnabled

def step : Event → State → Except NotEnabled State
  | .waitForRequest me wakes, σ => perform me wakes .outside (fun _ => some (σ.members.waitForRequest me)) σ
  | .resume me wakes, σ => perform me wakes .woken (fun f => σ.members.resume me f.fState) σ
  | .promoteNewLeader me wakes, σ =>
    perform me wakes .leading (fun _ => some ⟨σ.members.promoteNewLeader, .processing, true⟩) σ
  | .processed me wakes, σ => perform me wakes .processing (fun _ => some (σ.members.loop me)) σ
  | .wake me, σ => perform me 0 .asleep (fun _ => some ⟨σ.members, .woken, false⟩) σ
  | .setState me state, σ =>
    match σ.threads[me]? with
    | some f => if f.fState < state then .ok { σ with threads := σ.threads.set me { f with fState := state } } else .error .notEnabled
    | none => .error .notEnabled
  | .requestTermination, σ => .ok ⟨σ.members.requestTermination, σ.threads.map Follower.wake⟩

def State.new (states : List EThreadState) : State where
  members :=
    { fCurrentLeader := .cNoCurrentLeader
      fOldLeader := .cNoCurrentLeader
      fPoolState := .eCreated }
  threads := states.map fun fState => ⟨.outside, fState⟩

abbrev run : List Event → State → Except NotEnabled State := Runs.run step

/-! ### Leaders -/

def leads (threads : List Follower) (me : Nat) : Prop := ∃ f, threads[me]? = some f ∧ f.place = .leading

def State.Leads (σ : State) : Nat → Prop := leads σ.threads

/-- At most one thread leads, and while nobody does the word says so. -/
structure State.Sound (σ : State) : Prop where
  one : ∀ i j, σ.Leads i → σ.Leads j → i = j
  vacant : (∀ i, ¬ σ.Leads i) → σ.members.fPoolState < .eTerminationRequested → σ.members.fCurrentLeader = .cNoCurrentLeader

/-- A follower whose own state is no longer running comes back from its wait only while nobody leads, or when
the pool terminates. -/
def Orderly : Event → State → Prop
  | .resume me _, σ => ∀ f ∈ σ.threads[me]?, f.fState ≠ .eRunning → σ.members.fPoolState < .eTerminationRequested →
    ∀ g ∈ σ.threads, g.place ≠ .leading
  | _, _ => True

instance : (e : Event) → (σ : State) → Decidable (Orderly e σ)
  | .resume me _, σ => inferInstanceAs (Decidable (∀ f ∈ σ.threads[me]?, _ → _ → ∀ g ∈ σ.threads, _))
  | .waitForRequest _ _, _ | .promoteNewLeader _ _, _ | .processed _ _, _ | .wake _, _ | .setState _ _, _
  | .requestTermination, _ => .isTrue trivial

/-! ### The word and the leaders -/

structure Agree (s : Members) (leads : Nat → Prop) : Prop where
  named : ∀ {i}, leads i → s.fCurrentLeader = .thread i ∨ s.fCurrentLeader = .cBlockPromotion
  leader : ∀ {i}, s.fCurrentLeader = .thread i → leads i
  one : ∀ {i j}, leads i → leads j → i = j
  blocked : s.fCurrentLeader = .cBlockPromotion ↔ .eTerminationRequested ≤ s.fPoolState

section Words

variable {s : Members} {leads : Nat → Prop} {me : Nat}

theorem Agree.congr (agree : Agree s leads) {leads' : Nat → Prop} (same : ∀ i, leads' i ↔ leads i) : Agree s leads' := by
  rwa [show leads' = leads from funext fun i => propext (same i)]

theorem Agree.begin (agree : Agree s leads) (early : s.fPoolState < .eRunning) : Agree { s with fPoolState := .eRunning } leads := by
  refine ⟨agree.named, agree.leader, agree.one, ?_⟩
  have unblocked : s.fCurrentLeader ≠ .cBlockPromotion := by
    intro blocked
    have late := agree.blocked.mp blocked
    rw [EThreadState.lt_iff] at early
    rw [EThreadState.le_iff] at late
    exact absurd (Nat.lt_of_lt_of_le early (by decide)) (Nat.not_lt.mpr late)
  exact ⟨fun blocked => absurd blocked unblocked, fun late => absurd late (show ¬ EThreadState.eTerminationRequested ≤ .eRunning by decide)⟩

theorem Agree.lead (agree : Agree s leads) (me : Nat) (vacant : s.fCurrentLeader = .cNoCurrentLeader) :
    Agree { s with fCurrentLeader := .thread me } (fun i => i = me ∨ leads i) := by
  have nobody : ∀ i, ¬ leads i := by
    intro i leading
    rcases agree.named leading with word | word <;> rw [vacant] at word <;> cases word
  have running : ¬ .eTerminationRequested ≤ s.fPoolState := by
    intro late
    have word := agree.blocked.mpr late
    rw [vacant] at word
    cases word
  have only : ∀ {i}, i = me ∨ leads i → i = me := fun either => either.resolve_right (nobody _)
  constructor
  · rintro i either
    rw [only either]
    exact .inl rfl
  · rintro i ⟨⟩
    exact .inl rfl
  · exact fun mine yours => (only mine).trans (only yours).symm
  · exact ⟨nofun, fun late => absurd late running⟩

theorem Agree.promote (agree : Agree s leads) (alone : s.fPoolState < .eTerminationRequested → ∀ i, leads i → i = me) :
    Agree s.promoteNewLeader (fun i => i ≠ me ∧ leads i) := by
  unfold Members.promoteNewLeader
  split
  · rename_i unblocked
    have early : s.fPoolState < .eTerminationRequested := by
      rw [EThreadState.lt_iff]
      exact Nat.lt_of_not_le fun late => unblocked (agree.blocked.mpr late)
    have nobody : ∀ i, ¬ (i ≠ me ∧ leads i) := fun i other => other.1 (alone early i other.2)
    constructor
    · exact fun leading => absurd leading (nobody _)
    · exact nofun
    · exact fun leading => absurd leading (nobody _)
    · exact ⟨nofun, fun late => absurd (agree.blocked.mpr late) unblocked⟩
  · rename_i blocked
    rw [not_not] at blocked
    refine ⟨fun leading => agree.named leading.2, fun word => ?_, fun mine yours => agree.one mine.2 yours.2, agree.blocked⟩
    rw [blocked] at word
    cases word

theorem Agree.terminate (agree : Agree s leads) : Agree s.requestTermination leads :=
  ⟨fun _ => .inr rfl, nofun, agree.one, fun _ => Nat.le_refl EThreadState.eTerminationRequested.value, fun _ => rfl⟩

end Words

/-! ### Steps -/

section Steps

variable {threads threads' : List Follower} {me wakes : Nat} {f g : Follower} {σ σ' : State}

theorem leads_set (here : threads[me]? = some f) (g : Follower) (i : Nat) :
    leads (threads.set me g) i ↔ (i = me ∧ g.place = .leading) ∨ (i ≠ me ∧ leads threads i) := by
  unfold leads
  constructor
  · rintro ⟨h, there, leading⟩
    rcases (getElem?_set_iff here g).mp there with ⟨same, rfl⟩ | ⟨other, there⟩
    · exact .inl ⟨same, leading⟩
    · exact .inr ⟨other, h, there, leading⟩
  · rintro (⟨rfl, leading⟩ | ⟨other, h, there, leading⟩)
    · exact ⟨g, (getElem?_set_iff here g).mpr (.inl ⟨rfl, rfl⟩), leading⟩
    · exact ⟨h, (getElem?_set_iff here g).mpr (.inr ⟨other, there⟩), leading⟩

theorem leads_set_of_not (here : threads[me]? = some f) (before : f.place ≠ .leading) (after : g.place ≠ .leading) (i : Nat) :
    leads (threads.set me g) i ↔ leads threads i := by
  rw [leads_set here]
  constructor
  · rintro (⟨-, leading⟩ | ⟨-, leading⟩)
    · exact absurd leading after
    · exact leading
  · rintro ⟨h, there, leading⟩
    refine .inr ⟨?_, h, there, leading⟩
    rintro rfl
    rw [here] at there
    exact before (Option.some.inj there ▸ leading)

theorem wake_place (f : Follower) : f.wake.place = .leading ↔ f.place = .leading := by
  unfold Follower.wake
  split
  · rename_i asleep
    rw [asleep]
    exact ⟨nofun, nofun⟩
  · exact Iff.rfl

theorem signal_cases (signalled : signal threads wakes = .ok threads') :
    threads' = threads ∨ ∃ f, threads[wakes]? = some f ∧ f.place = .asleep ∧ threads' = threads.set wakes f.wake := by
  unfold signal at signalled
  split at signalled
  · cases signalled
    exact .inl rfl
  · split at signalled
    · rename_i f here
      split at signalled <;> cases signalled
      exact .inr ⟨f, here, ‹_›, rfl⟩
    · cases signalled

theorem leads_signal (signalled : signal threads wakes = .ok threads') (i : Nat) : leads threads' i ↔ leads threads i := by
  rcases signal_cases signalled with rfl | ⟨f, here, asleep, rfl⟩
  · exact Iff.rfl
  · have before : f.place ≠ .leading := by
      rw [asleep]
      exact nofun
    exact leads_set_of_not here before (mt (wake_place f).mp before) i

theorem leads_map_wake (i : Nat) : leads (threads.map Follower.wake) i ↔ leads threads i := by
  unfold leads
  simp only [List.getElem?_map, Option.map_eq_some_iff]
  constructor
  · rintro ⟨_, ⟨f, there, rfl⟩, leading⟩
    exact ⟨f, there, (wake_place f).mp leading⟩
  · rintro ⟨f, there, leading⟩
    exact ⟨f.wake, ⟨f, there, rfl⟩, (wake_place f).mpr leading⟩

/-- Somebody is in `WaitForRequest`. -/
def entered (threads : List Follower) : Prop := ∃ f ∈ threads, f.place ≠ .outside

theorem entered_set (here : threads[me]? = some f) (inside : entered (threads.set me g)) : g.place ≠ .outside ∨ entered threads := by
  obtain ⟨h, mem, inside⟩ := inside
  rcases (mem_set_iff here g).mp mem with rfl | ⟨i, -, there⟩
  · exact .inl inside
  · exact .inr ⟨h, List.mem_of_getElem? there, inside⟩

theorem entered_signal (signalled : signal threads wakes = .ok threads') (inside : entered threads') : entered threads := by
  rcases signal_cases signalled with rfl | ⟨f, here, asleep, rfl⟩
  · exact inside
  · exact ⟨f, List.mem_of_getElem? here, by rw [asleep]; exact nofun⟩

theorem perform_cases {place : Place} {outcome : Follower → Option Outcome} (done : perform me wakes place outcome σ = .ok σ') :
    ∃ f o, σ.threads[me]? = some f ∧ f.place = place ∧ outcome f = some o ∧ σ'.members = o.members ∧
      (∀ i, σ'.Leads i ↔ (i = me ∧ o.place = .leading) ∨ (i ≠ me ∧ σ.Leads i)) ∧
      (entered σ'.threads → o.place ≠ .outside ∨ entered σ.threads) := by
  unfold perform at done
  split at done
  · cases done
  · rename_i f here
    split at done
    · rename_i is
      split at done
      · cases done
      · rename_i o outcomes
        dsimp only at done
        split at done
        · cases signalled : signal (σ.threads.set me { f with place := o.place }) wakes with
          | error _ =>
            rw [signalled] at done
            cases done
          | ok threads =>
            rw [signalled] at done
            cases done
            exact ⟨f, o, here, is, outcomes, rfl, fun i => (leads_signal signalled i).trans (leads_set here _ i),
              fun inside => entered_set here (entered_signal signalled inside)⟩
        · cases done
          exact ⟨f, o, here, is, outcomes, rfl, fun i => leads_set here _ i, fun inside => entered_set here inside⟩
    · cases done

structure State.Inv (σ : State) : Prop where
  agree : Agree σ.members σ.Leads
  begun : entered σ.threads → .eRunning ≤ σ.members.fPoolState

theorem State.Inv.sound (inv : σ.Inv) : σ.Sound := by
  refine ⟨fun i j => inv.agree.one, fun nobody early => ?_⟩
  cases word : σ.members.fCurrentLeader with
  | cNoCurrentLeader => rfl
  | cBlockPromotion =>
    have late := inv.agree.blocked.mp word
    rw [EThreadState.lt_iff] at early
    exact absurd early (Nat.not_lt.mpr late)
  | thread i => exact absurd (inv.agree.leader word) (nobody i)

/-- The leaders after a section of `me` that ends at a place. -/
def Outcome.Agrees (o : Outcome) (me : Nat) (l : Nat → Prop) : Prop :=
  Agree o.members fun i => (i = me ∧ o.place = .leading) ∨ (i ≠ me ∧ l i)

section Outcomes

variable {s : Members} {l : Nat → Prop}

theorem follow_agrees (agree : Agree s l) (notMe : ¬ l me) : (s.follow me).Agrees me l := by
  unfold Members.follow
  split
  · refine agree.congr fun i => ?_
    constructor
    · rintro (⟨-, leading⟩ | ⟨-, leading⟩)
      · cases leading
      · exact leading
    · exact fun leading => .inr ⟨fun same => notMe (same ▸ leading), leading⟩
  · rename_i vacant
    refine (agree.lead me (not_not.mp vacant)).congr fun i => ?_
    by_cases same : i = me <;> simp [same]

theorem returns_agrees (agree : Agree s l) (alone : s.fPoolState < .eTerminationRequested → ∀ i, l i → i = me) :
    s.returns.Agrees me l :=
  (agree.promote alone).congr fun _ => or_iff_right fun mine => Place.noConfusion mine.2

theorem loop_agrees (agree : Agree s l) (notMe : ¬ l me) (begun : .eRunning ≤ s.fPoolState) : (s.loop me).Agrees me l := by
  unfold Members.loop
  split
  · exact follow_agrees agree notMe
  · rename_i notRunning
    refine returns_agrees agree fun early => ?_
    have at_ : s.fPoolState = .eRunning := by
      cases state : s.fPoolState <;> rw [state] at early begun <;> first | rfl | exact absurd early (by decide) | exact absurd begun (by decide)
    exact absurd at_ notRunning

theorem promoteNewLeader_state : s.promoteNewLeader.fPoolState = s.fPoolState := by
  unfold Members.promoteNewLeader
  split <;> rfl

theorem follow_state : (s.follow me).members.fPoolState = s.fPoolState := by
  unfold Members.follow
  split <;> rfl

theorem loop_state : (s.loop me).members.fPoolState = s.fPoolState := by
  unfold Members.loop
  split
  · exact follow_state
  · exact promoteNewLeader_state

end Outcomes

theorem not_leads (here : σ.threads[me]? = some f) (place : f.place ≠ .leading) : ¬ σ.Leads me := by
  rintro ⟨g, there, leading⟩
  rw [here] at there
  exact place (Option.some.inj there ▸ leading)

theorem step_inv {e : Event} (inv : σ.Inv) (orderly : Orderly e σ) (stepped : step e σ = .ok σ') : σ'.Inv := by
  cases e with
  | waitForRequest me wakes =>
    dsimp only [step] at stepped
    obtain ⟨f, o, here, place, ⟨⟩, members, leads, inside⟩ := perform_cases stepped
    have notMe := not_leads here (by rw [place]; exact nofun)
    have begun : Agree (if σ.members.fPoolState < .eRunning then { σ.members with fPoolState := .eRunning } else σ.members) σ.Leads ∧
        .eRunning ≤ (if σ.members.fPoolState < .eRunning then { σ.members with fPoolState := .eRunning } else σ.members).fPoolState := by
      split
      · exact ⟨inv.agree.begin ‹_›, Nat.le_refl EThreadState.eRunning.value⟩
      · exact ⟨inv.agree, Nat.le_of_not_lt ‹_›⟩
    constructor
    · rw [members]
      exact (loop_agrees begun.1 notMe begun.2).congr leads
    · rw [members]
      unfold Members.waitForRequest
      rw [loop_state]
      exact fun _ => begun.2
  | resume me wakes =>
    dsimp only [step] at stepped
    obtain ⟨f, o, here, place, outcome, members, leads, inside⟩ := perform_cases stepped
    have notMe := not_leads here (by rw [place]; exact nofun)
    have begun := inv.begun ⟨f, List.mem_of_getElem? here, by rw [place]; exact nofun⟩
    have agrees : o.Agrees me σ.Leads ∧ o.members.fPoolState = σ.members.fPoolState := by
      unfold Members.resume at outcome
      split at outcome
      · rename_i late
        cases outcome
        exact ⟨returns_agrees inv.agree fun early => absurd late (Nat.not_le.mpr early), promoteNewLeader_state⟩
      · obtain ⟨running, checked, rfl⟩ := Option.map_eq_some_iff.mp outcome
        cases running with
        | true => exact ⟨follow_agrees inv.agree notMe, follow_state⟩
        | false =>
          have gone : f.fState ≠ .eRunning := by
            intro is
            rw [is] at checked
            cases checked
          refine ⟨returns_agrees inv.agree fun early i leading => ?_, promoteNewLeader_state⟩
          obtain ⟨g, there, leading⟩ := leading
          exact absurd leading (orderly f here gone early g (List.mem_of_getElem? there))
    constructor
    · rw [members]
      exact agrees.1.congr leads
    · rw [members]
      exact fun _ => agrees.2 ▸ begun
  | promoteNewLeader me wakes =>
    dsimp only [step] at stepped
    obtain ⟨f, o, here, place, ⟨⟩, members, leads, inside⟩ := perform_cases stepped
    have mine : σ.Leads me := ⟨f, here, place⟩
    constructor
    · rw [members]
      exact ((inv.agree.promote fun _ i leading => inv.agree.one leading mine).congr fun _ =>
        or_iff_right fun same => Place.noConfusion same.2).congr leads
    · rw [members, promoteNewLeader_state]
      exact fun _ => inv.begun ⟨f, List.mem_of_getElem? here, by rw [place]; exact nofun⟩
  | processed me wakes =>
    dsimp only [step] at stepped
    obtain ⟨f, o, here, place, ⟨⟩, members, leads, inside⟩ := perform_cases stepped
    have notMe := not_leads here (by rw [place]; exact nofun)
    have begun := inv.begun ⟨f, List.mem_of_getElem? here, by rw [place]; exact nofun⟩
    constructor
    · rw [members]
      exact (loop_agrees inv.agree notMe begun).congr leads
    · rw [members, loop_state]
      exact fun _ => begun
  | wake me =>
    dsimp only [step] at stepped
    obtain ⟨f, o, here, place, ⟨⟩, members, leads, inside⟩ := perform_cases stepped
    have notMe := not_leads here (by rw [place]; exact nofun)
    constructor
    · rw [members]
      refine (inv.agree.congr fun i => ?_).congr leads
      exact ⟨fun either => either.elim (fun same => Place.noConfusion same.2) And.right,
        fun leading => .inr ⟨fun same => notMe (same ▸ leading), leading⟩⟩
    · rw [members]
      exact fun _ => inv.begun ⟨f, List.mem_of_getElem? here, by rw [place]; exact nofun⟩
  | setState me state =>
    dsimp only [step] at stepped
    split at stepped
    · rename_i f here
      split at stepped <;> cases stepped
      constructor
      · refine inv.agree.congr fun i => (leads_set here _ i).trans ?_
        constructor
        · rintro (⟨rfl, leading⟩ | other)
          · exact ⟨f, here, leading⟩
          · exact other.2
        · intro leading
          by_cases same : i = me
          · subst same
            obtain ⟨g, there, leading⟩ := leading
            rw [here] at there
            exact .inl ⟨rfl, Option.some.inj there ▸ leading⟩
          · exact .inr ⟨same, leading⟩
      · intro inside
        refine inv.begun ((entered_set here inside).elim (fun inside => ?_) id)
        exact ⟨f, List.mem_of_getElem? here, inside⟩
    · cases stepped
  | requestTermination =>
    cases stepped
    constructor
    · exact inv.agree.terminate.congr leads_map_wake
    · exact fun _ => show EThreadState.eRunning ≤ .eTerminationRequested by decide

theorem new_inv (states : List EThreadState) : (State.new states).Inv := by
  have outside : ∀ f ∈ (State.new states).threads, f.place = .outside := by
    intro f mem
    obtain ⟨fState, -, rfl⟩ := List.mem_map.mp mem
    rfl
  have nobody : ∀ i, ¬ (State.new states).Leads i := by
    rintro i ⟨f, there, leading⟩
    rw [outside f (List.mem_of_getElem? there)] at leading
    cases leading
  constructor
  · refine ⟨fun leading => absurd leading (nobody _), nofun, fun leading => absurd leading (nobody _), nofun, fun late => ?_⟩
    exact absurd late (show ¬ EThreadState.eTerminationRequested ≤ .eCreated by decide)
  · rintro ⟨f, mem, inside⟩
    exact absurd (outside f mem) inside

/-- Where followers leave on their own only while nobody leads, at most one thread does. -/
theorem leaders_apart {states : List EThreadState} {events : List Event}
    (orderly : Runs.Meets step Orderly events (.new states)) (done : run events (.new states) = .ok σ) : σ.Sound :=
  (Runs.run_ok_keeps (fun _ _ _ inv orderly stepped => step_inv inv orderly stepped) (new_inv states) orderly done).sound

/-- A follower that is terminated leaves after the leader's promotion. -/
def leavesInTime : List Event :=
  [.waitForRequest 0 0, .waitForRequest 1 0, .setState 1 .eTerminationRequested, .promoteNewLeader 0 1, .resume 1 0]

theorem leaders_apart_in_time : ∃ σ, run leavesInTime (.new [.eRunning, .eRunning]) = .ok σ ∧ σ.Sound :=
  ⟨_, rfl, @leaders_apart _ [.eRunning, .eRunning] leavesInTime (Runs.meets_of_decide (by decide)) rfl⟩

/-- A follower is terminated while another thread polls: it clears the word, and a third thread leads too. -/
theorem follower_clears_leader : ∃ σ, run [.waitForRequest 0 0, .waitForRequest 1 0, .setState 1 .eTerminationRequested, .wake 1,
    .resume 1 0, .waitForRequest 2 0] (.new [.eRunning, .eRunning, .eRunning]) = .ok σ ∧ ¬ σ.Sound := by
  refine ⟨_, rfl, fun sound => ?_⟩
  have same := sound.one 0 2 ⟨_, rfl, rfl⟩ ⟨_, rfl, rfl⟩
  cases same

end Steps

end LeaderFollower

end Coast.Threading
