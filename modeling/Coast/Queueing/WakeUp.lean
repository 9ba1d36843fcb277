import Coast.Queueing.Permits

/-!
# Waking the callers

`Block` keeps `fQueueLock` while it waits for the callers that are counted on a side. A caller looks at
`feBlocked` before it takes this lock, so one that has already looked is never woken.
-/

namespace Coast.Queueing

variable {α : Type}

/-- `Block` waits for callers that all wait for the lock it holds. -/
def Deadlocked (σ : State α) : Prop :=
  ∃ side rest signalled, σ.members.fQueueLock = some (.waiting side rest signalled) ∧ σ.members.fBlockingCount side ≠ 0 ∧
    ∀ c ∈ σ.calls, c.counts side ≠ 0 → ∃ r, c = .locking r true

/-- `Block` waits for a signal, and no caller is left to send it. -/
def LostWakeUp (σ : State α) : Prop :=
  ∃ side rest, σ.members.fQueueLock = some (.waiting side rest false) ∧ σ.members.fBlockingCount side = 0

/-- The thread makes no `UnBlock` call. -/
def Event.keepsBlocked : Event α → Bool
  | .start (.unBlock _) => false
  | _ => true

/-- When `Block` takes the lock, no counted caller of its sides is between its second look at
`feBlocked` and the lock. -/
def locksFree : Event α → State α → Bool
  | .advance place, σ =>
    match σ.calls[place]? with
    | some (.blockLocking aSide) =>
      σ.calls.all fun c =>
        match c with
        | .locking r true => !aSide.sides.contains r.side
        | _ => true
    | _ => true
  | _, _ => true

abbrev LocksFree (e : Event α) (σ : State α) : Prop := (e.keepsBlocked && locksFree e σ) = true

theorem locksFree_locking {σ : State α} {place : Nat} {aSide : BlockingSide} (ok : LocksFree (.advance place) σ)
    (here : σ.calls[place]? = some (.blockLocking aSide)) {r : Request α} (mem : Call.locking r true ∈ σ.calls) :
    r.side ∉ aSide.sides := by
  have free := (Bool.and_eq_true_iff.mp ok).2
  dsimp only [locksFree] at free
  rw [here] at free
  have own := List.all_eq_true.mp free _ mem
  simpa using own

/-! ### What a call changes -/

theorem call_feBlocked {s s' : Members α} {c : Call α} {next : Option (Call α)} (moves : CallStep s c s' next)
    (keeps : ∀ aSide, c ≠ .unBlock aSide) {side : Side} (blocked : s.feBlocked side = true) : s'.feBlocked side = true := by
  cases moves with
  | unBlocked => exact absurd rfl (keeps _)
  | @blocked aSide =>
    change (s.feBlocked side || _) = true
    rw [blocked]
    rfl
  | @dropped r counted => cases counted <;> exact blocked
  | @pushed anyElement counted => cases counted <;> exact blocked
  | @popped anyElement rest counted => cases counted <;> exact blocked
  | @foundEmpty counted => cases counted <;> exact blocked
  | @countedOut own returns =>
    obtain ⟨holder, eq⟩ := countOut_eq s own
    rw [eq]
    exact blocked
  | _ => exact blocked

theorem call_goesOn {s s' : Members α} {c : Call α} {next : Option (Call α)} (moves : CallStep s c s' next) :
    (∀ r, next = some (.locking r true) → s.feBlocked r.side = false) ∧
      (∀ aSide, next = some (.blockLocking aSide) → ∀ side ∈ aSide.sides, s'.feBlocked side = true) ∧
      ∀ aSide, next ≠ some (.unBlock aSide) := by
  cases moves with
  | @passed r counted free =>
    refine ⟨fun r' eq => ?_, nofun, nofun⟩
    cases eq
    exact free
  | @blocked aSide =>
    refine ⟨nofun, fun aSide' eq side mem => ?_, nofun⟩
    cases eq
    change (s.feBlocked side || aSide.sides.contains side) = true
    rw [List.contains_iff_mem.mpr mem, Bool.or_true]
  | @dropped r counted => cases counted <;> exact ⟨nofun, nofun, nofun⟩
  | @pushed anyElement counted => cases counted <;> exact ⟨nofun, nofun, nofun⟩
  | @popped anyElement rest counted => cases counted <;> exact ⟨nofun, nofun, nofun⟩
  | @foundEmpty counted => cases counted <;> exact ⟨nofun, nofun, nofun⟩
  | _ => exact ⟨nofun, nofun, nofun⟩

theorem countOut_waiting {s : Members α} {own side : Side} {rest : List Side}
    (now : (s.countOut own).fQueueLock = some (.waiting side rest false)) :
    s.fQueueLock = some (.waiting side rest false) ∧ side ≠ own := by
  unfold Members.countOut Members.signal at now
  split at now
  · rename_i waits rest' signalled held
    simp only [Option.some.injEq, Section.waiting.injEq, Bool.or_eq_false_iff, beq_eq_false_iff_ne] at now
    obtain ⟨rfl, rfl, rfl, other⟩ := now
    exact ⟨held, other⟩
  · rename_i other
    exact absurd now (other side rest false)

theorem call_waiting {s s' : Members α} {c : Call α} {next : Option (Call α)} {side : Side} {rest : List Side}
    (moves : CallStep s c s' next) (now : s'.fQueueLock = some (.waiting side rest false)) :
    s.fQueueLock = some (.waiting side rest false) ∧ s.fBlockingCount side ≤ s'.fBlockingCount side := by
  cases moves with
  | @countedOut own returns =>
    obtain ⟨held, other⟩ := countOut_waiting now
    refine ⟨held, ?_⟩
    obtain ⟨holder, eq⟩ := countOut_eq s own
    rw [eq]
    change _ ≤ Function.update s.fBlockingCount own _ side
    rw [Function.update_of_ne other]
  | @countedIn r =>
    refine ⟨now, ?_⟩
    change _ ≤ Function.update s.fBlockingCount r.side _ side
    rw [Function.update_apply]
    split
    · rename_i eq
      subst eq
      exact Nat.le_succ _
    · exact Nat.le_refl _
  | @dropped r counted => cases counted <;> exact ⟨now, Nat.le_refl _⟩
  | @pushed anyElement counted => cases counted <;> exact ⟨now, Nat.le_refl _⟩
  | @popped anyElement rest counted => cases counted <;> exact ⟨now, Nat.le_refl _⟩
  | @foundEmpty counted => cases counted <;> exact ⟨now, Nat.le_refl _⟩
  | emptyLocked => cases now
  | blockLocked => cases now
  | _ => exact ⟨now, Nat.le_refl _⟩

/-! ### Runs in which the lock is taken in time -/

structure Wakes (σ : State α) : Prop where
  counted : Counted σ
  noUnBlock : ∀ aSide, Call.unBlock aSide ∉ σ.calls
  flagged : ∀ aSide, Call.blockLocking aSide ∈ σ.calls → ∀ side ∈ aSide.sides, σ.members.feBlocked side = true
  holder : ∀ holder, σ.members.fQueueLock = some holder → ∀ side ∈ holder.sides,
    σ.members.feBlocked side = true ∧ ∀ r : Request α, r.side = side → Call.locking r true ∉ σ.calls
  waits : ∀ side rest, σ.members.fQueueLock = some (.waiting side rest false) → σ.members.fBlockingCount side ≠ 0

theorem wakes_call {σ : State α} {place : Nat} {c : Call α} {s : Members α} {next : Option (Call α)} (all : Wakes σ)
    (ok : LocksFree (.advance place) σ) (taken : step (.advance place) σ = .ok ⟨s, Pool.replace σ.calls place next⟩)
    (here : σ.calls[place]? = some c) (moves : CallStep σ.members c s next) : Wakes ⟨s, Pool.replace σ.calls place next⟩ := by
  obtain ⟨counted, noUnBlock, flagged, holders, waits⟩ := all
  obtain ⟨locking, blockLocking, unBlock⟩ := call_goesOn moves
  have keeps : ∀ aSide, c ≠ .unBlock aSide := by
    rintro aSide rfl
    exact noUnBlock aSide (List.mem_of_getElem? here)
  have flags : ∀ {side}, σ.members.feBlocked side = true → s.feBlocked side = true := call_feBlocked moves keeps
  refine ⟨counted_step taken counted, fun aSide mem => ?_, fun aSide mem side inside => ?_, fun holder now side inside => ?_,
    fun side rest now => ?_⟩
  · obtain mem | eq := Pool.mem_replace mem
    · exact noUnBlock aSide mem
    · exact unBlock aSide eq
  · obtain mem | eq := Pool.mem_replace mem
    · exact flags (flagged aSide mem side inside)
    · exact blockLocking aSide eq side inside
  · obtain ⟨before, held, sides⟩ | ⟨unlocked, which, rfl⟩ := call_holder moves now
    · obtain ⟨blocked, none⟩ := holders before held side (sides ▸ inside)
      refine ⟨flags blocked, fun r own mem => ?_⟩
      obtain mem | eq := Pool.mem_replace mem
      · exact none r own mem
      · have free := locking r eq
        rw [own, blocked] at free
        cases free
    · obtain empty | ⟨aSide, rfl, sides⟩ := which
      · rw [empty] at inside
        cases inside
      · rw [sides] at inside
        refine ⟨flags (flagged aSide (List.mem_of_getElem? here) side inside), fun r own mem => ?_⟩
        have after : Call.locking r true ∈ Pool.replace σ.calls place none := mem
        obtain mem | eq := Pool.mem_replace after
        · exact locksFree_locking ok here mem (own ▸ inside)
        · cases eq
  · obtain ⟨held, more⟩ := call_waiting moves now
    have some := waits side rest held
    dsimp only
    omega

theorem wakes_section {σ : State α} {holder : Section α} {s : Members α} (all : Wakes σ)
    (held : σ.members.fQueueLock = some holder) (moves : SectionStep σ.members holder s) (counted : Counted { σ with members := s }) :
    Wakes { σ with members := s } := by
  obtain ⟨-, noUnBlock, flagged, holders, waits⟩ := all
  have before := holders holder held
  cases moves with
  | emptied | unlocked => exact ⟨counted, noUnBlock, flagged, nofun, nofun⟩
  | tried | moved =>
    refine ⟨counted, noUnBlock, flagged, fun after now side inside => ?_, nofun⟩
    cases now
    cases inside
  | released =>
    refine ⟨counted, noUnBlock, flagged, fun after now side inside => ?_, nofun⟩
    cases now
    exact before side (List.mem_cons_of_mem _ inside)
  | wakes somebody =>
    refine ⟨counted, noUnBlock, flagged, fun after now side inside => ?_, fun side rest now => ?_⟩
    · cases now
      exact before side inside
    · cases now
      exact somebody
  | woken =>
    refine ⟨counted, noUnBlock, flagged, fun after now side inside => ?_, nofun⟩
    cases now
    exact before side inside

theorem wakes_step {e : Event α} {σ σ' : State α} (all : Wakes σ) (ok : LocksFree e σ) (taken : step e σ = .ok σ') : Wakes σ' := by
  have counted := counted_step taken all.counted
  obtain ⟨c, rfl, rfl⟩ | ⟨place, c, s, next, rfl, here, moves, rfl⟩ | ⟨holder, s, -, held, moves, rfl⟩ := step_cases taken
  · have keeps : ∀ aSide, c.call ≠ .unBlock aSide := by
      rintro aSide eq
      cases c with
      | unBlock => cases (Bool.and_eq_true_iff.mp ok).1
      | _ => cases eq
    refine ⟨counted, fun aSide mem => ?_, fun aSide mem => ?_, fun holder held side inside => ?_, all.waits⟩
    · obtain mem | mem := List.mem_append.mp mem
      · exact all.noUnBlock aSide mem
      · exact keeps aSide (List.mem_singleton.mp mem).symm
    · obtain mem | mem := List.mem_append.mp mem
      · exact all.flagged aSide mem
      · cases c <;> cases List.mem_singleton.mp mem
    · obtain ⟨blocked, none⟩ := all.holder holder held side inside
      refine ⟨blocked, fun r own mem => ?_⟩
      obtain mem | mem := List.mem_append.mp mem
      · exact none r own mem
      · cases c <;> cases List.mem_singleton.mp mem
  · exact wakes_call all ok taken here moves
  · exact wakes_section all held moves counted

theorem wakes_new (fQueueSize : Nat) : Wakes (State.new fQueueSize : State α) where
  counted _ := rfl
  noUnBlock _ mem := by cases mem
  flagged _ mem := by cases mem
  holder := nofun
  waits := nofun

/-- Without `UnBlock`, and where `Block` takes the lock in time, it never waits for callers that wait for
its lock, and no signal is missed. -/
theorem block_wakes_callers {fQueueSize : Nat} {events : List (Event α)} {σ : State α}
    (ok : Runs.Meets step LocksFree events (State.new fQueueSize)) (done : run events (State.new fQueueSize) = .ok σ) :
    ¬Deadlocked σ ∧ ¬LostWakeUp σ := by
  have all : Wakes σ := Runs.run_ok_keeps (fun _ _ _ inv ok taken => wakes_step inv ok taken) (wakes_new fQueueSize) ok done
  constructor
  · rintro ⟨side, rest, signalled, held, somebody, waiting⟩
    rw [all.counted side] at somebody
    obtain ⟨c, mem, counts⟩ := Pool.exists_of_total_ne_zero somebody
    obtain ⟨r, rfl⟩ := waiting c mem counts
    have own : r.side = side := by
      by_contra other
      exact counts (if_neg other)
    obtain ⟨-, none⟩ := all.holder _ held side List.mem_cons_self
    exact none r own mem
  · rintro ⟨side, rest, held, nobody⟩
    exact all.waits side rest held nobody

/-- A full queue, a waiting `Put`, and `Block` up to its end. -/
def blocksInTime : List (Event Nat) :=
  [.start (.put 1 true), .advance 0, .advance 0, .advance 0, .advance 0, .start (.put 2 false), .advance 0, .advance 0,
    .start (.block .eBothSides), .advance 1, .advance 1, .advanceSection, .advance 0, .advance 0, .advance 0]

theorem block_wakes_callers_in_time :
    ∃ σ, run blocksInTime (State.new 1) = .ok σ ∧ σ.members.fQueueLock = some (.waiting .put [.get] true) ∧
      ¬Deadlocked σ ∧ ¬LostWakeUp σ :=
  ⟨_, rfl, rfl, @block_wakes_callers Nat 1 blocksInTime _ (Runs.meets_of_check rfl) rfl⟩

/-- A `Put` with its permit looks at `feBlocked` just before `Block` sets it. -/
def blocksTooLate : List (Event Nat) :=
  [.start (.put 1 false), .advance 0, .advance 0, .advance 0, .advance 0,
    .start (.block .ePutSide), .advance 1, .advance 1, .advanceSection]

theorem block_waits_for_lock : ∃ σ, run blocksTooLate (State.new 1) = .ok σ ∧ Deadlocked σ := by
  refine ⟨_, rfl, .put, [], false, rfl, by decide, ?_⟩
  intro c mem _
  obtain rfl := List.mem_singleton.mp mem
  exact ⟨_, rfl⟩

/-! ### The other runs -/

/-- If a counted caller of its sides has already looked when `Block` takes the lock, `Block` keeps it
for the rest of the run. -/
theorem block_never_returns {fQueueSize : Nat} {before events : List (Event α)} {σ σ' σ'' : State α} {place : Nat}
    {aSide : BlockingSide} {r : Request α} (reached : run before (State.new fQueueSize) = .ok σ)
    (here : σ.calls[place]? = some (.blockLocking aSide)) (inside : r.side ∈ aSide.sides)
    (mem : Call.locking r true ∈ σ.calls) (taken : step (.advance place) σ = .ok σ') (done : run events σ' = .ok σ'') : Stuck σ'' := by
  have always : ∀ (events : List (Event α)) σ, Runs.Meets step (fun _ _ => True) events σ :=
    fun _ _ => Runs.meets_of_forall (fun _ _ => trivial) _ _
  have all : Counted σ :=
    Runs.run_ok_keeps (fun _ _ _ inv _ taken => counted_step taken inv) (fun _ => rfl) (always before _) reached
  have start : Counted σ' ∧ Stuck σ' := by
    refine ⟨counted_step taken all, ?_⟩
    obtain ⟨c, eq, -⟩ | ⟨place', c, s, next, eq, here', moves, rfl⟩ | ⟨holder, s, eq | eq, -⟩ := step_cases taken
    · cases eq
    · cases eq
      obtain rfl := Option.some.inj (here.symm.trans here')
      cases moves
      exact ⟨_, r, rfl, inside, Pool.mem_replace_of_ne here mem nofun none⟩
    · cases eq
    · cases eq
  have keeps : ∀ e (σ σ' : State α), Counted σ ∧ Stuck σ → True → step e σ = .ok σ' → Counted σ' ∧ Stuck σ' :=
    fun _ _ _ inv _ taken => ⟨counted_step taken inv.1, stuck_step taken inv.1 inv.2⟩
  exact (@Runs.run_ok_keeps _ _ _ step (fun _ _ => True) (fun σ => Counted σ ∧ Stuck σ) keeps events _ _ start (always events _) done).2

theorem block_never_returns_too_late : ∃ σ, run blocksTooLate (State.new 1) = .ok σ ∧ Stuck σ :=
  ⟨_, rfl, @block_never_returns Nat 1 (blocksTooLate.take 7) (blocksTooLate.drop 8) _ _ _ 1 .ePutSide (.put 1) rfl rfl
    (by decide) List.mem_cons_self rfl rfl⟩

end Coast.Queueing
