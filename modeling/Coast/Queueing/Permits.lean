import Coast.Queueing.Queue

/-!
# Permits and elements

Each call holds a permit between its acquire and the section that uses it. What the semaphores, these
calls and the container make up together changes at three places only: `DoPut` and `DoGet` return
`eBlocked` with a permit in hand, `Block` releases a permit for each caller it wakes, and
`IntEmptyQueue` takes an element whether or not `TryAcquire` succeeds.
-/

namespace Coast.Queueing

variable {α : Type}

/-! ### What a call adds to the queue -/

def Call.holds (side : Side) : Call α → Nat
  | .recheck r _ => if r.side = side then 1 else 0
  | .locking r _ => if r.side = side then 1 else 0
  | _ => 0

/-- Whether the call is counted in `fBlockingPutCount` or `fBlockingGetCount`. -/
def Call.counts (side : Side) : Call α → Nat
  | .acquire r => if r.side = side then 1 else 0
  | .recheck r true => if r.side = side then 1 else 0
  | .locking r true => if r.side = side then 1 else 0
  | .countOut waits _ => if waits = side then 1 else 0
  | _ => 0

/-- A counted call that will look at `feBlocked` again. -/
def Call.unchecked (side : Side) : Call α → Nat
  | .acquire r => if r.side = side then 1 else 0
  | .recheck r true => if r.side = side then 1 else 0
  | _ => 0

def adds (weight : Call α → Nat) (next : Option (Call α)) : Nat := (next.map weight).getD 0

def Call.Drops (s : Members α) (side : Side) (c : Call α) : Prop :=
  ∃ r counted, c = .recheck r counted ∧ r.side = side ∧ s.feBlocked side = true

theorem adds_leave_holds (side own : Side) (counted : Bool) (returns : Result α) (s : Members α) :
    adds (Call.holds side) (leave own counted returns s).2 = 0 := by
  cases counted <;> rfl

theorem leave_fSema (own : Side) (counted : Bool) (returns : Result α) (s : Members α) :
    (leave own counted returns s).1.fSema = s.fSema := by
  cases counted <;> rfl

theorem leave_fContainer (own : Side) (counted : Bool) (returns : Result α) (s : Members α) :
    (leave own counted returns s).1.fContainer = s.fContainer := by
  cases counted <;> rfl

theorem countOut_eq (s : Members α) (side : Side) : ∃ holder, s.countOut side =
    { s with fBlockingCount := Function.update s.fBlockingCount side (s.fBlockingCount side - 1), fQueueLock := holder } := by
  unfold Members.countOut Members.signal
  split
  · exact ⟨_, rfl⟩
  · exact ⟨s.fQueueLock, rfl⟩

theorem acquire_fSema (s : Members α) (side own : Side) :
    (s.acquire own).fSema side = if side = own then s.fSema own - 1 else s.fSema side := by
  simp only [Members.acquire, Function.update_apply]

theorem drops_step {s s' : Members α} {c : Call α} {next : Option (Call α)} {side : Side} (moves : CallStep s c s' next)
    (drops : c.Drops s side) : s'.fSema = s.fSema ∧ s'.fContainer = s.fContainer ∧ c.holds side = 1 ∧
      ∀ other, adds (Call.holds other) next = 0 ∧ (other ≠ side → c.holds other = 0) := by
  obtain ⟨r, counted, rfl, rfl, blocked⟩ := drops
  cases moves with
  | dropped =>
    exact ⟨leave_fSema _ _ _ _, leave_fContainer _ _ _ _, if_pos rfl, fun other =>
      ⟨adds_leave_holds _ _ _ _ _, fun apart => if_neg (Ne.symm apart)⟩⟩
  | passed free =>
    rw [free] at blocked
    cases blocked

theorem call_put {s s' : Members α} {c : Call α} {next : Option (Call α)} (moves : CallStep s c s' next)
    (keeps : ¬c.Drops s .put) :
    s'.fSema .put + adds (Call.holds .put) next + s'.fContainer.length = s.fSema .put + c.holds .put + s.fContainer.length := by
  cases moves with
  | @triedPermit r permit | @permit r permit =>
    rw [acquire_fSema]
    cases r with
    | put =>
      change s.fSema .put - 1 + 1 + s.fContainer.length = s.fSema .put + 0 + s.fContainer.length
      change 0 < s.fSema .put at permit
      omega
    | get => rfl
  | @dropped r counted blocked =>
    rw [leave_fSema, adds_leave_holds, leave_fContainer]
    cases r with
    | put => exact absurd ⟨_, _, rfl, rfl, blocked⟩ keeps
    | get => rfl
  | @pushed anyElement counted =>
    rw [leave_fSema, adds_leave_holds, leave_fContainer]
    change s.fSema .put + 0 + (s.fContainer ++ [anyElement]).length = s.fSema .put + 1 + s.fContainer.length
    rw [List.length_append, List.length_singleton]
    omega
  | @popped anyElement rest counted unlocked front =>
    rw [leave_fSema, adds_leave_holds, leave_fContainer, front]
    change s.fSema .put + 1 + 0 + rest.length = s.fSema .put + 0 + (rest.length + 1)
    omega
  | foundEmpty =>
    rw [leave_fSema, adds_leave_holds, leave_fContainer]
    rfl
  | @countedOut side =>
    obtain ⟨holder, eq⟩ := countOut_eq s side
    rw [eq]
    rfl
  | _ => rfl

theorem call_get {s s' : Members α} {c : Call α} {next : Option (Call α)} (moves : CallStep s c s' next)
    (keeps : ¬c.Drops s .get) (filled : ∀ counted, c = .locking .get counted → s.fContainer ≠ []) :
    s'.fSema .get + adds (Call.holds .get) next + s.fContainer.length = s.fSema .get + c.holds .get + s'.fContainer.length := by
  cases moves with
  | @triedPermit r permit | @permit r permit =>
    rw [acquire_fSema]
    cases r with
    | put => rfl
    | get =>
      change s.fSema .get - 1 + 1 + s.fContainer.length = s.fSema .get + 0 + s.fContainer.length
      change 0 < s.fSema .get at permit
      omega
  | @dropped r counted blocked =>
    rw [leave_fSema, adds_leave_holds, leave_fContainer]
    cases r with
    | put => rfl
    | get => exact absurd ⟨_, _, rfl, rfl, blocked⟩ keeps
  | @pushed anyElement counted =>
    rw [leave_fSema, adds_leave_holds, leave_fContainer]
    change s.fSema .get + 1 + 0 + s.fContainer.length = s.fSema .get + 0 + (s.fContainer ++ [anyElement]).length
    rw [List.length_append, List.length_singleton]
    omega
  | @popped anyElement rest counted unlocked front =>
    rw [leave_fSema, adds_leave_holds, leave_fContainer, front]
    change s.fSema .get + 0 + (rest.length + 1) = s.fSema .get + 1 + rest.length
    omega
  | @foundEmpty counted unlocked empty => exact absurd empty (filled counted rfl)
  | @countedOut side =>
    obtain ⟨holder, eq⟩ := countOut_eq s side
    rw [eq]
    rfl
  | _ => rfl

/-! ### The counts of callers -/

/-- `fBlockingPutCount` and `fBlockingGetCount` are the numbers of their callers. -/
def Counted (σ : State α) : Prop := ∀ side, σ.members.fBlockingCount side = Pool.total (Call.counts side) σ.calls

theorem adds_leave_counts (side own : Side) (counted : Bool) (returns : Result α) (s : Members α) :
    adds (Call.counts side) (leave own counted returns s).2 = if counted ∧ own = side then 1 else 0 := by
  cases counted
  · rfl
  · simp [leave, adds, Call.counts]

theorem leave_fBlockingCount (own : Side) (counted : Bool) (returns : Result α) (s : Members α) :
    (leave own counted returns s).1.fBlockingCount = s.fBlockingCount := by
  cases counted <;> rfl

theorem counts_recheck (side : Side) (r : Request α) (counted : Bool) :
    Call.counts side (.recheck r counted) = (if counted ∧ r.side = side then 1 else 0) ∧
      Call.counts side (.locking r counted) = if counted ∧ r.side = side then 1 else 0 := by
  cases counted <;> simp [Call.counts]

theorem call_counts {s s' : Members α} {c : Call α} {next : Option (Call α)} (moves : CallStep s c s' next) (side : Side)
    (within : c.counts side ≤ s.fBlockingCount side) :
    s'.fBlockingCount side + c.counts side = s.fBlockingCount side + adds (Call.counts side) next := by
  cases moves with
  | @countedIn r =>
    change Function.update s.fBlockingCount r.side _ side + 0 = _ + if r.side = side then 1 else 0
    rw [Function.update_apply]
    by_cases same : side = r.side
    · subst same
      rw [if_pos rfl, if_pos rfl]
    · rw [if_neg same, if_neg (Ne.symm same)]
  | @dropped r counted =>
    rw [leave_fBlockingCount, adds_leave_counts, (counts_recheck side r counted).1]
  | @pushed _ counted | @popped _ _ counted | @foundEmpty counted =>
    rw [leave_fBlockingCount, adds_leave_counts, (counts_recheck side _ counted).2]
    rfl
  | @passed r counted =>
    rw [(counts_recheck side r counted).1]
    exact congrArg _ (counts_recheck side r counted).2.symm
  | @countedOut waits returns =>
    obtain ⟨holder, eq⟩ := countOut_eq s waits
    rw [eq]
    change (if waits = side then 1 else 0) ≤ _ at within
    change Function.update s.fBlockingCount waits _ side + (if waits = side then 1 else 0) = _ + 0
    rw [Function.update_apply]
    by_cases same : side = waits
    · subst same
      rw [if_pos rfl] at within
      rw [if_pos rfl, if_pos rfl]
      omega
    · rw [if_neg same, if_neg (Ne.symm same)]
  | _ => rfl

theorem section_counts {s s' : Members α} {holder : Section α} (moves : SectionStep s holder s') :
    s'.fBlockingCount = s.fBlockingCount := by
  cases moves <;> rfl

theorem counted_step {e : Event α} {σ σ' : State α} (taken : step e σ = .ok σ') (all : Counted σ) : Counted σ' := by
  intro side
  have now := all side
  obtain ⟨c, -, rfl⟩ | ⟨place, c, s, next, -, here, moves, rfl⟩ | ⟨holder, s, -, -, moves, rfl⟩ := step_cases taken
  · have fresh : Call.counts side c.call = 0 := by cases c <;> rfl
    rw [Pool.total_append, Pool.total_cons, fresh]
    exact now
  · have pool := Pool.total_replace (Call.counts side) here next
    have inside : c.counts side ≤ σ.members.fBlockingCount side :=
      now ▸ Pool.le_total (List.mem_of_getElem? here)
    have call := call_counts moves side inside
    unfold adds at call
    dsimp only at now ⊢
    omega
  · rw [section_counts moves]
    exact now

/-! ### The call with the lock -/

/-- The sides on which `Block` still works. -/
def Section.sides : Section α → List Side
  | .releasing sides => sides
  | .waiting side rest _ => side :: rest
  | _ => []

/-- The permit that `IntEmptyQueue` took for the element it moves next. -/
def Section.takes : Section α → Nat
  | .moving _ _ => 1
  | _ => 0

def Members.takes (s : Members α) : Nat := (s.fQueueLock.map Section.takes).getD 0

theorem call_locked {s s' : Members α} {c : Call α} {next : Option (Call α)} {holder : Section α} (moves : CallStep s c s' next)
    (held : s.fQueueLock = some holder) :
    ∃ after, s'.fQueueLock = some after ∧ after.sides = holder.sides ∧ after.takes = holder.takes := by
  have same : s.fQueueLock = some holder ∧ holder.sides = holder.sides ∧ holder.takes = holder.takes := ⟨held, rfl, rfl⟩
  cases moves with
  | @dropped r counted =>
    cases counted <;> exact ⟨holder, same⟩
  | pushed unlocked => cases unlocked.symm.trans held
  | popped unlocked => cases unlocked.symm.trans held
  | foundEmpty unlocked => cases unlocked.symm.trans held
  | emptyLocked unlocked => cases unlocked.symm.trans held
  | blockLocked unlocked => cases unlocked.symm.trans held
  | countedOut =>
    unfold Members.countOut Members.signal
    split
    · rename_i waits rest signalled waiting
      obtain rfl := Option.some.inj (held.symm.trans waiting)
      exact ⟨_, rfl, rfl, rfl⟩
    · exact ⟨holder, same⟩
  | _ => exact ⟨holder, same⟩

theorem call_holder {s s' : Members α} {c : Call α} {next : Option (Call α)} {holder : Section α} (moves : CallStep s c s' next)
    (now : s'.fQueueLock = some holder) :
    (∃ before, s.fQueueLock = some before ∧ before.sides = holder.sides) ∨
      s.fQueueLock = none ∧ (holder.sides = [] ∨ ∃ aSide, c = .blockLocking aSide ∧ holder.sides = aSide.sides) ∧ next = none := by
  cases held : s.fQueueLock with
  | some before =>
    obtain ⟨after, now', sides, -⟩ := call_locked moves held
    obtain rfl := Option.some.inj (now.symm.trans now')
    exact .inl ⟨before, rfl, sides.symm⟩
  | none =>
    cases moves with
    | @dropped _ counted | @pushed _ counted | @popped _ _ counted | @foundEmpty counted =>
      cases counted <;> cases held.symm.trans now
    | emptyLocked =>
      obtain rfl := Option.some.inj now
      exact .inr ⟨rfl, .inl rfl, rfl⟩
    | @blockLocked aSide =>
      obtain rfl := Option.some.inj now
      exact .inr ⟨rfl, .inr ⟨aSide, rfl, rfl⟩, rfl⟩
    | countedOut =>
      unfold Members.countOut Members.signal at now
      split at now
      · rename_i waiting
        cases held.symm.trans waiting
      · cases held.symm.trans now
    | _ => cases held.symm.trans now

theorem call_takes {s s' : Members α} {c : Call α} {next : Option (Call α)} (moves : CallStep s c s' next) :
    s'.takes = s.takes := by
  cases held : s.fQueueLock with
  | some holder =>
    obtain ⟨after, now, -, takes⟩ := call_locked moves held
    unfold Members.takes
    rw [now, held]
    exact takes
  | none =>
    have free : s.takes = 0 := by
      unfold Members.takes
      rw [held]
      rfl
    rw [free]
    cases moves with
    | @dropped r counted => cases counted <;> exact free
    | @pushed anyElement counted => cases counted <;> exact free
    | @popped anyElement rest counted => cases counted <;> exact free
    | @foundEmpty counted => cases counted <;> exact free
    | emptyLocked => rfl
    | blockLocked => rfl
    | countedOut =>
      unfold Members.countOut Members.signal
      split
      · rename_i waiting
        cases held.symm.trans waiting
      · exact free
    | _ => exact free

/-! ### The balance of a side -/

def surplus (fQueueSize : Nat) (σ : State α) : Side → Int
  | .put =>
    ((σ.members.fSema .put + Pool.total (Call.holds .put) σ.calls + σ.members.fContainer.length : Nat) : Int) - fQueueSize
  | .get =>
    ((σ.members.fSema .get + Pool.total (Call.holds .get) σ.calls + σ.members.takes : Nat) : Int) - σ.members.fContainer.length

theorem surplus_put (fQueueSize : Nat) (σ : State α) : surplus fQueueSize σ .put =
    ((σ.members.fSema .put + Pool.total (Call.holds .put) σ.calls + σ.members.fContainer.length : Nat) : Int) - fQueueSize := rfl

theorem surplus_get (fQueueSize : Nat) (σ : State α) : surplus fQueueSize σ .get =
    ((σ.members.fSema .get + Pool.total (Call.holds .get) σ.calls + σ.members.takes : Nat) : Int) - σ.members.fContainer.length :=
  rfl

theorem surplus_congr (fQueueSize : Nat) {σ : State α} {s : Members α} (sema : s.fSema = σ.members.fSema)
    (container : s.fContainer = σ.members.fContainer) (takes : s.takes = σ.members.takes) (side : Side) :
    surplus fQueueSize { σ with members := s } side = surplus fQueueSize σ side := by
  unfold surplus
  simp only [sema, container, takes]

theorem surplus_start (fQueueSize : Nat) (σ : State α) (c : Start α) (side : Side) :
    surplus fQueueSize { σ with calls := σ.calls ++ [c.call] } side = surplus fQueueSize σ side := by
  have fresh : ∀ side, Call.holds side c.call = 0 := by
    intro side
    cases c <;> rfl
  unfold surplus
  simp only [Pool.total_append, Pool.total_cons, Pool.total_nil, fresh, Nat.add_zero]

section Calls

variable {fQueueSize : Nat} {σ : State α} {place : Nat} {c : Call α} {s : Members α} {next : Option (Call α)}

theorem surplus_call (here : σ.calls[place]? = some c) (moves : CallStep σ.members c s next) {side : Side}
    (keeps : ¬c.Drops σ.members side) (filled : ∀ counted, c = .locking .get counted → σ.members.fContainer ≠ []) :
    surplus fQueueSize ⟨s, Pool.replace σ.calls place next⟩ side = surplus fQueueSize σ side := by
  have pool := Pool.total_replace (Call.holds side) here next
  cases side with
  | put =>
    have call := call_put moves keeps
    unfold adds at call
    unfold surplus
    dsimp only
    omega
  | get =>
    have call := call_get moves keeps filled
    have takes := call_takes moves
    unfold adds at call
    unfold surplus
    dsimp only
    omega

theorem surplus_drop (here : σ.calls[place]? = some c) (moves : CallStep σ.members c s next) {side : Side}
    (drops : c.Drops σ.members side) :
    surplus fQueueSize ⟨s, Pool.replace σ.calls place next⟩ side = surplus fQueueSize σ side - 1 := by
  have pool := Pool.total_replace (Call.holds side) here next
  have takes := call_takes moves
  obtain ⟨sema, container, holds, adding⟩ := drops_step moves drops
  obtain ⟨none, -⟩ := adding side
  unfold adds at none
  cases side with
  | put =>
    unfold surplus
    dsimp only
    rw [sema, container]
    omega
  | get =>
    unfold surplus
    dsimp only
    rw [sema, container]
    omega

end Calls

/-! ### Runs that keep the balance -/

/-- The step does none of the three things that bring permits and elements out of step: a call finds its
side blocked only while a permit that `Block` released is outstanding, `EmptyQueue` finds a permit for
each element, and `Block` releases one only while fewer are outstanding than there are counted calls in
front of their second check. -/
def inStep (fQueueSize : Nat) : Event α → State α → Bool
  | .advance place, σ =>
    match σ.calls[place]? with
    | some (.recheck r _) => !σ.members.feBlocked r.side || decide (0 < surplus fQueueSize σ r.side)
    | _ => true
  | .advanceSection, σ =>
    match σ.members.fQueueLock with
    | some (.emptying (_ + 1) _) => decide (0 < σ.members.fSema .get)
    | some (.releasing (side :: _)) =>
      σ.members.fBlockingCount side == 0 || decide (surplus fQueueSize σ side < Pool.total (Call.unchecked side) σ.calls)
    | _ => true
  | _, _ => true

abbrev InStep (fQueueSize : Nat) (e : Event α) (σ : State α) : Prop := inStep fQueueSize e σ = true

section InStep

variable {fQueueSize : Nat} {σ : State α}

theorem inStep_dropped {place : Nat} {c : Call α} {side : Side} (ok : InStep fQueueSize (.advance place) σ)
    (here : σ.calls[place]? = some c) (drops : c.Drops σ.members side) : 0 < surplus fQueueSize σ side := by
  obtain ⟨r, counted, rfl, rfl, blocked⟩ := drops
  unfold InStep inStep at ok
  simpa [here, blocked] using ok

theorem inStep_tried {lSize : Nat} {anyElements : List α} (ok : InStep fQueueSize .advanceSection σ)
    (held : σ.members.fQueueLock = some (.emptying (lSize + 1) anyElements)) : 0 < σ.members.fSema .get := by
  unfold InStep inStep at ok
  simpa [held] using ok

theorem inStep_woken {side : Side} {rest : List Side} (ok : InStep fQueueSize .advanceSection σ)
    (held : σ.members.fQueueLock = some (.releasing (side :: rest))) (somebody : σ.members.fBlockingCount side ≠ 0) :
    surplus fQueueSize σ side < Pool.total (Call.unchecked side) σ.calls := by
  unfold InStep inStep at ok
  simpa [held, somebody] using ok

end InStep

/-- `Block` has the lock and waits for a call that waits for the lock. -/
def Stuck (σ : State α) : Prop :=
  ∃ holder r, σ.members.fQueueLock = some holder ∧ r.side ∈ holder.sides ∧ Call.locking r true ∈ σ.calls

/-- The permits that `Block` may have outstanding on a side. -/
def allowed (σ : State α) (side : Side) : Nat :=
  match σ.members.fQueueLock with
  | some holder => if holder.sides.head? = some side then Pool.total (Call.unchecked side) σ.calls else 0
  | none => 0

structure Balanced (fQueueSize : Nat) (σ : State α) : Prop where
  counted : Counted σ
  sides : Stuck σ ∨ ∀ side, 0 ≤ surplus fQueueSize σ side ∧ surplus fQueueSize σ side ≤ allowed σ side

theorem stuck_step {e : Event α} {σ σ' : State α} (taken : step e σ = .ok σ') (all : Counted σ) (stuck : Stuck σ) : Stuck σ' := by
  obtain ⟨holder, r, held, inside, mem⟩ := stuck
  obtain ⟨c, -, rfl⟩ | ⟨place, c, s, next, -, here, moves, rfl⟩ | ⟨holder', s, -, held', moves, rfl⟩ := step_cases taken
  · exact ⟨holder, r, held, inside, List.mem_append_left _ mem⟩
  · obtain ⟨after, now, sides, -⟩ := call_locked moves held
    have other : Call.locking r true ≠ c := by
      rintro rfl
      cases moves with
      | pushed unlocked => cases unlocked.symm.trans held
      | popped unlocked => cases unlocked.symm.trans held
      | foundEmpty unlocked => cases unlocked.symm.trans held
    exact ⟨after, r, now, sides ▸ inside, Pool.mem_replace_of_ne here mem other next⟩
  · obtain rfl := Option.some.inj (held.symm.trans held')
    cases moves with
    | emptied => cases inside
    | tried => cases inside
    | moved => cases inside
    | unlocked => cases inside
    | @released side rest nobody =>
      obtain rfl | inside := List.mem_cons.mp inside
      · have one : Call.counts r.side (.locking r true) = 1 := if_pos rfl
        have some : 1 ≤ Pool.total (Call.counts r.side) σ.calls := one ▸ Pool.le_total mem
        have sum := all r.side
        omega
      · exact ⟨_, r, rfl, inside, mem⟩
    | wakes => exact ⟨_, r, rfl, inside, mem⟩
    | woken => exact ⟨_, r, rfl, inside, mem⟩

theorem allowed_unlocked {σ : State α} (unlocked : σ.members.fQueueLock = none) (side : Side) : allowed σ side = 0 := by
  unfold allowed
  rw [unlocked]

theorem allowed_locked {σ : State α} {holder : Section α} (held : σ.members.fQueueLock = some holder) (side : Side) :
    allowed σ side = if holder.sides.head? = some side then Pool.total (Call.unchecked side) σ.calls else 0 := by
  unfold allowed
  rw [held]

theorem call_unchecked {s s' : Members α} {c : Call α} {next : Option (Call α)} (moves : CallStep s c s' next) {side : Side}
    (keeps : ¬c.Drops s side) :
    c.unchecked side ≤ adds (Call.unchecked side) next ∨ ∃ r, r.side = side ∧ next = some (.locking r true) := by
  cases moves with
  | @passed r counted free =>
    by_cases counts : counted = true ∧ r.side = side
    · obtain ⟨rfl, own⟩ := counts
      exact .inr ⟨r, own, rfl⟩
    · left
      cases counted
      · exact Nat.le_refl _
      · change (if r.side = side then 1 else 0) ≤ 0
        rw [if_neg fun own => counts ⟨rfl, own⟩]
  | @dropped r counted blocked =>
    left
    cases counted
    · exact Nat.zero_le _
    · change (if r.side = side then 1 else 0) ≤ _
      rw [if_neg]
      · exact Nat.zero_le _
      · rintro rfl
        exact keeps ⟨r, true, rfl, rfl, blocked⟩
  | permit => exact .inl (Nat.le_refl _)
  | _ => exact .inl (Nat.zero_le _)

theorem unchecked_le_one (c : Call α) (side : Side) : c.unchecked side ≤ 1 := by
  cases c with
  | acquire r =>
    change (if r.side = side then 1 else 0) ≤ 1
    split <;> decide
  | recheck r counted =>
    cases counted
    · exact Nat.zero_le _
    · change (if r.side = side then 1 else 0) ≤ 1
      split <;> decide
  | _ => exact Nat.zero_le _

theorem call_balanced {fQueueSize : Nat} {σ : State α} {place : Nat} {c : Call α} {s : Members α} {next : Option (Call α)}
    (ok : InStep fQueueSize (.advance place) σ) (here : σ.calls[place]? = some c) (moves : CallStep σ.members c s next)
    (even : ∀ side, 0 ≤ surplus fQueueSize σ side ∧ surplus fQueueSize σ side ≤ allowed σ side) :
    Stuck ⟨s, Pool.replace σ.calls place next⟩ ∨ ∀ side, 0 ≤ surplus fQueueSize ⟨s, Pool.replace σ.calls place next⟩ side ∧
      surplus fQueueSize ⟨s, Pool.replace σ.calls place next⟩ side ≤ allowed ⟨s, Pool.replace σ.calls place next⟩ side := by
  -- a getter with a permit finds an element, as nothing is outstanding while the lock is free
  have filled : ∀ counted, c = .locking .get counted → σ.members.fContainer ≠ [] := by
    rintro counted rfl empty
    have unlocked : σ.members.fQueueLock = none := by
      cases moves <;> assumption
    have holds : Call.holds .get (.locking (.get : Request α) counted) = 1 := rfl
    have some : 1 ≤ Pool.total (Call.holds .get) σ.calls := holds ▸ Pool.le_total (List.mem_of_getElem? here)
    obtain ⟨-, most⟩ := even .get
    rw [allowed_unlocked unlocked] at most
    rw [surplus_get, empty, List.length_nil] at most
    omega
  by_cases stuck : Stuck ⟨s, Pool.replace σ.calls place next⟩
  · exact .inl stuck
  right
  intro side
  obtain ⟨least, most⟩ := even side
  by_cases drops : c.Drops σ.members side
  · have some := inStep_dropped ok here drops
    rw [surplus_drop here moves drops]
    refine ⟨by omega, ?_⟩
    cases held : σ.members.fQueueLock with
    | none =>
      rw [allowed_unlocked held] at most
      omega
    | some holder =>
      obtain ⟨after, now, sides, -⟩ := call_locked moves held
      have pool := Pool.total_replace (Call.unchecked side) here next
      have one := unchecked_le_one c side
      rw [allowed_locked held] at most
      rw [allowed_locked now, sides]
      split at most
      · rename_i head
        rw [if_pos head]
        dsimp only
        omega
      · omega
  · rw [surplus_call here moves drops filled]
    refine ⟨least, ?_⟩
    cases held : σ.members.fQueueLock with
    | none =>
      rw [allowed_unlocked held] at most
      omega
    | some holder =>
      obtain ⟨after, now, sides, -⟩ := call_locked moves held
      have pool := Pool.total_replace (Call.unchecked side) here next
      rw [allowed_locked held] at most
      rw [allowed_locked now, sides]
      split at most
      · rename_i head
        rw [if_pos head]
        obtain more | ⟨r, rfl, rfl⟩ := call_unchecked moves drops
        · unfold adds at more
          dsimp only
          omega
        · have inside : r.side ∈ after.sides := by
            rw [sides]
            exact List.mem_of_mem_head? head
          exact absurd ⟨after, r, now, inside, Pool.mem_replace_self here _⟩ stuck
      · rename_i head
        rw [if_neg head]
        exact most

theorem unchecked_le_counts (side : Side) (c : Call α) : c.unchecked side ≤ c.counts side := by
  cases c with
  | acquire r => exact Nat.le_refl _
  | recheck r counted => cases counted <;> exact Nat.le_refl _
  | _ => exact Nat.zero_le _

theorem section_balanced {fQueueSize : Nat} {e : Event α} {σ : State α} {holder : Section α} {s : Members α}
    (ok : InStep fQueueSize e σ) (which : e = .advanceSection ∨ ∃ side rest signalled, holder = .waiting side rest signalled)
    (held : σ.members.fQueueLock = some holder) (moves : SectionStep σ.members holder s) (all : Counted σ)
    (even : ∀ side, 0 ≤ surplus fQueueSize σ side ∧ surplus fQueueSize σ side ≤ allowed σ side) (side : Side) :
    0 ≤ surplus fQueueSize { σ with members := s } side ∧
      surplus fQueueSize { σ with members := s } side ≤ allowed { σ with members := s } side := by
  obtain ⟨least, most⟩ := even side
  rw [allowed_locked held] at most
  have before : σ.members.takes = holder.takes := by
    unfold Members.takes
    rw [held]
    rfl
  have same : s.fSema = σ.members.fSema → s.fContainer = σ.members.fContainer → s.takes = holder.takes →
      surplus fQueueSize { σ with members := s } side = surplus fQueueSize σ side :=
    fun sema container takes => surplus_congr fQueueSize sema container (takes.trans before.symm) side
  cases moves with
  | emptied =>
    rw [same rfl rfl rfl]
    exact ⟨least, most⟩
  | unlocked =>
    rw [same rfl rfl rfl]
    exact ⟨least, most⟩
  | woken =>
    rw [same rfl rfl rfl]
    exact ⟨least, most⟩
  | @released own rest nobody =>
    rw [same rfl rfl rfl]
    have none : Pool.total (Call.unchecked own) σ.calls = 0 := by
      have le := Pool.total_le_total (unchecked_le_counts own) σ.calls
      have sum := all own
      omega
    refine ⟨least, most.trans ?_⟩
    split
    · rename_i head
      obtain rfl := Option.some.inj head
      rw [none]
      exact Int.natCast_nonneg _
    · exact Int.natCast_nonneg _
  | @tried lSize anyElements =>
    obtain rfl := which.resolve_right nofun
    have permit := inStep_tried ok held
    have kept : surplus fQueueSize { σ with members := (σ.members.acquire .get).lock (some (.moving lSize anyElements)) } side =
        surplus fQueueSize σ side := by
      cases side with
      | put => rfl
      | get =>
        rw [surplus_get, surplus_get, before]
        change ((σ.members.fSema .get - 1 + Pool.total (Call.holds .get) σ.calls + 1 : Nat) : Int) - σ.members.fContainer.length =
          ((σ.members.fSema .get + Pool.total (Call.holds .get) σ.calls + 0 : Nat) : Int) - σ.members.fContainer.length
        omega
    rw [kept]
    exact ⟨least, most⟩
  | @moved lSize anyElements rest anyElement front =>
    have kept : surplus fQueueSize { σ with members :=
        (σ.members.moveElement anyElement rest).lock (some (.emptying lSize (anyElements ++ [anyElement]))) } side =
        surplus fQueueSize σ side := by
      cases side with
      | put =>
        rw [surplus_put, surplus_put, front]
        change ((σ.members.fSema .put + 1 + Pool.total (Call.holds .put) σ.calls + rest.length : Nat) : Int) - fQueueSize =
          ((σ.members.fSema .put + Pool.total (Call.holds .put) σ.calls + (rest.length + 1) : Nat) : Int) - fQueueSize
        omega
      | get =>
        rw [surplus_get, surplus_get, before, front]
        change ((σ.members.fSema .get + Pool.total (Call.holds .get) σ.calls + 0 : Nat) : Int) - rest.length =
          ((σ.members.fSema .get + Pool.total (Call.holds .get) σ.calls + 1 : Nat) : Int) - (rest.length + 1 : Nat)
        omega
    rw [kept]
    exact ⟨least, most⟩
  | @wakes own rest somebody =>
    obtain rfl := which.resolve_right nofun
    have fewer := inStep_woken ok held somebody
    have more : surplus fQueueSize { σ with members := (σ.members.release own).lock (some (.waiting own rest false)) } side =
        surplus fQueueSize σ side + if side = own then 1 else 0 := by
      have sema : ((σ.members.release own).lock (some (.waiting own rest false))).fSema side =
          σ.members.fSema side + if side = own then 1 else 0 := by
        change Function.update σ.members.fSema own (σ.members.fSema own + 1) side = _
        rw [Function.update_apply]
        split
        · rename_i eq
          rw [eq]
        · rfl
      cases side with
      | put =>
        rw [surplus_put, surplus_put]
        dsimp only
        rw [sema]
        change ((σ.members.fSema .put + (if Side.put = own then 1 else 0) + Pool.total (Call.holds .put) σ.calls +
          σ.members.fContainer.length : Nat) : Int) - fQueueSize = _
        split <;> omega
      | get =>
        rw [surplus_get, surplus_get, before]
        dsimp only
        rw [sema]
        change ((σ.members.fSema .get + (if Side.get = own then 1 else 0) + Pool.total (Call.holds .get) σ.calls + 0 : Nat) : Int) -
          σ.members.fContainer.length = ((σ.members.fSema .get + Pool.total (Call.holds .get) σ.calls + 0 : Nat) : Int) -
          σ.members.fContainer.length + _
        split <;> omega
    rw [more]
    change 0 ≤ _ ∧ _ ≤ (((if some own = some side then Pool.total (Call.unchecked side) σ.calls else 0) : Nat) : Int)
    change _ ≤ (((if some own = some side then Pool.total (Call.unchecked side) σ.calls else 0) : Nat) : Int) at most
    by_cases eq : side = own
    · subst eq
      rw [if_pos rfl, if_pos rfl]
      omega
    · have apart : ¬some own = some side := fun eq' => eq (Option.some.inj eq').symm
      rw [if_neg apart] at most
      rw [if_neg eq, if_neg apart, Int.add_zero]
      exact ⟨least, most⟩

theorem balanced_step {fQueueSize : Nat} {e : Event α} {σ σ' : State α} (all : Balanced fQueueSize σ)
    (ok : InStep fQueueSize e σ) (taken : step e σ = .ok σ') : Balanced fQueueSize σ' := by
  obtain ⟨counted, sides⟩ := all
  refine ⟨counted_step taken counted, ?_⟩
  obtain stuck | even := sides
  · exact .inl (stuck_step taken counted stuck)
  obtain ⟨c, -, rfl⟩ | ⟨place, c, s, next, rfl, here, moves, rfl⟩ | ⟨holder, s, which, held, moves, rfl⟩ := step_cases taken
  · right
    intro side
    rw [surplus_start]
    refine ⟨(even side).1, (even side).2.trans ?_⟩
    unfold allowed
    dsimp only
    split
    · rw [Pool.total_append]
      split
      · exact Int.ofNat_le.mpr (Nat.le_add_right _ _)
      · exact Int.le_refl _
    · exact Int.le_refl _
  · exact call_balanced ok here moves even
  · right
    refine section_balanced ok ?_ held moves counted even
    obtain rfl | rfl := which
    · exact .inl rfl
    · right
      dsimp only [step] at taken
      split at taken
      · rename_i side rest waiting
        exact ⟨side, rest, false, Option.some.inj (held.symm.trans waiting)⟩
      · cases taken

theorem balanced_new (fQueueSize : Nat) : Balanced fQueueSize (State.new fQueueSize : State α) where
  counted _ := rfl
  sides := by
    right
    intro side
    rw [allowed_unlocked rfl]
    cases side with
    | put =>
      rw [surplus_put]
      change (0 : Int) ≤ ((fQueueSize + 0 + 0 : Nat) : Int) - fQueueSize ∧ ((fQueueSize + 0 + 0 : Nat) : Int) - fQueueSize ≤ (0 : Nat)
      omega
    | get => exact ⟨Int.le_refl _, Int.le_refl _⟩

/-! ### States without a call in progress -/

def Alone (c : Start α) (returns : Result α) (σ : State α) : Prop :=
  ∃ steps σ', run (.start c :: List.replicate steps (.advance 0)) σ = .ok σ' ∧ σ'.Quiet ∧
    σ'.members.returned = σ.members.returned ++ [returns]

section Alone

variable {σ : State α} (quiet : σ.Quiet)
include quiet

theorem alone_refused {r : Request α} {c : Start α} (starts : c.call = .check r true) (free : σ.members.feBlocked r.side = false)
    (empty : σ.members.fSema r.side = 0) : Alone c (r.fails r.noPermit) σ := by
  obtain ⟨m, calls⟩ := σ
  obtain ⟨rfl, unlocked⟩ := quiet
  dsimp only at free empty unlocked
  refine ⟨2, ⟨m.report (r.fails r.noPermit), []⟩, ?_, ⟨rfl, unlocked⟩, rfl⟩
  simp [run, Runs.run, step, starts, Call.next, free, empty, List.replicate, Pool.replace]

theorem alone_served {r : Request α} {c : Start α} (starts : c.call = .check r true) (free : σ.members.feBlocked r.side = false)
    (permit : 0 < σ.members.fSema r.side) :
    ∃ σ', run (.start c :: List.replicate 4 (.advance 0)) σ = .ok σ' ∧ σ'.calls = [] ∧
      σ'.members = (serve (σ.members.acquire r.side) r).1.report (serve (σ.members.acquire r.side) r).2 := by
  obtain ⟨m, calls⟩ := σ
  obtain ⟨rfl, unlocked⟩ := quiet
  dsimp only at free permit unlocked
  have still : (m.acquire r.side).feBlocked r.side = false := free
  have lock : (m.acquire r.side).fQueueLock = none := unlocked
  refine ⟨⟨(serve (m.acquire r.side) r).1.report (serve (m.acquire r.side) r).2, []⟩, ?_, rfl, rfl⟩
  simp [run, Runs.run, step, starts, Call.next, free, Nat.ne_of_gt permit, List.replicate, Pool.replace, still, lock, leave]

theorem alone_put {anyElement : α} (free : σ.members.feBlocked .put = false) (permit : 0 < σ.members.fSema .put) :
    Alone (.put anyElement true) (.put anyElement .eSuccess) σ := by
  obtain ⟨σ', done, calls, members⟩ := alone_served quiet (c := .put anyElement true) rfl free permit
  refine ⟨4, σ', done, ⟨calls, ?_⟩, ?_⟩
  · rw [members]
    exact quiet.2
  · rw [members]
    rfl

theorem alone_get {anyElement : α} {rest : List α} (free : σ.members.feBlocked .get = false) (permit : 0 < σ.members.fSema .get)
    (front : σ.members.fContainer = anyElement :: rest) : Alone (.get true) (.get (some anyElement) .eSuccess) σ := by
  obtain ⟨σ', done, calls, members⟩ := alone_served quiet (r := .get) (c := .get true) rfl free permit
  have served : serve (σ.members.acquire .get) .get =
      ((σ.members.acquire .get).doGet anyElement rest, .get (some anyElement) .eSuccess) := by
    have kept : (σ.members.acquire .get).fContainer = anyElement :: rest := front
    unfold serve
    simp only [kept]
  change σ'.members = (serve (σ.members.acquire .get) .get).1.report (serve (σ.members.acquire .get) .get).2 at members
  rw [served] at members
  refine ⟨4, σ', done, ⟨calls, ?_⟩, ?_⟩
  · rw [members]
    exact quiet.2
  · rw [members]
    rfl

end Alone

/-- The semaphores of a queue at rest, and what they mean for calls that do not wait. -/
structure AtRest (fQueueSize : Nat) (σ : State α) : Prop where
  full : σ.members.fSema .get = σ.members.fContainer.length
  empty : σ.members.fSema .put + σ.members.fContainer.length = fQueueSize
  put : σ.members.feBlocked .put = false → σ.members.fContainer.length < fQueueSize →
    ∀ x, Alone (.put x true) (.put x .eSuccess) σ
  putFull : σ.members.feBlocked .put = false → σ.members.fContainer.length = fQueueSize →
    ∀ x, Alone (.put x true) (.put x .eFull) σ
  get : σ.members.feBlocked .get = false → ∀ x rest, σ.members.fContainer = x :: rest →
    Alone (.get true) (.get (some x) .eSuccess) σ
  getEmpty : σ.members.feBlocked .get = false → σ.members.fContainer = [] → Alone (.get true) (.get none .eEmpty) σ

theorem atRest_of_equal {fQueueSize : Nat} {σ : State α} (quiet : σ.Quiet)
    (full : σ.members.fSema .get = σ.members.fContainer.length)
    (empty : σ.members.fSema .put + σ.members.fContainer.length = fQueueSize) : AtRest fQueueSize σ where
  full := full
  empty := empty
  put free room x := alone_put quiet free (by omega)
  putFull free none x := alone_refused quiet (r := .put x) rfl free (by change σ.members.fSema .put = 0; omega)
  get free x rest front := alone_get quiet free (by rw [full, front]; exact Nat.succ_pos _) front
  getEmpty free none := alone_refused quiet (r := .get) rfl free (by change σ.members.fSema .get = 0; rw [full, none]; rfl)

/-- Runs that stay in step leave a queue at rest with as many full slots as elements. -/
theorem permits_in_step {fQueueSize : Nat} {events : List (Event α)} {σ : State α}
    (ok : Runs.Meets step (InStep fQueueSize) events (State.new fQueueSize)) (done : run events (State.new fQueueSize) = .ok σ)
    (quiet : σ.Quiet) : AtRest fQueueSize σ := by
  have all : Balanced fQueueSize σ :=
    Runs.run_ok_keeps (fun _ _ _ inv ok taken => balanced_step inv ok taken) (balanced_new fQueueSize) ok done
  have ⟨calls, unlocked⟩ := quiet
  obtain ⟨holder, r, held, -, -⟩ | even := all.sides
  · cases unlocked.symm.trans held
  have free : σ.members.takes = 0 := by
    unfold Members.takes
    rw [unlocked]
    rfl
  obtain ⟨least, most⟩ := even .put
  obtain ⟨least', most'⟩ := even .get
  rw [allowed_unlocked unlocked] at most most'
  rw [surplus_put, calls, Pool.total_nil] at least most
  rw [surplus_get, calls, free, Pool.total_nil] at least' most'
  exact atRest_of_equal quiet (by omega) (by omega)

/-- A `Put` waits for a slot of a full queue; `Block` wakes it, and `UnBlock` follows. -/
def wokenPut : List (Event Nat) :=
  [.start (.put 1 true), .advance 0, .advance 0, .advance 0, .advance 0,
    .start (.put 2 false), .advance 0, .advance 0,
    .start (.block .ePutSide), .advance 1, .advance 1, .advanceSection,
    .advance 0, .advance 0, .advance 0, .advanceSection, .advanceSection, .advanceSection,
    .start (.unBlock .ePutSide), .advance 0]

theorem permits_in_step_wokenPut :
    ∃ σ, run wokenPut (State.new 1) = .ok σ ∧ σ.members.returned = [.put 1 .eSuccess, .put 2 .eBlocked] ∧ AtRest 1 σ :=
  ⟨_, rfl, rfl, @permits_in_step Nat 1 wokenPut _ (Runs.meets_of_check rfl) rfl ⟨rfl, rfl⟩⟩

/-- A `Put` that has its permit when `Block` sets the flag returns without giving it back. -/
def droppedPermit : List (Event Nat) :=
  [.start (.put 7 true), .advance 0, .advance 0,
    .start (.block .eBothSides), .advance 1, .advance 1, .advanceSection, .advanceSection, .advanceSection,
    .advance 0, .start (.unBlock .eBothSides), .advance 0]

theorem permit_lost :
    ∃ σ, run droppedPermit (State.new 1) = .ok σ ∧ σ.Quiet ∧ σ.members.fContainer = [] ∧
      σ.members.feBlocked .put = false ∧ σ.members.fSema .put = 0 :=
  ⟨_, rfl, ⟨rfl, rfl⟩, rfl, rfl, rfl⟩

end Coast.Queueing
