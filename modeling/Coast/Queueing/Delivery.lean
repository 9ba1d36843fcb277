import Coast.Queueing.Permits
import Mathlib.Tactic.Abel

/-!
# Delivery

What successful calls put in comes out once, in the same order, however the steps of the calls mix.
-/

namespace Coast.Queueing

variable {α : Type}

namespace Members

variable (s : Members α)

theorem signal_eq (side : Side) : ∃ holder, s.signal side = s.lock holder := by
  unfold signal
  split
  · exact ⟨_, rfl⟩
  · exact ⟨s.fQueueLock, rfl⟩

end Members

/-! ### The order of the elements -/

def Members.InOrder (s : Members α) : Prop := s.taken ++ s.fContainer = s.pushed

theorem inOrder_leave {s : Members α} (order : s.InOrder) (side : Side) (counted : Bool) (returns : Result α) :
    (leave side counted returns s).1.InOrder := by
  cases counted <;> exact order

theorem inOrder_call {s s' : Members α} {c : Call α} {next : Option (Call α)} (moves : CallStep s c s' next)
    (order : s.InOrder) : s'.InOrder := by
  cases moves with
  | dropped => exact inOrder_leave order _ _ _
  | @pushed anyElement counted =>
    apply inOrder_leave
    change s.taken ++ (s.fContainer ++ [anyElement]) = s.pushed ++ [anyElement]
    rw [← List.append_assoc, order]
  | @popped anyElement rest counted unlocked front =>
    apply inOrder_leave
    change (s.taken ++ [anyElement]) ++ rest = s.pushed
    rw [List.append_assoc, List.singleton_append, ← front, order]
  | foundEmpty => exact inOrder_leave order _ _ _
  | @countedOut side returns =>
    obtain ⟨holder, eq⟩ := Members.signal_eq
      { s with fBlockingCount := Function.update s.fBlockingCount side (s.fBlockingCount side - 1) } side
    unfold Members.countOut
    rw [eq]
    exact order
  | _ => exact order

theorem inOrder_section {s s' : Members α} {holder : Section α} (moves : SectionStep s holder s') (order : s.InOrder) :
    s'.InOrder := by
  cases moves with
  | @moved lSize anyElements rest anyElement front =>
    change (s.taken ++ [anyElement]) ++ rest = s.pushed
    rw [List.append_assoc, List.singleton_append, ← front, order]
  | _ => exact order

theorem inOrder_step {e : Event α} {σ σ' : State α} (taken : step e σ = .ok σ') (order : σ.members.InOrder) :
    σ'.members.InOrder := by
  obtain ⟨c, -, rfl⟩ | ⟨place, c, s, next, -, -, moves, rfl⟩ | ⟨holder, s, -, -, moves, rfl⟩ := step_cases taken
  · exact order
  · exact inOrder_call moves order
  · exact inOrder_section moves order

/-! ### The results of the calls -/

def Result.pushed : Result α → Multiset α
  | .put anyElement .eSuccess => {anyElement}
  | _ => 0

def Result.delivered : Result α → Multiset α
  | .get (some anyElement) _ => {anyElement}
  | .emptied anyElements => anyElements
  | _ => 0

structure Tally (w : Result α → Multiset α) : Prop where
  failed : ∀ (r : Request α) (eRet : StatusCode), eRet ≠ .eSuccess → w (r.fails eRet) = 0
  nothing : w (.emptied []) = 0
  moved : ∀ (anyElements : List α) (anyElement : α),
    w (.emptied (anyElements ++ [anyElement])) = w (.emptied anyElements) + w (.get (some anyElement) .eSuccess)

theorem tally_pushed : Tally (Result.pushed (α := α)) where
  failed r eRet failed := by
    cases r with
    | put => cases eRet <;> first | rfl | exact absurd rfl failed
    | get => rfl
  nothing := rfl
  moved _ _ := rfl

theorem tally_delivered : Tally (Result.delivered (α := α)) where
  failed r _ _ := by cases r <;> rfl
  nothing := rfl
  moved anyElements anyElement := by
    change ((anyElements ++ [anyElement] : List α) : Multiset α) = anyElements + {anyElement}
    rw [← Multiset.coe_add, Multiset.coe_singleton]

def Call.owes (w : Result α → Multiset α) : Call α → Multiset α
  | .countOut _ returns => w returns
  | _ => 0

def Section.owes (w : Result α → Multiset α) : Section α → Multiset α
  | .emptying _ anyElements => w (.emptied anyElements)
  | .moving _ anyElements => w (.emptied anyElements)
  | _ => 0

variable (w : Result α → Multiset α)

def owed (next : Option (Call α)) : Multiset α := (next.map (Call.owes w)).getD 0

def Members.shown (s : Members α) : Multiset α :=
  Pool.total w s.returned + (s.fQueueLock.map (Section.owes w)).getD 0

def Members.logged (s : Members α) : Multiset α :=
  Pool.total (fun x => w (.put x .eSuccess)) s.pushed + Pool.total (fun x => w (.get (some x) .eSuccess)) s.taken

def Accounted (σ : State α) : Prop := σ.members.shown w + Pool.total (Call.owes w) σ.calls = σ.members.logged w

variable {w}

theorem shown_report (s : Members α) (r : Result α) : (s.report r).shown w = s.shown w + w r := by
  unfold Members.shown Members.report
  simp only [Pool.total_append, Pool.total_cons, Pool.total_nil, add_zero]
  abel

theorem shown_leave (side : Side) (counted : Bool) (returns : Result α) (s : Members α) :
    (leave side counted returns s).1.shown w + owed w (leave side counted returns s).2 = s.shown w + w returns := by
  cases counted with
  | true => rfl
  | false =>
    change (s.report returns).shown w + 0 = _
    rw [shown_report, add_zero]

theorem logged_leave (side : Side) (counted : Bool) (returns : Result α) (s : Members α) :
    (leave side counted returns s).1.logged w = s.logged w := by
  cases counted <;> rfl

theorem shown_countOut (s : Members α) (side : Side) : (s.countOut side).shown w = s.shown w ∧ (s.countOut side).logged w = s.logged w := by
  unfold Members.countOut Members.signal
  split
  · rename_i waits rest signalled held
    refine ⟨?_, rfl⟩
    unfold Members.shown
    change s.fQueueLock = _ at held
    rw [held]
    rfl
  · exact ⟨rfl, rfl⟩

theorem logged_push (s : Members α) (x : α) : (s.doPut x).logged w = s.logged w + w (.put x .eSuccess) := by
  unfold Members.logged Members.doPut Members.release
  simp only [Pool.total_append, Pool.total_cons, Pool.total_nil, add_zero]
  abel

theorem logged_take (s : Members α) (x : α) (rest : List α) :
    (s.doGet x rest).logged w = s.logged w + w (.get (some x) .eSuccess) := by
  unfold Members.logged Members.doGet Members.release
  simp only [Pool.total_append, Pool.total_cons, Pool.total_nil, add_zero]
  abel

theorem call_accounts (t : Tally w) {s s' : Members α} {c : Call α} {next : Option (Call α)} (moves : CallStep s c s' next) :
    s'.shown w + owed w next + s.logged w = s.shown w + Call.owes w c + s'.logged w := by
  have shut : ∀ (r : Request α) (eRet : StatusCode), eRet ≠ .eSuccess → w (r.fails eRet) = 0 := t.failed
  cases moves with
  | @refused r =>
    rw [shown_report, shut r _ (by decide), add_zero]
    rfl
  | @noPermit r =>
    rw [shown_report, shut r _ (by cases r <;> exact nofun), add_zero]
    rfl
  | @dropped r counted =>
    rw [shown_leave, logged_leave, shut r _ (by decide)]
    rfl
  | pushed =>
    rw [shown_leave, logged_leave, logged_push]
    change s.shown w + _ + _ = s.shown w + 0 + _
    abel
  | popped =>
    rw [shown_leave, logged_leave, logged_take]
    change s.shown w + _ + _ = s.shown w + 0 + _
    abel
  | foundEmpty =>
    rw [shown_leave, logged_leave, show w (.get none .eEmptyError) = 0 from shut .get .eEmptyError (by decide)]
    rfl
  | @countedOut side returns =>
    obtain ⟨shown, logged⟩ := shown_countOut (w := w) s side
    rw [shown_report, shown]
    change _ + 0 + _ = s.shown w + w returns + (s.countOut side).logged w
    rw [logged, add_zero]
  | keptFull =>
    rw [shown_report, t.nothing, add_zero]
    rfl
  | emptyLocked unlocked =>
    unfold Members.shown
    rw [unlocked]
    change _ + w (.emptied []) + 0 + _ = _
    rw [t.nothing]
    rfl
  | blockLocked unlocked =>
    unfold Members.shown
    rw [unlocked]
    rfl
  | tries => rfl
  | waits => rfl
  | triedPermit => rfl
  | countedIn => rfl
  | permit => rfl
  | passed => rfl
  | empties => rfl
  | blocked => rfl
  | unBlocked => rfl

theorem section_accounts (t : Tally w) {s s' : Members α} {holder : Section α} (held : s.fQueueLock = some holder)
    (moves : SectionStep s holder s') : s'.shown w + s.logged w = s.shown w + s'.logged w := by
  cases moves with
  | @emptied anyElements =>
    rw [shown_report]
    unfold Members.shown
    rw [held]
    change _ + 0 + w (.emptied anyElements) + _ = Pool.total w s.returned + w (.emptied anyElements) + s.logged w
    rw [add_zero]
    rfl
  | @moved lSize anyElements rest anyElement front =>
    unfold Members.shown
    rw [held]
    change Pool.total w s.returned + w (.emptied (anyElements ++ [anyElement])) + s.logged w =
      Pool.total w s.returned + w (.emptied anyElements) + (s.doGet anyElement rest).logged w
    rw [t.moved, logged_take]
    abel
  | tried =>
    unfold Members.shown
    rw [held]
    rfl
  | unlocked =>
    unfold Members.shown
    rw [held]
    rfl
  | released =>
    unfold Members.shown
    rw [held]
    rfl
  | wakes =>
    unfold Members.shown
    rw [held]
    rfl
  | woken =>
    unfold Members.shown
    rw [held]
    rfl

theorem accounted_step (t : Tally w) {e : Event α} {σ σ' : State α} (taken : step e σ = .ok σ') (all : Accounted w σ) :
    Accounted w σ' := by
  unfold Accounted at all ⊢
  obtain ⟨c, -, rfl⟩ | ⟨place, c, s, next, -, here, moves, rfl⟩ | ⟨holder, s, -, held, moves, rfl⟩ := step_cases taken
  · have fresh : Call.owes w c.call = 0 := by cases c <;> rfl
    rw [Pool.total_append, Pool.total_cons, fresh]
    simpa using all
  · have pool := Pool.total_replace (Call.owes w) here next
    have call := call_accounts t moves
    dsimp only
    refine add_right_cancel (b := Call.owes w c + σ.members.logged w) ?_
    calc s.shown w + Pool.total (Call.owes w) (Pool.replace σ.calls place next) + (Call.owes w c + σ.members.logged w)
        = s.shown w + σ.members.logged w + (Pool.total (Call.owes w) (Pool.replace σ.calls place next) + Call.owes w c) := by abel
      _ = s.shown w + owed w next + σ.members.logged w + Pool.total (Call.owes w) σ.calls := by
        rw [pool]
        unfold owed
        abel
      _ = (σ.members.shown w + Pool.total (Call.owes w) σ.calls) + (Call.owes w c + s.logged w) := by
        rw [call]
        abel
      _ = s.logged w + (Call.owes w c + σ.members.logged w) := by
        rw [all]
        abel
  · have change := section_accounts t held moves
    dsimp only
    refine add_right_cancel (b := σ.members.logged w) ?_
    rw [add_right_comm, change, add_right_comm, all, add_comm]

theorem accounted_new (fQueueSize : Nat) : Accounted w (State.new fQueueSize : State α) := rfl

/-! ### The size of the container -/

/-- What holds until `Block` is called for a side. -/
structure Unblocked (fQueueSize : Nat) (σ : State α) : Prop where
  flags : ∀ side, σ.members.feBlocked side = false
  holder : ∀ holder, σ.members.fQueueLock = some holder → holder.sides = []
  calls : ∀ aSide, Call.blockLocking aSide ∈ σ.calls → aSide = .eNone
  room : σ.members.fSema .put + Pool.total (Call.holds .put) σ.calls + σ.members.fContainer.length = fQueueSize

theorem call_everBlocked {s s' : Members α} {c : Call α} {next : Option (Call α)} (moves : CallStep s c s' next) :
    s'.everBlocked = s.everBlocked ∧ s'.feBlocked = s.feBlocked ∧ (∀ aSide, next ≠ some (.blockLocking aSide)) ∨
      (∃ aSide, c = .block aSide ∧ s' = s.block aSide ∧ next = some (.blockLocking aSide)) ∨
      ∃ aSide, c = .unBlock aSide ∧ s' = s.unBlock aSide ∧ next = none := by
  cases moves with
  | blocked => exact .inr (.inl ⟨_, rfl, rfl, rfl⟩)
  | unBlocked => exact .inr (.inr ⟨_, rfl, rfl, rfl⟩)
  | @dropped r counted => cases counted <;> exact .inl ⟨rfl, rfl, nofun⟩
  | @pushed anyElement counted => cases counted <;> exact .inl ⟨rfl, rfl, nofun⟩
  | @popped anyElement rest counted => cases counted <;> exact .inl ⟨rfl, rfl, nofun⟩
  | @foundEmpty counted => cases counted <;> exact .inl ⟨rfl, rfl, nofun⟩
  | @countedOut side returns =>
    obtain ⟨holder, eq⟩ := countOut_eq s side
    rw [eq]
    exact .inl ⟨rfl, rfl, nofun⟩
  | _ => exact .inl ⟨rfl, rfl, nofun⟩

theorem call_unblocked {fQueueSize : Nat} {σ : State α} {place : Nat} {c : Call α} {s : Members α} {next : Option (Call α)}
    (all : Unblocked fQueueSize σ) (here : σ.calls[place]? = some c) (moves : CallStep σ.members c s next)
    (never : s.everBlocked = false) : Unblocked fQueueSize ⟨s, Pool.replace σ.calls place next⟩ := by
  obtain ⟨flags, holders, calls, room⟩ := all
  have keeps : ¬c.Drops σ.members .put := by
    rintro ⟨r, counted, rfl, own, blocked⟩
    rw [flags] at blocked
    cases blocked
  have pool := Pool.total_replace (Call.holds .put) here next
  have put := call_put moves keeps
  unfold adds at put
  have space : s.fSema .put + Pool.total (Call.holds .put) (Pool.replace σ.calls place next) + s.fContainer.length = fQueueSize := by
    omega
  have lock : ∀ holder, s.fQueueLock = some holder → holder.sides = [] := by
    intro holder now
    obtain ⟨before, held, sides⟩ | ⟨-, none | ⟨aSide, rfl, sides⟩, -⟩ := call_holder moves now
    · exact sides ▸ holders before held
    · exact none
    · rw [sides, calls aSide (List.mem_of_getElem? here)]
      rfl
  have listed : ∀ aSide, Call.blockLocking aSide ∈ Pool.replace σ.calls place next →
      next ≠ some (.blockLocking aSide) ∨ aSide = .eNone → aSide = .eNone := by
    rintro aSide mem (other | none)
    · obtain mem | eq := Pool.mem_replace mem
      · exact calls aSide mem
      · exact absurd eq other
    · exact none
  obtain ⟨-, same, other⟩ | ⟨aSide, rfl, rfl, rfl⟩ | ⟨aSide, rfl, rfl, rfl⟩ := call_everBlocked moves
  · exact ⟨fun side => same ▸ flags side, lock, fun aSide mem => listed aSide mem (.inl (other aSide)), space⟩
  · have none : aSide = .eNone := by
      unfold Members.block at never
      simpa using (Bool.or_eq_false_iff.mp never).2
    subst none
    refine ⟨fun side => ?_, lock, fun aSide mem => listed aSide mem ?_, space⟩
    · change (σ.members.feBlocked side || false) = false
      rw [flags]
      rfl
    · cases aSide <;> first | exact .inr rfl | exact .inl nofun
  · refine ⟨fun side => ?_, lock, fun aSide mem => listed aSide mem (.inl nofun), space⟩
    change (σ.members.feBlocked side && _) = false
    rw [flags]
    rfl

theorem section_unblocked {fQueueSize : Nat} {σ : State α} {holder : Section α} {s : Members α} (all : Unblocked fQueueSize σ)
    (held : σ.members.fQueueLock = some holder) (moves : SectionStep σ.members holder s) :
    Unblocked fQueueSize { σ with members := s } := by
  obtain ⟨flags, holders, calls, room⟩ := all
  have none := holders holder held
  cases moves with
  | emptied => exact ⟨flags, nofun, calls, room⟩
  | unlocked => exact ⟨flags, nofun, calls, room⟩
  | tried =>
    refine ⟨flags, fun after now => ?_, calls, room⟩
    obtain rfl := Option.some.inj now
    rfl
  | @moved lSize anyElements rest anyElement front =>
    refine ⟨flags, fun after now => ?_, calls, ?_⟩
    · obtain rfl := Option.some.inj now
      rfl
    · rw [front, List.length_cons] at room
      change σ.members.fSema .put + 1 + Pool.total (Call.holds .put) σ.calls + rest.length = fQueueSize
      omega
  | released => cases none
  | wakes => cases none
  | woken => cases none

theorem call_everBlocked_of {s s' : Members α} {c : Call α} {next : Option (Call α)} (moves : CallStep s c s' next)
    (never : s'.everBlocked = false) : s.everBlocked = false := by
  obtain ⟨same, -⟩ | ⟨aSide, rfl, rfl, rfl⟩ | ⟨aSide, rfl, rfl, rfl⟩ := call_everBlocked moves
  · rwa [same] at never
  · exact (Bool.or_eq_false_iff.mp never).1
  · exact never

theorem unblocked_step {fQueueSize : Nat} {e : Event α} {σ σ' : State α} (taken : step e σ = .ok σ')
    (all : σ.members.everBlocked = false → Unblocked fQueueSize σ) (never : σ'.members.everBlocked = false) :
    Unblocked fQueueSize σ' := by
  obtain ⟨c, -, rfl⟩ | ⟨place, c, s, next, -, here, moves, rfl⟩ | ⟨holder, s, -, held, moves, rfl⟩ := step_cases taken
  · obtain ⟨flags, holders, calls, room⟩ := all never
    have fresh : Call.holds .put c.call = 0 := by cases c <;> rfl
    refine ⟨flags, holders, fun aSide mem => ?_, ?_⟩
    · obtain mem | mem := List.mem_append.mp mem
      · exact calls aSide mem
      · rw [List.mem_singleton] at mem
        cases c <;> cases mem
    · rw [Pool.total_append, Pool.total_cons, fresh]
      exact room
  · exact call_unblocked (all (call_everBlocked_of moves never)) here moves never
  · have same : s.everBlocked = σ.members.everBlocked := by cases moves <;> rfl
    exact section_unblocked (all (same ▸ never)) held moves

theorem unblocked_new (fQueueSize : Nat) : Unblocked fQueueSize (State.new fQueueSize : State α) where
  flags _ := rfl
  holder := nofun
  calls _ mem := by cases mem
  room := rfl

/-! ### Every run -/

/-- The elements that successful `Put` calls have, those returned and those about to return. -/
def State.putIn (σ : State α) : Multiset α :=
  Pool.total Result.pushed σ.members.returned + Pool.total (Call.owes Result.pushed) σ.calls

/-- The elements that `Get` and `EmptyQueue` deliver, with those in the hands of a call in progress. -/
def State.takenOut (σ : State α) : Multiset α := σ.members.shown Result.delivered + Pool.total (Call.owes Result.delivered) σ.calls

theorem total_singleton (l : List α) : Pool.total (fun x => ({x} : Multiset α)) l = l := by
  induction l with
  | nil => rfl
  | cons x l ih =>
    rw [Pool.total_cons, ih]
    rfl

theorem total_zero (l : List α) : Pool.total (fun _ => (0 : Multiset α)) l = 0 := by
  induction l with
  | nil => rfl
  | cons x l ih =>
    rw [Pool.total_cons, ih]
    rfl

structure Delivered (fQueueSize : Nat) (σ : State α) : Prop where
  order : σ.members.InOrder
  put : Accounted Result.pushed σ
  got : Accounted Result.delivered σ
  room : σ.members.everBlocked = false → Unblocked fQueueSize σ

theorem delivered_new (fQueueSize : Nat) : Delivered fQueueSize (State.new fQueueSize : State α) :=
  ⟨rfl, accounted_new fQueueSize, accounted_new fQueueSize, fun _ => unblocked_new fQueueSize⟩

theorem delivered_step {fQueueSize : Nat} {e : Event α} {σ σ' : State α} (all : Delivered fQueueSize σ)
    (taken : step e σ = .ok σ') : Delivered fQueueSize σ' :=
  ⟨inOrder_step taken all.order, accounted_step tally_pushed taken all.put, accounted_step tally_delivered taken all.got,
    unblocked_step taken all.room⟩

theorem shown_pushed (s : Members α) : s.shown Result.pushed = Pool.total Result.pushed s.returned := by
  have none : (s.fQueueLock.map (Section.owes Result.pushed)).getD 0 = 0 := by
    cases s.fQueueLock with
    | none => rfl
    | some holder => cases holder <;> rfl
  unfold Members.shown
  rw [none, add_zero]

/-- In every run what is taken out, followed by what is in the container, is what was put in, in order;
and until a side is blocked the container has at most `fQueueSize` elements. -/
theorem elements_delivered (fQueueSize : Nat) (events : List (Event α)) (σ : State α)
    (done : run events (State.new fQueueSize) = .ok σ) :
    σ.members.taken ++ σ.members.fContainer = σ.members.pushed ∧
      σ.putIn = σ.members.pushed ∧ σ.takenOut = σ.members.taken ∧
      (σ.members.everBlocked = false → σ.members.fContainer.length ≤ fQueueSize) := by
  have always : Runs.Meets step (fun _ _ => True) events (State.new fQueueSize) := Runs.meets_of_forall (fun _ _ => trivial) _ _
  have all : Delivered fQueueSize σ :=
    Runs.run_ok_keeps (fun _ _ _ inv _ taken => delivered_step inv taken) (delivered_new fQueueSize) always done
  refine ⟨all.order, ?_, ?_, fun never => ?_⟩
  · have put := all.put
    unfold Accounted at put
    rw [shown_pushed] at put
    unfold State.putIn
    rw [put]
    unfold Members.logged
    change Pool.total (fun x => ({x} : Multiset α)) _ + Pool.total (fun _ => (0 : Multiset α)) _ = _
    rw [total_singleton, total_zero, add_zero]
  · have got := all.got
    unfold Accounted at got
    unfold State.takenOut
    rw [got]
    unfold Members.logged
    change Pool.total (fun _ => (0 : Multiset α)) _ + Pool.total (fun x => ({x} : Multiset α)) _ = _
    rw [total_singleton, total_zero, zero_add]
  · have room := (all.room never).room
    omega

/-- A `Get` and an `EmptyQueue` that mix with two `Put` calls. -/
def mixed : List (Event Nat) :=
  [.start (.put 5 true), .start (.put 6 false), .advance 1, .advance 0, .advance 1, .advance 1, .advance 1, .advance 1,
    .start (.get true), .start .emptyQueue, .advance 0, .advance 0, .advance 2, .advance 2, .advance 0,
    .advance 1, .advance 1, .advance 1, .advance 1, .advanceSection, .advance 0, .advanceSection, .advanceSection]

theorem elements_delivered_mixed : ∃ σ, run mixed (State.new 2) = .ok σ ∧ σ.members.taken = [6, 5] ∧
    σ.members.taken ++ σ.members.fContainer = σ.members.pushed ∧
      σ.putIn = σ.members.pushed ∧ σ.takenOut = σ.members.taken ∧
      (σ.members.everBlocked = false → σ.members.fContainer.length ≤ 2) :=
  ⟨_, rfl, rfl, elements_delivered 2 mixed _ rfl⟩

end Coast.Queueing
