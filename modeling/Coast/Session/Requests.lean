import Coast.Lib.Pool
import Coast.Lib.Runs
import Coast.Session.Context
import Coast.Session.SessionListManager

/-!
# Requests and their sessions

A request looks its session up in one section under `fSessionsMutex` and references it in another one, under
the mutex of the session. A cleanup holds `fSessionsMutex` while it visits the sessions one by one, and
deletes those that it has taken out of the lists afterwards.
-/

namespace Coast.Session

variable {σ : Type}

inductive Phase (σ : Type) where
  | outside
  /-- `IntLookupSession` has left its section and is about to push the session. -/
  | found (s : σ)
  /-- In `Push`, with the reference of the session before. -/
  | releasing (saved : σ)
  /-- `MakeSession` has read a number that is too large. -/
  | makeRoom
  /-- In `DoCleanup` with so many slots left, of `fSessions` and then of `fDisabledSessions`. -/
  | sweeping (roleNotRelevant : Bool) (left : Nat) (sessions2Delete : List σ) (creates : Bool)
  /-- In `DoDeleteSessions`; there is room for the new session or there is no new session. -/
  | deleting (sessions2Delete : List σ) (creates : Bool)
  | making
  /-- From `DoMakeSession` to `AddSession`. -/
  | made (s : σ) (saved : Option σ)

structure Request (σ : Type) where
  fSession : Option σ
  phase : Phase σ

structure Server (σ : Type) where
  manager : SessionListManager σ
  live : List σ
  requests : List (Request σ)

namespace SessionListManager

variable [DecidableEq σ]

def ref (s : σ) (m : SessionListManager σ) : SessionListManager σ :=
  { m with fRefCount := Function.update m.fRefCount s (m.fRefCount s + 1) }

def unRef (s : σ) (m : SessionListManager σ) : SessionListManager σ :=
  { m with fRefCount := Function.update m.fRefCount s (m.fRefCount s - 1) }

def construct (s : σ) (m : SessionListManager σ) : SessionListManager σ :=
  { m with fRefCount := Function.update m.fRefCount s 1, fTerminated := Function.update m.fTerminated s false }

def visitSlot (check : Check) (roleNotRelevant : Bool) (i : Nat) (sessions2Delete : List σ) (fSession : Option σ)
    (m : SessionListManager σ) : (List σ × Option σ) × SessionListManager σ :=
  match asIFAObject ((if roleNotRelevant then m.fDisabledSessions else m.fSessions).child i) with
  | none => ((sessions2Delete, fSession), m)
  | some s =>
    let r := Sweep.visit (fun _ _ => check) roleNotRelevant s ⟨sessions2Delete, fSession, m.fRefCount, m.fTerminated⟩
    ((r.2.sessions2Delete, r.2.fSession), {
      fSessions := if r.1 && !roleNotRelevant then m.fSessions.removeIndex i else m.fSessions
      fDisabledSessions := if r.1 && roleNotRelevant then m.fDisabledSessions.removeIndex i else m.fDisabledSessions
      fRefCount := r.2.fRefCount
      fTerminated := r.2.fTerminated })

end SessionListManager

section Push

variable [DecidableEq σ] {m : SessionListManager σ} {counts : Sessions σ}

theorem push_fRefCount_eq (same : counts.fRefCount = m.fRefCount) (c : Context σ) (contextAny : Option Bool) (s : σ) :
    (Context.push (c, counts) (contextAny, some s)).2.fRefCount =
      match c.fSession with
      | some saved => if some s = some saved then m.fRefCount else ((m.ref s).unRef saved).fRefCount
      | none => (m.ref s).fRefCount := by
  have taken : ∀ copy, (Context.take copy (some s) counts).fRefCount = (m.ref s).fRefCount := by
    intro copy
    funext t
    rw [Context.take_fRefCount, same]
    show _ = Function.update m.fRefCount s (m.fRefCount s + 1) t
    rw [Function.update_apply]
    split
    · next here => rw [here]
    · rfl
  rw [Context.push_eq]
  cases c.fSession with
  | none => exact taken _
  | some saved =>
    by_cases own : some s = some saved
    · dsimp only
      rw [if_pos own, if_pos own]
      exact same
    · dsimp only
      rw [if_neg own, if_neg own]
      funext t
      rw [Context.giveBack_fRefCount, taken]
      show _ = Function.update (m.ref s).fRefCount saved ((m.ref s).fRefCount saved - 1) t
      rw [Function.update_apply]
      split
      · next here => rw [here]
      · rfl

theorem destroy_fRefCount_eq (same : counts.fRefCount = m.fRefCount) (s : σ) (fCopySessionStore : Bool) :
    (Context.destroy ⟨some s, fCopySessionStore⟩ counts).fRefCount = (m.unRef s).fRefCount := by
  funext t
  rw [Context.destroy_eq, Context.giveBack_fRefCount, same]
  show _ = Function.update m.fRefCount s (m.fRefCount s - 1) t
  rw [Function.update_apply]
  split
  · next here => rw [here]
  · rfl

end Push

inductive Event (σ : Type) where
  | request
  | lookupSession (place : Nat) (canLock : Nat → Bool) (id : Id)
  | push (place : Nat)
  | unRef (place : Nat)
  | createSession (place : Nat)
  | makeSession (place : Nat) (s : σ)
  | addSession (place : Nat) (id : Id)
  | disableSession (place : Nat) (id : Id)
  | cleanupSessions (place : Nat)
  | visit (place : Nat) (check : Check)
  | swept (place : Nat)
  | deleteSession (place : Nat)
  | finish (place : Nat)

namespace Server

variable [DecidableEq σ]

def initial : Server σ := ⟨.new, [], []⟩

/-- No cleanup holds `fSessionsMutex`. -/
def unlocked (v : Server σ) : Bool := v.requests.all fun r => match r.phase with
  | .sweeping .. => false
  | _ => true

def goto (place : Nat) (fSession : Option σ) (phase : Phase σ) (manager : SessionListManager σ) (v : Server σ) :
    Except Unit (Server σ) :=
  .ok { v with manager := manager, requests := Pool.replace v.requests place (some ⟨fSession, phase⟩) }

def afterPush : Option σ → Phase σ
  | some saved => .releasing saved
  | none => .outside

def step (fMaxSessionsAllowed : Int) : Event σ → Server σ → Except Unit (Server σ)
  | .request, v => .ok { v with requests := v.requests ++ [⟨none, .outside⟩] }
  | .lookupSession place canLock id, v =>
    match v.requests[place]? with
    | some ⟨fSession, .outside⟩ =>
      if v.unlocked then
        match v.manager.intLookupSession canLock id with
        | (some s, m) => v.goto place fSession (.found s) m
        | (none, m) => v.goto place fSession .outside m
      else .error ()
    | _ => .error ()
  | .push place, v =>
    match v.requests[place]? with
    | some ⟨fSession, .found s⟩ =>
      if fSession = some s then v.goto place fSession .outside v.manager
      else v.goto place (some s) (afterPush fSession) (v.manager.ref s)
    | _ => .error ()
  | .unRef place, v =>
    match v.requests[place]? with
    | some ⟨fSession, .releasing saved⟩ => v.goto place fSession .outside (v.manager.unRef saved)
    | some ⟨fSession, .made s (some saved)⟩ => v.goto place fSession (.made s none) (v.manager.unRef saved)
    | _ => .error ()
  | .createSession place, v =>
    match v.requests[place]? with
    | some ⟨fSession, .outside⟩ =>
      if v.unlocked then
        v.goto place fSession (if v.manager.getNumberOfSessions ≥ fMaxSessionsAllowed then .makeRoom else .making) v.manager
      else .error ()
    | _ => .error ()
  | .makeSession place s, v =>
    match v.requests[place]? with
    | some ⟨fSession, .making⟩ =>
      if s ∈ v.live then .error ()
      else { v with live := s :: v.live }.goto place (some s) (.made s fSession) (v.manager.construct s)
    | _ => .error ()
  | .addSession place id, v =>
    match v.requests[place]? with
    | some ⟨fSession, .made s none⟩ =>
      if v.unlocked then v.goto place fSession .outside (v.manager.addSession id s) else .error ()
    | _ => .error ()
  | .disableSession place id, v =>
    match v.requests[place]? with
    | some ⟨fSession, .outside⟩ =>
      if v.unlocked then
        match v.manager.disableSession id with
        | (some s, m) => if fSession = some s then v.goto place none (.releasing s) m else v.goto place fSession .outside m
        | (none, m) => v.goto place fSession .outside m
      else .error ()
    | _ => .error ()
  | .cleanupSessions place, v =>
    match v.requests[place]? with
    | some ⟨fSession, .outside⟩ =>
      if v.unlocked then v.goto place fSession (.sweeping false v.manager.fSessions.getSize [] false) v.manager else .error ()
    | some ⟨fSession, .makeRoom⟩ =>
      if v.unlocked then v.goto place fSession (.sweeping false v.manager.fSessions.getSize [] true) v.manager else .error ()
    | _ => .error ()
  | .visit place check, v =>
    match v.requests[place]? with
    | some ⟨fSession, .sweeping roleNotRelevant (left + 1) sessions2Delete creates⟩ =>
      match v.manager.visitSlot check roleNotRelevant left sessions2Delete fSession with
      | ((sessions2Delete, fSession), m) => v.goto place fSession (.sweeping roleNotRelevant left sessions2Delete creates) m
    | _ => .error ()
  | .swept place, v =>
    match v.requests[place]? with
    | some ⟨fSession, .sweeping false 0 sessions2Delete creates⟩ =>
      v.goto place fSession (.sweeping true v.manager.fDisabledSessions.getSize sessions2Delete creates) v.manager
    | some ⟨fSession, .sweeping true 0 sessions2Delete creates⟩ =>
      v.goto place fSession (.deleting sessions2Delete (creates && v.manager.getNumberOfSessions < fMaxSessionsAllowed)) v.manager
    | _ => .error ()
  | .deleteSession place, v =>
    match v.requests[place]? with
    | some ⟨fSession, .deleting (s :: sessions2Delete) creates⟩ =>
      { v with live := v.live.erase s }.goto place fSession (.deleting sessions2Delete creates) v.manager
    | some ⟨fSession, .deleting [] creates⟩ => v.goto place fSession (if creates then .making else .outside) v.manager
    | _ => .error ()
  | .finish place, v =>
    match v.requests[place]? with
    | some ⟨some s, .outside⟩ => .ok { v with manager := v.manager.unRef s, requests := Pool.replace v.requests place none }
    | some ⟨none, .outside⟩ => .ok { v with requests := Pool.replace v.requests place none }
    | _ => .error ()

end Server

/-! ### What a step does -/

namespace Server

variable [DecidableEq σ]

/-- What `request` does at its place. -/
def moved (v : Server σ) (place : Nat) (fSession : Option σ) (phase : Phase σ) (manager : SessionListManager σ) (live : List σ) :
    Server σ :=
  ⟨manager, live, Pool.replace v.requests place (some ⟨fSession, phase⟩)⟩

inductive Takes (fMaxSessionsAllowed : Int) (v : Server σ) : Event σ → Server σ → Prop where
  | request : Takes fMaxSessionsAllowed v .request ⟨v.manager, v.live, v.requests ++ [⟨none, .outside⟩]⟩
  | found {place : Nat} {canLock : Nat → Bool} {id : Id} {fSession : Option σ} {s : σ}
    (here : v.requests[place]? = some ⟨fSession, .outside⟩) (looked : (v.manager.intLookupSession canLock id).1 = some s) :
    Takes fMaxSessionsAllowed v (.lookupSession place canLock id)
      (v.moved place fSession (.found s) (v.manager.intLookupSession canLock id).2 v.live)
  | notFound {place : Nat} {canLock : Nat → Bool} {id : Id} {fSession : Option σ}
    (here : v.requests[place]? = some ⟨fSession, .outside⟩) :
    Takes fMaxSessionsAllowed v (.lookupSession place canLock id)
      (v.moved place fSession .outside (v.manager.intLookupSession canLock id).2 v.live)
  | pushSame {place : Nat} {s : σ} (here : v.requests[place]? = some ⟨some s, .found s⟩) :
    Takes fMaxSessionsAllowed v (.push place) (v.moved place (some s) .outside v.manager v.live)
  | push {place : Nat} {fSession : Option σ} {s : σ} (here : v.requests[place]? = some ⟨fSession, .found s⟩) :
    Takes fMaxSessionsAllowed v (.push place) (v.moved place (some s) (afterPush fSession) (v.manager.ref s) v.live)
  | unRef {place : Nat} {fSession : Option σ} {saved : σ} (here : v.requests[place]? = some ⟨fSession, .releasing saved⟩) :
    Takes fMaxSessionsAllowed v (.unRef place) (v.moved place fSession .outside (v.manager.unRef saved) v.live)
  | unRefMade {place : Nat} {fSession : Option σ} {s saved : σ}
    (here : v.requests[place]? = some ⟨fSession, .made s (some saved)⟩) :
    Takes fMaxSessionsAllowed v (.unRef place) (v.moved place fSession (.made s none) (v.manager.unRef saved) v.live)
  | createFull {place : Nat} {fSession : Option σ} (here : v.requests[place]? = some ⟨fSession, .outside⟩) :
    Takes fMaxSessionsAllowed v (.createSession place) (v.moved place fSession .makeRoom v.manager v.live)
  | create {place : Nat} {fSession : Option σ} (here : v.requests[place]? = some ⟨fSession, .outside⟩)
    (room : v.manager.getNumberOfSessions < fMaxSessionsAllowed) :
    Takes fMaxSessionsAllowed v (.createSession place) (v.moved place fSession .making v.manager v.live)
  | make {place : Nat} {fSession : Option σ} {s : σ} (here : v.requests[place]? = some ⟨fSession, .making⟩) (fresh : s ∉ v.live) :
    Takes fMaxSessionsAllowed v (.makeSession place s)
      (v.moved place (some s) (.made s fSession) (v.manager.construct s) (s :: v.live))
  | add {place : Nat} {id : Id} {fSession : Option σ} {s : σ} (here : v.requests[place]? = some ⟨fSession, .made s none⟩) :
    Takes fMaxSessionsAllowed v (.addSession place id) (v.moved place fSession .outside (v.manager.addSession id s) v.live)
  | disableOwn {place : Nat} {id : Id} {s : σ} (here : v.requests[place]? = some ⟨some s, .outside⟩)
    (disabled : (v.manager.disableSession id).1 = some s) :
    Takes fMaxSessionsAllowed v (.disableSession place id)
      (v.moved place none (.releasing s) (v.manager.disableSession id).2 v.live)
  | disable {place : Nat} {id : Id} {fSession : Option σ} (here : v.requests[place]? = some ⟨fSession, .outside⟩) :
    Takes fMaxSessionsAllowed v (.disableSession place id)
      (v.moved place fSession .outside (v.manager.disableSession id).2 v.live)
  | cleanup {place : Nat} {fSession : Option σ} {creates : Bool}
    (here : v.requests[place]? = some ⟨fSession, if creates then .makeRoom else .outside⟩) :
    Takes fMaxSessionsAllowed v (.cleanupSessions place)
      (v.moved place fSession (.sweeping false v.manager.fSessions.getSize [] creates) v.manager v.live)
  | visit {place left : Nat} {check : Check} {fSession : Option σ} {roleNotRelevant creates : Bool} {sessions2Delete : List σ}
    (here : v.requests[place]? = some ⟨fSession, .sweeping roleNotRelevant (left + 1) sessions2Delete creates⟩) :
    Takes fMaxSessionsAllowed v (.visit place check)
      (v.moved place (v.manager.visitSlot check roleNotRelevant left sessions2Delete fSession).1.2
        (.sweeping roleNotRelevant left (v.manager.visitSlot check roleNotRelevant left sessions2Delete fSession).1.1 creates)
        (v.manager.visitSlot check roleNotRelevant left sessions2Delete fSession).2 v.live)
  | sweptActive {place : Nat} {fSession : Option σ} {creates : Bool} {sessions2Delete : List σ}
    (here : v.requests[place]? = some ⟨fSession, .sweeping false 0 sessions2Delete creates⟩) :
    Takes fMaxSessionsAllowed v (.swept place)
      (v.moved place fSession (.sweeping true v.manager.fDisabledSessions.getSize sessions2Delete creates) v.manager v.live)
  | sweptDisabled {place : Nat} {fSession : Option σ} {creates : Bool} {sessions2Delete : List σ}
    (here : v.requests[place]? = some ⟨fSession, .sweeping true 0 sessions2Delete creates⟩) :
    Takes fMaxSessionsAllowed v (.swept place)
      (v.moved place fSession
        (.deleting sessions2Delete (creates && decide (v.manager.getNumberOfSessions < fMaxSessionsAllowed))) v.manager v.live)
  | delete {place : Nat} {fSession : Option σ} {s : σ} {creates : Bool} {sessions2Delete : List σ}
    (here : v.requests[place]? = some ⟨fSession, .deleting (s :: sessions2Delete) creates⟩) :
    Takes fMaxSessionsAllowed v (.deleteSession place)
      (v.moved place fSession (.deleting sessions2Delete creates) v.manager (v.live.erase s))
  | deleted {place : Nat} {fSession : Option σ} {creates : Bool} (here : v.requests[place]? = some ⟨fSession, .deleting [] creates⟩) :
    Takes fMaxSessionsAllowed v (.deleteSession place)
      (v.moved place fSession (if creates then .making else .outside) v.manager v.live)
  | finish {place : Nat} {s : σ} (here : v.requests[place]? = some ⟨some s, .outside⟩) :
    Takes fMaxSessionsAllowed v (.finish place) ⟨v.manager.unRef s, v.live, Pool.replace v.requests place none⟩
  | finishNone {place : Nat} (here : v.requests[place]? = some ⟨none, .outside⟩) :
    Takes fMaxSessionsAllowed v (.finish place) ⟨v.manager, v.live, Pool.replace v.requests place none⟩

theorem takes_of_step {fMaxSessionsAllowed : Int} {v v' : Server σ} {e : Event σ} (done : step fMaxSessionsAllowed e v = .ok v') :
    Takes fMaxSessionsAllowed v e v' := by
  cases e with
  | request =>
    cases done
    exact .request
  | lookupSession place canLock id =>
    rw [step] at done
    split at done
    · next fSession here =>
      split at done
      · split at done
        · next s m looked =>
          cases done
          have takes : Takes fMaxSessionsAllowed v (.lookupSession place canLock id) _ := .found here (congrArg Prod.fst looked)
          rw [looked] at takes
          exact takes
        · next m looked =>
          cases done
          have takes : Takes fMaxSessionsAllowed v (.lookupSession place canLock id) _ := .notFound here
          rw [looked] at takes
          exact takes
      · cases done
    · cases done
  | push place =>
    rw [step] at done
    split at done
    · next fSession s here =>
      split at done
      · next same =>
        cases done
        subst same
        exact .pushSame here
      · cases done
        exact .push here
    · cases done
  | unRef place =>
    rw [step] at done
    split at done
    · next here =>
      cases done
      exact .unRef here
    · next here =>
      cases done
      exact .unRefMade here
    · cases done
  | createSession place =>
    rw [step] at done
    split at done
    · next here =>
      split at done
      · split at done
        · cases done
          exact .createFull here
        · next room =>
          cases done
          exact .create here (Int.not_le.mp room)
      · cases done
    · cases done
  | makeSession place s =>
    rw [step] at done
    split at done
    · next here =>
      split at done
      · cases done
      · next fresh =>
        cases done
        exact .make here fresh
    · cases done
  | addSession place id =>
    rw [step] at done
    split at done
    · next here =>
      split at done
      · cases done
        exact .add here
      · cases done
    · cases done
  | disableSession place id =>
    rw [step] at done
    split at done
    · next fSession here =>
      split at done
      · split at done
        · next s m disabled =>
          split at done
          · next own =>
            cases done
            subst own
            have takes : Takes fMaxSessionsAllowed v (.disableSession place id) _ := .disableOwn here (congrArg Prod.fst disabled)
            rw [disabled] at takes
            exact takes
          · cases done
            have takes : Takes fMaxSessionsAllowed v (.disableSession place id) _ := .disable here
            rw [disabled] at takes
            exact takes
        · next m disabled =>
          cases done
          have takes : Takes fMaxSessionsAllowed v (.disableSession place id) _ := .disable here
          rw [disabled] at takes
          exact takes
      · cases done
    · cases done
  | cleanupSessions place =>
    rw [step] at done
    split at done
    · next here =>
      split at done
      · cases done
        exact @Takes.cleanup _ _ _ _ _ _ false here
      · cases done
    · next here =>
      split at done
      · cases done
        exact @Takes.cleanup _ _ _ _ _ _ true here
      · cases done
    · cases done
  | visit place check =>
    rw [step] at done
    split at done
    · next here =>
      cases done
      exact .visit here
    · cases done
  | swept place =>
    rw [step] at done
    split at done
    · next here =>
      cases done
      exact .sweptActive here
    · next here =>
      cases done
      exact .sweptDisabled here
    · cases done
  | deleteSession place =>
    rw [step] at done
    split at done
    · next here =>
      cases done
      exact .delete here
    · next here =>
      cases done
      exact .deleted here
    · cases done
  | finish place =>
    rw [step] at done
    split at done
    · next here =>
      cases done
      exact .finish here
    · next here =>
      cases done
      exact .finishNone here
    · cases done

end Server

/-! ### What the calls do to the lists -/

section Lists

def sessionsOf : Any σ Unit → List σ
  | .array _ slots => slots.filterMap fun slot => asIFAObject slot.2
  | _ => []

namespace Directory

variable {id : Id} {s : σ}

def sessions (d : Directory σ) : List σ := d.slots.map Prod.snd

theorem sessions_put (id : Id) (s : σ) (slots : List (Id × σ)) :
    (((put id s slots).map Prod.snd : List σ) : Multiset σ) + ((slots.find? fun slot => slot.1 = id).map Prod.snd).toList =
      s ::ₘ (slots.map Prod.snd : List σ) := by
  induction slots with
  | nil => rfl
  | cons slot slots ih =>
    rw [put]
    by_cases here : slot.1 = id
    · rw [if_pos here, List.find?_cons_of_pos (by simpa using here)]
      simp only [List.map_cons, Option.map_some, Option.toList_some, ← Multiset.cons_coe]
      rw [Multiset.cons_add, Multiset.coe_nil, Multiset.add_cons, add_zero]
    · rw [if_neg here, List.find?_cons_of_neg (by simpa using here)]
      simp only [List.map_cons, ← Multiset.cons_coe]
      rw [Multiset.cons_add, ih, Multiset.cons_swap]

theorem sessions_eraseP (p : Id × σ → Bool) (slots : List (Id × σ)) :
    (((slots.eraseP p).map Prod.snd : List σ) : Multiset σ) + ((slots.find? p).map Prod.snd).toList = (slots.map Prod.snd : List σ) := by
  induction slots with
  | nil => rfl
  | cons slot slots ih =>
    cases here : p slot with
    | true =>
      rw [List.eraseP_cons_of_pos here, List.find?_cons_of_pos here]
      simp only [List.map_cons, Option.map_some, Option.toList_some, ← Multiset.cons_coe]
      rw [Multiset.coe_nil, Multiset.add_cons, add_zero]
    | false =>
      have other : ¬ p slot = true := by simp [here]
      rw [List.eraseP_cons_of_neg other, List.find?_cons_of_neg other]
      simp only [List.map_cons, ← Multiset.cons_coe]
      rw [Multiset.cons_add, ih]

theorem sessions_set (d : Directory σ) (id : Id) (s : σ) :
    ((d.set id s).sessions : Multiset σ) + (d.find id).toList = s ::ₘ (d.sessions : Multiset σ) := sessions_put id s d.slots

theorem sessions_erase (d : Directory σ) (id : Id) :
    ((d.erase id).sessions : Multiset σ) + (d.find id).toList = (d.sessions : Multiset σ) := sessions_eraseP _ d.slots

theorem length_put (id : Id) (s : σ) (slots : List (Id × σ)) : (put id s slots).length ≤ slots.length + 1 := by
  induction slots with
  | nil => exact Nat.le_refl 1
  | cons slot slots ih =>
    rw [put]
    split
    · exact Nat.le_succ _
    · exact Nat.succ_le_succ ih

end Directory

namespace SessionListManager

variable {m : SessionListManager σ} {d : Directory σ} {disabled : List σ} {s : σ}

theorem sessionsOf_map {β : Type} {slot : β → Option Bytes × Any σ Unit} {session : β → σ}
    (simple : ∀ b, (slot b).2 = .simple (session b)) (slots : List β) :
    sessionsOf (.array () (slots.map slot)) = slots.map session := by
  rw [sessionsOf, List.filterMap_map]
  have same : ((fun slot : Option Bytes × Any σ Unit => asIFAObject slot.2) ∘ slot) = some ∘ session := by
    funext b
    show asIFAObject (slot b).2 = some (session b)
    rw [simple]
    rfl
  rw [same, List.filterMap_eq_map]

theorem sessionsOf_fSessions (holds : Holds m d disabled) : sessionsOf m.fSessions = d.sessions := by
  rw [holds.sessions]
  exact sessionsOf_map (fun _ => rfl) d.slots

theorem sessionsOf_fDisabledSessions (holds : Holds m d disabled) : sessionsOf m.fDisabledSessions = disabled := by
  rcases holds.disabledSessions with array | ⟨null, rfl⟩
  · rw [array]
    exact (sessionsOf_map (fun _ => rfl) disabled).trans (List.map_id disabled)
  · rw [null]
    rfl

theorem getNumberOfSessions_eq (holds : Holds m d disabled) : m.getNumberOfSessions = d.slots.length := by
  rw [getNumberOfSessions, holds.sessions, Any.getSize, List.length_map]

theorem asIFAObject_child {β : Type} {slot : β → Option Bytes × Any σ Unit} {session : β → σ}
    (simple : ∀ b, (slot b).2 = .simple (session b)) (slots : List β) (i : Nat) :
    asIFAObject ((Any.array () (slots.map slot)).child i) = slots[i]?.map session := by
  rw [Any.child, List.getElem?_map]
  cases slots[i]? with
  | none => rfl
  | some b =>
    show asIFAObject (slot b).2 = some (session b)
    rw [simple]
    rfl

theorem disableSession_cases (holds : Holds m d disabled) (id : Id) : m.disableSession id = (none, m) ∨
    ∃ s, m.lookupPath id.text = some (.simple s) ∧ (m.disableSession id).1 = some s ∧
      (m.disableSession id).2.fRefCount = m.fRefCount ∧
      Holds (m.disableSession id).2 (d.erase id) (disabled ++ [s]) := by
  rw [disableSession]
  cases found : m.lookupPath id.text with
  | none => exact .inl rfl
  | some session =>
    cases session with
    | null => exact .inl rfl
    | array mark slots => exact .inl rfl
    | simple s => exact .inr ⟨s, rfl, rfl, rfl, removeName_eq holds id, .inl (append_eq holds s)⟩

theorem removeIndex_map {β : Type} {slot : β → Option Bytes × Any σ Unit} (slots : List β) (i : Nat) :
    (Any.array () (slots.map slot)).removeIndex i = .array () ((slots.eraseIdx i).map slot) := by
  rw [Any.removeIndex, List.eraseIdx_map]

theorem coe_eraseIdx {l : List σ} {i : Nat} (here : l[i]? = some s) : (l.eraseIdx i : Multiset σ) + ([s] : List σ) = (l : Multiset σ) := by
  obtain ⟨inside, rfl⟩ := List.getElem?_eq_some_iff.mp here
  rw [add_comm]
  exact Multiset.coe_eq_coe.mpr (List.getElem_cons_eraseIdx_perm inside)

variable [DecidableEq σ]

def sessionAt (roleNotRelevant : Bool) (i : Nat) (m : SessionListManager σ) : Option σ :=
  asIFAObject ((if roleNotRelevant then m.fDisabledSessions else m.fSessions).child i)

/-- The loop of `DoCleanup` goes on after a pass as it does on the lists that the pass leaves. -/
theorem doCleanup_succ {checks : Bool → σ → Check} {check : Check} {roleNotRelevant : Bool} {i : Nat}
    (same : ∀ s, m.sessionAt roleNotRelevant i = some s → checks roleNotRelevant s = check) (sessions2Delete : List σ) (fSession : Option σ) :
    Sweep.doCleanup checks roleNotRelevant (i + 1) (if roleNotRelevant then m.fDisabledSessions else m.fSessions,
        ⟨sessions2Delete, fSession, m.fRefCount, m.fTerminated⟩) =
      match m.visitSlot check roleNotRelevant i sessions2Delete fSession with
      | ((sessions2Delete, fSession), m) => Sweep.doCleanup checks roleNotRelevant i
        (if roleNotRelevant then m.fDisabledSessions else m.fSessions, ⟨sessions2Delete, fSession, m.fRefCount, m.fTerminated⟩) := by
  rw [Sweep.doCleanup, visitSlot]
  rw [sessionAt] at same
  cases here : asIFAObject ((if roleNotRelevant then m.fDisabledSessions else m.fSessions).child i) with
  | none => rfl
  | some s =>
    have visited : Sweep.visit checks roleNotRelevant s = Sweep.visit (fun _ _ => check) roleNotRelevant s := by
      funext w
      rw [Sweep.visit, Sweep.visit, same s here]
    dsimp only
    rw [visited]
    generalize Sweep.visit (fun _ _ => check) roleNotRelevant s ⟨sessions2Delete, fSession, m.fRefCount, m.fTerminated⟩ = r
    obtain ⟨deleted, w⟩ := r
    cases deleted <;> cases roleNotRelevant <;> rfl

theorem visitSlot_none {roleNotRelevant : Bool} {i : Nat} (none : m.sessionAt roleNotRelevant i = none) {check : Check}
    {sessions2Delete : List σ} {fSession : Option σ} :
    m.visitSlot check roleNotRelevant i sessions2Delete fSession = ((sessions2Delete, fSession), m) := by
  rw [sessionAt] at none
  rw [visitSlot, none]

theorem visitSlot_lists (holds : Holds m d disabled) {roleNotRelevant : Bool} {i : Nat} (here : m.sessionAt roleNotRelevant i = some s)
    (check : Check) (sessions2Delete : List σ) (fSession : Option σ) : ∃ d' disabled',
      Holds (m.visitSlot check roleNotRelevant i sessions2Delete fSession).2 d' disabled' ∧ d'.slots.length ≤ d.slots.length ∧
        (d'.sessions : Multiset σ) + disabled' +
          (if Sweep.deletable check roleNotRelevant (m.fRefCount s) = true then [s] else [] : List σ) = (d.sessions : Multiset σ) + disabled := by
  obtain ⟨answer, -⟩ := Sweep.visit_eq (fun _ _ => check) roleNotRelevant s ⟨sessions2Delete, fSession, m.fRefCount, m.fTerminated⟩
  rw [sessionAt] at here
  rw [visitSlot, here]
  dsimp only at answer ⊢
  rw [answer]
  cases Sweep.deletable check roleNotRelevant (m.fRefCount s) with
  | false => exact ⟨d, disabled, ⟨holds.sessions, holds.disabledSessions⟩, Nat.le_refl _, add_zero _⟩
  | true =>
    cases roleNotRelevant with
    | false =>
      have slot : d.slots[i]?.map Prod.snd = some s := by
        rw [← here, if_neg Bool.false_ne_true, holds.sessions]
        exact (asIFAObject_child (fun _ => rfl) d.slots i).symm
      have removed : m.fSessions.removeIndex i = .array () ((d.slots.eraseIdx i).map slotOf) := by
        rw [holds.sessions]
        exact removeIndex_map d.slots i
      refine ⟨d.restrict (d.slots.eraseIdx i) (List.eraseIdx_sublist d.slots i), disabled, ⟨removed, holds.disabledSessions⟩,
        (List.eraseIdx_sublist d.slots i).length_le, ?_⟩
      have moved := coe_eraseIdx (List.getElem?_map.trans slot)
      rw [List.eraseIdx_map] at moved
      rw [add_right_comm]
      exact congrArg (· + (disabled : Multiset σ)) moved
    | true =>
      rw [if_pos rfl] at here
      rcases holds.disabledSessions with array | ⟨null, -⟩
      · have slot : disabled[i]? = some s := by
          rw [← here, array]
          exact ((asIFAObject_child (fun _ => rfl) disabled i).trans Option.map_id').symm
        have removed : m.fDisabledSessions.removeIndex i = .array () ((disabled.eraseIdx i).map slotOfDisabled) := by
          rw [array]
          exact removeIndex_map disabled i
        refine ⟨d, disabled.eraseIdx i, ⟨holds.sessions, .inl removed⟩, Nat.le_refl _, ?_⟩
        rw [add_assoc]
        exact congrArg ((d.sessions : Multiset σ) + ·) (coe_eraseIdx slot)
      · rw [null] at here
        cases here

theorem visitSlot_eq {roleNotRelevant : Bool} {i : Nat} (here : m.sessionAt roleNotRelevant i = some s) (check : Check)
    (sessions2Delete : List σ) (fSession : Option σ) :
    (m.visitSlot check roleNotRelevant i sessions2Delete fSession).1 =
        (sessions2Delete ++ (if Sweep.deletable check roleNotRelevant (m.fRefCount s) = true then [s] else []),
          if fSession = some s then none else fSession) ∧
      (m.visitSlot check roleNotRelevant i sessions2Delete fSession).2.fRefCount =
        if fSession = some s then Function.update m.fRefCount s (m.fRefCount s - 1) else m.fRefCount := by
  obtain ⟨answer, collected, own, counts⟩ :=
    Sweep.visit_eq (fun _ _ => check) roleNotRelevant s ⟨sessions2Delete, fSession, m.fRefCount, m.fTerminated⟩
  rw [sessionAt] at here
  rw [visitSlot, here]
  dsimp only at answer collected own counts ⊢
  rw [collected, own, counts, answer]
  exact ⟨rfl, rfl⟩

end SessionListManager

end Lists

end Coast.Session
