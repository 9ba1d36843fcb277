import Coast.Session.SessionListManager

/-!
# The sessions of an id

Calls of the list manager, one after the other, next to a directory that says which session has which id.
`LookupPath` reads an id with a dot or a colon as a path, to which other sessions may be the answer.
-/

namespace Coast.Session

variable {σ : Type} [DecidableEq σ]

inductive Call (σ : Type) where
  | addSession (id : Id) (session : σ)
  | disableSession (id : Id)
  | intLookupSession (canLock : Nat → Bool) (id : Id)
  | cleanupSessions (checks : Bool → σ → Check) (fSession : Option σ)
  | refer (fRefCount : σ → Int)

namespace Call

def perform (m : SessionListManager σ) : Call σ → SessionListManager σ
  | addSession id session => m.addSession id session
  | disableSession id => (m.disableSession id).2
  | intLookupSession canLock id => (m.intLookupSession canLock id).2
  | cleanupSessions checks fSession => (m.cleanupSessions checks fSession).2
  | refer fRefCount => { m with fRefCount := fRefCount }

def register (m : SessionListManager σ) (r : Directory σ × List σ) : Call σ → Directory σ × List σ
  | addSession id session => (r.1.set id session, r.2 ++ (r.1.find id).toList)
  | disableSession id => (r.1.erase id, r.2 ++ (r.1.find id).toList)
  | intLookupSession _ _ => r
  | cleanupSessions checks fSession => (r.1.cleanup checks r.2 (m.start fSession)).1
  | refer _ => r

/-- A call that gives no path to `DisableSession`. -/
def IsPlain : Call σ → Prop
  | disableSession id => SessionListManager.Plain id
  | _ => True

def step (r : SessionListManager σ × Directory σ × List σ) (c : Call σ) : SessionListManager σ × Directory σ × List σ :=
  (c.perform r.1, c.register r.1 r.2)

end Call

open SessionListManager

def after (calls : List (Call σ)) : SessionListManager σ × Directory σ × List σ := calls.foldl Call.step (.new, .empty, [])

section Calls

variable {m : SessionListManager σ} {d : Directory σ} {disabled : List σ}

theorem intLookupSession_eq (holds : Holds m d disabled) {id : Id} (plain : Plain id) (canLock : Nat → Bool) :
    (m.intLookupSession canLock id).1 = (d.find id).filter fun s => !(canLock 0 && (canLock 1 && m.fTerminated s)) := by
  rw [intLookupSession, lookupPath_plain holds plain]
  cases d.find id with
  | none => rfl
  | some s =>
    show (if (canLock 0 && (canLock 1 && m.fTerminated s)) = true then (none, m)
      else (some s, m.resetTimeAndFlags (canLock 2) s)).1 = _
    rw [Option.filter_some]
    cases canLock 0 && (canLock 1 && m.fTerminated s) <;> rfl

theorem step_holds (holds : Holds m d disabled) {c : Call σ} (plain : c.IsPlain) :
    Holds (c.step (m, d, disabled)).1 (c.step (m, d, disabled)).2.1 (c.step (m, d, disabled)).2.2 := by
  cases c with
  | addSession id session => exact addSession_holds holds id session
  | disableSession id => exact (disableSession_holds holds (lookupPath_plain holds plain)).2
  | intLookupSession canLock id => exact (intLookupSession_holds holds canLock id).1
  | cleanupSessions checks fSession => exact (cleanupSessions_holds holds checks fSession).2.2
  | refer fRefCount => exact ⟨holds.sessions, holds.disabledSessions⟩

theorem after_holds {calls : List (Call σ)} (plain : ∀ c ∈ calls, c.IsPlain) :
    Holds (after calls).1 (after calls).2.1 (after calls).2.2 := by
  induction calls using List.reverseRecOn with
  | nil => exact new_holds
  | append_singleton calls c ih =>
    rw [after, List.foldl_append]
    exact step_holds (ih fun c mem => plain c (List.mem_append_left _ mem)) (plain c (by simp))

theorem register_find {r : Directory σ × List σ} {c : Call σ} {id : Id} {s : σ} (found : (c.register m r).1.find id = some s) :
    c = .addSession id s ∨ r.1.find id = some s := by
  cases c with
  | addSession k session =>
    have put : (r.1.set k session).find id = some s := found
    rw [Directory.find_set] at put
    split at put
    · next same =>
      obtain rfl := Option.some.inj put
      exact .inl (same ▸ rfl)
    · exact .inr put
  | disableSession k =>
    have erased : (r.1.erase k).find id = some s := found
    rw [Directory.find_erase] at erased
    split at erased
    · cases erased
    · exact .inr erased
  | cleanupSessions checks fSession =>
    have kept := Directory.find_iff.mp found
    exact .inr (Directory.find_iff.mpr ((Sweep.sweep_sublist r.1.slots (m.start fSession)).subset kept))
  | intLookupSession | refer => exact .inr found

theorem added_of_find {calls : List (Call σ)} {id : Id} {s : σ} (found : (after calls).2.1.find id = some s) :
    .addSession id s ∈ calls := by
  induction calls using List.reverseRecOn with
  | nil => cases found
  | append_singleton calls c ih =>
    rw [after, List.foldl_append] at found
    rcases register_find found with rfl | before
    · simp
    · exact List.mem_append_left _ (ih before)

end Calls

/-- Sessions are found and disabled under the ids that they were added under, as long as no id that is looked up
or disabled has a dot or a colon. -/
theorem sessions_by_id {calls : List (Call σ)} (plain : ∀ c ∈ calls, c.IsPlain) {id : Id} (plainId : Plain id) :
    (∀ s, (after calls).2.1.find id = some s → .addSession id s ∈ calls) ∧
    (∀ canLock, ((after calls).1.intLookupSession canLock id).1 =
      ((after calls).2.1.find id).filter fun s => !(canLock 0 && (canLock 1 && (after calls).1.fTerminated s))) ∧
    ((after calls).1.disableSession id).1 = (after calls).2.1.find id ∧
    ∀ k : Id, ((after calls).1.disableSession id).2.fSessions.named k.text =
      if k = id then .null else (after calls).1.fSessions.named k.text := by
  have holds := after_holds plain
  obtain ⟨removed, rest⟩ := disableSession_holds holds (lookupPath_plain holds plainId)
  refine ⟨fun s => added_of_find, fun canLock => intLookupSession_eq holds plainId canLock, removed, fun k => ?_⟩
  rw [named_eq rest, named_eq holds, Directory.find_erase]
  split <;> rfl

theorem sessions_by_id_one : ((after [.addSession ⟨ascii "a", by decide, by decide⟩ 7]).1.intLookupSession (fun _ => true)
    ⟨ascii "a", by decide, by decide⟩).1 = some 7 :=
  ((@sessions_by_id Nat _ [.addSession ⟨ascii "a", by decide, by decide⟩ 7] (by simp [Call.IsPlain])
    ⟨ascii "a", by decide, by decide⟩ (by decide)).2.1 fun _ => true).trans (by decide)

/-- The first session is handed out for the id `:0`. -/
theorem sessions_by_path : ¬ ∀ (calls : List (Call Nat)) (id : Id) (canLock : Nat → Bool),
    ((after calls).1.intLookupSession canLock id).1 =
      ((after calls).2.1.find id).filter fun s => !(canLock 0 && (canLock 1 && (after calls).1.fTerminated s)) := by
  intro all
  have other := all [.addSession ⟨ascii "a", by decide, by decide⟩ 7] ⟨ascii ":0", by decide, by decide⟩ fun _ => true
  revert other
  decide

end Coast.Session
