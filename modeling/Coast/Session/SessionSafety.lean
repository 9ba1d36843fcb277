import Coast.Session.Requests
import Mathlib.Data.Multiset.Count

/-!
# No session is deleted while it is used

Each session object has one place: in a list, with a cleanup that is about to delete it, or with the request
that has made it and not yet added it. What a cleanup deletes is not referenced by a context; a context that
has found a session and not yet referenced it is not seen by the cleanup.
-/

namespace Coast.Session

variable {σ : Type}

namespace Request

def toDelete (r : Request σ) : Multiset σ :=
  match r.phase with
  | .sweeping _ _ sessions2Delete _ | .deleting sessions2Delete _ => sessions2Delete
  | _ => 0

def notAdded (r : Request σ) : Multiset σ :=
  match r.phase with
  | .made s _ => {s}
  | _ => 0

def references (r : Request σ) : Multiset σ :=
  (r.fSession.toList : Multiset σ) + match r.phase with
    | .releasing saved | .made _ (some saved) => {saved}
    | _ => 0

def given (r : Request σ) : Option σ :=
  match r.phase with
  | .found s => some s
  | _ => none

def uses (r : Request σ) : Multiset σ := r.references + (r.given.toList : Multiset σ)

def owns (r : Request σ) : Multiset σ := r.toDelete + r.notAdded

end Request

namespace Server

open Pool SessionListManager

/-- Every session object has exactly one place, and none that is used by a context is to be deleted. -/
structure Safe (v : Server σ) : Prop where
  places : (sessionsOf v.manager.fSessions : Multiset σ) + sessionsOf v.manager.fDisabledSessions +
    total Request.toDelete v.requests + total Request.notAdded v.requests = v.live
  once : v.live.Nodup
  used : ∀ r ∈ v.requests, ∀ s ∈ r.uses, s ∈ v.live ∧ ∀ q ∈ v.requests, s ∉ q.toDelete

variable [DecidableEq σ]

def collects (v : Server σ) (place : Nat) (check : Check) : Option σ :=
  match v.requests[place]? with
  | some ⟨_, .sweeping roleNotRelevant (left + 1) _ _⟩ =>
    (v.manager.sessionAt roleNotRelevant left).filter fun s => Sweep.deletable check roleNotRelevant (v.manager.fRefCount s)
  | _ => none

/-- No cleanup takes a session that a context has found and not yet referenced, and `DisableSession` finds what
is registered under the id. -/
def Careful : Event σ → Server σ → Prop
  | .visit place check, v => ∀ s ∈ v.collects place check, ∀ q ∈ v.requests, q.given ≠ some s
  | .disableSession _ id, v => ∀ s ∈ (v.manager.lookupPath id.text).bind asIFAObject,
      asIFAObject (v.manager.fSessions.named id.text) = some s
  | _, _ => True

instance : (e : Event σ) → (v : Server σ) → Decidable (Careful e v)
  | .visit place check, v => inferInstanceAs (Decidable (∀ s ∈ v.collects place check, ∀ q ∈ v.requests, q.given ≠ some s))
  | .disableSession _ id, v => inferInstanceAs (Decidable (∀ s ∈ (v.manager.lookupPath id.text).bind asIFAObject,
      asIFAObject (v.manager.fSessions.named id.text) = some s))
  | .request, _ | .lookupSession .., _ | .push _, _ | .unRef _, _ | .createSession _, _ | .makeSession .., _
  | .addSession .., _ | .cleanupSessions _, _ | .swept _, _ | .deleteSession _, _ | .finish _, _ => isTrue trivial

structure Sound (v : Server σ) (d : Directory σ) (disabled : List σ) : Prop where
  holds : Holds v.manager d disabled
  conserved : (d.sessions : Multiset σ) + disabled + total Request.owns v.requests = v.live
  nodup : v.live.Nodup
  referenced : ∀ s, v.manager.fRefCount s = (total Request.references v.requests).count s
  alive : ∀ s ∈ total Request.uses v.requests, s ∈ v.live
  released : ∀ s ∈ total Request.toDelete v.requests, s ∉ total Request.uses v.requests

section Steps

variable {v : Server σ} {d d' : Directory σ} {disabled disabled' : List σ} {place : Nat} {r : Request σ} {next : Option (Request σ)}
  {m : SessionListManager σ} {live : List σ}

theorem sound_replace (sound : Sound v d disabled) (here : v.requests[place]? = some r) (holds : Holds m d' disabled')
    (balanced : (d'.sessions : Multiset σ) + disabled' + (next.map Request.owns).getD 0 + v.live =
      (d.sessions : Multiset σ) + disabled + r.owns + live)
    (nodup : live.Nodup)
    (counted : ∀ s, m.fRefCount s + r.references.count s = v.manager.fRefCount s + ((next.map Request.references).getD 0).count s)
    (kept : ∀ s ∈ total Request.uses v.requests, s ∈ live)
    (used : ∀ q, next = some q → ∀ s ∈ q.uses, s ∈ r.uses ∨ s ∈ live ∧ s ∉ total Request.toDelete v.requests ∧ s ∉ q.toDelete)
    (deleted : ∀ q, next = some q → ∀ s ∈ q.toDelete, s ∈ r.toDelete ∨ s ∉ total Request.uses v.requests) :
    Sound ⟨m, live, replace v.requests place next⟩ d' disabled' where
  holds := holds
  conserved := by
    have exchanged := total_replace Request.owns here next
    refine add_right_cancel (?_ : _ + (r.owns + (v.live : Multiset σ)) = _ + (r.owns + (v.live : Multiset σ)))
    calc (d'.sessions : Multiset σ) + disabled' + total Request.owns (replace v.requests place next) + (r.owns + v.live)
        = (d'.sessions : Multiset σ) + disabled' + v.live + (total Request.owns (replace v.requests place next) + r.owns) := by ac_rfl
      _ = (d'.sessions : Multiset σ) + disabled' + (next.map Request.owns).getD 0 + v.live + total Request.owns v.requests := by
        rw [exchanged]
        ac_rfl
      _ = (d.sessions : Multiset σ) + disabled + total Request.owns v.requests + (r.owns + (live : Multiset σ)) := by
        rw [balanced]
        ac_rfl
      _ = (live : Multiset σ) + (r.owns + v.live) := by
        rw [sound.conserved]
        ac_rfl
  nodup := nodup
  referenced := by
    intro s
    have exchanged := congrArg (Multiset.count s) (total_replace Request.references here next)
    rw [Multiset.count_add, Multiset.count_add] at exchanged
    have before := sound.referenced s
    have change := counted s
    dsimp only
    omega
  alive := by
    intro s mem
    rcases mem_total_replace mem with mem | ⟨q, same, mem⟩
    · exact kept s mem
    · rcases used q same s mem with mem | ⟨mem, -⟩
      · exact kept s (mem_total.mpr ⟨r, List.mem_of_getElem? here, mem⟩)
      · exact mem
  released := by
    intro s mem mem'
    have here' := List.mem_of_getElem? here
    rcases mem_total_replace mem with gone | ⟨q, same, gone⟩
    · rcases mem_total_replace mem' with old | ⟨q, same, new⟩
      · exact sound.released s gone old
      · rcases used q same s new with old | ⟨-, free, -⟩
        · exact sound.released s gone (mem_total.mpr ⟨r, here', old⟩)
        · exact free gone
    · have old : s ∈ total Request.uses v.requests := by
        rcases mem_total_replace mem' with old | ⟨p, same', new⟩
        · exact old
        · rcases used p same' s new with old | ⟨-, -, free⟩
          · exact mem_total.mpr ⟨r, here', old⟩
          · obtain rfl := Option.some.inj (same.symm.trans same')
            exact absurd gone free
      rcases deleted q same s gone with before | fresh
      · exact sound.released s (mem_total.mpr ⟨r, here', before⟩) old
      · exact fresh old

theorem sound_quiet {q : Request σ} (sound : Sound v d disabled) (here : v.requests[place]? = some r) (holds : Holds m d disabled)
    (notAdded : q.notAdded = r.notAdded) (toDelete : q.toDelete = r.toDelete)
    (counted : ∀ s, m.fRefCount s + r.references.count s = v.manager.fRefCount s + q.references.count s)
    (used : ∀ s ∈ q.uses, s ∈ r.uses ∨ s ∈ v.live ∧ s ∉ total Request.toDelete v.requests) :
    Sound ⟨m, v.live, replace v.requests place (some q)⟩ d disabled := by
  have owns : q.owns = r.owns := by rw [Request.owns, notAdded, toDelete, Request.owns]
  have here' := List.mem_of_getElem? here
  refine sound_replace sound here holds ?_ sound.nodup counted sound.alive ?_ ?_
  · rw [Option.map_some, Option.getD_some, owns]
  · rintro _ ⟨⟩ s mem
    rcases used s mem with old | ⟨alive, free⟩
    · exact .inl old
    · exact .inr ⟨alive, free, fun gone => free (mem_total.mpr ⟨r, here', toDelete ▸ gone⟩)⟩
  · rintro _ ⟨⟩ s mem
    exact .inl (toDelete ▸ mem)

theorem sound_goto {q : Request σ} (sound : Sound v d disabled) (here : v.requests[place]? = some r) (holds : Holds m d disabled)
    (refs : m.fRefCount = v.manager.fRefCount) (notAdded : q.notAdded = r.notAdded) (toDelete : q.toDelete = r.toDelete)
    (references : q.references = r.references)
    (given : ∀ s, q.given = some s → s ∈ v.live ∧ s ∉ total Request.toDelete v.requests) :
    Sound ⟨m, v.live, replace v.requests place (some q)⟩ d disabled := by
  refine sound_quiet sound here holds notAdded toDelete (fun s => by rw [refs, references]) fun s mem => ?_
  rcases Multiset.mem_add.mp mem with old | new
  · exact .inl (Multiset.mem_add.mpr (.inl (references ▸ old)))
  · exact .inr (given s (by simpa using new))

omit [DecidableEq σ] in
theorem mem_total_uses {s : σ} : s ∈ total Request.uses v.requests ↔
    s ∈ total Request.references v.requests ∨ ∃ q ∈ v.requests, q.given = some s := by
  have parts : total Request.uses v.requests = total Request.references v.requests +
      total (fun q => (q.given.toList : Multiset σ)) v.requests := total_add _ _ v.requests
  have found : s ∈ total (fun q => (q.given.toList : Multiset σ)) v.requests ↔ ∃ q ∈ v.requests, q.given = some s :=
    mem_total.trans (by simp)
  rw [parts, Multiset.mem_add, found]

theorem Sound.listed (sound : Sound v d disabled) {s : σ} (mem : s ∈ d.sessions) :
    s ∈ v.live ∧ s ∉ total Request.toDelete v.requests := by
  have owns : total Request.owns v.requests = total Request.toDelete v.requests + total Request.notAdded v.requests :=
    total_add Request.toDelete Request.notAdded v.requests
  have all := sound.conserved
  have once : ((d.sessions : Multiset σ) + disabled + total Request.owns v.requests).Nodup := all ▸ sound.nodup
  constructor
  · refine Multiset.mem_coe.mp (all ▸ ?_)
    exact Multiset.mem_add.mpr (.inl (Multiset.mem_add.mpr (.inl mem)))
  · intro gone
    obtain ⟨-, -, apart⟩ := Multiset.nodup_add.mp once
    refine Multiset.disjoint_left.mp apart (Multiset.mem_add.mpr (.inl mem)) ?_
    rw [owns]
    exact Multiset.mem_add.mpr (.inl gone)

theorem Sound.deleted_live (sound : Sound v d disabled) {s : σ} (mem : s ∈ total Request.toDelete v.requests) : s ∈ v.live := by
  have owns : total Request.owns v.requests = total Request.toDelete v.requests + total Request.notAdded v.requests :=
    total_add Request.toDelete Request.notAdded v.requests
  refine Multiset.mem_coe.mp (sound.conserved ▸ ?_)
  rw [owns]
  exact Multiset.mem_add.mpr (.inr (Multiset.mem_add.mpr (.inl mem)))

theorem ref_fRefCount (s t : σ) : (m.ref s).fRefCount t = m.fRefCount t + ({s} : Multiset σ).count t := by
  show Function.update m.fRefCount s (m.fRefCount s + 1) t = _
  rw [Function.update_apply, Multiset.count_singleton]
  split
  · next same => rw [same]; rfl
  · exact (add_zero _).symm

theorem unRef_fRefCount (s t : σ) : (m.unRef s).fRefCount t = m.fRefCount t - ({s} : Multiset σ).count t := by
  show Function.update m.fRefCount s (m.fRefCount s - 1) t = _
  rw [Function.update_apply, Multiset.count_singleton]
  split
  · next same => rw [same]; rfl
  · exact (sub_zero _).symm

omit [DecidableEq σ] in
theorem find_of_careful {id : Id} {s : σ} (holds : Holds v.manager d disabled)
    (careful : ∀ s ∈ (v.manager.lookupPath id.text).bind asIFAObject, asIFAObject (v.manager.fSessions.named id.text) = some s)
    (path : v.manager.lookupPath id.text = some (.simple s)) : d.find id = some s := by
  have registered := careful s (by rw [path]; rfl)
  rw [named_eq holds] at registered
  cases found : d.find id with
  | none =>
    rw [found] at registered
    cases registered
  | some t =>
    rw [found] at registered
    exact registered

theorem sound_disable {id : Id} {s : σ} {q : Request σ} (sound : Sound v d disabled) (here : v.requests[place]? = some r)
    (holds : Holds m (d.erase id) (disabled ++ [s])) (found : d.find id = some s) (refs : m.fRefCount = v.manager.fRefCount)
    (same : q.owns = r.owns ∧ q.toDelete = 0 ∧ q.references = r.references ∧ q.given = none) :
    Sound ⟨m, v.live, replace v.requests place (some q)⟩ (d.erase id) (disabled ++ [s]) := by
  obtain ⟨owns, toDelete, references, given⟩ := same
  have erased := Directory.sessions_erase d id
  rw [found] at erased
  refine sound_replace sound here holds ?_ sound.nodup ?_ sound.alive ?_ ?_
  · rw [Option.map_some, Option.getD_some, owns, ← erased, ← Multiset.coe_add]
    show ((d.erase id).sessions : Multiset σ) + (disabled + (([s] : List σ) : Multiset σ)) + r.owns + v.live =
      (d.erase id).sessions + (([s] : List σ) : Multiset σ) + disabled + r.owns + v.live
    ac_rfl
  · intro t
    rw [refs, Option.map_some, Option.getD_some, references]
  · rintro _ ⟨⟩ t mem
    rw [Request.uses, given, references] at mem
    rcases Multiset.mem_add.mp mem with old | new
    · exact .inl (Multiset.mem_add.mpr (.inl old))
    · exact absurd new (Multiset.notMem_zero t)
  · rintro _ ⟨⟩ t mem
    rw [toDelete] at mem
    exact absurd mem (Multiset.notMem_zero t)

omit [DecidableEq σ] in
theorem refCount_of_deletable {check : Check} {roleNotRelevant : Bool} {refCount : Int}
    (deletes : Sweep.deletable check roleNotRelevant refCount = true) : refCount = 0 := by
  rw [Sweep.deletable, Bool.and_eq_true, Bool.and_eq_true] at deletes
  exact of_decide_eq_true deletes.2.1

theorem sound_request (sound : Sound v d disabled) : Sound ⟨v.manager, v.live, v.requests ++ [⟨none, .outside⟩]⟩ d disabled := by
  obtain ⟨holds, conserved, nodup, referenced, alive, released⟩ := sound
  have same : ∀ {weight : Request σ → Multiset σ}, weight ⟨none, .outside⟩ = 0 →
      total weight (v.requests ++ [⟨none, .outside⟩]) = total weight v.requests := by
    intro weight none
    rw [total_append, total_cons, total_nil, none, add_zero, add_zero]
  refine ⟨holds, ?_, nodup, ?_, ?_, ?_⟩
  · rw [same rfl]
    exact conserved
  · rw [same rfl]
    exact referenced
  · rw [same rfl]
    exact alive
  · rw [same rfl, same rfl]
    exact released

theorem sound_push {fSession : Option σ} {s : σ} (sound : Sound v d disabled)
    (here : v.requests[place]? = some ⟨fSession, .found s⟩) :
    Sound (v.moved place (some s) (afterPush fSession) (v.manager.ref s) v.live) d disabled := by
  refine sound_quiet sound here ⟨sound.holds.sessions, sound.holds.disabledSessions⟩ ?_ ?_ ?_ ?_
  · cases fSession <;> rfl
  · cases fSession <;> rfl
  · intro t
    rw [ref_fRefCount]
    cases fSession with
    | none => simp [Request.references, afterPush]
    | some saved =>
      simp [Request.references, afterPush, -Multiset.singleton_add]
      omega
  · intro t mem
    left
    cases fSession <;> simp [Request.uses, Request.references, Request.given, afterPush] at mem ⊢ <;> grind

theorem sound_unRef {q : Request σ} {saved : σ} (sound : Sound v d disabled) (here : v.requests[place]? = some r)
    (notAdded : q.notAdded = r.notAdded) (toDelete : q.toDelete = r.toDelete) (references : r.references = q.references + {saved})
    (given : q.given = none) : Sound ⟨v.manager.unRef saved, v.live, replace v.requests place (some q)⟩ d disabled := by
  refine sound_quiet sound here ⟨sound.holds.sessions, sound.holds.disabledSessions⟩ notAdded toDelete ?_ ?_
  · intro t
    rw [unRef_fRefCount, references, Multiset.count_add]
    push_cast
    omega
  · intro t mem
    left
    rw [Request.uses, given] at mem
    rw [Request.uses, references]
    rcases Multiset.mem_add.mp mem with old | none
    · exact Multiset.mem_add.mpr (.inl (Multiset.mem_add.mpr (.inl old)))
    · exact absurd none (Multiset.notMem_zero t)

theorem sound_make {fSession : Option σ} {s : σ} (sound : Sound v d disabled)
    (here : v.requests[place]? = some ⟨fSession, .making⟩) (fresh : s ∉ v.live) :
    Sound (v.moved place (some s) (.made s fSession) (v.manager.construct s) (s :: v.live)) d disabled := by
  have unused : s ∉ total Request.uses v.requests := fun mem => fresh (sound.alive s mem)
  have free : s ∉ total Request.toDelete v.requests := fun mem => fresh (sound.deleted_live mem)
  refine sound_replace sound here ⟨sound.holds.sessions, sound.holds.disabledSessions⟩ ?_
    (List.nodup_cons.mpr ⟨fresh, sound.nodup⟩) ?_ (fun t mem => List.mem_cons_of_mem s (sound.alive t mem)) ?_ ?_
  · show (d.sessions : Multiset σ) + disabled + (0 + {s}) + v.live = d.sessions + disabled + (0 + 0) + (s :: v.live : List σ)
    rw [zero_add, zero_add, add_zero, ← Multiset.cons_coe, ← Multiset.singleton_add]
    ac_rfl
  · intro t
    have none : v.manager.fRefCount s = 0 := by
      rw [sound.referenced s, Multiset.count_eq_zero.mpr fun mem => unused (mem_total_uses.mpr (.inl mem))]
      rfl
    show Function.update v.manager.fRefCount s 1 t + _ = _
    rw [Function.update_apply]
    cases fSession with
    | none =>
      by_cases same : t = s
      · simp [Request.references, same, none]
      · simp [Request.references, same]
    | some saved =>
      by_cases same : t = s
      · simp [Request.references, same, none, -Multiset.singleton_add]
      · simp [Request.references, same, -Multiset.singleton_add]
  · rintro _ ⟨⟩ t mem
    by_cases same : t = s
    · subst same
      exact .inr ⟨List.mem_cons_self, free, Multiset.notMem_zero t⟩
    · left
      cases fSession <;> simp [Request.uses, Request.references, Request.given, same] at mem ⊢
      exact mem
  · rintro _ ⟨⟩ t mem
    exact absurd mem (Multiset.notMem_zero t)

theorem sound_add {fSession : Option σ} {s : σ} (sound : Sound v d disabled)
    (here : v.requests[place]? = some ⟨fSession, .made s none⟩) (id : Id) :
    Sound (v.moved place fSession .outside (v.manager.addSession id s) v.live) (d.set id s) (disabled ++ (d.find id).toList) := by
  have replaced := Directory.sessions_set d id s
  refine sound_replace sound here (addSession_holds sound.holds id s) ?_ sound.nodup (fun t => rfl) sound.alive ?_ ?_
  · show ((d.set id s).sessions : Multiset σ) + (disabled ++ (d.find id).toList : List σ) + (0 + 0) + v.live =
      d.sessions + disabled + (0 + {s}) + v.live
    rw [← Multiset.singleton_add] at replaced
    rw [add_zero, zero_add, add_zero, ← Multiset.coe_add, add_comm (disabled : Multiset σ), ← add_assoc, replaced]
    ac_rfl
  · rintro _ ⟨⟩ t mem
    exact .inl mem
  · rintro _ ⟨⟩ t mem
    exact absurd mem (Multiset.notMem_zero t)

theorem sound_visit {check : Check} {left : Nat} {fSession : Option σ} {roleNotRelevant creates : Bool} {sessions2Delete : List σ} {s : σ}
    (sound : Sound v d disabled)
    (here : v.requests[place]? = some ⟨fSession, .sweeping roleNotRelevant (left + 1) sessions2Delete creates⟩)
    (careful : Careful (.visit place check) v) (found : v.manager.sessionAt roleNotRelevant left = some s) : ∃ d' disabled',
      Sound (v.moved place (v.manager.visitSlot check roleNotRelevant left sessions2Delete fSession).1.2
        (.sweeping roleNotRelevant left (v.manager.visitSlot check roleNotRelevant left sessions2Delete fSession).1.1 creates)
        (v.manager.visitSlot check roleNotRelevant left sessions2Delete fSession).2 v.live) d' disabled' := by
  obtain ⟨d', disabled', holds', -, lists⟩ := visitSlot_lists sound.holds found check sessions2Delete fSession
  obtain ⟨outcome, refs⟩ := visitSlot_eq found check sessions2Delete fSession
  rw [outcome]
  have collected : v.collects place check =
      if Sweep.deletable check roleNotRelevant (v.manager.fRefCount s) = true then some s else none := by
    rw [collects, here]
    dsimp only
    rw [found, Option.filter_some]
  refine ⟨d', disabled', sound_replace sound here holds' ?_ sound.nodup ?_ sound.alive ?_ ?_⟩
  · show (d'.sessions : Multiset σ) + disabled' + (((sessions2Delete ++ _ : List σ) : Multiset σ) + 0) + v.live =
      d.sessions + disabled + ((sessions2Delete : Multiset σ) + 0) + v.live
    rw [← lists, ← Multiset.coe_add, add_zero, add_zero]
    ac_rfl
  · intro t
    rw [refs]
    by_cases own : fSession = some s
    · rw [if_pos own, if_pos own, own]
      have counted := @unRef_fRefCount _ _ v.manager s t
      simp only [unRef] at counted
      rw [counted]
      simp [Request.references]
    · rw [if_neg own, if_neg own]
      rfl
  · rintro _ ⟨⟩ t mem
    left
    by_cases own : fSession = some s
    · rw [if_pos own] at mem
      simp [Request.uses, Request.references, Request.given] at mem
    · rw [if_neg own] at mem
      exact mem
  · rintro _ ⟨⟩ t mem
    rcases List.mem_append.mp (Multiset.mem_coe.mp mem) with before | now
    · exact .inl (Multiset.mem_coe.mpr before)
    · right
      by_cases deletes : Sweep.deletable check roleNotRelevant (v.manager.fRefCount s) = true
      · rw [if_pos deletes] at now collected
        obtain rfl := List.mem_singleton.mp now
        rw [mem_total_uses]
        rintro (referenced | ⟨q, mem, given⟩)
        · have count := sound.referenced t
          have positive := Multiset.count_pos.mpr referenced
          have unreferenced := refCount_of_deletable deletes
          omega
        · exact careful t (by rw [collected]; rfl) q mem given
      · rw [if_neg deletes] at now
        cases now

theorem sound_delete {fSession : Option σ} {s : σ} {creates : Bool} {sessions2Delete : List σ} (sound : Sound v d disabled)
    (here : v.requests[place]? = some ⟨fSession, .deleting (s :: sessions2Delete) creates⟩) :
    Sound (v.moved place fSession (.deleting sessions2Delete creates) v.manager (v.live.erase s)) d disabled := by
  have here' := List.mem_of_getElem? here
  have gone : s ∈ total Request.toDelete v.requests := mem_total.mpr ⟨_, here', Multiset.mem_coe.mpr List.mem_cons_self⟩
  refine sound_replace sound here sound.holds ?_ (sound.nodup.erase s) (fun t => rfl) ?_ ?_ ?_
  · have without : (v.live : Multiset σ) = s ::ₘ (v.live.erase s : List σ) := by
      rw [← Multiset.coe_erase, Multiset.cons_erase (Multiset.mem_coe.mpr (sound.deleted_live gone))]
    show (d.sessions : Multiset σ) + disabled + ((sessions2Delete : Multiset σ) + 0) + v.live =
      d.sessions + disabled + (((s :: sessions2Delete : List σ) : Multiset σ) + 0) + (v.live.erase s : List σ)
    rw [without, ← Multiset.cons_coe, add_zero, add_zero, Multiset.add_cons, Multiset.add_cons, Multiset.cons_add]
  · intro t mem
    have other : t ≠ s := by
      rintro rfl
      exact sound.released t gone mem
    exact (List.mem_erase_of_ne other).mpr (sound.alive t mem)
  · rintro _ ⟨⟩ t mem
    exact .inl mem
  · rintro _ ⟨⟩ t mem
    exact .inl (Multiset.mem_coe.mpr (List.mem_cons_of_mem s (Multiset.mem_coe.mp mem)))

theorem step_sound {fMaxSessionsAllowed : Int} {v' : Server σ} {e : Event σ} (sound : Sound v d disabled) (careful : Careful e v)
    (done : step fMaxSessionsAllowed e v = .ok v') : ∃ d' disabled', Sound v' d' disabled' := by
  have holds := sound.holds
  cases takes_of_step done with
  | request => exact ⟨d, disabled, sound_request sound⟩
  | @found place canLock id fSession s here looked =>
    have kept := intLookupSession_holds holds canLock id
    refine ⟨d, disabled, sound_goto sound here kept.1 kept.2 rfl rfl rfl ?_⟩
    rintro _ ⟨⟩
    exact sound.listed (lookupPath_mem holds (intLookupSession_found looked))
  | @notFound place canLock id fSession here =>
    have kept := intLookupSession_holds holds canLock id
    exact ⟨d, disabled, sound_goto sound here kept.1 kept.2 rfl rfl rfl (by rintro _ ⟨⟩)⟩
  | push here => exact ⟨d, disabled, sound_push sound here⟩
  | unRef here | unRefMade here => exact ⟨d, disabled, sound_unRef sound here rfl rfl (by simp [Request.references]) rfl⟩
  | pushSame here | createFull here | create here | sweptActive here | sweptDisabled here =>
    exact ⟨d, disabled, sound_goto sound here holds rfl rfl rfl rfl (by rintro _ ⟨⟩)⟩
  | make here fresh => exact ⟨d, disabled, sound_make sound here fresh⟩
  | @add place id fSession s here => exact ⟨d.set id s, disabled ++ (d.find id).toList, sound_add sound here id⟩
  | @disableOwn place id s here found =>
    rcases disableSession_cases holds id with none | ⟨s', path, found', refs, holds'⟩
    · rw [none] at found
      cases found
    · obtain rfl := Option.some.inj (found.symm.trans found')
      refine ⟨d.erase id, disabled ++ [s], sound_disable sound here holds' (find_of_careful holds careful path) refs ?_⟩
      exact ⟨rfl, rfl, rfl, rfl⟩
  | @disable place id fSession here =>
    rcases disableSession_cases holds id with none | ⟨s, path, -, refs, holds'⟩
    · rw [none]
      exact ⟨d, disabled, sound_goto sound here holds rfl rfl rfl rfl (by rintro _ ⟨⟩)⟩
    · exact ⟨d.erase id, disabled ++ [s], sound_disable sound here holds' (find_of_careful holds careful path) refs ⟨rfl, rfl, rfl, rfl⟩⟩
  | @cleanup place fSession creates here | @deleted place fSession creates here =>
    cases creates <;> exact ⟨d, disabled, sound_goto sound here holds rfl rfl rfl rfl (by rintro _ ⟨⟩)⟩
  | @visit place left check fSession roleNotRelevant creates sessions2Delete here =>
    cases found : v.manager.sessionAt roleNotRelevant left with
    | none =>
      rw [visitSlot_none found]
      exact ⟨d, disabled, sound_goto sound here holds rfl rfl rfl rfl (by rintro _ ⟨⟩)⟩
    | some s => exact sound_visit sound here careful found
  | delete here => exact ⟨d, disabled, sound_delete sound here⟩
  | @finish place s here =>
    refine ⟨d, disabled, sound_replace sound here ⟨holds.sessions, holds.disabledSessions⟩ rfl sound.nodup ?_ sound.alive
      (by rintro _ ⟨⟩) (by rintro _ ⟨⟩)⟩
    intro t
    rw [unRef_fRefCount]
    simp [Request.references]
  | @finishNone place here =>
    exact ⟨d, disabled, sound_replace sound here holds rfl sound.nodup (fun t => rfl) sound.alive (by rintro _ ⟨⟩) (by rintro _ ⟨⟩)⟩

end Steps

theorem initial_sound : Sound (initial : Server σ) .empty [] where
  holds := new_holds
  conserved := rfl
  nodup := List.nodup_nil
  referenced _ := rfl
  alive s mem := absurd mem (Multiset.notMem_zero s)
  released s mem := absurd mem (Multiset.notMem_zero s)

theorem safe_of_sound {v : Server σ} {d : Directory σ} {disabled : List σ} (sound : Sound v d disabled) : v.Safe where
  places := by
    have owns : total Request.owns v.requests = total Request.toDelete v.requests + total Request.notAdded v.requests :=
      total_add Request.toDelete Request.notAdded v.requests
    rw [sessionsOf_fSessions sound.holds, sessionsOf_fDisabledSessions sound.holds, add_assoc, ← owns]
    exact sound.conserved
  once := sound.nodup
  used r mem s uses := by
    have inside := mem_total.mpr ⟨r, mem, uses⟩
    exact ⟨sound.alive s inside, fun q there gone => sound.released s (mem_total.mpr ⟨q, there, gone⟩) inside⟩

/-- Sessions that are used are not deleted, and none is deleted twice, as long as no cleanup takes a session that a
context has found and not yet referenced. -/
theorem sessions_safe {fMaxSessionsAllowed : Int} {evs : List (Event σ)} {v : Server σ}
    (careful : Runs.Meets (step fMaxSessionsAllowed) Careful evs .initial)
    (done : Runs.run (step fMaxSessionsAllowed) evs .initial = .ok v) : v.Safe := by
  have inv : ∃ d disabled, Sound v d disabled := by
    refine @Runs.run_ok_keeps _ _ _ _ _ (fun v => ∃ d disabled, Sound v d disabled) ?_ evs _ _ ⟨_, _, initial_sound⟩ careful done
    rintro e v v' ⟨d, disabled, sound⟩ careful step
    exact step_sound sound careful step
  obtain ⟨d, disabled, sound⟩ := inv
  exact safe_of_sound sound

theorem a_named : ascii "a" ≠ [] := List.cons_ne_nil _ _

theorem a_terminated : 0 ∉ ascii "a" := by decide

def lifetime : List (Event Nat) :=
  [.request, .createSession 0, .makeSession 0 7, .addSession 0 ⟨ascii "a", a_named, a_terminated⟩, .finish 0, .request,
    .cleanupSessions 0, .visit 0 ⟨true, true⟩, .swept 0, .swept 0, .deleteSession 0]

theorem sessions_safe_lifetime : ∃ v, Runs.run (step 1) lifetime .initial = .ok v ∧ v.Safe :=
  ⟨_, rfl, @sessions_safe Nat _ 1 lifetime _ (Runs.meets_of_decide (by decide)) rfl⟩

/-- Between the lookup and the push of the one request the session is disabled and cleaned up by the other one. -/
theorem sessions_unsafe : ¬ ∀ (fMaxSessionsAllowed : Int) (evs : List (Event Nat)) (v : Server Nat),
    Runs.run (step fMaxSessionsAllowed) evs .initial = .ok v → v.Safe := by
  intro all
  have safe := all 1 [.request, .createSession 0, .makeSession 0 7, .addSession 0 ⟨ascii "a", by decide, by decide⟩, .finish 0,
    .request, .request, .lookupSession 0 (fun _ => true) ⟨ascii "a", by decide, by decide⟩,
    .disableSession 1 ⟨ascii "a", by decide, by decide⟩, .cleanupSessions 1, .swept 1, .visit 1 ⟨true, false⟩, .swept 1] _ rfl
  have looking : (⟨none, .found 7⟩ : Request Nat).uses = {7} := rfl
  have kept := (safe.used ⟨none, .found 7⟩ (List.Mem.head _) 7 (looking ▸ Multiset.mem_singleton_self 7)).2
    ⟨none, .deleting [7] false⟩ (List.Mem.tail _ (List.Mem.head _))
  exact kept (Multiset.mem_coe.mpr List.mem_cons_self)

end Server

end Coast.Session
