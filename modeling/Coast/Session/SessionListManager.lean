import Coast.Anything.NamedSlots
import Mathlib.Data.List.Nodup

/-!
# The lists of sessions

Sessions are stored by their id in `fSessions`, and without a name in `fDisabledSessions`. `AddSession`
finds a slot by its name, `IntLookupSession` and `DisableSession` find it by a path, and a cleanup finds it
by its index. A `Directory` says which session has which id.
-/

namespace Coast.Session

variable {σ : Type}

structure Id where
  text : Bytes
  named : text ≠ []
  terminated : 0 ∉ text

theorem Id.text_inj {a b : Id} : a.text = b.text ↔ a = b := by
  cases a
  cases b
  rw [Id.mk.injEq]

instance : DecidableEq Id := fun _ _ => decidable_of_iff _ Id.text_inj

def asIFAObject : Any σ Unit → Option σ
  | .simple s => some s
  | _ => none

structure SessionListManager (σ : Type) where
  fSessions : Any σ Unit
  fDisabledSessions : Any σ Unit
  fRefCount : σ → Int
  fTerminated : σ → Bool

/-- What a session finds in `IsDeletable` outside of what is modelled: whether `TryLock` of its mutex
succeeds, and whether its last access is longer ago than its timeout. -/
structure Check where
  canLock : Bool
  isTimeout : Bool

structure Sweep (σ : Type) where
  sessions2Delete : List σ
  fSession : Option σ
  fRefCount : σ → Int
  fTerminated : σ → Bool

namespace Sweep

variable [DecidableEq σ]

def isDeletable (check : Check) (roleNotRelevant : Bool) (s : σ) (w : Sweep σ) : Bool × Sweep σ :=
  if check.canLock then
    let isTimeout := roleNotRelevant || check.isTimeout
    (w.fRefCount s = 0 && isTimeout, if isTimeout then { w with fTerminated := Function.update w.fTerminated s true } else w)
  else (false, w)

/-- `ctx.Push((Session *)0)` if the session is the one of the context. -/
def pushNull (s : σ) (w : Sweep σ) : Sweep σ :=
  if w.fSession = some s then
    { w with fSession := none, fRefCount := Function.update w.fRefCount s (w.fRefCount s - 1) }
  else w

/-- One session in the loop of `DoCleanup`, and whether it is taken out of the list. -/
def visit (checks : Bool → σ → Check) (roleNotRelevant : Bool) (s : σ) (w : Sweep σ) : Bool × Sweep σ :=
  match isDeletable (checks roleNotRelevant s) roleNotRelevant s w with
  | (true, w) => (true, { w with sessions2Delete := w.sessions2Delete ++ [s] }.pushNull s)
  | (false, w) => (false, w.pushNull s)

/-- What `IsDeletable` decides. -/
def deletable (check : Check) (roleNotRelevant : Bool) (refCount : Int) : Bool :=
  check.canLock && (refCount = 0 && (roleNotRelevant || check.isTimeout))

theorem visit_eq (checks : Bool → σ → Check) (roleNotRelevant : Bool) (s : σ) (w : Sweep σ) :
    (visit checks roleNotRelevant s w).1 = deletable (checks roleNotRelevant s) roleNotRelevant (w.fRefCount s) ∧
      (visit checks roleNotRelevant s w).2.sessions2Delete =
        w.sessions2Delete ++ (if (visit checks roleNotRelevant s w).1 = true then [s] else []) ∧
      (visit checks roleNotRelevant s w).2.fSession = (if w.fSession = some s then none else w.fSession) ∧
      (visit checks roleNotRelevant s w).2.fRefCount =
        if w.fSession = some s then Function.update w.fRefCount s (w.fRefCount s - 1) else w.fRefCount := by
  have asked : (isDeletable (checks roleNotRelevant s) roleNotRelevant s w).1 =
        deletable (checks roleNotRelevant s) roleNotRelevant (w.fRefCount s) ∧
      ∃ fTerminated, (isDeletable (checks roleNotRelevant s) roleNotRelevant s w).2 = { w with fTerminated := fTerminated } := by
    rw [isDeletable, deletable]
    cases (checks roleNotRelevant s).canLock with
    | false => exact ⟨rfl, w.fTerminated, rfl⟩
    | true =>
      refine ⟨rfl, ?_⟩
      cases roleNotRelevant || (checks roleNotRelevant s).isTimeout with
      | false => exact ⟨w.fTerminated, rfl⟩
      | true => exact ⟨_, rfl⟩
  obtain ⟨answer, fTerminated, kept⟩ := asked
  rw [visit]
  generalize isDeletable (checks roleNotRelevant s) roleNotRelevant s w = r at answer kept
  obtain ⟨deleted, w'⟩ := r
  subst kept
  rw [← answer]
  by_cases own : w.fSession = some s <;> cases deleted <;> simp [pushNull, own]

/-- `DoCleanup`, from the last slot to the first one. -/
def doCleanup (checks : Bool → σ → Check) (roleNotRelevant : Bool) : Nat → Any σ Unit × Sweep σ → Any σ Unit × Sweep σ
  | 0, r => r
  | i + 1, (sessionList, w) =>
    match asIFAObject (sessionList.child i) with
    | none => doCleanup checks roleNotRelevant i (sessionList, w)
    | some s =>
      match visit checks roleNotRelevant s w with
      | (true, w) => doCleanup checks roleNotRelevant i (sessionList.removeIndex i, w)
      | (false, w) => doCleanup checks roleNotRelevant i (sessionList, w)

end Sweep

namespace SessionListManager

variable [DecidableEq σ]

def new : SessionListManager σ := ⟨.array () [], .null, fun _ => 0, fun _ => false⟩

def lookupPath (id : Bytes) (m : SessionListManager σ) : Option (Any σ Unit) :=
  m.fSessions.lookupPath '.'.toUInt8 ':'.toUInt8 id

def addSession (id : Id) (session : σ) (m : SessionListManager σ) : SessionListManager σ :=
  { m with
    fDisabledSessions := if m.fSessions.isDefined id.text then Any.append () (m.fSessions.named id.text) m.fDisabledSessions
      else m.fDisabledSessions
    fSessions := m.fSessions.withName () id.text fun _ => .simple session }

def disableSession (sessionId : Id) (m : SessionListManager σ) : Option σ × SessionListManager σ :=
  match m.lookupPath sessionId.text with
  | none => (none, m)
  | some session =>
    match asIFAObject session with
    | none => (none, m)
    | some s =>
      (some s, { m with
        fDisabledSessions := Any.append () session m.fDisabledSessions
        fSessions := m.fSessions.removeName sessionId.text })

def resetTimeAndFlags (canLock : Bool) (s : σ) (m : SessionListManager σ) : SessionListManager σ :=
  if canLock then { m with fTerminated := Function.update m.fTerminated s false } else m

/-- The mutex of the session is tried in `IsBusy`, in `IsTerminated` and in `ResetTimeAndFlags`. -/
def intLookupSession (canLock : Nat → Bool) (id : Id) (m : SessionListManager σ) : Option σ × SessionListManager σ :=
  match (m.lookupPath id.text).bind asIFAObject with
  | none => (none, m)
  | some s =>
    if canLock 0 && (canLock 1 && m.fTerminated s) then (none, m) else (some s, m.resetTimeAndFlags (canLock 2) s)

def getNumberOfSessions (m : SessionListManager σ) : Int := m.fSessions.getSize

/-- The section of `CleanupSessions` under the mutex: the sessions to delete and the session of the context. -/
def cleanupSessions (checks : Bool → σ → Check) (fSession : Option σ) (m : SessionListManager σ) :
    (List σ × Option σ) × SessionListManager σ :=
  let active := Sweep.doCleanup checks false m.fSessions.getSize (m.fSessions, ⟨[], fSession, m.fRefCount, m.fTerminated⟩)
  let disabled := Sweep.doCleanup checks true m.fDisabledSessions.getSize (m.fDisabledSessions, active.2)
  ((disabled.2.sessions2Delete, disabled.2.fSession), ⟨active.1, disabled.1, disabled.2.fRefCount, disabled.2.fTerminated⟩)

end SessionListManager

/-! ### What the lists are for -/

structure Directory (σ : Type) where
  slots : List (Id × σ)
  distinct : (slots.map Prod.fst).Nodup

namespace Directory

def empty : Directory σ := ⟨[], List.nodup_nil⟩

def find (id : Id) (d : Directory σ) : Option σ := (d.slots.find? fun slot => slot.1 = id).map Prod.snd

def put (id : Id) (s : σ) : List (Id × σ) → List (Id × σ)
  | [] => [(id, s)]
  | slot :: slots => if slot.1 = id then (id, s) :: slots else slot :: put id s slots

theorem map_put (id : Id) (s : σ) (slots : List (Id × σ)) :
    (put id s slots).map Prod.fst = if id ∈ slots.map Prod.fst then slots.map Prod.fst else slots.map Prod.fst ++ [id] := by
  induction slots with
  | nil => rfl
  | cons slot slots ih =>
    rw [put]
    by_cases here : slot.1 = id
    · simp [here]
    · rw [if_neg here, List.map_cons, ih]
      by_cases later : id ∈ slots.map Prod.fst
      · simp only [List.map_cons, List.mem_cons, later, or_true, if_true]
      · simp [later, Ne.symm here]

def set (id : Id) (s : σ) (d : Directory σ) : Directory σ where
  slots := put id s d.slots
  distinct := by
    rw [map_put]
    split
    · exact d.distinct
    · next fresh =>
      exact List.nodup_append.mpr ⟨d.distinct, List.nodup_singleton id, by
        rintro a mem b same rfl
        exact fresh (List.mem_singleton.mp same ▸ mem)⟩

def restrict (d : Directory σ) (slots : List (Id × σ)) (sub : slots.Sublist d.slots) : Directory σ :=
  ⟨slots, (sub.map Prod.fst).nodup d.distinct⟩

def erase (id : Id) (d : Directory σ) : Directory σ := d.restrict (d.slots.eraseP fun slot => slot.1 = id) List.eraseP_sublist

section Find

variable {d : Directory σ} {id k : Id} {s : σ}

theorem find?_put (slots : List (Id × σ)) : ((put id s slots).find? fun slot => slot.1 = k).map Prod.snd =
    if k = id then some s else (slots.find? fun slot => slot.1 = k).map Prod.snd := by
  induction slots with
  | nil =>
    by_cases same : k = id
    · simp [put, same]
    · simp [put, same, Ne.symm same]
  | cons slot slots ih =>
    rw [put]
    by_cases here : slot.1 = id
    · by_cases same : k = id
      · simp [here, same]
      · simp [here, same, Ne.symm same]
    · rw [if_neg here]
      by_cases found : slot.1 = k
      · have other : k ≠ id := fun same => here (found.trans same)
        simp [found, other]
      · rw [List.find?_cons_of_neg (by simpa using found), ih, List.find?_cons_of_neg (by simpa using found)]

theorem find_set : (d.set id s).find k = if k = id then some s else d.find k := find?_put d.slots

theorem find_iff : d.find id = some s ↔ (id, s) ∈ d.slots := by
  rw [find]
  constructor
  · intro found
    obtain ⟨slot, here, rfl⟩ := Option.map_eq_some_iff.mp found
    have same : slot.1 = id := by simpa using List.find?_some here
    exact same ▸ List.mem_of_find?_eq_some here
  · intro mem
    cases found : d.slots.find? fun slot => slot.1 = id with
    | none =>
      have absent := List.find?_eq_none.mp found (id, s) mem
      simp at absent
    | some slot =>
      have same : slot.1 = id := by simpa using List.find?_some found
      have here := List.mem_of_find?_eq_some found
      have unique := List.inj_on_of_nodup_map d.distinct here mem same
      rw [unique]
      rfl

theorem slots_erase : (d.erase id).slots = d.slots.filter fun slot => slot.1 ≠ id := by
  obtain ⟨slots, distinct⟩ := d
  show slots.eraseP (fun slot => slot.1 = id) = _
  induction slots with
  | nil => rfl
  | cons slot slots ih =>
    rw [List.map_cons, List.nodup_cons] at distinct
    by_cases here : slot.1 = id
    · have others : ∀ other ∈ slots, other.1 ≠ id := by
        rintro other mem same
        exact distinct.1 (List.mem_map.mpr ⟨other, mem, same.trans here.symm⟩)
      rw [List.eraseP_cons_of_pos (by simpa using here), List.filter_cons_of_neg (by simpa using here), eq_comm, List.filter_eq_self]
      exact fun other mem => decide_eq_true (others other mem)
    · simpa [here] using ih distinct.2

theorem find_erase : (d.erase id).find k = if k = id then none else d.find k := by
  apply Option.ext
  intro s
  have inside : (k, s) ∈ (d.erase id).slots ↔ k ≠ id ∧ (k, s) ∈ d.slots := by
    rw [slots_erase, List.mem_filter]
    simp [and_comm]
  rw [find_iff, inside]
  split
  · next same => simp [same]
  · next other => simp [other, find_iff]

end Find

end Directory

namespace Sweep

variable [DecidableEq σ] {β : Type} {session : β → σ} {checks : Bool → σ → Check} {roleNotRelevant : Bool} {w : Sweep σ}

/-- What `DoCleanup` does to a list: the rest of it, and the cleanup afterwards. -/
def sweep (session : β → σ) (checks : Bool → σ → Check) (roleNotRelevant : Bool) : List β → Sweep σ → List β × Sweep σ
  | [], w => ([], w)
  | slot :: slots, w =>
    match sweep session checks roleNotRelevant slots w with
    | (rest, w) =>
      match visit checks roleNotRelevant (session slot) w with
      | (true, w) => (rest, w)
      | (false, w) => (slot :: rest, w)

theorem sweep_append (slots more : List β) : sweep session checks roleNotRelevant (slots ++ more) w =
    ((sweep session checks roleNotRelevant slots (sweep session checks roleNotRelevant more w).2).1 ++
      (sweep session checks roleNotRelevant more w).1,
      (sweep session checks roleNotRelevant slots (sweep session checks roleNotRelevant more w).2).2) := by
  induction slots with
  | nil => rfl
  | cons slot slots ih =>
    rw [List.cons_append, sweep, ih, sweep]
    dsimp only
    split <;> rfl

theorem sweep_sublist (slots : List β) (w : Sweep σ) : (sweep session checks roleNotRelevant slots w).1.Sublist slots := by
  induction slots with
  | nil => exact List.Sublist.slnil
  | cons slot slots ih =>
    rw [sweep]
    dsimp only
    split
    · exact ih.cons slot
    · exact ih.cons_cons slot

theorem doCleanup_eq {slotOf : β → Option Bytes × Any σ Unit} (simple : ∀ slot, (slotOf slot).2 = .simple (session slot))
    (slots : List β) (back : List (Option Bytes × Any σ Unit)) (w : Sweep σ) :
    doCleanup checks roleNotRelevant slots.length (.array () (slots.map slotOf ++ back), w) =
      (.array () ((sweep session checks roleNotRelevant slots w).1.map slotOf ++ back),
        (sweep session checks roleNotRelevant slots w).2) := by
  induction slots using List.reverseRecOn generalizing back w with
  | nil => rfl
  | append_singleton slots slot ih =>
    have here : asIFAObject ((Any.array () (slots.map slotOf ++ slotOf slot :: back)).child slots.length) = some (session slot) := by
      simp [Any.child, simple, asIFAObject]
    have removed : (Any.array () (slots.map slotOf ++ slotOf slot :: back)).removeIndex slots.length =
        .array () (slots.map slotOf ++ back) := by
      rw [Any.removeIndex, List.eraseIdx_append_of_length_le (by simp)]
      simp
    rw [List.length_append, List.length_singleton, List.map_append, List.append_assoc, List.map_singleton, List.singleton_append,
      doCleanup, here, sweep_append, sweep, sweep]
    dsimp only
    cases visit checks roleNotRelevant (session slot) w with
    | mk deletable w =>
      cases deletable with
      | true =>
        dsimp only
        rw [removed, ih, List.append_nil]
      | false =>
        dsimp only
        rw [ih, List.map_append, List.append_assoc]
        rfl

end Sweep

def Directory.cleanup [DecidableEq σ] (checks : Bool → σ → Check) (disabled : List σ) (w : Sweep σ) (d : Directory σ) :
    (Directory σ × List σ) × Sweep σ :=
  let active := Sweep.sweep Prod.snd checks false d.slots w
  let rest := Sweep.sweep (fun s => s) checks true disabled active.2
  ((d.restrict active.1 (Sweep.sweep_sublist d.slots w), rest.1), rest.2)

namespace SessionListManager

variable {m : SessionListManager σ} {d : Directory σ} {disabled : List σ} {id : Id}

/-- A slot of `fSessions`. -/
def slotOf (slot : Id × σ) : Option Bytes × Any σ Unit := (some slot.1.text, .simple slot.2)

/-- A slot of `fDisabledSessions`. -/
def slotOfDisabled (s : σ) : Option Bytes × Any σ Unit := (none, .simple s)

structure Holds (m : SessionListManager σ) (d : Directory σ) (disabled : List σ) : Prop where
  sessions : m.fSessions = .array () (d.slots.map slotOf)
  disabledSessions : m.fDisabledSessions = .array () (disabled.map slotOfDisabled) ∨
    m.fDisabledSessions = .null ∧ disabled = []

theorem new_holds : Holds (new : SessionListManager σ) .empty [] := ⟨rfl, .inr ⟨rfl, rfl⟩⟩

theorem slot_named {slot : Id × σ} : (slotOf slot).1 = some id.text ↔ slot.1 = id := by
  obtain ⟨k, s⟩ := slot
  constructor
  · intro same
    cases id
    cases k
    cases same
    rfl
  · rintro rfl
    rfl

theorem slot_eq (holds : Holds m d disabled) (id : Id) :
    (m.fSessions.findIndex id.text).map m.fSessions.child = (d.find id).map Any.simple := by
  have found : (d.slots.map slotOf).find? (fun slot => slot.1 = some id.text) = (d.slots.find? fun slot => slot.1 = id).map slotOf := by
    rw [List.find?_map]
    congr 2
    funext slot
    exact decide_eq_decide.mpr slot_named
  have slot : (d.find id).map Any.simple = ((d.slots.map slotOf).find? fun slot => slot.1 = some id.text).map Prod.snd := by
    rw [found, Directory.find, Option.map_map, Option.map_map]
    rfl
  rw [slot, holds.sessions, Any.findIndex_array id.named, List.find?_eq_bind_findIdx?_getElem?]
  cases index : (d.slots.map slotOf).findIdx? fun slot => slot.1 = some id.text with
  | none => rfl
  | some i =>
    obtain ⟨inside, -⟩ := List.findIdx?_eq_some_iff_getElem.mp index
    have here : (d.slots.map slotOf)[i]? = some (d.slots.map slotOf)[i] := List.getElem?_eq_getElem inside
    show some (((d.slots.map slotOf)[i]?.map Prod.snd).getD .null) = ((d.slots.map slotOf)[i]?).map Prod.snd
    rw [here]
    rfl

theorem named_eq (holds : Holds m d disabled) (id : Id) :
    m.fSessions.named id.text = ((d.find id).map Any.simple).getD .null := by
  rw [Any.named, slot_eq holds]

theorem isDefined_eq (holds : Holds m d disabled) (id : Id) : m.fSessions.isDefined id.text = (d.find id).isSome := by
  have same := congrArg Option.isSome (slot_eq holds id)
  rw [Option.isSome_map, Option.isSome_map] at same
  exact same

theorem lookupPath_mem (holds : Holds m d disabled) {s : σ} (found : (m.lookupPath id.text).bind asIFAObject = some s) :
    s ∈ d.slots.map Prod.snd := by
  obtain ⟨slot, looked, session⟩ := Option.bind_eq_some_iff.mp found
  have inside : slot = m.fSessions ∨ slot = .null ∨ ∃ t ∈ d.slots.map Prod.snd, slot = .simple t := by
    refine @Any.lookupPath_keeps _ _ (fun c => c = m.fSessions ∨ c = .null ∨ ∃ t ∈ d.slots.map Prod.snd, c = .simple t)
      _ _ m.fSessions _ ?_ (.inl rfl) slot looked
    rintro _ i (rfl | rfl | ⟨t, mem, rfl⟩)
    · rw [holds.sessions, Any.child, List.getElem?_map]
      cases here : d.slots[i]? with
      | none => exact .inr (.inl rfl)
      | some own => exact .inr (.inr ⟨own.2, List.mem_map_of_mem (List.mem_of_getElem? here), rfl⟩)
    · exact .inr (.inl rfl)
    · exact .inr (.inr ⟨t, mem, rfl⟩)
  rcases inside with rfl | rfl | ⟨t, mem, rfl⟩
  · rw [holds.sessions] at session
    cases session
  · cases session
  · cases session
    exact mem

/-- An id in which `LookupPath` sees one name. -/
def Plain (id : Id) : Prop := id.text.any (Anything.isDelim '.'.toUInt8 ':'.toUInt8) = false

instance : DecidablePred Plain := fun id => inferInstanceAs (Decidable (id.text.any _ = false))

theorem lookupPath_plain (holds : Holds m d disabled) (plain : Plain id) : m.lookupPath id.text = (d.find id).map Any.simple := by
  rw [lookupPath, Any.lookupPath, if_pos (.inr (.inr plain))]
  exact slot_eq holds id

theorem append_eq (holds : Holds m d disabled) (s : σ) :
    Any.append () (.simple s) m.fDisabledSessions = .array () ((disabled ++ [s]).map slotOfDisabled) := by
  rcases holds.disabledSessions with array | ⟨null, rfl⟩
  · rw [array, Any.append, Any.getSize, Any.atIndex_array, Any.modifyChild]
    have one : (disabled.map (@slotOfDisabled σ)).length + 1 - (disabled.map (@slotOfDisabled σ)).length = 1 := by omega
    have last : (disabled.map (@slotOfDisabled σ) ++ [(none, Any.null)]).modify (disabled.map (@slotOfDisabled σ)).length
        (fun slot => (slot.1, Any.simple s)) = disabled.map slotOfDisabled ++ [(none, Any.simple s)] :=
      Any.modify_last none fun _ => Any.simple s
    rw [one, List.replicate_one, last, List.map_append]
    rfl
  · rw [null]
    rfl

theorem change_put (id : Id) (s : σ) (slots : List (Id × σ)) :
    Any.change id.text (fun _ => Any.simple s) (slots.map slotOf) = (Directory.put id s slots).map slotOf := by
  induction slots with
  | nil => rfl
  | cons slot slots ih =>
    rw [List.map_cons, Any.change, Directory.put]
    by_cases here : slot.1 = id
    · rw [if_pos (slot_named.mpr here), if_pos here, List.map_cons, ← here]
      rfl
    · rw [if_neg fun same => here (slot_named.mp same), if_neg here, List.map_cons, ih]

theorem addSession_holds (holds : Holds m d disabled) (id : Id) (s : σ) :
    Holds (m.addSession id s) (d.set id s) (disabled ++ (d.find id).toList) where
  sessions := by
    have stored : (m.addSession id s).fSessions = m.fSessions.withName () id.text fun _ => Any.simple s := rfl
    rw [stored, holds.sessions, Any.withName_array id.named, change_put]
    rfl
  disabledSessions := by
    have moved : (m.addSession id s).fDisabledSessions = if (d.find id).isSome then
        Any.append () (((d.find id).map Any.simple).getD .null) m.fDisabledSessions else m.fDisabledSessions := by
      rw [← isDefined_eq holds, ← named_eq holds]
      rfl
    rw [moved]
    cases d.find id with
    | none =>
      rw [Option.toList_none, List.append_nil]
      exact holds.disabledSessions
    | some old => exact .inl (append_eq holds old)

theorem removeName_eq (holds : Holds m d disabled) (id : Id) :
    m.fSessions.removeName id.text = .array () ((d.erase id).slots.map slotOf) := by
  rw [holds.sessions, Any.removeName_array id.named, List.eraseP_map]
  show _ = Any.array () ((d.slots.eraseP fun slot => slot.1 = id).map slotOf)
  congr 3
  funext slot
  exact decide_eq_decide.mpr slot_named

theorem disableSession_holds (holds : Holds m d disabled) (found : m.lookupPath id.text = (d.find id).map Any.simple) :
    (m.disableSession id).1 = d.find id ∧ Holds (m.disableSession id).2 (d.erase id) (disabled ++ (d.find id).toList) := by
  rw [disableSession, found]
  cases here : d.find id with
  | none =>
    have kept : (d.erase id).slots = d.slots := by
      rw [Directory.slots_erase, List.filter_eq_self]
      rintro ⟨k, s⟩ mem
      refine decide_eq_true ?_
      rintro rfl
      cases here.symm.trans (Directory.find_iff.mpr mem)
    refine ⟨rfl, ?_, ?_⟩
    · rw [kept]
      exact holds.sessions
    · rw [Option.toList_none, List.append_nil]
      exact holds.disabledSessions
  | some s =>
    exact ⟨rfl, removeName_eq holds id, .inl (append_eq holds s)⟩

def start (fSession : Option σ) (m : SessionListManager σ) : Sweep σ := ⟨[], fSession, m.fRefCount, m.fTerminated⟩

variable [DecidableEq σ]

theorem intLookupSession_found {canLock : Nat → Bool} {s : σ} (looked : (m.intLookupSession canLock id).1 = some s) :
    (m.lookupPath id.text).bind asIFAObject = some s := by
  rw [intLookupSession] at looked
  split at looked
  · cases looked
  · next found =>
    split at looked
    · cases looked
    · cases looked
      exact found

theorem intLookupSession_holds (holds : Holds m d disabled) (canLock : Nat → Bool) (id : Id) :
    Holds (m.intLookupSession canLock id).2 d disabled ∧ (m.intLookupSession canLock id).2.fRefCount = m.fRefCount := by
  rw [intLookupSession]
  split
  · exact ⟨holds, rfl⟩
  · split
    · exact ⟨holds, rfl⟩
    · rw [resetTimeAndFlags]
      split
      · exact ⟨⟨holds.sessions, holds.disabledSessions⟩, rfl⟩
      · exact ⟨holds, rfl⟩

theorem doCleanup_disabled (holds : Holds m d disabled) (checks : Bool → σ → Check) (w : Sweep σ) :
    (Sweep.doCleanup checks true m.fDisabledSessions.getSize (m.fDisabledSessions, w)).2 =
        (Sweep.sweep (fun s => s) checks true disabled w).2 ∧
      Holds ⟨m.fSessions, (Sweep.doCleanup checks true m.fDisabledSessions.getSize (m.fDisabledSessions, w)).1, m.fRefCount, m.fTerminated⟩
        d (Sweep.sweep (fun s => s) checks true disabled w).1 := by
  rcases holds.disabledSessions with array | ⟨null, rfl⟩
  · have all := @Sweep.doCleanup_eq σ _ σ (fun s => s) checks true slotOfDisabled (fun _ => rfl) disabled [] w
    rw [List.append_nil, List.append_nil] at all
    rw [array, Any.getSize, List.length_map, all]
    exact ⟨rfl, holds.sessions, .inl rfl⟩
  · rw [null]
    exact ⟨rfl, holds.sessions, .inr ⟨rfl, rfl⟩⟩

theorem cleanupSessions_holds (holds : Holds m d disabled) (checks : Bool → σ → Check) (fSession : Option σ) :
    (m.cleanupSessions checks fSession).1 = ((d.cleanup checks disabled (m.start fSession)).2.sessions2Delete,
        (d.cleanup checks disabled (m.start fSession)).2.fSession) ∧
      (m.cleanupSessions checks fSession).2.fRefCount = (d.cleanup checks disabled (m.start fSession)).2.fRefCount ∧
      Holds (m.cleanupSessions checks fSession).2 (d.cleanup checks disabled (m.start fSession)).1.1
        (d.cleanup checks disabled (m.start fSession)).1.2 := by
  have active : Sweep.doCleanup checks false m.fSessions.getSize (m.fSessions, m.start fSession) =
      (.array () ((Sweep.sweep Prod.snd checks false d.slots (m.start fSession)).1.map slotOf),
        (Sweep.sweep Prod.snd checks false d.slots (m.start fSession)).2) := by
    have all := @Sweep.doCleanup_eq σ _ _ Prod.snd checks false slotOf (fun _ => rfl) d.slots [] (m.start fSession)
    rw [List.append_nil, List.append_nil] at all
    rw [holds.sessions, Any.getSize, List.length_map]
    exact all
  obtain ⟨swept, rest⟩ := doCleanup_disabled holds checks (Sweep.sweep Prod.snd checks false d.slots (m.start fSession)).2
  rw [start] at active swept rest
  rw [cleanupSessions]
  dsimp only
  rw [active]
  dsimp only
  rw [swept]
  exact ⟨rfl, rfl, rfl, rest.disabledSessions⟩

end SessionListManager

end Coast.Session
