import Coast.Anything.AnyUtils
import Coast.Session.SessionListManager

/-!
# A page of the list of sessions

`SessionListInfo` reads `Start` and `PageSize`, cuts the page where the list ends, and lists what it finds at
the positions of the page. The size of the page is a divisor as well.
-/

namespace Coast.Session

variable {σ : Type}

structure Long where
  val : Int
  inside : -2 ^ 63 ≤ val ∧ val < 2 ^ 63

inductive Value where
  | long (n : Int)
  | string (text : Bytes)

/-- What `AsLong` finds in the configuration, if it finds anything. -/
structure PageConfig where
  start : Option Long
  pageSize : Option Long

/-- `Start`. -/
def PageConfig.startOf (config : PageConfig) : Int := (config.start.map Long.val).getD 0

/-- `PageSize`. -/
def PageConfig.pageSizeOf (config : PageConfig) (szSessionListSize : Int) : Int :=
  (config.pageSize.map Long.val).getD (if szSessionListSize > 10 then 10 else szSessionListSize)

inductive ListFault where
  /-- A result that is no `long`. -/
  | overflow
  /-- An `Assert` that does not hold. -/
  | assertion
  | divisionByZero
deriving DecidableEq

def checked (n : Int) : Except ListFault Int := if -2 ^ 63 ≤ n ∧ n < 2 ^ 63 then .ok n else .error .overflow

/-- The entry of a session, before and after `GetSessionInfo`. -/
def addEntry (getSessionInfo : σ → Any Value Unit → Any Value Unit) (slotName : Bytes) (s : σ)
    (sessionListInfo : Any Value Unit) : Any Value Unit :=
  sessionListInfo.withName () (ascii "List") fun list => list.withName () slotName fun entry =>
    getSessionInfo s (entry.withName () (ascii "id") fun _ => .simple (.string slotName))

namespace SessionListManager

/-- The positions from `i` on, as many as are left. Reading a position makes it. -/
def listFrom (getSessionInfo : σ → Any Value Unit → Any Value Unit) : Nat → Int →
    Any Value Unit × SessionListManager σ → Except ListFault (Any Value Unit × SessionListManager σ)
  | 0, _, r => .ok r
  | left + 1, i, (sessionListInfo, m) =>
    if i < 0 then .error .assertion
    else
      let m := { m with fSessions := m.fSessions.atIndex () i.toNat }
      match asIFAObject (m.fSessions.child i.toNat) with
      | none => listFrom getSessionInfo left (i + 1) (sessionListInfo, m)
      | some s =>
        match AnyUtils.slotName i.toNat m.fSessions with
        | none => .error .assertion
        | some slotName => listFrom getSessionInfo left (i + 1) (addEntry getSessionInfo slotName s sessionListInfo, m)

/-- `PageSize`, or what is left of the list. -/
def cutPage (szSessionListSize start pageSize : Int) : Except ListFault Int := do
  let stop ← checked (start + pageSize)
  if szSessionListSize < stop then checked (szSessionListSize - start) else .ok pageSize

def sessionListInfo (canLock : Bool) (getSessionInfo : σ → Any Value Unit → Any Value Unit) (config : PageConfig)
    (sessionListInfo : Any Value Unit) (m : SessionListManager σ) :
    Except ListFault (Bool × Any Value Unit × SessionListManager σ) := do
  if canLock then
    let szSessionListSize : Int := m.fSessions.getSize
    let sessionListInfo := sessionListInfo.withName () (ascii "List") fun _ => .array () []
    let sessionListInfo := sessionListInfo.withName () (ascii "Size") fun _ => .simple (.long szSessionListSize)
    let start := config.startOf
    let pageSize := config.pageSizeOf szSessionListSize
    let pageSize ← cutPage szSessionListSize start pageSize
    let stop ← checked (start + pageSize)
    let (sessionListInfo, m) ← listFrom getSessionInfo (stop - start).toNat start (sessionListInfo, m)
    if pageSize = 0 then .error .divisionByZero
    else
      let pages : Int := if szSessionListSize.tdiv pageSize + szSessionListSize.tmod pageSize ≠ 0 then 1 else 0
      let sessionListInfo := sessionListInfo.withName () (ascii "Pages") fun _ => .simple (.long pages)
      let sessionListInfo := sessionListInfo.withName () (ascii "PageSize") fun _ => .simple (.long pageSize)
      .ok (true, sessionListInfo, m)
  else .ok (false, sessionListInfo, m)

/-! ### The loop over a page -/

def entryOf (getSessionInfo : σ → Any Value Unit → Any Value Unit) (slot : Id × σ) : Option Bytes × Any Value Unit :=
  (some slot.1.text, getSessionInfo slot.2 (.array () [(some (ascii "id"), .simple (.string slot.1.text))]))

variable {getSessionInfo : σ → Any Value Unit → Any Value Unit} {m : SessionListManager σ} {d : Directory σ}

def addEntries (getSessionInfo : σ → Any Value Unit → Any Value Unit) (page : List (Id × σ)) (sessionListInfo : Any Value Unit) :
    Any Value Unit :=
  page.foldl (fun sessionListInfo slot => addEntry getSessionInfo slot.1.text slot.2 sessionListInfo) sessionListInfo

theorem listFrom_page (sessions : m.fSessions = .array () (d.slots.map slotOf)) (left i : Nat) (info : Any Value Unit)
    (inside : i + left ≤ d.slots.length) :
    listFrom getSessionInfo left i (info, m) = .ok (addEntries getSessionInfo ((d.slots.drop i).take left) info, m) := by
  induction left generalizing i info with
  | zero => simp [listFrom, addEntries]
  | succ left ih =>
    have here : i < d.slots.length := by omega
    have kept : m.fSessions.atIndex () i = m.fSessions := by
      have none : i + 1 - (d.slots.map (@slotOf σ)).length = 0 := by
        rw [List.length_map]
        omega
      rw [sessions, Any.atIndex_array, none, List.replicate_zero, List.append_nil]
    have slot : (d.slots.map (@slotOf σ))[i]? = some (slotOf d.slots[i]) := by simp [here]
    have session : asIFAObject (m.fSessions.child i) = some d.slots[i].2 := by
      rw [sessions, Any.child, slot]
      rfl
    have name : AnyUtils.slotName i m.fSessions = some d.slots[i].1.text := by
      rw [sessions, AnyUtils.slotName, slot]
      rfl
    have next : (i : Int) + 1 = (i + 1 : Nat) := by omega
    rw [listFrom, if_neg (by omega), Int.toNat_natCast, kept]
    dsimp only
    rw [session]
    dsimp only
    rw [name]
    dsimp only
    rw [next, ih (i + 1) _ (by omega), List.drop_eq_getElem_cons here, List.take_succ_cons]
    rfl

theorem listFrom_negative {i : Int} (negative : i < 0) (left : Nat) (r : Any Value Unit × SessionListManager σ) :
    listFrom getSessionInfo (left + 1) i r = .error .assertion := by
  rw [listFrom, if_pos negative]

theorem addEntry_named {slot : Id × σ} {before : List (Id × σ)} {info : Any Value Unit}
    (listed : info.named (ascii "List") = .array () (before.map (entryOf getSessionInfo)))
    (fresh : slot.1 ∉ before.map Prod.fst) :
    (addEntry getSessionInfo slot.1.text slot.2 info).named (ascii "List") =
      .array () ((before ++ [slot]).map (entryOf getSessionInfo)) := by
  have absent : (before.map (entryOf getSessionInfo)).findIdx? (fun own => own.1 = some slot.1.text) = none := by
    rw [List.findIdx?_eq_none_iff]
    intro own mem
    obtain ⟨old, inside, rfl⟩ := List.mem_map.mp mem
    rw [decide_eq_false_iff_not]
    intro same
    have equal : old.1 = slot.1 := Id.text_inj.mp (Option.some.inj same)
    exact fresh (List.mem_map.mpr ⟨old, inside, equal⟩)
  have entry : (Any.null : Any Value Unit).withName () (ascii "id") (fun _ => .simple (.string slot.1.text)) =
      .array () [(some (ascii "id"), .simple (.string slot.1.text))] := by
    rw [Any.withName_expand, Any.expand, Any.withName_array (by decide)]
    rfl
  rw [addEntry, Any.named_withName, if_pos ⟨rfl, by decide⟩, listed, Any.withName_array slot.1.named, Any.change_eq, absent]
  dsimp only
  rw [entry, List.map_append]
  rfl

theorem addEntries_named (page : List (Id × σ)) {before : List (Id × σ)} {info : Any Value Unit}
    (listed : info.named (ascii "List") = .array () (before.map (entryOf getSessionInfo)))
    (distinct : ((before ++ page).map Prod.fst).Nodup) :
    (addEntries getSessionInfo page info).named (ascii "List") = .array () ((before ++ page).map (entryOf getSessionInfo)) := by
  induction page generalizing before info with
  | nil => simpa [addEntries] using listed
  | cons slot page ih =>
    have split : before ++ slot :: page = before ++ [slot] ++ page := by simp
    have fresh : slot.1 ∉ before.map Prod.fst := by
      rw [List.map_append, List.map_cons] at distinct
      exact fun mem => (List.nodup_append.mp distinct).2.2 _ mem _ List.mem_cons_self rfl
    rw [split] at distinct ⊢
    exact ih (addEntry_named listed fresh) distinct

/-! ### The page -/

def pageOf (config : PageConfig) (size : Int) : Int :=
  if size < config.startOf + config.pageSizeOf size then size - config.startOf else config.pageSizeOf size

/-- The answer is there, no slot has been made, and a page that starts and ends in the list is listed. -/
def Lists (canLock : Bool) (getSessionInfo : σ → Any Value Unit → Any Value Unit) (config : PageConfig)
    (info : Any Value Unit) (m : SessionListManager σ) (d : Directory σ) : Prop :=
  ∃ answer, m.sessionListInfo canLock getSessionInfo config info = .ok (canLock, answer, m) ∧
    (canLock = true → 0 ≤ config.startOf → 0 ≤ config.pageSizeOf d.slots.length →
      answer.named (ascii "List") =
        .array () (((d.slots.drop config.startOf.toNat).take (config.pageSizeOf d.slots.length).toNat).map (entryOf getSessionInfo)))

def Listable (config : PageConfig) (size : Int) : Prop :=
  (-2 ^ 63 ≤ config.startOf + config.pageSizeOf size ∧ config.startOf + config.pageSizeOf size < 2 ^ 63) ∧
    (config.pageSizeOf size < 0 ∨ config.pageSizeOf size = 0 ∧ size < config.startOf ∨
      0 < config.pageSizeOf size ∧ 0 ≤ config.startOf ∧ config.startOf ≠ size)

theorem pageSizeOf_lt (config : PageConfig) (size : Int) : config.pageSizeOf size < 2 ^ 63 := by
  rw [PageConfig.pageSizeOf]
  cases config.pageSize with
  | none =>
    rw [Option.map_none, Option.getD_none]
    split <;> omega
  | some l => exact l.inside.2

theorem startOf_lt (config : PageConfig) : config.startOf < 2 ^ 63 := by
  rw [PageConfig.startOf]
  cases config.start with
  | none => decide
  | some l => exact l.inside.2

def prepared (size : Int) (info : Any Value Unit) : Any Value Unit :=
  (info.withName () (ascii "List") fun _ => .array () []).withName () (ascii "Size") fun _ => .simple (.long size)

def finished (size pageSize : Int) (info : Any Value Unit) : Any Value Unit :=
  (info.withName () (ascii "Pages") fun _ =>
    .simple (.long (if size.tdiv pageSize + size.tmod pageSize ≠ 0 then 1 else 0))).withName () (ascii "PageSize")
      fun _ => .simple (.long pageSize)

theorem prepared_named (size : Int) (info : Any Value Unit) : (prepared size info).named (ascii "List") = .array () [] := by
  rw [prepared, Any.named_withName, if_neg (by decide), Any.named_withName, if_pos ⟨rfl, by decide⟩]

theorem finished_named (size pageSize : Int) (info : Any Value Unit) :
    (finished size pageSize info).named (ascii "List") = info.named (ascii "List") := by
  rw [finished, Any.named_withName, if_neg (by decide), Any.named_withName, if_neg (by decide)]

theorem sessionListInfo_eq (config : PageConfig) (info : Any Value Unit)
    (low : -2 ^ 63 ≤ config.startOf + config.pageSizeOf m.fSessions.getSize)
    (high : config.startOf + config.pageSizeOf m.fSessions.getSize < 2 ^ 63) :
    m.sessionListInfo true getSessionInfo config info =
      (listFrom getSessionInfo (pageOf config m.fSessions.getSize).toNat config.startOf
        (prepared m.fSessions.getSize info, m)).bind fun r =>
          if pageOf config m.fSessions.getSize = 0 then .error .divisionByZero
          else .ok (true, finished m.fSessions.getSize (pageOf config m.fSessions.getSize) r.1, r.2) := by
  have start := startOf_lt config
  have pageSize := pageSizeOf_lt config m.fSessions.getSize
  have cut : cutPage m.fSessions.getSize config.startOf (config.pageSizeOf m.fSessions.getSize) =
      .ok (pageOf config m.fSessions.getSize) := by
    rw [cutPage, checked, if_pos ⟨low, high⟩, pageOf]
    show (if _ then _ else _) = _
    split
    · rw [checked, if_pos (by omega)]
    · rfl
  have stop : checked (config.startOf + pageOf config m.fSessions.getSize) =
      .ok (config.startOf + pageOf config m.fSessions.getSize) := by
    rw [checked, if_pos]
    rw [pageOf]
    split <;> omega
  have count : config.startOf + pageOf config m.fSessions.getSize - config.startOf = pageOf config m.fSessions.getSize := by omega
  simp only [sessionListInfo, prepared, if_true, cut, stop, count, bind, Except.bind]
  generalize listFrom getSessionInfo _ _ _ = r
  cases r <;> rfl

theorem sessionListInfo_overflow (config : PageConfig) (info : Any Value Unit)
    (outside : ¬ (-2 ^ 63 ≤ config.startOf + config.pageSizeOf m.fSessions.getSize ∧
      config.startOf + config.pageSizeOf m.fSessions.getSize < 2 ^ 63)) :
    m.sessionListInfo true getSessionInfo config info = .error .overflow := by
  have sum : cutPage m.fSessions.getSize config.startOf (config.pageSizeOf m.fSessions.getSize) = .error .overflow := by
    rw [cutPage, checked, if_neg outside]
    rfl
  simp only [sessionListInfo, if_true, sum, bind, Except.bind]

variable {disabled : List σ}

theorem take_pageOf (config : PageConfig) (start : 0 ≤ config.startOf)
    (positive : 0 ≤ config.pageSizeOf d.slots.length) :
    (d.slots.drop config.startOf.toNat).take (pageOf config d.slots.length).toNat =
      (d.slots.drop config.startOf.toNat).take (config.pageSizeOf d.slots.length).toNat := by
  rw [pageOf]
  split
  · rw [List.take_of_length_le (by rw [List.length_drop]; omega), List.take_of_length_le (by rw [List.length_drop]; omega)]
  · rfl

theorem listFrom_pageOf (sessions : m.fSessions = .array () (d.slots.map slotOf)) (config : PageConfig) (info : Any Value Unit)
    (possible : config.pageSizeOf d.slots.length < 0 ∨ config.pageSizeOf d.slots.length = 0 ∧ d.slots.length < config.startOf ∨
      0 < config.pageSizeOf d.slots.length ∧ 0 ≤ config.startOf ∧ config.startOf ≠ d.slots.length) :
    listFrom getSessionInfo (pageOf config d.slots.length).toNat config.startOf (info, m) =
      .ok (addEntries getSessionInfo ((d.slots.drop config.startOf.toNat).take (pageOf config d.slots.length).toNat) info, m) := by
  by_cases some : 0 < pageOf config d.slots.length
  · have inside : 0 ≤ config.startOf ∧ config.startOf + pageOf config d.slots.length ≤ d.slots.length := by
      rw [pageOf] at some ⊢
      split at some
      · next cut =>
        rw [if_pos cut]
        omega
      · next whole =>
        rw [if_neg whole]
        omega
    have start : config.startOf = (config.startOf.toNat : Int) := by omega
    rw [start, listFrom_page sessions _ _ _ (by omega), Int.toNat_natCast]
  · have none : (pageOf config d.slots.length).toNat = 0 := by omega
    rw [none, List.take_zero]
    rfl

/-- A page is listed exactly if nothing is asked for, or if its end is a `long` and its size is negative, zero behind
the end of the list, or positive with a start that is not negative and not at the end of the list. -/
theorem sessionListInfo_iff (holds : Holds m d disabled) (canLock : Bool) (config : PageConfig) (info : Any Value Unit) :
    Lists canLock getSessionInfo config info m d ↔ (canLock = true → Listable config d.slots.length) := by
  have size : m.fSessions.getSize = d.slots.length := by
    rw [holds.sessions, Any.getSize, List.length_map]
  cases canLock with
  | false =>
    constructor
    · intro _ locked
      cases locked
    · intro _
      exact ⟨info, rfl, fun locked => by cases locked⟩
  | true =>
    by_cases sum : -2 ^ 63 ≤ config.startOf + config.pageSizeOf d.slots.length ∧
      config.startOf + config.pageSizeOf d.slots.length < 2 ^ 63
    · have run := @sessionListInfo_eq σ getSessionInfo m config info (by rw [size]; exact sum.1) (by rw [size]; exact sum.2)
      rw [size] at run
      constructor
      · rintro ⟨answer, listed, -⟩ -
        refine ⟨sum, ?_⟩
        rw [run] at listed
        by_cases empty : pageOf config d.slots.length = 0
        · simp only [if_pos empty] at listed
          generalize listFrom getSessionInfo _ _ _ = r at listed
          cases r <;> cases listed
        · by_cases front : 0 < pageOf config d.slots.length ∧ config.startOf < 0
          · have some : (pageOf config d.slots.length).toNat = (pageOf config d.slots.length).toNat - 1 + 1 := by omega
            rw [some, listFrom_negative front.2] at listed
            cases listed
          · rw [pageOf] at empty front
            split at empty <;> omega
      · intro listable
        obtain ⟨-, possible⟩ := listable rfl
        have divisible : pageOf config d.slots.length ≠ 0 := by
          rw [pageOf]
          split <;> omega
        have looped := @listFrom_pageOf σ getSessionInfo m d holds.sessions config (prepared d.slots.length info) possible
        rw [Lists, run, looped]
        refine ⟨_, if_neg divisible, ?_⟩
        intro _ start pageSize
        have distinct : (([] ++ (d.slots.drop config.startOf.toNat).take (pageOf config d.slots.length).toNat).map Prod.fst).Nodup :=
          d.distinct.sublist (((List.take_sublist _ _).trans (List.drop_sublist _ _)).map Prod.fst)
        rw [finished_named, addEntries_named _ (prepared_named d.slots.length info) distinct, List.nil_append,
          take_pageOf config start pageSize]
    · have run := @sessionListInfo_overflow σ getSessionInfo m config info (by rw [size]; exact sum)
      constructor
      · rintro ⟨answer, listed, -⟩
        cases run.symm.trans listed
      · intro listable
        exact absurd (listable rfl).1 sum

theorem sessionListInfo_one :
    let m : SessionListManager Unit := new.addSession ⟨ascii "a", by decide, by decide⟩ ()
    Lists true (fun _ entry => entry) ⟨none, none⟩ .null m (Directory.empty.set ⟨ascii "a", by decide, by decide⟩ ()) :=
  (sessionListInfo_iff (addSession_holds new_holds ⟨ascii "a", by decide, by decide⟩ ()) true ⟨none, none⟩ .null).mpr
    fun _ => ⟨by decide, .inr (.inr (by decide))⟩

/-- No session, and no configuration. -/
theorem sessionListInfo_empty :
    (new : SessionListManager Unit).sessionListInfo true (fun _ entry => entry) ⟨none, none⟩ .null = .error .divisionByZero ∧
      ¬ Lists true (fun _ entry => entry) ⟨none, none⟩ .null (new : SessionListManager Unit) .empty := by
  refine ⟨rfl, ?_⟩
  rintro ⟨answer, listed, -⟩
  cases listed

end SessionListManager

end Coast.Session
