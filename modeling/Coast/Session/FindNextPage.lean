import Coast.Base.Bytes
import Coast.Lib.Loops

/-!
# Finding the next page

`DoFindNextPage` goes from page to page until one can be prepared. Roles and pages decide what happens on the way.
The loop gives up when transition and page stay the same, and goes on without a check when a delayed query is
resumed.
-/

namespace Coast.Session

structure Query where
  delayedIndex : Option Int
  action : Option Bytes
  page : Option Bytes
  deriving DecidableEq, Repr

abbrev Move := Bytes × Bytes

/-- What roles, pages and the configuration do, with `E` for everything else that they read and write. -/
structure Behaviour (E : Type) where
  prepareTmpStore : Bytes → E → E
  verify : Bytes → Move → E → Bool × Move × E
  /-- `Page::FindPage`. -/
  findPage : Bytes → E → Bool
  finish : Bytes → Bytes → E → Bool × Bytes × E
  /-- The role of `RoleChanges`, if there is one. -/
  checkRoleExchange : Bytes → Bytes → E → Option Bytes
  init : Bytes → E → Bool × E
  /-- `Finis` of the old role, for the new one. -/
  setRole : Bytes → Bytes → E → E
  synchronize : Bytes → E → Bool × E
  getNewPageName : Bytes → Move → E → Bool × Move × E
  prepare : Bytes → Bytes → E → Bool × Bytes × E
  startPage : E → Bytes
  errorPage : E → Bytes
  defaultAction : E → Bytes
  contextPage : E → Option Bytes
  /-- What else a query leaves behind when it is saved, and when it is retrieved. -/
  saved : E → E
  retrieved : E → E

/-- The variables of the loop and what it changes of the session and the context. `delayed` is the slot of the store,
if it is defined. -/
structure Search (E : Type) where
  transition : Bytes
  currentpage : Bytes
  strLastTransition : Bytes
  strLastPage : Bytes
  lLoopCount : Nat
  role : Bytes
  inReauthenticate : Option Bytes
  query : Query
  delayed : Option (List Query)
  env : E

namespace Search

variable {E : Type} (b : Behaviour E) (s : Search E)

def move : Move := (s.transition, s.currentpage)

def goTo (m : Move) (env : E) : Search E := { s with transition := m.1, currentpage := m.2, env := env }

def prepareLogout : Search E := s.goTo (ascii "Logout", b.startPage s.env) s.env

def prepareForcedLogin : Search E := s.goTo (ascii "Login", b.startPage s.env) s.env

/-- `RequirePageInsert` is a hook that answers no. -/
def needsPageInsert : Bool × Search E :=
  match b.verify s.role s.move s.env with
  | (true, m, env) => (false, s.goTo m env)
  | (false, m, env) => (true, (s.goTo m env).prepareForcedLogin b)

def inReAuthenticate : Bool := s.inReauthenticate = some s.role

def putFirst (q : Query) : List Query → List Query
  | [] => [q]
  | _ :: queries => q :: queries

/-- `CollectLinkState` copies `delayedIndex` and the page of the context into the new query. -/
def saveToDelayed : Search E :=
  if s.inReAuthenticate then s
  else
    { s with
      delayed := some (putFirst s.query (s.delayed.getD []))
      query := ⟨some (s.query.delayedIndex.getD 0), some s.transition, some ((b.contextPage s.env).getD s.currentpage)⟩
      inReauthenticate := some s.role
      env := b.saved s.env }

def finishPage : Search E :=
  if 0 < s.currentpage.length ∧ b.findPage s.currentpage s.env then
    match b.finish s.currentpage s.transition s.env with
    | (_, transition, env) => { s with transition, env }
  else s

/-- `CameFromPageInsert` is a hook that answers no. -/
def afterPageInsert : Bool × Search E :=
  match b.checkRoleExchange s.role s.transition s.env with
  | none => (false, s)
  | some newrole =>
    match b.init newrole s.env with
    | (true, env) => (true, { s with role := newrole, env := b.setRole s.role newrole env })
    | (false, env) => (false, { s with env }.prepareLogout b)

def withoutSlot (index : Nat) (queries : List Query) : Option (List Query) :=
  if (queries.eraseIdx index).length = 0 then none else some (queries.eraseIdx index)

def upTo (index : Nat) (queries : List Query) : List Query :=
  queries ++ List.replicate (index + 1 - queries.length) ⟨none, none, none⟩

def slot (index : Nat) (queries : List Query) : Query := (queries[index]?).getD ⟨none, none, none⟩

def retrieveFromDelayed : Bool × Search E :=
  match s.delayed, s.query.delayedIndex with
  | some queries, some index =>
    if 0 ≤ index then
      let delayed := slot index.toNat queries
      let env := b.retrieved s.env
      let resumed := { s with query := delayed, delayed := withoutSlot index.toNat (upTo index.toNat queries), env }
      let lastAction := delayed.action.getD (b.defaultAction env)
      if 0 < lastAction.length then (true, resumed.goTo (lastAction, delayed.page.getD (b.startPage env)) env)
      else (false, resumed)
    else (false, s)
  | _, _ => (false, s)

def preparePage : Bool × Search E :=
  if b.findPage s.currentpage s.env then
    match b.prepare s.currentpage s.transition s.env with
    | (ret, transition, env) => (ret, { s with transition, env })
  else if s.currentpage = b.errorPage s.env then (true, s)
  else (false, s.goTo (ascii "Error", b.errorPage s.env) s.env)

/-- The first part of a turn, and whether it ends with `continue`. -/
def insertOrFinish : Bool × Search E :=
  match s.needsPageInsert b with
  | (true, s) => (false, s.saveToDelayed b)
  | (false, s) =>
    match (s.finishPage b).afterPageInsert b with
    | (true, s) => s.retrieveFromDelayed b
    | (false, s) => (false, s)

def synchronize : Bool × Search E :=
  match b.synchronize s.role s.env with
  | (true, env) => (true, { s with env })
  | (false, env) => (false, { s with env }.prepareLogout b)

def getNewPageName : Search E :=
  match b.getNewPageName s.role s.move s.env with
  | (true, m, env) => s.goTo m env
  | (false, m, env) => s.goTo (m.1, b.errorPage env) env

/-- From `Synchronize` to `PreparePage`, and whether the loop is done. -/
def findPage : Bool × Search E :=
  match s.synchronize b with
  | (synchronized, s) =>
    match (s.getNewPageName b).preparePage b with
    | (prepared, s) => (prepared || !synchronized, s)

def count : Search E :=
  if s.strLastTransition = s.transition ∧ s.strLastPage = s.currentpage then { s with lLoopCount := s.lLoopCount + 1 }
  else { s with strLastTransition := s.transition, strLastPage := s.currentpage, lLoopCount := 0 }

def turn : Search E ⊕ Search E :=
  match s.insertOrFinish b with
  | (true, s) => if s.lLoopCount < 2 then .inr s else .inl s
  | (false, s) =>
    match s.findPage b with
    | (true, s) => .inl s
    | (false, s) => if s.count.lLoopCount < 2 then .inr s.count else .inl s.count

def start (transition currentpage role : Bytes) (inReauthenticate : Option Bytes) (query : Query) (delayed : Option (List Query))
    (env : E) : Search E :=
  ⟨transition, currentpage, transition, currentpage, 0, role, inReauthenticate, query, delayed, b.prepareTmpStore role env⟩

/-- `DoFindNextPage`, where it ends. -/
def doFindNextPage (transition currentpage role : Bytes) (inReauthenticate : Option Bytes) (query : Query)
    (delayed : Option (List Query)) (env : E) : Part (Search E) :=
  Loops.loop (turn b) (start b transition currentpage role inReauthenticate query delayed env)

/-! ### What a turn does to the counter and to the delayed queries -/

def last : Move := (s.strLastTransition, s.strLastPage)

def resumable (q : Query) : Nat := if q.delayedIndex.isSome then 1 else 0

def pending : Nat := resumable s.query + ((s.delayed.getD []).map resumable).sum

structure Keeps (s s' : Search E) : Prop where
  last : s'.last = s.last
  lLoopCount : s'.lLoopCount = s.lLoopCount
  query : s'.query = s.query
  delayed : s'.delayed = s.delayed

variable {b : Behaviour E} {s s' s'' : Search E}

theorem Keeps.refl (s : Search E) : Keeps s s := ⟨rfl, rfl, rfl, rfl⟩

theorem Keeps.trans (first : Keeps s s') (second : Keeps s' s'') : Keeps s s'' :=
  ⟨second.last.trans first.last, second.lLoopCount.trans first.lLoopCount, second.query.trans first.query,
    second.delayed.trans first.delayed⟩

theorem Keeps.pending (keeps : Keeps s s') : s'.pending = s.pending := by
  rw [Search.pending, keeps.query, keeps.delayed, ← Search.pending]

theorem goTo_keeps (s : Search E) (m : Move) (env : E) : Keeps s (s.goTo m env) := ⟨rfl, rfl, rfl, rfl⟩

theorem needsPageInsert_keeps (b : Behaviour E) (s : Search E) : Keeps s (s.needsPageInsert b).2 := by
  rw [needsPageInsert]
  rcases b.verify s.role s.move s.env with ⟨_ | _, m, env⟩
  · exact (goTo_keeps s m env).trans (goTo_keeps _ _ _)
  · exact goTo_keeps s m env

theorem finishPage_keeps (b : Behaviour E) (s : Search E) : Keeps s (s.finishPage b) := by
  rw [finishPage]
  split
  · exact ⟨rfl, rfl, rfl, rfl⟩
  · exact Keeps.refl s

theorem afterPageInsert_keeps (b : Behaviour E) (s : Search E) : Keeps s (s.afterPageInsert b).2 := by
  rw [afterPageInsert]
  cases b.checkRoleExchange s.role s.transition s.env with
  | none => exact Keeps.refl s
  | some newrole =>
    dsimp only
    rcases b.init newrole s.env with ⟨_ | _, env⟩
    · exact ⟨rfl, rfl, rfl, rfl⟩
    · exact ⟨rfl, rfl, rfl, rfl⟩

theorem preparePage_keeps (b : Behaviour E) (s : Search E) : Keeps s (s.preparePage b).2 := by
  rw [preparePage]
  split
  · exact ⟨rfl, rfl, rfl, rfl⟩
  · split
    · exact Keeps.refl s
    · exact goTo_keeps s _ _

theorem synchronize_keeps (b : Behaviour E) (s : Search E) : Keeps s (s.synchronize b).2 := by
  rw [synchronize]
  rcases b.synchronize s.role s.env with ⟨_ | _, env⟩ <;> exact ⟨rfl, rfl, rfl, rfl⟩

theorem getNewPageName_keeps (b : Behaviour E) (s : Search E) : Keeps s (s.getNewPageName b) := by
  rw [getNewPageName]
  rcases b.getNewPageName s.role s.move s.env with ⟨_ | _, m, env⟩ <;> exact goTo_keeps s _ _

theorem findPage_keeps (b : Behaviour E) (s : Search E) : Keeps s (s.findPage b).2 :=
  ((synchronize_keeps b s).trans (getNewPageName_keeps b _)).trans (preparePage_keeps b _)

theorem saveToDelayed_pending (b : Behaviour E) (s : Search E) : (s.saveToDelayed b).last = s.last ∧
    (s.saveToDelayed b).lLoopCount = s.lLoopCount ∧ (s.saveToDelayed b).pending ≤ s.pending + 1 := by
  rw [saveToDelayed]
  split
  · exact ⟨rfl, rfl, Nat.le_succ _⟩
  · have first : ((putFirst s.query (s.delayed.getD [])).map resumable).sum ≤
        resumable s.query + ((s.delayed.getD []).map resumable).sum := by
      cases s.delayed.getD [] with
      | nil => exact le_refl _
      | cons q queries =>
        simp only [putFirst, List.map_cons, List.sum_cons]
        omega
    refine ⟨rfl, rfl, ?_⟩
    simp only [pending, resumable, Option.isSome_some, if_true, Option.getD_some] at first ⊢
    omega

theorem sum_eraseIdx {queries : List Query} {i : Nat} {q : Query} (here : queries[i]? = some q) :
    ((queries.eraseIdx i).map resumable).sum + resumable q = (queries.map resumable).sum := by
  induction queries generalizing i with
  | nil => cases here
  | cons first queries ih =>
    cases i with
    | zero =>
      obtain rfl := Option.some.inj here
      simp only [List.eraseIdx_cons_zero, List.map_cons, List.sum_cons]
      omega
    | succ i =>
      have rest := ih here
      simp only [List.eraseIdx_cons_succ, List.map_cons, List.sum_cons]
      omega

theorem slot_pending (queries : List Query) (i : Nat) :
    resumable (slot i queries) + (((withoutSlot i (upTo i queries)).getD []).map resumable).sum ≤ (queries.map resumable).sum := by
  have left : (withoutSlot i (upTo i queries)).getD [] = (upTo i queries).eraseIdx i := by
    rw [withoutSlot]
    split
    · next empty => exact (List.length_eq_zero_iff.mp empty).symm
    · rfl
  have nulls : ∀ n, ((List.replicate n (⟨none, none, none⟩ : Query)).map resumable).sum = 0 := by
    intro n
    simp [resumable]
  have total : ((upTo i queries).map resumable).sum = (queries.map resumable).sum := by
    rw [upTo, List.map_append, List.sum_append, nulls, Nat.add_zero]
  have here : (upTo i queries)[i]? = some (slot i queries) := by
    rw [upTo, slot]
    by_cases inside : i < queries.length
    · rw [List.getElem?_append_left inside, List.getElem?_eq_getElem inside]
      rfl
    · rw [List.getElem?_append_right (by omega), List.getElem?_replicate_of_lt (by omega), List.getElem?_eq_none (by omega)]
      rfl
  have taken := sum_eraseIdx here
  rw [left, ← total]
  omega

theorem retrieveFromDelayed_pending (b : Behaviour E) (s : Search E) : (s.retrieveFromDelayed b).2.last = s.last ∧
    (s.retrieveFromDelayed b).2.lLoopCount = s.lLoopCount ∧ (s.retrieveFromDelayed b).2.pending ≤ s.pending ∧
    ((s.retrieveFromDelayed b).1 = true → (s.retrieveFromDelayed b).2.pending < s.pending) := by
  rw [retrieveFromDelayed]
  cases stored : s.delayed with
  | none => exact ⟨rfl, rfl, le_refl _, fun resumes => by cases resumes⟩
  | some queries =>
    cases named : s.query.delayedIndex with
    | none => exact ⟨rfl, rfl, le_refl _, fun resumes => by cases resumes⟩
    | some index =>
      dsimp only
      split
      · have falls := slot_pending queries index.toNat
        have before : s.pending = 1 + (queries.map resumable).sum := by
          rw [pending, stored, resumable, named]
          rfl
        split
        · refine ⟨rfl, rfl, ?_⟩
          rw [before]
          simp only [pending, goTo]
          omega
        · refine ⟨rfl, rfl, ?_⟩
          rw [before]
          simp only [pending]
          omega
      · exact ⟨rfl, rfl, le_refl _, fun resumes => by cases resumes⟩

theorem insertOrFinish_pending (b : Behaviour E) (s : Search E) : (s.insertOrFinish b).2.last = s.last ∧
    (s.insertOrFinish b).2.lLoopCount = s.lLoopCount ∧ (s.insertOrFinish b).2.pending ≤ s.pending + 1 ∧
    ((s.insertOrFinish b).1 = true → (s.insertOrFinish b).2.pending < s.pending) := by
  have verified := needsPageInsert_keeps b s
  rw [insertOrFinish]
  generalize s.needsPageInsert b = inserted at verified ⊢
  rcases inserted with ⟨_ | _, s₁⟩
  · have finished := (verified.trans (finishPage_keeps b s₁)).trans (afterPageInsert_keeps b (s₁.finishPage b))
    dsimp only
    generalize (s₁.finishPage b).afterPageInsert b = exchanged at finished ⊢
    have queries := finished.pending
    rcases exchanged with ⟨_ | _, s₂⟩
    · exact ⟨finished.last, finished.lLoopCount, queries.le.trans (Nat.le_succ _), fun resumes => by cases resumes⟩
    · obtain ⟨same, counted, le, lt⟩ := retrieveFromDelayed_pending b s₂
      rw [queries] at le lt
      exact ⟨same.trans finished.last, counted.trans finished.lLoopCount, le.trans (Nat.le_succ _), lt⟩
  · obtain ⟨same, counted, le⟩ := saveToDelayed_pending b s₁
    rw [verified.pending] at le
    exact ⟨same.trans verified.last, counted.trans verified.lLoopCount, le, fun resumes => by cases resumes⟩

inductive Goes (s s' : Search E) : Prop where
  | resumes (last : s'.last = s.last) (lLoopCount : s'.lLoopCount = s.lLoopCount) (pending : s'.pending < s.pending)
  | repeats (last : s'.last = s.last) (lLoopCount : s'.lLoopCount = s.lLoopCount + 1) (pending : s'.pending ≤ s.pending + 1)
  | changes (last : s'.last ≠ s.last) (lLoopCount : s'.lLoopCount = 0) (pending : s'.pending ≤ s.pending + 1)

theorem turn_cases (next : s.turn b = .inr s') : s'.lLoopCount < 2 ∧ Goes s s' := by
  obtain ⟨same, counted, pending, falls⟩ := insertOrFinish_pending b s
  rw [turn] at next
  generalize s.insertOrFinish b = first at next same counted pending falls
  rcases first with ⟨_ | _, s₁⟩
  · have found := findPage_keeps b s₁
    dsimp only at next same counted pending
    generalize s₁.findPage b = prepared at next found
    have queries := found.pending
    rcases prepared with ⟨_ | _, s₂⟩
    · dsimp only at next queries
      split at next
      · next low =>
        obtain rfl := Sum.inr.inj next
        refine ⟨low, ?_⟩
        have before : s₂.last = s.last := found.last.trans same
        have number : s₂.lLoopCount = s.lLoopCount := found.lLoopCount.trans counted
        rw [count]
        split
        · refine .repeats before ?_ ?_
          · exact congrArg (· + 1) number
          · show s₂.pending ≤ s.pending + 1
            omega
        · next differs =>
          refine .changes ?_ rfl ?_
          · intro equal
            have pair : (s₂.transition, s₂.currentpage) = s₂.last := equal.trans before.symm
            exact differs ⟨(congrArg Prod.fst pair).symm, (congrArg Prod.snd pair).symm⟩
          · show s₂.pending ≤ s.pending + 1
            omega
      · cases next
    · cases next
  · dsimp only at next same counted falls
    split at next
    · next low =>
      obtain rfl := Sum.inr.inj next
      exact ⟨low, .resumes same counted (falls rfl)⟩
    · cases next

/-! ### Whether the loop ends -/

def changed (s s' : Search E) : Bool := s'.last ≠ s.last

theorem turn_pays (b : Behaviour E) :
    Loops.Pays (turn b) changed (fun s => s.pending + 2 * (2 - s.lLoopCount)) 3 (fun s => s.lLoopCount < 2) where
  keeps _ _ _ next := (turn_cases next).1
  lowers s s' low next mark := by
    obtain ⟨low', goes⟩ := turn_cases next
    have same : s'.last = s.last := by simpa [changed] using mark
    cases goes with
    | resumes _ counted falls =>
      rw [counted]
      omega
    | repeats _ counted raised => omega
    | changes differs _ _ => exact absurd same differs
  raises s s' low next mark := by
    obtain ⟨low', goes⟩ := turn_cases next
    have differs : s'.last ≠ s.last := by simpa [changed] using mark
    cases goes with
    | resumes same _ _ => exact absurd same differs
    | repeats same _ _ => exact absurd same differs
    | changes _ counted raised => omega

/-- The loop ends exactly if transition and page change finitely often; its turns are bounded by the changes, the delayed
queries and the two repetitions. -/
theorem doFindNextPage_ends_iff (b : Behaviour E) (transition currentpage role : Bytes) (inReauthenticate : Option Bytes)
    (query : Query) (delayed : Option (List Query)) (env : E) :
    let s := start b transition currentpage role inReauthenticate query delayed env
    ((doFindNextPage b transition currentpage role inReauthenticate query delayed env).Dom ↔
        ∃ c, ∀ n, Loops.counted (turn b) changed n s ≤ c) ∧
      ∀ n s', Loops.after (turn b) n s = some s' → n ≤ s.pending + 4 + 4 * Loops.counted (turn b) changed n s :=
  ⟨(turn_pays b).dom_iff Nat.two_pos, fun _ _ on => (turn_pays b).after_le Nat.two_pos on⟩

def pingPong : Behaviour Unit where
  prepareTmpStore _ env := env
  verify _ m env := (true, m, env)
  findPage _ _ := true
  finish _ transition env := (true, transition, env)
  checkRoleExchange _ _ _ := none
  init _ env := (true, env)
  setRole _ _ env := env
  synchronize _ env := (true, env)
  getNewPageName _ m env := (true, (m.1, if m.2 = ascii "A" then ascii "B" else ascii "A"), env)
  prepare _ transition env := (false, transition, env)
  startPage _ := ascii "HomePage"
  errorPage _ := ascii "ErrorPage"
  defaultAction _ := ascii "Home"
  contextPage _ := none
  saved env := env
  retrieved env := env

def onPage (page : Bytes) (role : Bytes) (inReauthenticate : Option Bytes) (query : Query) (delayed : Option (List Query)) :
    Search Unit :=
  ⟨ascii "next", page, ascii "next", page, 0, role, inReauthenticate, query, delayed, ()⟩

/-- The counter never leaves 0. -/
theorem doFindNextPage_pingPong :
    ¬ (doFindNextPage pingPong (ascii "next") (ascii "A") (ascii "Role") none ⟨none, none, none⟩ none ()).Dom := by
  intro ends
  refine Loops.not_mem_loop (fun s => ∃ role inReauthenticate query delayed,
    s = onPage (ascii "A") role inReauthenticate query delayed ∨ s = onPage (ascii "B") role inReauthenticate query delayed)
    ?_ ⟨_, _, _, _, .inl rfl⟩ _ (Part.get_mem ends)
  rintro s ⟨role, inReauthenticate, query, delayed, rfl | rfl⟩
  · exact ⟨onPage (ascii "B") role inReauthenticate query delayed, rfl, _, _, _, _, .inr rfl⟩
  · exact ⟨onPage (ascii "A") role inReauthenticate query delayed, rfl, _, _, _, _, .inl rfl⟩

end Search

end Coast.Session
