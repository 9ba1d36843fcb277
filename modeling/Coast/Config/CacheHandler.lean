import Coast.Anything.AnyMerge
import Coast.Lib.Pool
import Coast.Lib.Runs

/-!
# The cache of configurations

`Load` tests whether an entry is there, loads it, and stores it under `fCacheHandlerMutex`; `Reload`
merges into the entry that is there. The mark of an array tells which node it is: whoever has a view of
a node sees what happens to this node, not what is stored in its place.
-/

namespace Coast.Config.CacheHandler

open Any
open Anything (ifaHash)

variable {S : Type}

abbrev Cache (S : Type) := Any S Nat

def get (group key : Bytes) (fCache : Cache S) : Cache S := (fCache.named group).named key

def isLoaded (group key : Bytes) (fCache : Cache S) : Bool := fCache.isDefined group && (fCache.named group).isDefined key

/-- Changes `fCache[group][key]`. -/
def change (group key : Bytes) (f : Cache S → Cache S) (fCache : Cache S) : Cache S := fCache.withName 0 group (withName 0 key f)

def store (group key : Bytes) (toCache : Cache S) : Cache S → Cache S := change group key fun _ => toCache

/-- What `Reload` does while it holds the lock. -/
def reload (conv : Conversions S) (group key : Bytes) (toCache : Cache S) (fCache : Cache S) : Cache S :=
  if toCache.isNull then fCache
  else if isLoaded group key fCache then change group key (fun entry => entry.anyMerge conv 0 toCache true) fCache
  else store group key toCache fCache

/-- What `Unload` does while it holds the lock. -/
def unload (group key : Bytes) (fCache : Cache S) : Cache S := SlotCleaner.operate 0 fCache (group ++ '.'.toUInt8 :: key)

/-! ### Steps -/

abbrev Tree (S : Type) := Option (Nat × List (Option Bytes × Any S Nat))

def Tree.any : Tree S → Cache S
  | none => null
  | some (node, slots) => array node slots

inductive Phase (S : Type) where
  | load (group key : Bytes)
  | loading (group key : Bytes)
  | storing (group key : Bytes) (toCache : Tree S)
  | returning (group key : Bytes)
  | reload (group key : Bytes)
  | merging (group key : Bytes) (toCache : Tree S)
  | unload (group key : Bytes)
  | removing (group key : Bytes)

structure View where
  group : Bytes
  key : Bytes
  node : Nat
  deriving DecidableEq

/-- The views are those that calls have returned of entries that were not unloaded since. -/
structure State (S : Type) where
  fCache : Cache S
  calls : List (Phase S)
  views : List View

def initial : State S := ⟨array 0 [], [], []⟩

def viewOf (group key : Bytes) (fCache : Cache S) : List View :=
  match get group key fCache with
  | array node _ => [⟨group, key, node⟩]
  | _ => []

inductive Event (S : Type) where
  | load (group key : Bytes)
  | reload (group key : Bytes)
  | unload (group key : Bytes)
  /-- `IsLoaded`, without the lock. -/
  | test (place : Nat)
  /-- `clp->Load`. -/
  | loaded (place : Nat) (toCache : Tree S)
  | lock (place : Nat)
  /-- `Get` at the end of `Load`. -/
  | ret (place : Nat)

def step (conv : Conversions S) : Event S → State S → Except Unit (State S)
  | .load group key, s => .ok { s with calls := s.calls ++ [.load group key] }
  | .reload group key, s => .ok { s with calls := s.calls ++ [.reload group key] }
  | .unload group key, s => .ok { s with calls := s.calls ++ [.unload group key] }
  | .test place, s =>
    match s.calls[place]? with
    | some (.load group key) =>
      let next := if isLoaded group key s.fCache then .returning group key else .loading group key
      .ok { s with calls := Pool.replace s.calls place (some next) }
    | some (.unload group key) =>
      let next := if isLoaded group key s.fCache then some (.removing group key) else none
      .ok { s with calls := Pool.replace s.calls place next }
    | _ => .error ()
  | .loaded place toCache, s =>
    match s.calls[place]? with
    | some (.loading group key) =>
      let next := if toCache.isSome then .storing group key toCache else .returning group key
      .ok { s with calls := Pool.replace s.calls place (some next) }
    | some (.reload group key) => .ok { s with calls := Pool.replace s.calls place (some (.merging group key toCache)) }
    | _ => .error ()
  | .lock place, s =>
    match s.calls[place]? with
    | some (.storing group key toCache) =>
      .ok { s with fCache := store group key toCache.any s.fCache, calls := Pool.replace s.calls place (some (.returning group key)) }
    | some (.merging group key toCache) =>
      let fCache := reload conv group key toCache.any s.fCache
      .ok { fCache := fCache, calls := Pool.replace s.calls place none, views := s.views ++ viewOf group key fCache }
    | some (.removing group key) =>
      .ok {
        fCache := unload group key s.fCache
        calls := Pool.replace s.calls place none
        views := s.views.filter fun v => v.group ≠ group ∨ v.key ≠ key }
    | _ => .error ()
  | .ret place, s =>
    match s.calls[place]? with
    | some (.returning group key) =>
      .ok { s with calls := Pool.replace s.calls place none, views := s.views ++ viewOf group key s.fCache }
    | _ => .error ()

/-! ### When an entry keeps its node -/

/-- `Load` stores what is still not loaded, and `Unload` gets names that its path can hold. -/
def Phase.Careful (fCache : Cache S) : Phase S → Prop
  | .storing group key _ => isLoaded group key fCache = false
  | .removing group key => PathName group ∧ (ifaHash group).1 ≠ 0 ∧ PathName key
  | _ => True

instance (fCache : Cache S) : (p : Phase S) → Decidable (p.Careful fCache)
  | .storing .. => inferInstanceAs (Decidable (_ = _))
  | .removing .. => inferInstanceAs (Decidable (_ ∧ _ ∧ _))
  | .load .. | .loading .. | .returning .. | .reload .. | .merging .. | .unload .. => inferInstanceAs (Decidable True)

def Careful : Event S → State S → Prop
  | .lock place, s => ∀ p ∈ s.calls[place]?, p.Careful s.fCache
  | _, _ => True

instance : (e : Event S) → (s : State S) → Decidable (Careful e s)
  | .lock place, s => inferInstanceAs (Decidable (∀ p ∈ s.calls[place]?, p.Careful s.fCache))
  | .load .., _ | .reload .., _ | .unload .., _ | .test _, _ | .loaded .., _ | .ret _, _ => inferInstanceAs (Decidable True)

section Entries

variable {fCache : Cache S}

theorem get_change (group key group' key' : Bytes) (f : Cache S → Cache S) :
    get group key (change group' key' f fCache) =
      if (group = group' ∧ group ≠ []) ∧ key = key' ∧ key ≠ [] then f (get group key fCache) else get group key fCache := by
  rw [get, change, named_withName]
  by_cases inGroup : group = group' ∧ group ≠ []
  · rw [if_pos inGroup, named_withName]
    by_cases same : key = key' ∧ key ≠ []
    · rw [if_pos same, if_pos ⟨inGroup, same⟩]
      rfl
    · rw [if_neg same, if_neg fun both => same both.2]
      rfl
  · rw [if_neg inGroup, if_neg fun both => inGroup both.1]
    rfl

theorem distinct_change (distinct : ∀ group, (fCache.named group).Distinct) (group' key : Bytes) (f : Cache S → Cache S) (group : Bytes) :
    ((change group' key f fCache).named group).Distinct := by
  rw [change, named_withName]
  split
  · exact distinct_withName (distinct group) key f
  · exact distinct group

theorem get_of_not_loaded {group key : Bytes} (fresh : isLoaded group key fCache = false) : get group key fCache = null := by
  rw [isLoaded, Bool.and_eq_false_iff] at fresh
  rw [get]
  obtain undefined | undefined := fresh
  · rw [named_of_not_defined undefined]
    rfl
  · exact named_of_not_defined undefined

theorem isLoaded_of_get {group key : Bytes} {node : Nat} (seen : IsArray node (get group key fCache)) : isLoaded group key fCache = true := by
  cases loaded : isLoaded group key fCache with
  | true => rfl
  | false =>
    obtain ⟨slots, shape⟩ := seen
    rw [get_of_not_loaded loaded] at shape
    cases shape

theorem unload_eq {group key : Bytes} (isGroup : PathName group) (hashed : (ifaHash group).1 ≠ 0) (isKey : PathName key) :
    unload group key fCache = if isLoaded group key fCache then fCache.withName 0 group (removeName key) else fCache := by
  rw [unload, operate_names_eq isGroup hashed isKey, isLoaded]
  simp only [Bool.and_eq_true]

theorem get_unload (distinct : ∀ group, (fCache.named group).Distinct) {group' key' : Bytes} (isGroup : PathName group')
    (hashed : (ifaHash group').1 ≠ 0) (isKey : PathName key') (group key : Bytes) :
    get group key (unload group' key' fCache) = if group = group' ∧ key = key' then null else get group key fCache := by
  rw [unload_eq isGroup hashed isKey]
  split
  · rw [get, named_withName]
    by_cases inGroup : group = group'
    · subst inGroup
      rw [if_pos ⟨rfl, isGroup.named⟩, named_removeName (distinct group)]
      simp only [true_and]
      rfl
    · rw [if_neg fun both => inGroup both.1, if_neg fun both => inGroup both.1]
      rfl
  · rename_i fresh
    split
    · rename_i same
      obtain ⟨rfl, rfl⟩ := same
      exact get_of_not_loaded (Bool.eq_false_iff.mpr fresh)
    · rfl

theorem distinct_unload (distinct : ∀ group, (fCache.named group).Distinct) {group' key' : Bytes} (isGroup : PathName group')
    (hashed : (ifaHash group').1 ≠ 0) (isKey : PathName key') (group : Bytes) : ((unload group' key' fCache).named group).Distinct := by
  rw [unload_eq isGroup hashed isKey]
  split
  · rw [named_withName]
    split
    · exact distinct_removeName (distinct group) key'
    · exact distinct group
  · exact distinct group

end Entries

/-! ### The invariant -/

structure Kept (s : State S) : Prop where
  shown : ∀ v ∈ s.views, IsArray v.node (get v.group v.key s.fCache)
  distinct : ∀ group, (s.fCache.named group).Distinct

theorem mem_viewOf {group key : Bytes} {fCache : Cache S} {v : View} (mem : v ∈ viewOf group key fCache) :
    IsArray v.node (get v.group v.key fCache) := by
  rw [viewOf] at mem
  split at mem
  · rename_i node slots shape
    obtain rfl := List.mem_singleton.mp mem
    exact ⟨slots, shape⟩
  · cases mem

section Steps

variable {s s' : State S} {fCache : Cache S} {views : List View}

theorem store_keeps (shown : ∀ v ∈ views, IsArray v.node (get v.group v.key fCache)) {group key : Bytes} (toCache : Cache S)
    (fresh : isLoaded group key fCache = false) : ∀ v ∈ views, IsArray v.node (get v.group v.key (store group key toCache fCache)) := by
  intro v mem
  rw [store, get_change]
  split
  · rename_i same
    have loaded := isLoaded_of_get (shown v mem)
    rw [same.1.1, same.2.1, fresh] at loaded
    cases loaded
  · exact shown v mem

theorem reload_keeps (conv : Conversions S) (shown : ∀ v ∈ views, IsArray v.node (get v.group v.key fCache)) (group key : Bytes) (toCache : Tree S) :
    ∀ v ∈ views, IsArray v.node (get v.group v.key (reload conv group key toCache.any fCache)) := by
  cases toCache with
  | none => exact shown
  | some tree =>
    obtain ⟨node, slots⟩ := tree
    rw [reload, if_neg (by exact Bool.false_ne_true)]
    split
    · intro v mem
      rw [get_change]
      split
      · exact isArray_anyMerge conv 0 (shown v mem) _ rfl true
      · exact shown v mem
    · rename_i fresh
      exact store_keeps shown _ (Bool.eq_false_iff.mpr fresh)

theorem reload_distinct (conv : Conversions S) (distinct : ∀ group, (fCache.named group).Distinct) (group key : Bytes) (toCache : Cache S)
    (group' : Bytes) : ((reload conv group key toCache fCache).named group').Distinct := by
  rw [reload]
  split
  · exact distinct group'
  · split
    · exact distinct_change distinct _ _ _ _
    · exact distinct_change distinct _ _ _ _

theorem lock_keeps (conv : Conversions S) (kept : Kept s) {place : Nat} (careful : Careful (.lock place) s)
    (done : step conv (.lock place) s = .ok s') : Kept s' := by
  obtain ⟨shown, distinct⟩ := kept
  dsimp only [step] at done
  split at done
  · rename_i group key toCache here
    cases done
    have fresh : isLoaded group key s.fCache = false := careful _ here
    exact ⟨store_keeps shown _ fresh, distinct_change distinct _ _ _⟩
  · rename_i group key toCache here
    cases done
    refine ⟨fun v mem => ?_, reload_distinct conv distinct _ _ _⟩
    obtain mem | mem := List.mem_append.mp mem
    · exact reload_keeps conv shown group key toCache v mem
    · exact mem_viewOf mem
  · rename_i group key here
    cases done
    obtain ⟨isGroup, hashed, isKey⟩ : PathName group ∧ (ifaHash group).1 ≠ 0 ∧ PathName key := careful _ here
    refine ⟨fun v mem => ?_, distinct_unload distinct isGroup hashed isKey⟩
    obtain ⟨mem, other⟩ := List.mem_filter.mp mem
    have other : v.group ≠ group ∨ v.key ≠ key := of_decide_eq_true other
    have apart : ¬ (v.group = group ∧ v.key = key) := fun both => other.elim (· both.1) (· both.2)
    dsimp only
    rw [get_unload distinct isGroup hashed isKey, if_neg apart]
    exact shown v mem
  · cases done

theorem step_keeps (conv : Conversions S) (e : Event S) (s s' : State S) (kept : Kept s) (careful : Careful e s)
    (done : step conv e s = .ok s') : Kept s' := by
  cases e with
  | load group key =>
    cases done
    exact ⟨kept.shown, kept.distinct⟩
  | reload group key =>
    cases done
    exact ⟨kept.shown, kept.distinct⟩
  | unload group key =>
    cases done
    exact ⟨kept.shown, kept.distinct⟩
  | test place =>
    dsimp only [step] at done
    split at done <;> cases done <;> exact ⟨kept.shown, kept.distinct⟩
  | loaded place toCache =>
    dsimp only [step] at done
    split at done <;> cases done <;> exact ⟨kept.shown, kept.distinct⟩
  | lock place => exact lock_keeps conv kept careful done
  | ret place =>
    dsimp only [step] at done
    split at done
    · cases done
      refine ⟨fun v mem => ?_, kept.distinct⟩
      obtain mem | mem := List.mem_append.mp mem
      · exact kept.shown v mem
      · exact mem_viewOf mem
    · cases done

end Steps

theorem initial_kept : Kept (initial : State S) := by
  refine ⟨nofun, fun group => ?_⟩
  have nothing : (initial : State S).fCache.named group = null := by
    rw [initial, named_array]
    split <;> rfl
  rw [nothing]
  trivial

/-- Where `Load` stores only what is still not loaded, the node that a view was returned of stays the node
of its entry until it is unloaded; and `Unload` removes its entry and no other. -/
theorem views_kept (conv : Conversions S) {evs : List (Event S)} {s : State S} (careful : Runs.Meets (step conv) Careful evs initial)
    (done : Runs.run (step conv) evs initial = .ok s) :
    (∀ v ∈ s.views, IsArray v.node (get v.group v.key s.fCache)) ∧
      ∀ place group' key' s', s.calls[place]? = some (.removing group' key') → Careful (.lock place) s →
        step conv (.lock place) s = .ok s' →
          ∀ group key, get group key s'.fCache = if group = group' ∧ key = key' then null else get group key s.fCache := by
  have kept := Runs.run_ok_keeps (step_keeps conv) initial_kept careful done
  refine ⟨kept.shown, fun place group' key' s' here careful taken group key => ?_⟩
  obtain ⟨isGroup, hashed, isKey⟩ : PathName group' ∧ (ifaHash group').1 ≠ 0 ∧ PathName key' := careful _ here
  dsimp only [step] at taken
  rw [here] at taken
  cases taken
  exact get_unload kept.distinct isGroup hashed isKey group key

def texts : Conversions Bytes := ⟨id, id, fun s k => s == k⟩

def reloaded : List (Event Bytes) :=
  [.load (ascii "g") (ascii "k"), .test 0, .loaded 0 (some (1, [(some (ascii "a"), simple (ascii "old"))])), .lock 0, .ret 0,
    .reload (ascii "g") (ascii "k"), .loaded 0 (some (2, [(some (ascii "a"), simple (ascii "new"))])), .lock 0,
    .load (ascii "g") (ascii "x"), .test 0, .loaded 0 (some (3, [])), .lock 0, .ret 0, .unload (ascii "g") (ascii "x"), .test 0]

theorem views_kept_reloaded : ∃ s, Runs.run (step texts) reloaded initial = .ok s ∧
    (∀ v ∈ s.views, IsArray v.node (get v.group v.key s.fCache)) ∧
      ∀ place group' key' s', s.calls[place]? = some (.removing group' key') → Careful (.lock place) s →
        step texts (.lock place) s = .ok s' →
          ∀ group key, get group key s'.fCache = if group = group' ∧ key = key' then null else get group key s.fCache :=
  ⟨_, rfl, views_kept texts (Runs.meets_of_decide (by decide)) (rfl : Runs.run (step texts) reloaded initial = _)⟩

def loadedTwice : List (Event Bytes) :=
  [.load (ascii "g") (ascii "k"), .load (ascii "g") (ascii "k"), .test 0, .test 1, .loaded 0 (some (1, [])), .loaded 1 (some (2, [])),
    .lock 0, .ret 0, .lock 0]

/-- An entry `a.b` is unloaded beside an entry `a` with a slot `b`. -/
def unloadedDotted : List (Event Bytes) :=
  [.load (ascii "g") (ascii "a"), .test 0, .loaded 0 (some (1, [(some (ascii "b"), simple (ascii "x"))])), .lock 0, .ret 0,
    .load (ascii "g") (ascii "a.b"), .test 0, .loaded 0 (some (2, [])), .lock 0, .ret 0, .unload (ascii "g") (ascii "a.b"), .test 0, .lock 0]

theorem cache_swapped :
    (∃ s, Runs.run (step texts) loadedTwice initial = .ok s ∧ ⟨ascii "g", ascii "k", 1⟩ ∈ s.views ∧
      get (ascii "g") (ascii "k") s.fCache = array 2 []) ∧
    ∃ s, Runs.run (step texts) unloadedDotted initial = .ok s ∧
      get (ascii "g") (ascii "a.b") s.fCache = array 2 [] ∧ get (ascii "g") (ascii "a") s.fCache = array 1 [] :=
  ⟨⟨_, rfl, by decide, rfl⟩, _, rfl, rfl, rfl⟩

end Coast.Config.CacheHandler
