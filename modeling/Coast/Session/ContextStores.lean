import Coast.Anything.SlotCleaner

/-!
# The stacks of a context

A `Context` keeps look-up objects on one stack, and stores and adapters of stores on another one. A stack is an
array with the slots `Keys` and `Stack`, which are written one after the other, and a counter besides.
-/

namespace Coast.Session

abbrev CText := { text : Bytes // 0 ∉ text }

/-- A `LookupInterface`: what `typeid` tells of it, and which it is. -/
structure LookupInterface (O : Type) where
  bIsLookupAdapter : Bool
  object : O
  deriving DecidableEq

/-- An entry of `fStore`. -/
inductive Stored (S A O : Type) where
  | any (store : Any S A)
  | object (li : LookupInterface O)

/-- A stack with its slots `Keys` and `Stack`. -/
@[ext]
structure EntryStack (E : Type) where
  keys : List CText
  stack : List E

@[ext]
structure ContextStacks (S A O : Type) where
  fLookupStack : EntryStack (LookupInterface O)
  fStackSz : Int
  fStore : EntryStack (Stored S A O)
  fStoreSz : Int
  fEmpty : Any S A

/-- `Anything::Remove(long)`. -/
def removeSlot {α : Type} (slot : Int) (l : List α) : List α :=
  if 0 ≤ slot ∧ slot < l.length then l.eraseIdx slot.toNat else l

namespace EntryStack

variable {E : Type}

def append (key : CText) (e : E) (s : EntryStack E) : EntryStack E := ⟨s.keys ++ [key], s.stack ++ [e]⟩

def remove (slot : Int) (s : EntryStack E) : EntryStack E := ⟨removeSlot slot s.keys, removeSlot slot s.stack⟩

/-- `Keys[i].AsString()`. -/
def keyAt (i : Int) (s : EntryStack E) : Bytes := (s.keys.map Subtype.val).getD i.toNat []

def findBelow (keys : List CText) (key : CText) : Nat → Int
  | 0 => -1
  | i + 1 => if keys[i]? = some key then i else findBelow keys key i

def findIndex (s : EntryStack E) (key : Option CText) (lStartIdx : Int := -1) : Int :=
  match key with
  | none => -1
  | some key =>
    let sz : Int := s.keys.length
    findBelow s.keys key (if lStartIdx < 0 ∨ sz < lStartIdx then sz else lStartIdx).toNat

def ofEntries (entries : List (CText × E)) : EntryStack E := ⟨entries.map Prod.fst, entries.map Prod.snd⟩

theorem findBelow_lt (keys : List CText) (key : CText) (n : Nat) : findBelow keys key n < n := by
  induction n with
  | zero => simp [findBelow]
  | succ n ih =>
    rw [findBelow]
    split <;> omega

theorem findIndex_lt (s : EntryStack E) (key : Option CText) {index : Int} (start : 0 ≤ index) : s.findIndex key index < index := by
  cases key with
  | none =>
    rw [findIndex]
    omega
  | some key =>
    refine Int.lt_of_lt_of_le (findBelow_lt s.keys key _) ?_
    split <;> omega

end EntryStack

namespace ContextStacks

variable {S A O : Type}

def push (key : Option CText) (li : Option (LookupInterface O)) (c : ContextStacks S A O) : Bool × ContextStacks S A O :=
  match key, li with
  | some key, some li =>
    if li.bIsLookupAdapter then (true, { c with fStore := c.fStore.append key (.object li), fStoreSz := c.fStoreSz + 1 })
    else (true, { c with fLookupStack := c.fLookupStack.append key li, fStackSz := c.fStackSz + 1 })
  | _, _ => (false, c)

/-- `Pop`, with the key that it answers when there was an entry. -/
def pop (c : ContextStacks S A O) : Option Bytes × ContextStacks S A O :=
  if 0 < c.fStackSz then
    let sz := c.fStackSz - 1
    (some (c.fLookupStack.keyAt sz), { c with fLookupStack := c.fLookupStack.remove sz, fStackSz := sz })
  else (none, c)

/-- `Push(const char *, Anything &)`. A store becomes an array by `EnsureArrayImpl`. -/
def pushStore (mark : A) (key : Option CText) (store : Any S A) (c : ContextStacks S A O) : Bool × ContextStacks S A O :=
  match key with
  | some key =>
    if store.isNull then (false, c)
    else (true, { c with fStore := c.fStore.append key (.any (store.expand mark)), fStoreSz := c.fStoreSz + 1 })
  | none => (false, c)

def popStore (c : ContextStacks S A O) : Option Bytes × ContextStacks S A O :=
  if 1 < c.fStoreSz then
    let sz := c.fStoreSz - 1
    (some (c.fStore.keyAt sz), { c with fStore := c.fStore.remove sz, fStoreSz := sz })
  else (none, c)

def find (key : Option CText) (c : ContextStacks S A O) : Option (LookupInterface O) :=
  let index := c.fLookupStack.findIndex key
  if 0 ≤ index then c.fLookupStack.stack[index.toNat]? else none

def remove (key : Option CText) (c : ContextStacks S A O) : Int × ContextStacks S A O :=
  match key with
  | none => (-1, c)
  | some key =>
    let index := c.fLookupStack.findIndex (some key)
    if 0 ≤ index then (index, { c with fLookupStack := c.fLookupStack.remove index, fStackSz := c.fStackSz - 1 })
    else (index, c)

def replace (key : Option CText) (li : Option (LookupInterface O)) (c : ContextStacks S A O) : ContextStacks S A O :=
  match key, li with
  | some key, some li =>
    let index := c.fLookupStack.findIndex (some key)
    if 0 ≤ index then
      { c with fLookupStack := { c.fLookupStack with stack := c.fLookupStack.stack.set index.toNat li } }
    else (c.push (some key) (some li)).2
  | _, _ => c

/-- The loop of `IntGetStore`: what it answers, and the index. -/
def intGetStoreFrom (key : Option CText) (c : ContextStacks S A O) (index : Int) : Any S A × Int :=
  if start : 0 ≤ index then
    if 0 ≤ c.fStore.findIndex key index then
      match c.fStore.stack[(c.fStore.findIndex key index).toNat]? with
      | some (.object _) => intGetStoreFrom key c (c.fStore.findIndex key index - 1)
      | some (.any store) => (store, c.fStore.findIndex key index)
      | none => (.null, c.fStore.findIndex key index)
    else (c.fEmpty, c.fStore.findIndex key index - 1)
  else (c.fEmpty, index)
termination_by index.toNat
decreasing_by
  have below := c.fStore.findIndex_lt key start
  omega

def intGetStore (key : Option CText) (c : ContextStacks S A O) : Any S A × Int := c.intGetStoreFrom key c.fStoreSz

/-- What `GetStore` answers, and its result; `session` and `role` are what `GetSessionStore` and `GetRoleStoreGlobal` answer. -/
def getStore (session role : Any S A) (key : Option CText) (result : Any S A) (c : ContextStacks S A O) : Bool × Any S A :=
  match key with
  | none => (false, result)
  | some key =>
    let found := c.intGetStore (some key)
    if 0 ≤ found.2 then (true, found.1)
    else if key.val = ascii "Session" then (true, session)
    else if key.val = ascii "Role" then (true, role)
    else (false, found.1)

def empty (fEmpty : Any S A) : ContextStacks S A O := ⟨⟨[], []⟩, 0, ⟨[], []⟩, 0, fEmpty⟩

def tmp : CText := ⟨ascii "tmp", by simp [ascii]⟩

def initTmpStore (mark : A) (c : ContextStacks S A O) : ContextStacks S A O := (c.pushStore mark (some tmp) (.array mark [])).2

def new (mark : A) (fEmpty : Any S A) : ContextStacks S A O := (empty fEmpty).initTmpStore mark

end ContextStacks

inductive StackCall (S A O : Type) where
  | push (key : Option CText) (li : Option (LookupInterface O))
  | pop
  | pushStore (key : Option CText) (store : Any S A)
  | popStore
  | remove (key : Option CText)
  | replace (key : Option CText) (li : Option (LookupInterface O))

namespace ContextStacks

variable {S A O : Type}

def call (mark : A) (c : ContextStacks S A O) : StackCall S A O → ContextStacks S A O
  | .push key li => (c.push key li).2
  | .pop => c.pop.2
  | .pushStore key store => (c.pushStore mark key store).2
  | .popStore => c.popStore.2
  | .remove key => (c.remove key).2
  | .replace key li => c.replace key li

def run (mark : A) (fEmpty : Any S A) (calls : List (StackCall S A O)) : ContextStacks S A O :=
  calls.foldl (call mark) (new mark fEmpty)

end ContextStacks

/-! ### What has been pushed -/

/-- Each entry with the key under which it was pushed, the lowest first. -/
structure Pushed (S A O : Type) where
  lookups : List (CText × LookupInterface O)
  stores : List (CText × Stored S A O)

namespace Pushed

variable {S A O : Type}

def splitLast {E : Type} (key : CText) : List (CText × E) → Option (List (CText × E) × E × List (CText × E))
  | [] => none
  | (k, e) :: rest =>
    match splitLast key rest with
    | some (below, old, above) => some ((k, e) :: below, old, above)
    | none => if k = key then some ([], e, rest) else none

def push (key : CText) (li : LookupInterface O) (p : Pushed S A O) : Pushed S A O :=
  if li.bIsLookupAdapter then { p with stores := p.stores ++ [(key, .object li)] } else { p with lookups := p.lookups ++ [(key, li)] }

def call (mark : A) (p : Pushed S A O) : StackCall S A O → Pushed S A O
  | .push (some key) (some li) => p.push key li
  | .pop => { p with lookups := p.lookups.dropLast }
  | .pushStore (some key) store =>
    if store.isNull then p else { p with stores := p.stores ++ [(key, .any (store.expand mark))] }
  | .popStore => if 1 < p.stores.length then { p with stores := p.stores.dropLast } else p
  | .remove (some key) =>
    match splitLast key p.lookups with
    | some (below, _, above) => { p with lookups := below ++ above }
    | none => p
  | .replace (some key) (some li) =>
    match splitLast key p.lookups with
    | some (below, _, above) => { p with lookups := below ++ (key, li) :: above }
    | none => p.push key li
  | _ => p

def run (mark : A) (calls : List (StackCall S A O)) : Pushed S A O :=
  calls.foldl (call mark) ⟨[], [(ContextStacks.tmp, .any (.array mark []))]⟩

def toStacks (fEmpty : Any S A) (p : Pushed S A O) : ContextStacks S A O :=
  ⟨.ofEntries p.lookups, p.lookups.length, .ofEntries p.stores, p.stores.length, fEmpty⟩

end Pushed

/-! ### The slots of a stack -/

section Slots

variable {α E : Type} {key : CText} {keys : List CText} {entries below above : List (CText × E)} {old : E}

theorem removeSlot_last (l : List α) : removeSlot (l.length - 1) l = l.dropLast := by
  rcases List.eq_nil_or_concat l with rfl | ⟨front, last, rfl⟩
  · rfl
  · rw [removeSlot, if_pos (by simp), List.concat_eq_append, List.dropLast_concat]
    simp [List.eraseIdx_append_of_length_le]

theorem removeSlot_split (front rest : List α) (x : α) : removeSlot front.length (front ++ x :: rest) = front ++ rest := by
  rw [removeSlot, if_pos (by simp), Int.toNat_natCast, List.eraseIdx_append_of_length_le (Nat.le_refl _)]
  simp

namespace EntryStack

theorem findBelow_none {n : Nat} (absent : ∀ i < n, keys[i]? ≠ some key) : findBelow keys key n = -1 := by
  induction n with
  | zero => rfl
  | succ n ih =>
    rw [findBelow, if_neg (absent n (Nat.lt_succ_self n))]
    exact ih fun i inside => absent i (Nat.lt_succ_of_lt inside)

theorem findBelow_found {n j : Nat} (here : keys[j]? = some key) (inside : j < n)
    (later : ∀ i, j < i → i < n → keys[i]? ≠ some key) : findBelow keys key n = j := by
  induction n with
  | zero => exact absurd inside (Nat.not_lt_zero j)
  | succ n ih =>
    rw [findBelow]
    rcases Nat.lt_succ_iff_lt_or_eq.mp inside with before | rfl
    · rw [if_neg (later n before (Nat.lt_succ_self n))]
      exact ih before fun i above before => later i above (Nat.lt_succ_of_lt before)
    · rw [if_pos here]

end EntryStack

namespace Pushed

theorem splitLast_none (missing : splitLast key entries = none) : ∀ e ∈ entries, e.1 ≠ key := by
  induction entries with
  | nil => simp
  | cons first rest ih =>
    obtain ⟨k, e⟩ := first
    rw [splitLast] at missing
    cases later : splitLast key rest with
    | some found => simp [later] at missing
    | none =>
      simp only [later, ite_eq_right_iff, reduceCtorEq, imp_false] at missing
      intro e inside
      rcases List.mem_cons.mp inside with rfl | inside
      · exact missing
      · exact ih later e inside

theorem splitLast_some (found : splitLast key entries = some (below, old, above)) :
    entries = below ++ (key, old) :: above ∧ ∀ e ∈ above, e.1 ≠ key := by
  induction entries generalizing below with
  | nil => simp [splitLast] at found
  | cons first rest ih =>
    obtain ⟨k, e⟩ := first
    rw [splitLast] at found
    cases later : splitLast key rest with
    | some split =>
      obtain ⟨below', old', above'⟩ := split
      simp only [later, Option.some.injEq, Prod.mk.injEq] at found
      obtain ⟨rfl, rfl, rfl⟩ := found
      obtain ⟨whole, absent⟩ := ih later
      exact ⟨by rw [whole, List.cons_append], absent⟩
    | none =>
      simp only [later, Option.ite_none_right_eq_some, Option.some.injEq, Prod.mk.injEq] at found
      obtain ⟨rfl, rfl, rfl, rfl⟩ := found
      exact ⟨rfl, splitLast_none later⟩

end Pushed

namespace EntryStack

theorem ofEntries_append (entries : List (CText × E)) (key : CText) (e : E) :
    (ofEntries entries).append key e = ofEntries (entries ++ [(key, e)]) := by
  simp [append, ofEntries]

theorem ofEntries_remove_last (entries : List (CText × E)) :
    (ofEntries entries).remove (entries.length - 1) = ofEntries entries.dropLast := by
  have names := removeSlot_last (entries.map Prod.fst)
  have values := removeSlot_last (entries.map Prod.snd)
  rw [List.length_map] at names values
  simp only [remove, ofEntries, names, values, List.map_dropLast]

theorem ofEntries_remove_split (below above : List (CText × E)) (entry : CText × E) :
    (ofEntries (below ++ entry :: above)).remove below.length = ofEntries (below ++ above) := by
  have names := removeSlot_split (below.map Prod.fst) (above.map Prod.fst) entry.1
  have values := removeSlot_split (below.map Prod.snd) (above.map Prod.snd) entry.2
  rw [List.length_map] at names values
  simp only [remove, ofEntries, List.map_append, List.map_cons, names, values]

theorem keyAt_last (front : List (CText × E)) (last : CText × E) :
    (ofEntries (front ++ [last])).keyAt ((front ++ [last]).length - 1) = last.1.val := by
  simp [keyAt, ofEntries]

theorem findIndex_absent (absent : ∀ e ∈ entries, e.1 ≠ key) : (ofEntries entries).findIndex (some key) = -1 := by
  refine findBelow_none fun i _ here => ?_
  obtain ⟨e, inside, same⟩ := List.mem_map.mp (List.mem_of_getElem? here)
  exact absent e inside same

theorem findIndex_split (absent : ∀ e ∈ above, e.1 ≠ key) :
    (ofEntries (below ++ (key, old) :: above)).findIndex (some key) = below.length := by
  refine findBelow_found (by simp [ofEntries]) (by simp [ofEntries]) fun i behind _ here => ?_
  simp only [ofEntries, List.map_append, List.map_cons] at here
  rw [List.getElem?_append_right (by simp; omega), List.getElem?_cons, if_neg (by simp; omega)] at here
  obtain ⟨e, inside, same⟩ := List.mem_map.mp (List.mem_of_getElem? here)
  exact absent e inside same

end EntryStack

end Slots

/-! ### The stacks hold what has been pushed -/

namespace Pushed

variable {S A O : Type} {mark : A} {fEmpty : Any S A} {p : Pushed S A O} {key : CText} {li : LookupInterface O}

theorem push_toStacks : (p.toStacks fEmpty).push (some key) (some li) = (true, (p.push key li).toStacks fEmpty) := by
  rw [ContextStacks.push, push]
  by_cases adapter : li.bIsLookupAdapter = true
  · simp [adapter, toStacks, EntryStack.ofEntries_append]
  · simp [adapter, toStacks, EntryStack.ofEntries_append]

theorem pushStore_toStacks (store : Any S A) : (p.toStacks fEmpty).pushStore mark (some key) store =
    (!store.isNull, (p.call mark (.pushStore (some key) store)).toStacks fEmpty) := by
  rw [ContextStacks.pushStore, call]
  by_cases null : store.isNull = true
  · simp [null]
  · simp [null, toStacks, EntryStack.ofEntries_append]

def lastKey {E : Type} (entries : List (CText × E)) : Option Bytes := entries.getLast?.map fun e => e.1.val

theorem pop_toStacks : (p.toStacks fEmpty).pop = (lastKey p.lookups, { p with lookups := p.lookups.dropLast }.toStacks fEmpty) := by
  obtain ⟨lookups, stores⟩ := p
  rcases List.eq_nil_or_concat lookups with rfl | ⟨front, last, rfl⟩
  · rfl
  · have some : 0 < (toStacks fEmpty ⟨front.concat last, stores⟩).fStackSz := by simp [toStacks]
    rw [ContextStacks.pop, if_pos some, List.concat_eq_append]
    simp only [toStacks, EntryStack.keyAt_last, EntryStack.ofEntries_remove_last]
    simp [lastKey]

theorem popStore_toStacks (below : 1 < p.stores.length) :
    (p.toStacks fEmpty).popStore = (lastKey p.stores, { p with stores := p.stores.dropLast }.toStacks fEmpty) := by
  obtain ⟨lookups, stores⟩ := p
  rcases List.eq_nil_or_concat stores with rfl | ⟨front, last, rfl⟩
  · simp at below
  · have some : 1 < (toStacks fEmpty ⟨lookups, front.concat last⟩).fStoreSz := by
      simpa [toStacks] using below
    rw [ContextStacks.popStore, if_pos some, List.concat_eq_append]
    simp only [toStacks, EntryStack.keyAt_last, EntryStack.ofEntries_remove_last]
    simp [lastKey]

theorem popStore_lowest (lowest : ¬ 1 < p.stores.length) : (p.toStacks fEmpty).popStore = (none, p.toStacks fEmpty) := by
  rw [ContextStacks.popStore, if_neg (by simpa [toStacks] using lowest)]

theorem remove_toStacks : ((p.toStacks fEmpty).remove (some key)).2 = (p.call mark (.remove (some key))).toStacks fEmpty := by
  obtain ⟨lookups, stores⟩ := p
  rw [ContextStacks.remove, call]
  cases split : splitLast key lookups with
  | none =>
    simp [toStacks, EntryStack.findIndex_absent (splitLast_none split)]
  | some found =>
    obtain ⟨below, old, above⟩ := found
    obtain ⟨rfl, absent⟩ := splitLast_some split
    simp only [toStacks, EntryStack.findIndex_split absent, EntryStack.ofEntries_remove_split]
    simp
    omega

theorem replace_toStacks (mark : A) :
    (p.toStacks fEmpty).replace (some key) (some li) = (p.call mark (.replace (some key) (some li))).toStacks fEmpty := by
  obtain ⟨lookups, stores⟩ := p
  rw [ContextStacks.replace, call]
  cases split : splitLast key lookups with
  | none =>
    rw [push_toStacks]
    simp [toStacks, EntryStack.findIndex_absent (splitLast_none split)]
  | some found =>
    obtain ⟨below, old, above⟩ := found
    obtain ⟨rfl, absent⟩ := splitLast_some split
    simp only [toStacks, EntryStack.findIndex_split absent]
    simp [EntryStack.ofEntries]

theorem call_toStacks (x : StackCall S A O) : (p.toStacks fEmpty).call mark x = (p.call mark x).toStacks fEmpty := by
  cases x with
  | push key li =>
    cases key with
    | none => rfl
    | some key =>
      cases li with
      | none => rfl
      | some li => exact congrArg Prod.snd push_toStacks
  | pop => exact congrArg Prod.snd pop_toStacks
  | pushStore key store =>
    cases key with
    | none => rfl
    | some key => exact congrArg Prod.snd (pushStore_toStacks store)
  | popStore =>
    rw [call]
    split
    · next below => exact congrArg Prod.snd (popStore_toStacks below)
    · next lowest => exact congrArg Prod.snd (popStore_lowest lowest)
  | remove key =>
    cases key with
    | none => rfl
    | some key => exact remove_toStacks
  | replace key li =>
    cases key with
    | none => rfl
    | some key =>
      cases li with
      | none => rfl
      | some li => exact replace_toStacks mark

theorem run_toStacks (calls : List (StackCall S A O)) : ContextStacks.run mark fEmpty calls = (run mark calls).toStacks fEmpty := by
  rw [ContextStacks.run, run]
  have start : ContextStacks.new mark fEmpty =
      toStacks (O := O) fEmpty ⟨[], [(ContextStacks.tmp, .any (.array mark []))]⟩ := rfl
  rw [start]
  generalize (⟨[], [(ContextStacks.tmp, .any (.array mark []))]⟩ : Pushed S A O) = p
  induction calls generalizing p with
  | nil => rfl
  | cons x calls ih =>
    rw [List.foldl_cons, List.foldl_cons, call_toStacks]
    exact ih (p.call mark x)

theorem push_stores (key : CText) (li : LookupInterface O) (some : p.stores ≠ []) : (p.push key li).stores ≠ [] := by
  rw [push]
  split
  · simp
  · exact some

theorem call_stores (x : StackCall S A O) (some : p.stores ≠ []) : (p.call mark x).stores ≠ [] := by
  fun_cases call mark p x with
  | case1 key li => exact push_stores key li some
  | case4 key store filled => simp
  | case5 below =>
    have left : p.stores.dropLast.length = p.stores.length - 1 := List.length_dropLast
    exact List.ne_nil_of_length_pos (by dsimp only; omega)
  | case10 key li => exact push_stores key li some
  | _ => exact some

theorem run_stores (mark : A) (calls : List (StackCall S A O)) : (run mark calls).stores ≠ [] := by
  induction calls using List.reverseRecOn with
  | nil => simp [run]
  | append_singleton calls x ih =>
    rw [run, List.foldl_append]
    exact call_stores x ih

/-! ### Finding, and taking back -/

theorem find_absent (absent : ∀ e ∈ p.lookups, e.1 ≠ key) : (p.toStacks fEmpty).find (some key) = none := by
  rw [ContextStacks.find, toStacks, EntryStack.findIndex_absent absent]
  rfl

theorem find_split {below above : List (CText × LookupInterface O)} (whole : p.lookups = below ++ (key, li) :: above)
    (absent : ∀ e ∈ above, e.1 ≠ key) : (p.toStacks fEmpty).find (some key) = some li := by
  rw [ContextStacks.find, toStacks, whole, EntryStack.findIndex_split absent]
  simp [EntryStack.ofEntries]

theorem find_replace_iff (mark : A) : ((p.toStacks fEmpty).replace (some key) (some li)).find (some key) = some li ↔
    li.bIsLookupAdapter = false ∨ ∃ e ∈ p.lookups, e.1 = key := by
  rw [replace_toStacks mark, call]
  cases split : splitLast key p.lookups with
  | some found =>
    obtain ⟨below, old, above⟩ := found
    obtain ⟨whole, absent⟩ := splitLast_some split
    refine iff_of_true (find_split rfl absent) (.inr ⟨(key, old), ?_, rfl⟩)
    rw [whole]
    simp
  | none =>
    have absent := splitLast_none split
    have nowhere : ¬ ∃ e ∈ p.lookups, e.1 = key := by
      rintro ⟨e, inside, same⟩
      exact absent e inside same
    simp only [nowhere, or_false, push]
    cases adapter : li.bIsLookupAdapter with
    | true =>
      have missing : (toStacks fEmpty { p with stores := p.stores ++ [(key, .object li)] }).find (some key) = none :=
        find_absent absent
      simp [missing]
    | false =>
      have found : (toStacks fEmpty { p with lookups := p.lookups ++ [(key, li)] }).find (some key) = some li :=
        find_split rfl (by simp)
      simp [found]

theorem pop_push (plain : li.bIsLookupAdapter = false) :
    ((p.toStacks fEmpty).push (some key) (some li)).2.pop = (some key.val, p.toStacks fEmpty) := by
  rw [push_toStacks, push, pop_toStacks]
  simp [plain, lastKey]

theorem popStore_append (lowest : p.stores ≠ []) (entry : Stored S A O) :
    ({ p with stores := p.stores ++ [(key, entry)] }.toStacks fEmpty).popStore = (some key.val, p.toStacks fEmpty) := by
  have below := List.length_pos_of_ne_nil lowest
  rw [popStore_toStacks (by simpa using below)]
  simp [lastKey]

theorem popStore_push (lowest : p.stores ≠ []) (adapter : li.bIsLookupAdapter = true) :
    ((p.toStacks fEmpty).push (some key) (some li)).2.popStore = (some key.val, p.toStacks fEmpty) := by
  rw [push_toStacks, push, if_pos adapter]
  exact popStore_append lowest (.object li)

theorem popStore_pushStore (lowest : p.stores ≠ []) {store : Any S A} (filled : store.isNull = false) :
    ((p.toStacks fEmpty).pushStore mark (some key) store).2.popStore = (some key.val, p.toStacks fEmpty) := by
  rw [pushStore_toStacks, call]
  simpa [filled] using popStore_append lowest (.any (store.expand mark))

end Pushed

namespace ContextStacks

variable {S A O : Type}

/-- The pops that match a push. -/
structure TakesBack (mark : A) (c : ContextStacks S A O) : Prop where
  push : ∀ key li, (c.push key li).1 = true → ∃ name object, key = some name ∧ li = some object ∧
    (if object.bIsLookupAdapter then (c.push key li).2.popStore else (c.push key li).2.pop) = (some name.val, c)
  pushStore : ∀ key store, (c.pushStore mark key store).1 = true →
    ∃ name, key = some name ∧ (c.pushStore mark key store).2.popStore = (some name.val, c)

theorem takesBack_toStacks {p : Pushed S A O} (mark : A) (fEmpty : Any S A) (lowest : p.stores ≠ []) :
    TakesBack mark (p.toStacks fEmpty) where
  push key li done := by
    cases key with
    | none => cases done
    | some key =>
      cases li with
      | none => cases done
      | some li =>
        refine ⟨key, li, rfl, rfl, ?_⟩
        split
        · next adapter => exact Pushed.popStore_push lowest adapter
        · next plain => exact Pushed.pop_push (by simpa using plain)
  pushStore key store done := by
    cases key with
    | none => cases done
    | some key =>
      refine ⟨key, rfl, Pushed.popStore_pushStore lowest ?_⟩
      rw [Pushed.pushStore_toStacks] at done
      simpa using done

/-- After every sequence of calls both stacks hold what has been pushed and not been taken away, under its keys and as often
as the counters say, and a push can be taken back. What replaces an object is found, unless it is an adapter and there was no
object. -/
theorem run_balanced (mark : A) (fEmpty : Any S A) (calls : List (StackCall S A O)) :
    let c := run mark fEmpty calls
    let p := Pushed.run mark calls
    (c.fLookupStack.keys = p.lookups.map Prod.fst ∧ c.fLookupStack.stack = p.lookups.map Prod.snd ∧
      c.fLookupStack.keys.length = c.fStackSz ∧ c.fLookupStack.stack.length = c.fStackSz) ∧
    (c.fStore.keys = p.stores.map Prod.fst ∧ c.fStore.stack = p.stores.map Prod.snd ∧
      c.fStore.keys.length = c.fStoreSz ∧ c.fStore.stack.length = c.fStoreSz) ∧
    TakesBack mark c ∧
    ∀ key li, (c.replace (some key) (some li)).find (some key) = some li ↔
      li.bIsLookupAdapter = false ∨ key ∈ c.fLookupStack.keys := by
  dsimp only
  rw [Pushed.run_toStacks]
  refine ⟨⟨rfl, rfl, ?_, ?_⟩, ⟨rfl, rfl, ?_, ?_⟩, takesBack_toStacks mark fEmpty (Pushed.run_stores mark calls), ?_⟩
  iterate 4 simp [Pushed.toStacks, EntryStack.ofEntries]
  intro key li
  rw [Pushed.find_replace_iff mark]
  simp [Pushed.toStacks, EntryStack.ofEntries]

/-- An adapter that replaces nothing in a new context. -/
theorem find_replace_adapter : ((new () (.null : Any Unit Unit)).replace (some tmp) (some ⟨true, ()⟩)).find (some tmp) ≠
    some ⟨true, ()⟩ := by
  decide

end ContextStacks

end Coast.Session
