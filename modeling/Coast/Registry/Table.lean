import Coast.Anything.AnyUtils
import Coast.Anything.NamedSlots
import Coast.Lib.Loops

/-!
# Registries of objects

A registry is a table of names, each with a pointer to an object. An object may be registered under several
names, and is unregistered under all of them.
-/

namespace Coast.Registry

open Any
open AnyUtils (slotName)

variable {ι : Type}

/-- `fTable`. -/
abbrev Table (ι : Type) := Any ι Unit

def asIFAObject : Table ι → Option ι
  | simple o => some o
  | _ => none

/-! ### The iterator -/

structure RegistryIterator where
  fForward : Bool
  fStart : Int
  fEnd : Int

namespace RegistryIterator

def make (fForward : Bool) (table : Table ι) : RegistryIterator :=
  if fForward then ⟨true, 0, table.getSize - 1⟩ else ⟨false, table.getSize - 1, 0⟩

def hasMore (ri : RegistryIterator) : Bool := if ri.fForward then ri.fStart ≤ ri.fEnd else ri.fStart ≥ ri.fEnd

/-- The positions are kept inside the table, which may have become smaller. -/
def clamp (table : Table ι) (ri : RegistryIterator) : RegistryIterator :=
  { ri with
    fStart := if ri.fStart > 0 ∧ ri.fStart > table.getSize then table.getSize - 1 else ri.fStart
    fEnd := if ri.fEnd > 0 ∧ ri.fEnd > table.getSize - 1 then table.getSize - 1 else ri.fEnd }

/-- What `Next` returns, and what it has changed. -/
structure Next (ι : Type) where
  obj : Option ι
  key : Bytes
  iterator : RegistryIterator
  table : Table ι

def next (key : Bytes) (ri : RegistryIterator) (table : Table ι) : Next ι :=
  let ri := ri.clamp table
  if ri.hasMore then
    let slot := ri.fStart.toNat
    -- `table` shares its slots with the registry's table
    let read := table.atIndex () slot
    ⟨asIFAObject (read.child slot), (slotName slot table).getD [],
      { ri with fStart := if ri.fForward then ri.fStart + 1 else ri.fStart - 1 }, read⟩
  else ⟨none, key, ri, table⟩

end RegistryIterator

/-! ### Registering -/

section Registering

variable [DecidableEq ι]

def find (name : Bytes) (table : Table ι) : Option ι := if table.isDefined name then asIFAObject (table.named name) else none

def registerRegisterableObject (name : Bytes) (o : ι) (table : Table ι) : Table ι := table.withName () name fun _ => simple o

def aliasTurn (obj : ι) (s : RegistryIterator × Table ι) : Table ι ⊕ RegistryIterator × Table ι :=
  if s.1.hasMore then
    let n := s.1.next [] s.2
    .inr (n.iterator, if n.obj = some obj then n.table.removeName n.key else n.table)
  else .inl s.2

def aliasLoop (obj : ι) : Nat → RegistryIterator × Table ι → Table ι
  | 0, s => s.2
  | fuel + 1, s => (aliasTurn obj s).elim id (aliasLoop obj fuel)

def removeAliases (obj : ι) (table : Table ι) : Table ι :=
  aliasLoop obj (table.getSize + 1) (RegistryIterator.make false table, table)

def unregisterRegisterableObject (name : Bytes) (table : Table ι) : Table ι :=
  match find name table with
  | some o => removeAliases o (table.removeName name)
  | none => table

end Registering

/-! ### Tables as lists of entries -/

abbrev Entry (ι : Type) := Option Bytes × Option ι

namespace Entry

def value (o : Option ι) : Table ι := o.elim null simple

def slot (e : Entry ι) : Option Bytes × Table ι := (e.1, value e.2)

@[simp] theorem asIFAObject_value (o : Option ι) : asIFAObject (value o) = o := by cases o <;> rfl

end Entry

def tableOf (entries : List (Entry ι)) : Table ι := array () (entries.map Entry.slot)

structure Distinct (entries : List (Entry ι)) : Prop where
  named : ∀ e ∈ entries, e.1 ≠ some []
  once : (entries.filterMap Prod.fst).Nodup

def real (entries : List (Option Bytes × ι)) : List (Entry ι) := entries.map fun e => (e.1, some e.2)

theorem real_append (entries more : List (Option Bytes × ι)) : real (entries ++ more) = real entries ++ real more := List.map_append

def nulls (k : Nat) : List (Entry ι) := List.replicate k (none, none)

@[simp] theorem length_nulls (k : Nat) : (nulls k : List (Entry ι)).length = k := List.length_replicate

theorem nulls_succ (k : Nat) : (nulls (k + 1) : List (Entry ι)) = nulls k ++ [(none, none)] := List.replicate_succ'

theorem eq_null {k : Nat} {e : Entry ι} (mem : e ∈ nulls k) : e = (none, none) := List.eq_of_mem_replicate mem

@[simp] theorem length_real (entries : List (Option Bytes × ι)) : (real entries).length = entries.length := List.length_map _

@[simp] theorem getSize_tableOf (entries : List (Entry ι)) : (tableOf entries).getSize = entries.length := List.length_map _

theorem child_tableOf {entries : List (Entry ι)} {i : Nat} {e : Entry ι} (here : entries[i]? = some e) :
    (tableOf entries).child i = Entry.value e.2 := by
  rw [tableOf, child, List.getElem?_map, here]
  rfl

theorem slotName_tableOf {entries : List (Entry ι)} {i : Nat} {e : Entry ι} (here : entries[i]? = some e) :
    slotName i (tableOf entries) = e.1 := by
  rw [tableOf, slotName, List.getElem?_map, here]
  rfl

theorem atIndex_tableOf {entries : List (Entry ι)} {i : Nat} (inside : i < entries.length) :
    (tableOf entries).atIndex () i = tableOf entries :=
  atIndex_self () (by rwa [List.length_map])

theorem atIndex_tableOf_length (entries : List (Entry ι)) :
    (tableOf entries).atIndex () entries.length = tableOf (entries ++ [(none, none)]) := by
  have one : entries.length + 1 - (entries.map Entry.slot).length = 1 := by
    rw [List.length_map]
    omega
  rw [tableOf, atIndex_array, one, tableOf, List.map_append]
  rfl

theorem Distinct.before_ne {before after : List (Entry ι)} {k : Bytes} {o : Option ι} (distinct : Distinct (before ++ (some k, o) :: after)) :
    ∀ slot ∈ before.map Entry.slot, ¬ decide (slot.1 = some k) = true := by
  intro slot mem same
  obtain ⟨e, early, rfl⟩ := List.mem_map.mp mem
  have once := distinct.once
  rw [List.filterMap_append, List.filterMap_cons_some (f := Prod.fst) (b := k) rfl] at once
  have apart := (List.nodup_append.mp once).2.2 k (List.mem_filterMap.mpr ⟨e, early, of_decide_eq_true same⟩) k List.mem_cons_self
  exact apart rfl

theorem removeName_tableOf {before after : List (Entry ι)} {k : Bytes} {o : Option ι} (distinct : Distinct (before ++ (some k, o) :: after)) :
    (tableOf (before ++ (some k, o) :: after)).removeName k = tableOf (before ++ after) := by
  have isNamed : k ≠ [] := by
    rintro rfl
    exact distinct.named _ (List.mem_append_right _ List.mem_cons_self) rfl
  rw [tableOf, removeName_array isNamed, List.map_append, List.eraseP_append_right _ distinct.before_ne, List.map_cons,
    List.eraseP_cons_of_pos (by exact decide_eq_true rfl), tableOf, List.map_append]

/-! ### Iterating backwards -/

def backwards (fStart : Int) : RegistryIterator := ⟨false, fStart, 0⟩

theorem make_backwards (entries : List (Entry ι)) : RegistryIterator.make false (tableOf entries) = backwards (entries.length - 1) := by
  rw [RegistryIterator.make, getSize_tableOf]
  rfl

@[simp] theorem hasMore_backwards (fStart : Int) : (backwards fStart).hasMore = decide (0 ≤ fStart) := rfl

section Next

variable (key : Bytes)

theorem clamp_backwards (table : Table ι) (fStart : Int) : (backwards fStart).clamp table =
    backwards (if fStart > 0 ∧ fStart > table.getSize then table.getSize - 1 else fStart) := rfl

theorem next_lower (table : Table ι) {fStart : Int} (more : 0 ≤ fStart) :
    ∃ lower < fStart, ((backwards fStart).next key table).iterator = backwards lower := by
  rw [RegistryIterator.next, clamp_backwards, hasMore_backwards]
  by_cases beyond : fStart > 0 ∧ fStart > table.getSize
  · rw [if_pos beyond]
    split
    · exact ⟨table.getSize - 1 - 1, by omega, rfl⟩
    · exact ⟨table.getSize - 1, by omega, rfl⟩
  · rw [if_neg beyond]
    split
    · exact ⟨fStart - 1, by omega, rfl⟩
    · rename_i negative
      exact absurd (decide_eq_true more) negative

theorem next_inside {entries : List (Entry ι)} {i : Nat} {e : Entry ι} (here : entries[i]? = some e) :
    (backwards i).next key (tableOf entries) = ⟨e.2, e.1.getD [], backwards (i - 1), tableOf entries⟩ := by
  obtain ⟨inside, -⟩ := List.getElem?_eq_some_iff.mp here
  have within : ¬ ((i : Int) > 0 ∧ (i : Int) > (tableOf entries).getSize) := by
    rw [getSize_tableOf]
    omega
  rw [RegistryIterator.next, clamp_backwards, if_neg within, hasMore_backwards, if_pos (decide_eq_true (Int.natCast_nonneg i))]
  dsimp only [backwards]
  rw [Int.toNat_natCast, atIndex_tableOf inside, child_tableOf here, slotName_tableOf here, Entry.asIFAObject_value]
  rfl

theorem next_length (entries : List (Entry ι)) : (backwards entries.length).next key (tableOf entries) =
    ⟨none, [], backwards (entries.length - 1), tableOf (entries ++ [(none, none)])⟩ := by
  have within : ¬ ((entries.length : Int) > 0 ∧ (entries.length : Int) > (tableOf entries).getSize) := by
    rw [getSize_tableOf]
    omega
  have made : (entries ++ [((none, none) : Entry ι)])[entries.length]? = some (none, none) := by simp
  have absent : slotName entries.length (tableOf entries) = none := by
    rw [tableOf, slotName, List.getElem?_eq_none (by rw [List.length_map])]
    rfl
  rw [RegistryIterator.next, clamp_backwards, if_neg within, hasMore_backwards, if_pos (decide_eq_true (Int.natCast_nonneg _))]
  dsimp only [backwards]
  rw [Int.toNat_natCast, atIndex_tableOf_length, child_tableOf made, absent]
  rfl

theorem next_beyond {entries : List (Entry ι)} {fStart : Int} (beyond : fStart > entries.length) :
    (backwards fStart).next key (tableOf entries) = (backwards (entries.length - 1)).next key (tableOf entries) := by
  have within : ¬ ((entries.length - 1 : Int) > 0 ∧ (entries.length - 1 : Int) > (entries.length : Int)) := by omega
  have same : (backwards fStart).clamp (tableOf entries) = (backwards (entries.length - 1)).clamp (tableOf entries) := by
    rw [clamp_backwards, clamp_backwards, getSize_tableOf, if_pos ⟨by omega, beyond⟩, if_neg within]
  rw [RegistryIterator.next, RegistryIterator.next, same]

theorem next_negative (table : Table ι) {fStart : Int} (negative : fStart < 0) :
    (backwards fStart).next key table = ⟨none, key, backwards fStart, table⟩ := by
  have within : ¬ (fStart > 0 ∧ fStart > table.getSize) := by omega
  rw [RegistryIterator.next, clamp_backwards, if_neg within, hasMore_backwards, if_neg (by simpa using negative)]

end Next

/-! ### Unregistering -/

theorem Distinct.sublist {entries fewer : List (Entry ι)} (distinct : Distinct entries) (sublist : fewer.Sublist entries) : Distinct fewer :=
  ⟨fun e mem => distinct.named e (sublist.subset mem), distinct.once.sublist (sublist.filterMap Prod.fst)⟩

theorem Distinct.nulls {entries : List (Entry ι)} (distinct : Distinct entries) (k : Nat) :
    Distinct (entries ++ nulls k) := by
  refine ⟨fun e mem => ?_, ?_⟩
  · obtain mem | mem := List.mem_append.mp mem
    · exact distinct.named e mem
    · rw [eq_null mem]
      simp
  · rw [List.filterMap_append, Registry.nulls, List.filterMap_replicate_of_none (f := Prod.fst) rfl, List.append_nil]
    exact distinct.once

theorem removeName_nil (table : Table ι) : table.removeName [] = table := by cases table <;> rfl

section Unregister

variable [DecidableEq ι]

def others (o : ι) (entries : List (Entry ι)) : List (Entry ι) := entries.filter fun e => e.1 = none ∨ e.2 ≠ some o

theorem others_real {o : ι} {entries : List (Option Bytes × ι)} (named : ∀ e ∈ entries, e.2 = o → e.1 ≠ none) :
    others o (real entries) = real (entries.filter fun e => e.2 ≠ o) := by
  rw [others, real, List.filter_map, real]
  refine congrArg _ (List.filter_congr fun e mem => ?_)
  have other := named e mem
  by_cases own : e.2 = o
  · simpa [own] using other own
  · simp [own]

theorem others_nulls (o : ι) (k : Nat) : others o (nulls k) = nulls k := by
  rw [others, List.filter_eq_self]
  intro e mem
  rw [eq_null mem]
  rfl

theorem others_append (o : ι) (entries more : List (Entry ι)) : others o (entries ++ more) = others o entries ++ others o more :=
  List.filter_append entries more

theorem aliasLoop_removes (o : ι) {entries passed : List (Entry ι)} (distinct : Distinct (entries ++ passed)) :
    tableOf (others o entries ++ passed) ∈ Loops.loop (aliasTurn o) (backwards (entries.length - 1), tableOf (entries ++ passed)) := by
  induction entries using List.reverseRecOn generalizing passed with
  | nil => exact Loops.mem_loop_of_ends rfl
  | append_singleton entries e ih =>
    have here : (entries ++ [e] ++ passed)[entries.length]? = some e := by simp
    have start : ((entries ++ [e]).length : Int) - 1 = entries.length := by
      rw [List.length_append, List.length_singleton]
      omega
    have next : aliasTurn o (backwards entries.length, tableOf (entries ++ [e] ++ passed)) = .inr (backwards (entries.length - 1),
        if e.2 = some o then (tableOf (entries ++ [e] ++ passed)).removeName (e.1.getD []) else tableOf (entries ++ [e] ++ passed)) := by
      rw [aliasTurn, hasMore_backwards, if_pos (decide_eq_true (Int.natCast_nonneg _)), next_inside [] here]
    rw [start, Loops.loop_goes_on next]
    rw [List.append_assoc, List.singleton_append] at distinct ⊢
    obtain ⟨name, obj⟩ := e
    by_cases own : obj = some o
    · rw [if_pos own]
      cases name with
      | none =>
        have kept : others o (entries ++ [(none, obj)]) = others o entries ++ [(none, obj)] := by simp [others]
        rw [Option.getD_none, removeName_nil, kept, List.append_assoc]
        exact ih distinct
      | some k =>
        have gone : others o (entries ++ [(some k, obj)]) = others o entries := by simp [others, own]
        rw [Option.getD_some, removeName_tableOf distinct, gone]
        exact ih (distinct.sublist ((List.sublist_cons_self _ _).append_left entries))
    · have kept : others o (entries ++ [(name, obj)]) = others o entries ++ [(name, obj)] := by simp [others, own]
      rw [if_neg own, kept, List.append_assoc]
      exact ih distinct

theorem aliasTurn_falls (o : ι) (s s' : RegistryIterator × Table ι) (inv : ∃ fStart, s.1 = backwards fStart) (next : aliasTurn o s = .inr s') :
    (∃ fStart, s'.1 = backwards fStart) ∧ (s'.1.fStart + 1).toNat < (s.1.fStart + 1).toNat := by
  obtain ⟨ri, table⟩ := s
  obtain ⟨fStart, rfl⟩ : ∃ fStart, ri = backwards fStart := inv
  rw [aliasTurn, hasMore_backwards] at next
  split at next
  · rename_i more
    have more := of_decide_eq_true more
    obtain ⟨lower, less, is⟩ := next_lower [] table more
    obtain rfl := Sum.inr.inj next
    dsimp only
    rw [is]
    exact ⟨⟨lower, rfl⟩, by dsimp only [backwards]; omega⟩
  · cases next

theorem removeAliases_tableOf (o : ι) {entries : List (Entry ι)} (distinct : Distinct entries) :
    removeAliases o (tableOf entries) = tableOf (others o entries) := by
  have whole : Distinct (entries ++ []) := by rwa [List.append_nil]
  have done := aliasLoop_removes o whole
  rw [List.append_nil, List.append_nil] at done
  refine Part.mem_unique ?_ done
  rw [removeAliases, make_backwards]
  refine @Loops.mem_loop_of_fuel_within _ _ _ (fun s => (s.1.fStart + 1).toNat) _ _ (fun _ _ => rfl) (aliasTurn_falls o) _ _ ⟨_, rfl⟩ ?_
  rw [getSize_tableOf]
  dsimp only [backwards]
  omega

theorem unregister_tableOf {entries : List (Entry ι)} {k : Bytes} {o : ι} (distinct : Distinct entries) (mem : (some k, some o) ∈ entries) :
    unregisterRegisterableObject k (tableOf entries) = tableOf (others o entries) := by
  obtain ⟨before, after, rfl⟩ := List.append_of_mem mem
  have isNamed : k ≠ [] := by
    rintro rfl
    exact distinct.named _ mem rfl
  have first : ((before ++ (some k, some o) :: after).map Entry.slot).find? (fun slot => slot.1 = some k) = some (some k, simple o) := by
    rw [List.map_append, List.find?_append, List.find?_eq_none.mpr (distinct.before_ne), Option.none_or, List.map_cons,
      List.find?_cons_of_pos (by exact decide_eq_true rfl)]
    rfl
  have found : find k (tableOf (before ++ (some k, some o) :: after)) = some o := by
    rw [find, tableOf, isDefined_array isNamed, named_array, if_neg isNamed, first]
    rfl
  have gone : others o (before ++ (some k, some o) :: after) = others o (before ++ after) := by simp [others, List.filter_append]
  rw [unregisterRegisterableObject, found, gone]
  dsimp only
  rw [removeName_tableOf distinct]
  exact removeAliases_tableOf o (distinct.sublist ((List.sublist_cons_self _ _).append_left before))

end Unregister

/-! ### The tables of registered objects -/

/-- The table of a registry whose objects have been registered, and none of them terminated. -/
structure Registered (ι : Type) where
  entries : List (Option Bytes × ι)
  distinct : Distinct (real entries)

namespace Registered

def table (r : Registered ι) : Table ι := tableOf (real r.entries)

def objects (r : Registered ι) : List ι := r.entries.map Prod.snd

def empty : Registered ι := ⟨[], nofun, List.nodup_nil⟩

def put (name : Bytes) (o : ι) : List (Option Bytes × ι) → List (Option Bytes × ι)
  | [] => [(some name, o)]
  | e :: entries => if e.1 = some name then (e.1, o) :: entries else e :: put name o entries

theorem change_real (name : Bytes) (o : ι) (entries : List (Option Bytes × ι)) :
    change name (fun _ => simple o) ((real entries).map Entry.slot) = (real (put name o entries)).map Entry.slot := by
  induction entries with
  | nil => rfl
  | cons e entries ih =>
    have split : change name (fun _ => simple o) ((real (e :: entries)).map Entry.slot) =
        if e.1 = some name then (e.1, simple o) :: (real entries).map Entry.slot
        else Entry.slot (e.1, some e.2) :: change name (fun _ => simple o) ((real entries).map Entry.slot) := rfl
    rw [split, ih, put]
    split <;> rfl

theorem put_named {name : Bytes} (isNamed : name ≠ []) {o : ι} {entries : List (Option Bytes × ι)}
    (named : ∀ e ∈ real entries, e.1 ≠ some []) : ∀ e ∈ real (put name o entries), e.1 ≠ some [] := by
  induction entries with
  | nil =>
    intro e mem
    obtain rfl := List.mem_singleton.mp mem
    simpa using isNamed
  | cons e entries ih =>
    obtain ⟨first, others⟩ := List.forall_mem_cons.mp named
    rw [put]
    split
    · exact List.forall_mem_cons.mpr ⟨first, others⟩
    · exact List.forall_mem_cons.mpr ⟨first, ih others⟩

theorem names_slots (entries : List (Entry ι)) : (entries.map Entry.slot).filterMap Prod.fst = entries.filterMap Prod.fst := by
  rw [List.filterMap_map]
  rfl

def objectOf (entries : List (Option Bytes × ι)) (name : Bytes) : Option ι := (entries.find? fun e => e.1 = some name).map Prod.snd

theorem objectOf_put (name : Bytes) (o : ι) (entries : List (Option Bytes × ι)) :
    objectOf (put name o entries) = Function.update (objectOf entries) name (some o) := by
  funext n
  rw [Function.update_apply]
  induction entries with
  | nil => by_cases same : n = name <;> simp [objectOf, put, same, eq_comm (a := name)]
  | cons e entries ih =>
    unfold objectOf at ih ⊢
    rw [put]
    by_cases first : e.1 = some name
    · by_cases same : n = name
      · simp [first, same]
      · simp [first, same, Ne.symm same]
    · by_cases here : e.1 = some n
      · have other : n ≠ name := fun same => first (same ▸ here)
        simp [here, other]
      · simpa [first, here] using ih

theorem find_table (r : Registered ι) (name : Bytes) : find name r.table = objectOf r.entries name := by
  obtain ⟨entries, distinct⟩ := r
  by_cases unnamed : name = []
  · have absent : entries.find? (fun e => e.1 = some name) = none := by
      refine List.find?_eq_none.mpr fun e mem same => ?_
      exact distinct.named _ (List.mem_map_of_mem mem) (unnamed ▸ of_decide_eq_true same)
    rw [objectOf, absent, unnamed]
    rfl
  · have found : ((real entries).map Entry.slot).find? (fun slot => slot.1 = some name) =
        (entries.find? fun e => e.1 = some name).map fun e => (e.1, simple e.2) := by
      rw [real, List.map_map, List.find?_map]
      rfl
    rw [find, table, tableOf, isDefined_array unnamed, named_array, if_neg unnamed, found, objectOf]
    cases entries.find? fun e => e.1 = some name <;> rfl

end Registered

inductive Change (ι : Type) where
  | register (name : Bytes) (o : ι)
  | unregister (name : Bytes)

section Answers

open Registered (objectOf)

variable [DecidableEq ι]

def Change.apply : Change ι → Table ι → Table ι
  | register name o => registerRegisterableObject name o
  | unregister name => unregisterRegisterableObject name

/-- What the table is for: a name leads to the object that was registered last under it, and an object is taken away with
all of its names. -/
def Change.revise : Change ι → (Bytes → Option ι) → Bytes → Option ι
  | register name o, answers => if name = [] then answers else Function.update answers name (some o)
  | unregister name, answers => fun n => if answers name ≠ none ∧ answers n = answers name then none else answers n

theorem objectOf_filter {entries : List (Option Bytes × ι)} (distinct : Distinct (real entries)) (o : ι) (n : Bytes) :
    objectOf (entries.filter fun e => e.1 = none ∨ some e.2 ≠ some o) n =
      if objectOf entries n = some o then none else objectOf entries n := by
  induction entries with
  | nil => rfl
  | cons e entries ih =>
    have rest := ih (distinct.sublist (List.sublist_cons_self _ _))
    obtain ⟨k, p⟩ := e
    by_cases here : k = some n
    · have absent : ∀ e ∈ entries, e.1 ≠ some n := by
        intro e mem same
        have once := distinct.once
        rw [real, List.map_cons, here, List.filterMap_cons_some (f := Prod.fst) (b := n) rfl, List.nodup_cons] at once
        exact once.1 (List.mem_filterMap.mpr ⟨(e.1, some e.2), List.mem_map_of_mem mem, same⟩)
      by_cases own : p = o
      · simpa [objectOf, here, own] using fun a b mem _ => absent (a, b) mem
      · simp [objectOf, here, own]
    · have skipped : objectOf ((k, p) :: entries) n = objectOf entries n := by simp [objectOf, here]
      rw [skipped, ← rest, List.filter_cons]
      split
      · simp [objectOf, here]
      · rfl

namespace Registered

theorem exists_register (name : Bytes) (o : ι) (r : Registered ι) : ∃ r' : Registered ι,
    registerRegisterableObject name o r.table = r'.table ∧ objectOf r'.entries = (Change.register name o).revise (objectOf r.entries) := by
  obtain ⟨entries, named, once⟩ := r
  by_cases unnamed : name = []
  · refine ⟨⟨entries ++ [(none, o)], ?_, ?_⟩, ?_, ?_⟩
    · rw [real_append]
      exact List.forall_mem_append.mpr ⟨named, List.forall_mem_singleton.mpr (by simp)⟩
    · rw [real_append, List.filterMap_append]
      exact (List.append_nil _).symm ▸ once
    · rw [unnamed, registerRegisterableObject, table, tableOf, withName_array_nil, table, tableOf, real_append, List.map_append]
      rfl
    · funext n
      simp [Change.revise, unnamed, objectOf]
  · have changed : (tableOf (real entries)).withName () name (fun _ => simple o) =
        array () (change name (fun _ => simple o) ((real entries).map Entry.slot)) := withName_array unnamed _
    rw [change_real] at changed
    have kept : ((tableOf (real entries)).withName () name fun _ => simple o).Distinct := by
      refine distinct_withName ?_ name _
      rw [tableOf, Any.Distinct, names_slots]
      exact once
    rw [changed, Any.Distinct, names_slots] at kept
    exact ⟨⟨put name o entries, put_named unnamed named, kept⟩, changed, (objectOf_put name o entries).trans (if_neg unnamed).symm⟩

theorem exists_unregister (name : Bytes) (r : Registered ι) : ∃ r' : Registered ι,
    unregisterRegisterableObject name r.table = r'.table ∧ objectOf r'.entries = (Change.unregister name).revise (objectOf r.entries) := by
  cases found : objectOf r.entries name with
  | none => exact ⟨r, by rw [unregisterRegisterableObject, find_table, found], by simp [Change.revise, found]⟩
  | some o =>
    have mem : (some name, o) ∈ r.entries := by
      obtain ⟨⟨k, p⟩, first, rfl⟩ := Option.map_eq_some_iff.mp found
      obtain rfl : k = some name := by simpa using List.find?_some first
      exact List.mem_of_find?_eq_some first
    have fewer : others o (real r.entries) = real (r.entries.filter fun e => e.1 = none ∨ some e.2 ≠ some o) := List.filter_map
    refine ⟨⟨r.entries.filter fun e => e.1 = none ∨ some e.2 ≠ some o, r.distinct.sublist (List.filter_sublist.map _)⟩, ?_, ?_⟩
    · rw [table, unregister_tableOf r.distinct (List.mem_map.mpr ⟨_, mem, rfl⟩), fewer, table]
    · funext n
      rw [objectOf_filter r.distinct, Change.revise, found]
      simp

end Registered

end Answers

end Coast.Registry
