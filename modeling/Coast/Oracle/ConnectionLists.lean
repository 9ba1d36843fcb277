import Coast.Anything.SlotRemoval
import Coast.Lib.Pool
import Coast.Regex.Program
import Mathlib.Algebra.Order.Group.Multiset

/-!
# The lists of an Oracle connection pool

`fListOfConnections` is one value with a slot `Unused`, the list of the connections that are closed, and
a slot `Open`, which has a list of connections for each second in which one was put back. What the code
does to the value is followed here by two plain lists.
-/

namespace Coast.Oracle

open Any
open Regex (cstr)

inductive Item where
  | long (n : Int)
  | object (pConnection : Option Nat)
  | text (s : Bytes)
  deriving DecidableEq

abbrev Lists := Any Item Unit

def asIFAObject : Lists → Option Nat
  | simple (.object pConnection) => pConnection
  | _ => none

/-- `AsCharPtr("")`; only texts are asked for theirs. -/
def asCharPtr : Lists → Bytes
  | simple (.text s) => cstr s
  | _ => []

def slotName (i : Nat) : Lists → Option Bytes
  | array _ slots => (slots[i]?.map Prod.fst).join
  | _ => none

def object (pConnection : Option Nat) : Lists := simple (.object pConnection)

def serverDotUser (server user : Bytes) : Bytes := server ++ '.'.toUInt8 :: user

/-! ### The code -/

namespace ConnectionPool

def lookup (lists : Lists) (path : Bytes) : Option Lists := lists.lookupPath '.'.toUInt8 ':'.toUInt8 path

/-- What the views of the value below `Open` show now. -/
def openView (lists : Lists) : Lists := (lookup lists (ascii "Open")).getD null

def inOpen (f : Lists → Lists) (lists : Lists) : Lists := lists.withName () (ascii "Open") f

def inUnused (f : Lists → Lists) (lists : Lists) : Lists := lists.withName () (ascii "Unused") f

/-- `IntReleaseConnection`, given the server and the user if the connection is open. -/
def intReleaseConnection (pConnection : Nat) (isOpen : Option (Bytes × Bytes)) (aStamp : Bytes) (lists : Lists) : Lists :=
  match isOpen with
  | some (server, user) =>
    let lists := if (lookup lists (ascii "Open")).isSome then lists else lists |> inOpen fun _ => array () []
    let anyToStore := array () [(none, object (some pConnection)), (none, simple (.text (serverDotUser server user)))]
    lists |> inOpen fun anyTimeStamp => anyTimeStamp.withName () aStamp (append () anyToStore)
  | none => lists |> inUnused (append () (object (some pConnection)))

def init (nrOfConnections : Nat) : Lists :=
  (List.range nrOfConnections).foldl (fun lists i => intReleaseConnection i none [] lists)
    ((null : Lists).withName () (ascii "Size") fun _ => simple (.long nrOfConnections))

/-- The inner loop of `IntGetOpen`: the index of its last iteration if it was done there. -/
def connIter (strToLookup : Bytes) (roaTSEntry : Lists) : Option Nat :=
  (List.range roaTSEntry.getSize).find? fun j => strToLookup.isEmpty || cstr strToLookup == asCharPtr ((roaTSEntry.child j).child 1)

def tsIter (strToLookup : Bytes) (roaTimeStamp : Lists) : Option (Nat × Nat) :=
  (List.range roaTimeStamp.getSize).findSome? fun i => (connIter strToLookup (roaTimeStamp.child i)).map fun j => (i, j)

def intGetOpen (server user : Bytes) (lists : Lists) : Option Nat × Lists :=
  match lookup lists (ascii "Open") with
  | none => (none, lists)
  | some roaTimeStamp =>
    let strToLookup := if server.isEmpty = false ∧ user.isEmpty = false then serverDotUser server user else server
    match tsIter strToLookup roaTimeStamp with
    | none => (none, lists)
    | some (i, j) =>
      let strTSEntry := ascii "Open" ++ indexPath [i]
      let strConnEntry := ascii "Open" ++ indexPath [i, j]
      let pConnection := asIFAObject (((roaTimeStamp.child i).child j).child 0)
      let lists := SlotCleaner.operate () lists strConnEntry
      -- `roaTSEntry` is a view of the entry from which the connection has just been removed
      let roaTSEntry := (openView lists).child i
      (pConnection, if roaTSEntry.getSize = 0 then SlotCleaner.operate () lists strTSEntry else lists)

def intBorrowConnection (server user : Bytes) (lists : Lists) : Option Nat × Lists :=
  match if server.isEmpty ∨ user.isEmpty then (none, lists) else intGetOpen server user lists with
  | (some pConnection, lists) => (some pConnection, lists)
  | (none, lists) =>
    let lists := lists |> inUnused id
    let unused := lists.child (lists.atName () (ascii "Unused")).2
    if unused.getSize ≠ 0 then (asIFAObject (unused.child 0), lists |> inUnused (removeIndex 0)) else intGetOpen [] [] lists

/-- The connection that `IntBorrowConnection` closes before it returns it. -/
def closedOnBorrow (server user : Bytes) (lists : Lists) : Option Nat :=
  match if server.isEmpty ∨ user.isEmpty then (none, lists) else intGetOpen server user lists with
  | (some _, _) => none
  | (none, lists) =>
    let lists := lists |> inUnused id
    let unused := lists.child (lists.atName () (ascii "Unused")).2
    if unused.getSize ≠ 0 then none else (intGetOpen [] [] lists).1

/-- The inner loop of `CheckCloseOpenedConnections`, given which connections can be closed. -/
def closeConnections (close : Nat → Bool) : Nat → Bool × Lists → Bool × Lists
  | 0, r => r
  | fuel + 1, (bRet, lists) =>
    let anyTS := (openView lists).child 0
    if anyTS.getSize = 0 then (bRet, lists)
    else
      let pConnection := asIFAObject ((anyTS.child 0).child 0)
      let lists := lists |> inOpen (modifyChild 0 (removeIndex 0))
      closeConnections close fuel (bRet || pConnection.any close, lists |> inUnused (append () (object pConnection)))

def closeStamps (close : Nat → Bool) (old : Option Bytes → Bool) : Nat → Bool × Lists → Bool × Lists
  | 0, r => r
  | fuel + 1, (bRet, lists) =>
    let anyTimeStamp := openView lists
    if anyTimeStamp.getSize ≠ 0 ∧ old (slotName 0 anyTimeStamp) then
      let (bRet, lists) := closeConnections close (anyTimeStamp.child 0).getSize (bRet, lists)
      closeStamps close old fuel (bRet, lists |> inOpen (removeIndex 0))
    else (bRet, lists)

def checkCloseOpenedConnections (close : Nat → Bool) (old : Option Bytes → Bool) (lists : Lists) : Bool × Lists :=
  match lookup lists (ascii "Open") with
  | none => (false, lists)
  | some anyTimeStamp => closeStamps close old anyTimeStamp.getSize (false, lists)

end ConnectionPool

/-! ### The lists without their value -/

abbrev Stamp := Option Bytes × List (Nat × Bytes)

abbrev Stamps := List Stamp

structure Stored where
  size : Nat
  unused : List Nat
  opened : Option Stamps

namespace Stored

def ofUnused (pConnection : Nat) : Option Bytes × Lists := (none, object (some pConnection))

def ofEntry (e : Nat × Bytes) : Option Bytes × Lists := (none, array () [(none, object (some e.1)), (none, simple (.text e.2))])

def ofStamp (t : Stamp) : Option Bytes × Lists := (t.1, array () (t.2.map ofEntry))

def unusedAny (unused : List Nat) : Lists := array () (unused.map ofUnused)

def stampsAny (ts : Stamps) : Lists := array () (ts.map ofStamp)

/-- The value; the list `Unused` is made for the first connection. -/
def any (s : Stored) : Lists :=
  array () ((some (ascii "Size"), simple (.long s.size)) ::
    ((if s.size = 0 then [] else [(some (ascii "Unused"), unusedAny s.unused)]) ++
      s.opened.toList.map fun ts => (some (ascii "Open"), stampsAny ts)))

def stampConnections (t : Stamp) : Multiset Nat := t.2.map Prod.fst

def openConnections (ts : Stamps) : Multiset Nat := Pool.total stampConnections ts

def entries (ts : Stamps) : List (Nat × Bytes) := ts.flatMap Prod.snd

def connections (s : Stored) : Multiset Nat := s.unused + openConnections (s.opened.getD [])

/-- No time stamp without connections, and indices that fit in a `long`. -/
structure Good (s : Stored) : Prop where
  sized : s.size ≠ 0
  kept : ∀ t ∈ s.opened.getD [], t.2 ≠ []
  fits : s.connections.card < 2 ^ 63

/-! ### Slots -/

theorem any_of_ne_zero {s : Stored} (sized : s.size ≠ 0) :
    s.any = array () ((some (ascii "Size"), simple (.long s.size)) :: (some (ascii "Unused"), unusedAny s.unused) ::
      s.opened.toList.map fun ts => (some (ascii "Open"), stampsAny ts)) := by
  rw [any, if_neg sized]
  rfl

theorem append_array (slots : List (Option Bytes × Lists)) (value : Lists) :
    append () value (array () slots) = array () (slots ++ [(none, value)]) := by
  have one : slots.length + 1 - slots.length = 1 := by omega
  have last : (slots ++ [(none, (null : Lists))]).modify slots.length (fun slot => (slot.1, value)) = slots ++ [(none, value)] := by
    rw [List.modify_eq_take_cons_drop (by simp)]
    simp
  rw [append, getSize, atIndex_array, one, modifyChild]
  exact congrArg (array ()) last

theorem append_null (value : Lists) : append () value null = array () [(none, value)] := rfl

theorem ofEntry_injective : Function.Injective ofEntry := by
  rintro ⟨p, text⟩ ⟨p', text'⟩ same
  simp only [ofEntry, object, Prod.mk.injEq, array.injEq, simple.injEq, List.cons.injEq, Item.object.injEq, Item.text.injEq,
    Option.some.injEq] at same
  obtain ⟨-, -, ⟨-, rfl⟩, ⟨-, rfl⟩, -⟩ := same
  rfl

theorem ofStamp_injective : Function.Injective ofStamp := by
  rintro ⟨name, es⟩ ⟨name', es'⟩ same
  obtain ⟨names, same⟩ := Prod.mk.inj same
  exact Prod.ext names (List.map_injective_iff.mpr ofEntry_injective (array.inj same).2)

theorem ofUnused_injective : Function.Injective ofUnused := by
  intro p p' same
  exact Option.some.inj (Item.object.inj (simple.inj (Prod.mk.inj same).2))

theorem any_injective {s s' : Stored} (sized : s.size ≠ 0) (sized' : s'.size ≠ 0) (same : s.any = s'.any) : s = s' := by
  obtain ⟨size, unused, opened⟩ := s
  obtain ⟨size', unused', opened'⟩ := s'
  rw [any_of_ne_zero sized, any_of_ne_zero sized'] at same
  obtain ⟨first, same⟩ := List.cons.inj (array.inj same).2
  obtain ⟨second, third⟩ := List.cons.inj same
  obtain rfl : size = size' := Int.ofNat.inj (Item.long.inj (simple.inj (Prod.mk.inj first).2))
  obtain rfl := List.map_injective_iff.mpr ofUnused_injective (array.inj (Prod.mk.inj second).2).2
  congr 1
  cases opened with
  | none =>
    cases opened' with
    | none => rfl
    | some ts' => cases third
  | some ts =>
    cases opened' with
    | none => cases third
    | some ts' =>
      obtain ⟨slot, -⟩ := List.cons.inj third
      exact congrArg some (List.map_injective_iff.mpr ofStamp_injective (array.inj (Prod.mk.inj slot).2).2)

section Slots

variable {s : Stored} (sized : s.size ≠ 0)

include sized

theorem inUnused_any {f : Lists → Lists} {unused : List Nat} (eq : f (unusedAny s.unused) = unusedAny unused) :
    ConnectionPool.inUnused f s.any = { s with unused := unused }.any := by
  rw [any_of_ne_zero sized, any_of_ne_zero (s := { s with unused := unused }) sized, ← eq]
  rfl

theorem lookup_open : ConnectionPool.lookup s.any (ascii "Open") = s.opened.map stampsAny := by
  rw [any_of_ne_zero sized]
  cases s.opened <;> rfl

theorem openView_any : ConnectionPool.openView s.any = (s.opened.map stampsAny).getD null := by
  rw [ConnectionPool.openView, lookup_open sized]

theorem inOpen_any {f : Lists → Lists} {ts ts' : Stamps} (opened : s.opened = some ts) (eq : f (stampsAny ts) = stampsAny ts') :
    ConnectionPool.inOpen f s.any = { s with opened := some ts' }.any := by
  rw [any_of_ne_zero sized, any_of_ne_zero (s := { s with opened := some ts' }) sized, opened]
  simp only [Option.toList_some, List.map_cons, List.map_nil]
  rw [← eq]
  rfl

theorem inOpen_new (opened : s.opened = none) :
    ConnectionPool.inOpen (fun _ => array () []) s.any = { s with opened := some [] }.any := by
  rw [any_of_ne_zero sized, any_of_ne_zero (s := { s with opened := some [] }) sized, opened]
  rfl

end Slots

/-! ### Putting a connection back -/

def addEntry (aStamp : Bytes) (e : Nat × Bytes) (ts : Stamps) : Stamps :=
  match if aStamp = [] then none else ts.findIdx? fun t => t.1 = some aStamp with
  | some i => ts.modify i fun t => (t.1, t.2 ++ [e])
  | none => ts ++ [(if aStamp = [] then none else some aStamp, [e])]

theorem findIndex_stampsAny (aStamp : Bytes) (ts : Stamps) :
    (stampsAny ts).findIndex aStamp = if aStamp = [] then none else ts.findIdx? fun t => t.1 = some aStamp := by
  rw [stampsAny, findIndex, List.findIdx?_map]
  rfl

theorem modify_map {α β : Type} {image : α → β} {f : β → β} {g : α → α} {xs : List α} {i : Nat}
    (eq : ∀ x, xs[i]? = some x → f (image x) = image (g x)) : (xs.map image).modify i f = (xs.modify i g).map image := by
  apply List.ext_getElem?
  intro j
  rw [List.getElem?_modify, List.getElem?_map, List.getElem?_map, List.getElem?_modify]
  by_cases here : i = j
  · subst here
    cases at_i : xs[i]? with
    | none => rfl
    | some x => simp [eq x at_i]
  · simp [here]

theorem modifyChild_stampsAny (ts : Stamps) (i : Nat) {f : Lists → Lists} {g : List (Nat × Bytes) → List (Nat × Bytes)}
    (eq : ∀ es, f (array () (es.map ofEntry)) = array () ((g es).map ofEntry)) :
    (stampsAny ts).modifyChild i f = stampsAny (ts.modify i fun t => (t.1, g t.2)) := by
  rw [stampsAny, stampsAny, modifyChild]
  congr 1
  refine modify_map fun t _ => ?_
  rw [ofStamp, ofStamp, eq]

theorem append_entries (e : Nat × Bytes) (es : List (Nat × Bytes)) :
    append () (ofEntry e).2 (array () (es.map ofEntry)) = array () ((es ++ [e]).map ofEntry) := by
  rw [append_array, List.map_append]
  rfl

theorem modifyChild_new (name : Option Bytes) (e : Nat × Bytes) (ts : Stamps) :
    (array () (ts.map ofStamp ++ [(name, null)])).modifyChild ts.length (append () (ofEntry e).2) = stampsAny (ts ++ [(name, [e])]) := by
  have last : (ts.map ofStamp ++ [(name, null)]).modify ts.length (fun slot => (slot.1, append () (ofEntry e).2 slot.2)) =
      ts.map ofStamp ++ [(name, append () (ofEntry e).2 null)] := by
    rw [List.modify_eq_take_cons_drop (by simp)]
    simp
  rw [modifyChild, last, append_null, stampsAny, List.map_append]
  rfl

theorem withName_stampsAny (aStamp : Bytes) (e : Nat × Bytes) (ts : Stamps) :
    (stampsAny ts).withName () aStamp (append () (ofEntry e).2) = stampsAny (addEntry aStamp e ts) := by
  have found := findIndex_stampsAny aStamp ts
  by_cases unnamed : aStamp = []
  · have one : ts.length + 1 - ts.length = 1 := by omega
    have made : (stampsAny ts).atName () aStamp = (array () (ts.map ofStamp ++ [(none, null)]), ts.length) := by
      rw [atName, if_pos unnamed, stampsAny, getSize, atIndex_array, List.length_map, one]
      rfl
    rw [withName, made, modifyChild_new, addEntry, if_pos unnamed, if_pos unnamed]
  · rw [if_neg unnamed] at found
    cases at_i : ts.findIdx? fun t => t.1 = some aStamp with
    | some i =>
      have made := atName_self () unnamed (found.trans at_i)
      rw [withName, made, modifyChild_stampsAny ts i (append_entries e), addEntry, if_neg unnamed, at_i]
    | none =>
      have made : (stampsAny ts).atName () aStamp = (array () (ts.map ofStamp ++ [(some aStamp, null)]), ts.length) := by
        rw [atName, if_neg unnamed, found, at_i]
        simp [stampsAny, expand]
      rw [withName, made, modifyChild_new, addEntry, if_neg unnamed, if_neg unnamed, at_i]

theorem modify_eq_replace {ts : Stamps} {i : Nat} {t : Stamp} (here : ts[i]? = some t)
    (f : Stamp → Stamp) : ts.modify i f = Pool.replace ts i (some (f t)) := by
  obtain ⟨inside, rfl⟩ := List.getElem?_eq_some_iff.mp here
  exact List.modify_eq_set_getElem? f i ts |>.trans (by simp [Pool.replace, inside])

theorem addEntry_eq (aStamp : Bytes) (e : Nat × Bytes) (ts : Stamps) :
    (∃ (i : Nat) (t : Stamp), ts[i]? = some t ∧
      addEntry aStamp e ts = Pool.replace ts i (some (t.1, t.2 ++ [e]))) ∨ ∃ name, addEntry aStamp e ts = ts ++ [(name, [e])] := by
  rw [addEntry]
  split
  · rename_i i found
    split at found
    · cases found
    · obtain ⟨inside, -⟩ := List.findIdx?_eq_some_iff_getElem.mp found
      have here := List.getElem?_eq_getElem inside
      exact .inl ⟨i, ts[i], here, modify_eq_replace here _⟩
  · exact .inr ⟨_, rfl⟩

theorem openConnections_addEntry (aStamp : Bytes) (e : Nat × Bytes) (ts : Stamps) :
    openConnections (addEntry aStamp e ts) = e.1 ::ₘ openConnections ts := by
  obtain ⟨i, t, here, eq⟩ | ⟨name, eq⟩ := addEntry_eq aStamp e ts
  · have exchanged := Pool.total_replace stampConnections here (some (t.1, t.2 ++ [e]))
    have more : stampConnections (t.1, t.2 ++ [e]) = {e.1} + stampConnections t := by
      rw [stampConnections, stampConnections, List.map_append, ← Multiset.coe_add, Multiset.add_comm]
      rfl
    rw [Option.map_some, Option.getD_some, more, ← Multiset.add_assoc] at exchanged
    rw [eq, openConnections, add_right_cancel exchanged, Multiset.add_comm]
    rfl
  · rw [eq, openConnections, Pool.total_append, Pool.total_cons, Pool.total_nil, add_zero, Multiset.add_comm]
    rfl

theorem kept_addEntry {aStamp : Bytes} {e : Nat × Bytes} {ts : Stamps} (kept : ∀ t ∈ ts, t.2 ≠ []) :
    ∀ t ∈ addEntry aStamp e ts, t.2 ≠ [] := by
  intro t mem
  obtain ⟨i, t', here, eq⟩ | ⟨name, eq⟩ := addEntry_eq aStamp e ts
  · rw [eq] at mem
    obtain mem | same := Pool.mem_replace mem
    · exact kept t mem
    · obtain rfl := Option.some.inj same
      exact List.append_ne_nil_of_right_ne_nil t'.2 (List.cons_ne_nil e [])
  · rw [eq] at mem
    obtain mem | mem := List.mem_append.mp mem
    · exact kept t mem
    · obtain rfl := List.mem_singleton.mp mem
      exact List.cons_ne_nil e []

theorem mem_entries_addEntry {aStamp : Bytes} {e x : Nat × Bytes} {ts : Stamps} (mem : x ∈ entries (addEntry aStamp e ts)) :
    x = e ∨ x ∈ entries ts := by
  obtain ⟨t, stamp, within⟩ := List.mem_flatMap.mp mem
  obtain ⟨i, t', here, eq⟩ | ⟨name, eq⟩ := addEntry_eq aStamp e ts
  · rw [eq] at stamp
    obtain stamp | same := Pool.mem_replace stamp
    · exact .inr (List.mem_flatMap.mpr ⟨t, stamp, within⟩)
    · obtain rfl := Option.some.inj same
      obtain within | within := List.mem_append.mp within
      · exact .inr (List.mem_flatMap.mpr ⟨t', List.mem_of_getElem? here, within⟩)
      · exact .inl (List.mem_singleton.mp within)
  · rw [eq] at stamp
    obtain stamp | stamp := List.mem_append.mp stamp
    · exact .inr (List.mem_flatMap.mpr ⟨t, stamp, within⟩)
    · obtain rfl := List.mem_singleton.mp stamp
      exact .inl (List.mem_singleton.mp within)

def put (pConnection : Nat) (isOpen : Option (Bytes × Bytes)) (aStamp : Bytes) (s : Stored) : Stored :=
  match isOpen with
  | some (server, user) => { s with opened := some (addEntry aStamp (pConnection, serverDotUser server user) (s.opened.getD [])) }
  | none => { s with unused := s.unused ++ [pConnection] }

theorem intReleaseConnection_put {s : Stored} (sized : s.size ≠ 0) (pConnection : Nat) (isOpen : Option (Bytes × Bytes)) (aStamp : Bytes) :
    ConnectionPool.intReleaseConnection pConnection isOpen aStamp s.any = (s.put pConnection isOpen aStamp).any := by
  cases isOpen with
  | none =>
    have appended : append () (object (some pConnection)) (unusedAny s.unused) = unusedAny (s.unused ++ [pConnection]) := by
      rw [unusedAny, append_array, unusedAny, List.map_append]
      rfl
    exact inUnused_any sized appended
  | some who =>
    let e := (pConnection, serverDotUser who.1 who.2)
    let ts := s.opened.getD []
    have there : (if (ConnectionPool.lookup s.any (ascii "Open")).isSome then s.any else ConnectionPool.inOpen (fun _ => array () []) s.any) =
        { s with opened := some ts }.any := by
      rw [lookup_open sized]
      cases opened : s.opened with
      | none =>
        have new : ts = [] := congrArg (·.getD []) opened
        rw [new]
        exact inOpen_new sized opened
      | some old =>
        have same : { s with opened := some ts } = s := by
          show Stored.mk s.size s.unused (some (s.opened.getD [])) = s
          cases s
          cases opened
          rfl
        rw [same]
        rfl
    have changed := inOpen_any (s := { s with opened := some ts }) sized rfl (withName_stampsAny aStamp e ts)
    rw [ConnectionPool.intReleaseConnection, there]
    exact changed

theorem connections_put (pConnection : Nat) (isOpen : Option (Bytes × Bytes)) (aStamp : Bytes) (s : Stored) :
    (s.put pConnection isOpen aStamp).connections = pConnection ::ₘ s.connections := by
  cases isOpen with
  | none =>
    rw [put, connections, connections, ← Multiset.coe_add, Multiset.add_comm (s.unused : Multiset Nat), Multiset.add_assoc]
    rfl
  | some who => rw [put, connections, connections, Option.getD_some, openConnections_addEntry, Multiset.add_cons]

theorem intReleaseConnection_any {s : Stored} (sized : s.size ≠ 0) (kept : ∀ t ∈ s.opened.getD [], t.2 ≠ []) (pConnection : Nat)
    (isOpen : Option (Bytes × Bytes)) (aStamp : Bytes) :
    ∃ s' : Stored, ConnectionPool.intReleaseConnection pConnection isOpen aStamp s.any = s'.any ∧ s'.size = s.size ∧
      (∀ t ∈ s'.opened.getD [], t.2 ≠ []) ∧ s'.connections = pConnection ::ₘ s.connections := by
  refine ⟨s.put pConnection isOpen aStamp, intReleaseConnection_put sized pConnection isOpen aStamp, ?_, ?_,
    connections_put pConnection isOpen aStamp s⟩
  · cases isOpen <;> rfl
  · cases isOpen with
    | none => exact kept
    | some who => exact kept_addEntry kept

theorem init_any {nrOfConnections : Nat} : ConnectionPool.init nrOfConnections = any ⟨nrOfConnections, List.range nrOfConnections, none⟩ := by
  cases nrOfConnections with
  | zero => rfl
  | succ n =>
    have filled : ∀ k, (List.range (k + 1)).foldl (fun lists i => ConnectionPool.intReleaseConnection i none [] lists)
        ((null : Lists).withName () (ascii "Size") fun _ => simple (.long (n + 1 : Nat))) = any ⟨n + 1, List.range (k + 1), none⟩ := by
      intro k
      induction k with
      | zero => rfl
      | succ k ih =>
        have put : append () (object (some (k + 1))) (unusedAny (List.range (k + 1))) = unusedAny (List.range (k + 1) ++ [k + 1]) := by
          rw [unusedAny, append_array, unusedAny, List.map_append]
          rfl
        rw [List.range_succ, List.foldl_append, ih]
        exact inUnused_any (s := ⟨n + 1, List.range (k + 1), none⟩) (Nat.succ_ne_zero n) put
    exact filled n

/-! ### Looking through the open connections -/

theorem child_map {α : Type} {image : α → Option Bytes × Lists} {xs : List α} {i : Nat} {x : α} (here : xs[i]? = some x) :
    (array () (xs.map image)).child i = (image x).2 := by
  rw [child, List.getElem?_map, here]
  rfl

def answers (strToLookup : Bytes) (e : Nat × Bytes) : Bool := strToLookup.isEmpty || cstr strToLookup == cstr e.2

theorem asks_entry {strToLookup : Bytes} {es : List (Nat × Bytes)} {j : Nat} {e : Nat × Bytes} (here : es[j]? = some e) :
    (strToLookup.isEmpty || cstr strToLookup == asCharPtr (((array () (es.map ofEntry) : Lists).child j).child 1)) =
      answers strToLookup e := by
  rw [child_map here]
  rfl

theorem connIter_some {strToLookup : Bytes} {es : List (Nat × Bytes)} {j : Nat}
    (found : ConnectionPool.connIter strToLookup (array () (es.map ofEntry)) = some j) :
    ∃ e, es[j]? = some e ∧ answers strToLookup e = true ∧ ∀ x ∈ es.take j, answers strToLookup x = false := by
  obtain ⟨asked, mem, before⟩ := List.find?_range_eq_some.mp found
  have inside := List.mem_range.mp mem
  rw [getSize, List.length_map] at inside
  have here := List.getElem?_eq_getElem inside
  rw [asks_entry here] at asked
  refine ⟨es[j], here, asked, fun x within => ?_⟩
  obtain ⟨k, less, is⟩ := List.getElem_of_mem within
  rw [List.length_take] at less
  have other := before k (by omega)
  rw [asks_entry (e := x) (by rw [← is, List.getElem_take, List.getElem?_eq_getElem]), Bool.not_eq_true'] at other
  exact other

theorem connIter_none {strToLookup : Bytes} {es : List (Nat × Bytes)}
    (none : ConnectionPool.connIter strToLookup (array () (es.map ofEntry)) = none) : ∀ e ∈ es, answers strToLookup e = false := by
  intro e mem
  obtain ⟨j, inside, is⟩ := List.getElem_of_mem mem
  have other := List.find?_range_eq_none.mp none j (by rw [getSize, List.length_map]; exact inside)
  rw [asks_entry (e := e) (by rw [← is, List.getElem?_eq_getElem]), Bool.not_eq_true'] at other
  exact other

theorem findSome?_range {β : Type} {f : Nat → Option β} {n : Nat} {b : β} (found : (List.range n).findSome? f = some b) :
    ∃ i, i < n ∧ f i = some b ∧ ∀ k < i, f k = none := by
  induction n with
  | zero => cases found
  | succ n ih =>
    rw [List.range_succ, List.findSome?_append] at found
    cases early : (List.range n).findSome? f with
    | some c =>
      rw [early] at found
      obtain ⟨i, less, there, before⟩ := ih (early.trans found)
      exact ⟨i, Nat.lt_succ_of_lt less, there, before⟩
    | none =>
      rw [early, Option.none_or, List.findSome?_singleton] at found
      exact ⟨n, Nat.lt_succ_self n, found, fun k less => List.findSome?_eq_none_iff.mp early k (List.mem_range.mpr less)⟩

theorem tsIter_some {strToLookup : Bytes} {ts : Stamps} {i j : Nat} (found : ConnectionPool.tsIter strToLookup (stampsAny ts) = some (i, j)) :
    ∃ t e, ts[i]? = some t ∧ t.2[j]? = some e ∧ answers strToLookup e = true ∧
      ∀ x ∈ entries (ts.take i) ++ t.2.take j, answers strToLookup x = false := by
  obtain ⟨i', inside, eq, before⟩ := findSome?_range found
  obtain ⟨j', inner, eq⟩ := Option.map_eq_some_iff.mp eq
  obtain ⟨rfl, rfl⟩ := Prod.mk.inj eq
  rw [stampsAny, getSize, List.length_map] at inside
  have here := List.getElem?_eq_getElem inside
  rw [stampsAny, child_map here] at inner
  obtain ⟨e, entry, asked, others⟩ := connIter_some inner
  refine ⟨ts[i'], e, here, entry, asked, fun x mem => ?_⟩
  obtain mem | mem := List.mem_append.mp mem
  · obtain ⟨t, early, within⟩ := List.mem_flatMap.mp mem
    obtain ⟨k, less, rfl⟩ := List.getElem_of_mem early
    rw [List.length_take] at less
    have skipped := Option.map_eq_none_iff.mp (before k (by omega))
    rw [stampsAny, child_map (List.getElem?_eq_getElem (by omega))] at skipped
    rw [List.getElem_take] at within
    exact connIter_none skipped x within
  · exact others x mem

theorem tsIter_none {strToLookup : Bytes} {ts : Stamps} (none : ConnectionPool.tsIter strToLookup (stampsAny ts) = none) :
    ∀ e ∈ entries ts, answers strToLookup e = false := by
  intro e mem
  obtain ⟨t, inside, within⟩ := List.mem_flatMap.mp mem
  obtain ⟨i, less, rfl⟩ := List.getElem_of_mem inside
  have skipped := List.findSome?_eq_none_iff.mp none i (by
    rw [List.mem_range, stampsAny, getSize, List.length_map]
    exact less)
  rw [Option.map_eq_none_iff, stampsAny, child_map (List.getElem?_eq_getElem less)] at skipped
  exact connIter_none skipped e within

theorem openConnections_entries (ts : Stamps) : openConnections ts = ((entries ts).map Prod.fst : List Nat) := by
  induction ts with
  | nil => rfl
  | cons t ts ih =>
    have both : openConnections (t :: ts) = stampConnections t + openConnections ts := Pool.total_cons _ t ts
    have front : entries (t :: ts) = t.2 ++ entries ts := List.flatMap_cons
    rw [both, ih, front, List.map_append, ← Multiset.coe_add]
    rfl

theorem length_le_card {ts : Stamps} (kept : ∀ t ∈ ts, t.2 ≠ []) : ts.length ≤ (openConnections ts).card := by
  induction ts with
  | nil => exact Nat.le_refl 0
  | cons t ts ih =>
    have some := List.length_pos_of_ne_nil (kept t List.mem_cons_self)
    have rest := ih fun t mem => kept t (List.mem_cons_of_mem _ mem)
    have first : (stampConnections t).card = t.2.length := by
      rw [stampConnections, Multiset.coe_card, List.length_map]
    have both : openConnections (t :: ts) = stampConnections t + openConnections ts := Pool.total_cons _ t ts
    rw [both, Multiset.card_add, first, List.length_cons]
    omega

theorem length_le_card_of_mem {ts : Stamps} {t : Stamp} (mem : t ∈ ts) :
    t.2.length ≤ (openConnections ts).card := by
  obtain ⟨before, after, rfl⟩ := List.append_of_mem mem
  have first : (stampConnections t).card = t.2.length := by
    rw [stampConnections, Multiset.coe_card, List.length_map]
  rw [openConnections, Pool.total_append, Pool.total_cons, Multiset.card_add, Multiset.card_add, first]
  omega

/-! ### Taking an open connection -/

theorem open_pathName : PathName (ascii "Open") := ⟨by decide, by decide, by decide +kernel⟩

theorem findIndex_open {s : Stored} {ts : Stamps} (sized : s.size ≠ 0) (opened : s.opened = some ts) : s.any.findIndex (ascii "Open") = some 2 := by
  rw [any_of_ne_zero sized, opened]
  rfl

theorem child_open {s : Stored} {ts : Stamps} (sized : s.size ≠ 0) (opened : s.opened = some ts) : s.any.child 2 = stampsAny ts := by
  rw [any_of_ne_zero sized, opened]
  rfl

theorem modifyChild_open {s : Stored} {f : Lists → Lists} {ts ts' : Stamps} (sized : s.size ≠ 0) (opened : s.opened = some ts)
    (eq : f (stampsAny ts) = stampsAny ts') : s.any.modifyChild 2 f = { s with opened := some ts' }.any := by
  rw [any_of_ne_zero sized, any_of_ne_zero (s := { s with opened := some ts' }) sized, opened]
  simp only [Option.toList_some, List.map_cons, List.map_nil]
  rw [← eq]
  rfl

theorem removeIndex_map {α : Type} (image : α → Option Bytes × Lists) (i : Nat) (xs : List α) :
    removeIndex i (array () (xs.map image)) = array () ((xs.eraseIdx i).map image) := by
  rw [removeIndex, List.eraseIdx_map]

section Removal

variable {s : Stored} {ts : Stamps} {i j : Nat} {t : Stamp}

theorem operate_entry (good : s.Good) (opened : s.opened = some ts) (here : ts[i]? = some t) (inside : j < t.2.length) :
    SlotCleaner.operate () s.any (ascii "Open" ++ indexPath [i, j]) =
      { s with opened := some (Pool.replace ts i (some (t.1, t.2.eraseIdx j))) }.any := by
  obtain ⟨sized, kept, fits⟩ := good
  rw [opened, Option.getD_some] at kept
  rw [connections, opened, Option.getD_some, Multiset.card_add] at fits
  obtain ⟨below, -⟩ := List.getElem?_eq_some_iff.mp here
  have stamps := length_le_card kept
  have entries := length_le_card_of_mem (List.mem_of_getElem? here)
  have atStamp : (stampsAny ts).child i = array () (t.2.map ofEntry) := child_map here
  have atEntry : (array () (t.2.map ofEntry)).child j = (ofEntry t.2[j]).2 := child_map (List.getElem?_eq_getElem inside)
  have leads : Any.Leads [i, j] (s.any.child 2) := by
    rw [child_open sized opened, Any.Leads, atStamp, Any.Leads, atEntry]
    refine ⟨⟨(), _, rfl⟩, ?_, rfl, ⟨(), _, rfl⟩, ?_, rfl, trivial⟩
    · rwa [stampsAny, getSize, List.length_map]
    · rwa [getSize, List.length_map]
  have bounds : ∀ k ∈ [i, j], k < 2 ^ 63 := by
    intro k mem
    simp only [List.mem_cons, List.not_mem_nil, or_false] at mem
    obtain rfl | rfl := mem <;> omega
  rw [SlotCleaner.operate_indices open_pathName (by decide) (findIndex_open sized opened) bounds leads, ← modify_eq_replace here
    fun t => (t.1, t.2.eraseIdx j)]
  exact modifyChild_open sized opened (modifyChild_stampsAny ts i (g := fun es => es.eraseIdx j) (removeIndex_map ofEntry j))

theorem operate_stamp (sized : s.size ≠ 0) (opened : s.opened = some ts) (inside : i < ts.length) (fits : ts.length < 2 ^ 63) :
    SlotCleaner.operate () s.any (ascii "Open" ++ indexPath [i]) = { s with opened := some (ts.eraseIdx i) }.any := by
  have atStamp : (stampsAny ts).child i = (ofStamp ts[i]).2 := child_map (List.getElem?_eq_getElem inside)
  have leads : Any.Leads [i] (s.any.child 2) := by
    rw [child_open sized opened, Any.Leads, atStamp]
    refine ⟨⟨(), _, rfl⟩, ?_, rfl, trivial⟩
    rwa [stampsAny, getSize, List.length_map]
  have bounds : ∀ k ∈ [i], k < 2 ^ 63 := by
    intro k mem
    obtain rfl := List.mem_singleton.mp mem
    omega
  rw [SlotCleaner.operate_indices open_pathName (by decide) (findIndex_open sized opened) bounds leads]
  exact modifyChild_open sized opened (removeIndex_map ofStamp i ts)

end Removal

def rest (t : Stamp) (j : Nat) : Option (Stamp) :=
  if t.2.eraseIdx j = [] then none else some (t.1, t.2.eraseIdx j)

theorem stampConnections_rest {t : Stamp} {j : Nat} {e : Nat × Bytes} (entry : t.2[j]? = some e) :
    stampConnections t = e.1 ::ₘ ((rest t j).map stampConnections).getD 0 := by
  obtain ⟨inside, rfl⟩ := List.getElem?_eq_some_iff.mp entry
  have perm := (List.getElem_cons_eraseIdx_perm inside).map Prod.fst
  have others : ((rest t j).map stampConnections).getD 0 = ((t.2.eraseIdx j).map Prod.fst : Multiset Nat) := by
    rw [rest]
    split
    · rename_i nothing
      rw [nothing]
      rfl
    · rfl
  rw [others, stampConnections, Multiset.cons_coe]
  exact (Multiset.coe_eq_coe.mpr perm).symm

theorem openConnections_rest {ts : Stamps} {i j : Nat} {t : Stamp} {e : Nat × Bytes}
    (here : ts[i]? = some t) (entry : t.2[j]? = some e) :
    openConnections ts = e.1 ::ₘ openConnections (Pool.replace ts i (rest t j)) := by
  have exchanged := Pool.total_replace stampConnections here (rest t j)
  rw [stampConnections_rest entry, Multiset.add_cons, ← Multiset.cons_add] at exchanged
  exact (add_right_cancel exchanged).symm

def Takes (s : Stored) (pConnection : Nat) (s' : Stored) : Prop :=
  s'.Good ∧ s'.size = s.size ∧ s.connections = pConnection ::ₘ s'.connections

theorem takes_entry {s : Stored} {ts : Stamps} {i j : Nat} {t : Stamp} {e : Nat × Bytes} (good : s.Good)
    (opened : s.opened = some ts) (here : ts[i]? = some t) (entry : t.2[j]? = some e) :
    s.Takes e.1 { s with opened := some (Pool.replace ts i (rest t j)) } := by
  obtain ⟨sized, kept, fits⟩ := good
  have less : s.connections = e.1 ::ₘ { s with opened := some (Pool.replace ts i (rest t j)) }.connections := by
    rw [connections, connections, opened, Option.getD_some, Option.getD_some, openConnections_rest here entry, Multiset.add_cons]
  refine ⟨⟨sized, ?_, ?_⟩, rfl, less⟩
  · intro t' mem
    obtain mem | same := Pool.mem_replace mem
    · rw [opened] at kept
      exact kept t' mem
    · rw [rest] at same
      split at same
      · cases same
      · obtain rfl := Option.some.inj same
        assumption
  · rw [less, Multiset.card_cons] at fits
    omega

theorem entries_rest {ts : Stamps} {i j : Nat} {t : Stamp} {e : Nat × Bytes} (here : ts[i]? = some t) (entry : t.2[j]? = some e) :
    entries ts = (entries (ts.take i) ++ t.2.take j) ++ e :: (t.2.drop (j + 1) ++ entries (ts.drop (i + 1))) ∧
      entries (Pool.replace ts i (rest t j)) = (entries (ts.take i) ++ t.2.take j) ++ (t.2.drop (j + 1) ++ entries (ts.drop (i + 1))) := by
  obtain ⟨inside, isStamp⟩ := List.getElem?_eq_some_iff.mp here
  obtain ⟨below, isEntry⟩ := List.getElem?_eq_some_iff.mp entry
  have parts : ts = ts.take i ++ t :: ts.drop (i + 1) := by
    rw [← isStamp, List.getElem_cons_drop, List.take_append_drop]
  have part : t.2 = t.2.take j ++ e :: t.2.drop (j + 1) := by
    rw [← isEntry, List.getElem_cons_drop, List.take_append_drop]
  have left : t.2.eraseIdx j = t.2.take j ++ t.2.drop (j + 1) := List.eraseIdx_eq_take_drop_succ t.2 j
  constructor
  · have whole : entries ts = entries (ts.take i) ++ (t.2 ++ entries (ts.drop (i + 1))) := by
      conv_lhs => rw [parts]
      exact List.flatMap_append.trans (congrArg _ List.flatMap_cons)
    rw [whole, List.append_assoc, ← List.cons_append, ← List.append_assoc (t.2.take j), ← part]
  · rw [rest, left]
    split
    · rename_i nothing
      rw [Pool.replace, List.eraseIdx_eq_take_drop_succ]
      obtain ⟨early, late⟩ := List.append_eq_nil_iff.mp nothing
      rw [early, late, List.append_nil, List.nil_append]
      exact List.flatMap_append
    · rw [Pool.replace, List.set_eq_take_append_cons_drop, if_pos inside]
      refine (List.flatMap_append.trans (congrArg _ List.flatMap_cons)).trans ?_
      simp only [List.append_assoc]
      rfl

/-- What `IntGetOpen` looks for. -/
def lookedUp (server user : Bytes) : Bytes := if server.isEmpty = false ∧ user.isEmpty = false then serverDotUser server user else server

structure TakesFirst (s : Stored) (strToLookup : Bytes) (e : Nat × Bytes) (s' : Stored) : Prop where
  takes : s.Takes e.1 s'
  unused : s'.unused = s.unused
  asked : answers strToLookup e = true
  first : ∃ before after, entries (s.opened.getD []) = before ++ e :: after ∧ entries (s'.opened.getD []) = before ++ after ∧
    ∀ x ∈ before, answers strToLookup x = false

theorem intGetOpen_first {s : Stored} (good : s.Good) (server user : Bytes) :
    (ConnectionPool.intGetOpen server user s.any = (none, s.any) ∧
      ∀ e ∈ entries (s.opened.getD []), answers (lookedUp server user) e = false) ∨
      ∃ e s', ConnectionPool.intGetOpen server user s.any = (some e.1, s'.any) ∧ s.TakesFirst (lookedUp server user) e s' := by
  obtain ⟨sized, kept, fits⟩ := id good
  rw [ConnectionPool.intGetOpen, lookup_open sized]
  cases opened : s.opened with
  | none => exact .inl ⟨rfl, nofun⟩
  | some ts =>
    rw [opened, Option.getD_some] at kept
    rw [Option.map_some, ← lookedUp]
    dsimp only
    cases found : ConnectionPool.tsIter (lookedUp server user) (stampsAny ts) with
    | none => exact .inl ⟨rfl, tsIter_none found⟩
    | some place =>
      obtain ⟨i, j⟩ := place
      obtain ⟨t, e, here, entry, asked, before⟩ := tsIter_some found
      obtain ⟨inside, same⟩ := List.getElem?_eq_some_iff.mp entry
      have taken : asIFAObject ((((stampsAny ts).child i).child j).child 0) = some e.1 := by
        rw [stampsAny, child_map here, ofStamp, child_map entry]
        rfl
      have first := operate_entry good opened here inside
      have below : (Pool.replace ts i (some (t.1, t.2.eraseIdx j)))[i]? = some (t.1, t.2.eraseIdx j) := by
        obtain ⟨there, -⟩ := List.getElem?_eq_some_iff.mp here
        exact List.getElem?_set_self there
      have view : ((ConnectionPool.openView { s with opened := some (Pool.replace ts i (some (t.1, t.2.eraseIdx j))) }.any).child i).getSize =
          (t.2.eraseIdx j).length := by
        rw [openView_any (s := { s with opened := some (Pool.replace ts i (some (t.1, t.2.eraseIdx j))) }) sized, Option.map_some,
          Option.getD_some, stampsAny, child_map below, ofStamp, getSize, List.length_map]
      obtain ⟨whole, left⟩ := entries_rest here entry
      refine .inr ⟨e, { s with opened := some (Pool.replace ts i (rest t j)) }, ?_, takes_entry good opened here entry, rfl, asked, _, _,
        by rw [opened]; exact whole, left, before⟩
      dsimp only
      rw [taken, first, view, rest]
      by_cases last : t.2.eraseIdx j = []
      · obtain ⟨there, -⟩ := List.getElem?_eq_some_iff.mp here
        have length := length_le_card kept
        rw [connections, opened, Option.getD_some, Multiset.card_add] at fits
        have second := operate_stamp (s := { s with opened := some (ts.set i (t.1, t.2.eraseIdx j)) }) (i := i) sized rfl
          (by rwa [List.length_set]) (by rw [List.length_set]; omega)
        rw [if_pos last, last, if_pos List.length_nil]
        rw [last, List.eraseIdx_set_eq] at second
        exact congrArg (some e.1, ·) second
      · rw [if_neg last, if_neg (mt List.length_eq_zero_iff.mp last)]

/-- Whether `IntBorrowConnection` does not find an open connection for the server and the user. -/
def Unmatched (server user : Bytes) (s : Stored) : Prop :=
  server ≠ [] → user ≠ [] → ∀ e ∈ entries (s.opened.getD []), answers (lookedUp server user) e = false

inductive Borrows (server user : Bytes) (s : Stored) : Option Nat → Stored → Option Nat → Prop
  | matching {e : Nat × Bytes} {s' : Stored} : server ≠ [] → user ≠ [] → s.TakesFirst (lookedUp server user) e s' →
      Borrows server user s (some e.1) s' none
  | unused {pConnection : Nat} {unused : List Nat} : s.Unmatched server user → s.unused = pConnection :: unused →
      Borrows server user s (some pConnection) { s with unused := unused } none
  | other {e : Nat × Bytes} {s' : Stored} : s.Unmatched server user → s.unused = [] → s.TakesFirst [] e s' →
      Borrows server user s (some e.1) s' (some e.1)
  | nothing : s.Unmatched server user → s.connections = 0 → Borrows server user s none s none

theorem intBorrowConnection_borrows {s : Stored} (good : s.Good) (server user : Bytes) : ∃ pConnection s',
    ConnectionPool.intBorrowConnection server user s.any = (pConnection, s'.any) ∧
      s.Borrows server user pConnection s' (ConnectionPool.closedOnBorrow server user s.any) := by
  have favoured : ((if server.isEmpty ∨ user.isEmpty then (none, s.any) else ConnectionPool.intGetOpen server user s.any) = (none, s.any) ∧
      s.Unmatched server user) ∨
      server ≠ [] ∧ user ≠ [] ∧ ∃ e s', (if server.isEmpty ∨ user.isEmpty then (none, s.any) else
        ConnectionPool.intGetOpen server user s.any) = (some e.1, s'.any) ∧ s.TakesFirst (lookedUp server user) e s' := by
    by_cases anyOne : server.isEmpty ∨ user.isEmpty
    · rw [if_pos anyOne]
      refine .inl ⟨rfl, fun server user => ?_⟩
      obtain empty | empty := anyOne
      · exact absurd (List.isEmpty_iff.mp empty) server
      · exact absurd (List.isEmpty_iff.mp empty) user
    · rw [if_neg anyOne]
      obtain ⟨unfound, others⟩ | found := intGetOpen_first good server user
      · exact .inl ⟨unfound, fun _ _ => others⟩
      · exact .inr ⟨fun empty => anyOne (.inl (List.isEmpty_iff.mpr empty)), fun empty => anyOne (.inr (List.isEmpty_iff.mpr empty)), found⟩
  rw [ConnectionPool.intBorrowConnection, ConnectionPool.closedOnBorrow]
  obtain ⟨unfound, unmatched⟩ | ⟨server', user', e, s', found, first⟩ := favoured
  · have kept : ConnectionPool.inUnused id s.any = s.any := inUnused_any good.sized rfl
    have unused : s.any.child (s.any.atName () (ascii "Unused")).2 = unusedAny s.unused := by
      rw [any_of_ne_zero good.sized]
      rfl
    rw [unfound]
    dsimp only
    rw [kept, unused]
    cases shape : s.unused with
    | nil =>
      rw [if_neg (by exact fun some => some rfl), if_neg (by exact fun some => some rfl)]
      obtain ⟨nothing, others⟩ | ⟨e, s', found, first⟩ := intGetOpen_first good [] []
      · rw [nothing]
        have none : entries (s.opened.getD []) = [] := List.eq_nil_iff_forall_not_mem.mpr fun e mem => by cases others e mem
        refine ⟨_, _, rfl, .nothing unmatched ?_⟩
        rw [connections, openConnections_entries, none, shape]
        rfl
      · rw [found]
        exact ⟨_, _, rfl, .other unmatched shape first⟩
    | cons pConnection unused =>
      have taken : ConnectionPool.inUnused (removeIndex 0) s.any = { s with unused := unused }.any :=
        inUnused_any good.sized (by rw [shape]; rfl)
      rw [if_pos (by exact Nat.succ_ne_zero _), if_pos (by exact Nat.succ_ne_zero _), taken]
      exact ⟨_, _, rfl, .unused unmatched shape⟩
  · rw [found]
    exact ⟨_, _, rfl, .matching server' user' first⟩

theorem takes_unused {s : Stored} {pConnection : Nat} {unused : List Nat} (good : s.Good) (shape : s.unused = pConnection :: unused) :
    s.Takes pConnection { s with unused := unused } := by
  have less : s.connections = pConnection ::ₘ { s with unused := unused }.connections := by
    rw [connections, connections, shape, ← Multiset.cons_coe, Multiset.cons_add]
  refine ⟨⟨good.sized, good.kept, ?_⟩, rfl, less⟩
  have fits := good.fits
  rw [less, Multiset.card_cons] at fits
  omega

theorem intBorrowConnection_any {s : Stored} (good : s.Good) (server user : Bytes) (more : s.connections ≠ 0) :
    ∃ pConnection s', ConnectionPool.intBorrowConnection server user s.any = (some pConnection, s'.any) ∧ s.Takes pConnection s' := by
  obtain ⟨pConnection, s', found, borrows⟩ := intBorrowConnection_borrows good server user
  generalize ConnectionPool.closedOnBorrow server user s.any = closed at borrows
  rw [found]
  cases borrows with
  | matching _ _ first => exact ⟨_, _, rfl, first.takes⟩
  | unused _ shape => exact ⟨_, _, rfl, takes_unused good shape⟩
  | other _ _ first => exact ⟨_, _, rfl, first.takes⟩
  | nothing _ none => exact absurd none more

/-! ### Closing old connections -/

section Close

variable {s : Stored} (sized : s.size ≠ 0) (close : Nat → Bool) (old : Option Bytes → Bool)

include sized

theorem closeConnections_any {name : Option Bytes} {es : List (Nat × Bytes)} {ts : Stamps} (opened : s.opened = some ((name, es) :: ts))
    (bRet : Bool) : ∃ bRet', ConnectionPool.closeConnections close es.length (bRet, s.any) =
      (bRet', { s with unused := s.unused ++ es.map Prod.fst, opened := some ((name, []) :: ts) }.any) := by
  induction es generalizing s bRet with
  | nil =>
    refine ⟨bRet, ?_⟩
    rw [List.map_nil, List.append_nil, ← opened]
    rfl
  | cons e es ih =>
    let s₁ : Stored := { s with opened := some ((name, es) :: ts) }
    let s₂ : Stored := { s₁ with unused := s.unused ++ [e.1] }
    have cut : ConnectionPool.inOpen (modifyChild 0 (removeIndex 0)) s.any = s₁.any :=
      inOpen_any sized opened (modifyChild_stampsAny ((name, e :: es) :: ts) 0 (g := List.tail) fun es => by
        cases es <;> rfl)
    have put : ConnectionPool.inUnused (append () (object (some e.1))) s₁.any = s₂.any := by
      refine inUnused_any (s := s₁) sized ?_
      rw [unusedAny, append_array, unusedAny, List.map_append]
      rfl
    obtain ⟨bRet', done⟩ := ih (s := s₂) sized rfl (bRet || close e.1)
    refine ⟨bRet', ?_⟩
    rw [List.length_cons, ConnectionPool.closeConnections, openView_any sized, opened]
    dsimp only [Option.map_some, Option.getD_some]
    have first : asIFAObject (((stampsAny ((name, e :: es) :: ts)).child 0 |>.child 0).child 0) = some e.1 := rfl
    rw [if_neg (by exact Nat.succ_ne_zero _), cut, first, put, Option.any_some, done, List.map_cons, List.append_assoc]
    rfl

theorem closeStamps_any {ts : Stamps} (opened : s.opened = some ts) (bRet : Bool) :
    ∃ (bRet' : Bool) (unused : List Nat), ConnectionPool.closeStamps close old ts.length (bRet, s.any) =
        (bRet', { s with unused := unused, opened := some (ts.dropWhile fun t => old t.1) }.any) ∧
      (unused : Multiset Nat) + openConnections (ts.dropWhile fun t => old t.1) = s.unused + openConnections ts := by
  induction ts generalizing s bRet with
  | nil => exact ⟨bRet, s.unused, by rw [List.dropWhile_nil, ← opened]; rfl, rfl⟩
  | cons t ts ih =>
    rw [List.length_cons, ConnectionPool.closeStamps, openView_any sized, opened]
    dsimp only [Option.map_some, Option.getD_some]
    by_cases isOld : old t.1 = true
    · obtain ⟨name, es⟩ := t
      let s₁ : Stored := { s with unused := s.unused ++ es.map Prod.fst, opened := some ((name, []) :: ts) }
      let s₂ : Stored := { s₁ with opened := some ts }
      obtain ⟨bRet₁, closed⟩ := closeConnections_any sized close opened bRet
      have size : ((stampsAny ((name, es) :: ts)).child 0).getSize = es.length := List.length_map _
      have cut : ConnectionPool.inOpen (removeIndex 0) s₁.any = s₂.any :=
        inOpen_any (s := s₁) sized rfl (removeIndex_map ofStamp 0 ((name, []) :: ts))
      have dropped : ((name, es) :: ts).dropWhile (fun t => old t.1) = ts.dropWhile fun t => old t.1 :=
        List.dropWhile_cons_of_pos (p := fun t : Stamp => old t.1) isOld
      obtain ⟨bRet', unused, done, same⟩ := ih (s := s₂) sized rfl bRet₁
      refine ⟨bRet', unused, ?_, ?_⟩
      · rw [if_pos ⟨Nat.succ_ne_zero _, isOld⟩, size, closed]
        dsimp only
        rw [cut, done, dropped]
      · have both : openConnections ((name, es) :: ts) = stampConnections (name, es) + openConnections ts := Pool.total_cons _ _ ts
        rw [dropped, same, both, ← Multiset.add_assoc, ← Multiset.coe_add]
        rfl
    · have dropped : (t :: ts).dropWhile (fun t => old t.1) = t :: ts := List.dropWhile_cons_of_neg (p := fun t : Stamp => old t.1) isOld
      refine ⟨bRet, s.unused, ?_, ?_⟩
      · rw [if_neg fun both => isOld both.2, dropped, ← opened]
      · rw [dropped]

theorem checkCloseOpenedConnections_any : ∃ (bRet : Bool) (s' : Stored), ConnectionPool.checkCloseOpenedConnections close old s.any = (bRet, s'.any) ∧
    s'.size = s.size ∧ (∀ t ∈ s'.opened.getD [], t ∈ s.opened.getD []) ∧ s'.connections = s.connections := by
  rw [ConnectionPool.checkCloseOpenedConnections, lookup_open sized]
  cases opened : s.opened with
  | none => exact ⟨false, s, rfl, rfl, fun t mem => by rwa [opened] at mem, rfl⟩
  | some ts =>
    obtain ⟨bRet, unused, done, same⟩ := closeStamps_any sized close old opened false
    have size : (stampsAny ts).getSize = ts.length := List.length_map _
    refine ⟨bRet, { s with unused := unused, opened := some (ts.dropWhile fun t => old t.1) }, ?_, rfl, ?_, ?_⟩
    · rw [Option.map_some]
      dsimp only
      rw [size, done]
    · intro t mem
      exact (List.dropWhile_sublist _).subset mem
    · rw [connections, connections, opened]
      exact same

end Close

end Stored

end Coast.Oracle
