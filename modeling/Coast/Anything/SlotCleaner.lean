import Coast.Anything.LookupPath
import Coast.Base.Number

/-!
# Removing a slot by its path

`SlotCleaner` looks the path up, walks to the parent with `SlotFinder`, and removes there. The two read
a path in different ways. Here an array is the list of its slots, with a mark that tells which array it
is; names are found as the key table finds them.
-/

namespace Coast

/-- A value with simple values in `S` and marks in `A`. -/
inductive Any (S A : Type) where
  | null
  | simple (s : S)
  | array (mark : A) (slots : List (Option Bytes × Any S A))

namespace Any

variable {S A : Type}

instance : Inhabited (Any S A) := ⟨.null⟩

def isNull : Any S A → Bool
  | null => true
  | _ => false

def getSize : Any S A → Nat
  | null => 0
  | simple _ => 1
  | array _ slots => slots.length

/-- `FindIndex`; the empty name is not found. -/
def findIndex (k : Bytes) : Any S A → Option Nat
  | array _ slots => if k = [] then none else slots.findIdx? fun slot => slot.1 = some k
  | _ => none

/-- `DoGetAt(long)` inside the range. -/
def child (i : Nat) : Any S A → Any S A
  | array _ slots => (slots[i]?.map Prod.snd).getD null
  | c => c

/-! ### LookupPath -/

open Anything (isDelim scanIndex scanName ifaHash)

/-- `FindIndex` with a hash and a length, where a hash of 0 stands for none. -/
def findIndexHint (key : Bytes) (hashed : Int × Nat) (c : Any S A) : Option Nat :=
  if hashed.1 = 0 then c.findIndex key else c.findIndex (key.take hashed.2)

def lookupStep (delim indexdelim : UInt8) (c : Any S A) (tok : Bytes) : Option (Any S A × Bytes) :=
  if tok.head? = some indexdelim then
    match scanIndex delim indexdelim tok.tail with
    | none => none
    | some (i, tail) => if i ≥ c.getSize then none else if (c.child i.toNat).isNull then none else some (c.child i.toNat, tail)
  else
    match scanName delim indexdelim tok with
    | none => none
    | some key =>
      match c.findIndexHint key (ifaHash key delim indexdelim) with
      | none => none
      | some i => some (c.child i, key.drop (ifaHash key delim indexdelim).2)

def lookupLoop (delim indexdelim : UInt8) : Nat → Any S A → Bytes → Option (Any S A)
  | 0, _, _ => none
  | fuel + 1, c, tok =>
    match c.lookupStep delim indexdelim tok with
    | none => none
    | some (child, tail) => if tail.isEmpty then some child else lookupLoop delim indexdelim fuel child tail

def lookupPath (delim indexdelim : UInt8) (c : Any S A) (path : Bytes) : Option (Any S A) :=
  if delim = 0 ∨ indexdelim = 0 ∨ path.any (isDelim delim indexdelim) = false then (c.findIndex path).map c.child
  else if path.head? = some delim then none
  else lookupLoop delim indexdelim path.length c path

/-! ### Slots that are made on the fly -/

/-- `Expand`, with the mark of a new array. -/
def expand (mark : A) : Any S A → Any S A
  | null => array mark []
  | simple s => array mark [(none, simple s)]
  | array mark slots => array mark slots

/-- `operator[](long)`: the value, in which the slot now exists. -/
def atIndex (mark : A) (i : Nat) (c : Any S A) : Any S A :=
  match if 0 < i ∨ c.isNull then c.expand mark else c with
  | array mark slots => array mark (slots ++ List.replicate (i + 1 - slots.length) (none, null))
  | c => c

/-- `operator[](const char *)`: the value, in which the slot now exists, and its index. -/
def atName (mark : A) (k : Bytes) (c : Any S A) : Any S A × Nat :=
  if k = [] then (c.atIndex mark c.getSize, c.getSize)
  else
    match c.findIndex k, c.expand mark with
    | some i, _ => (c, i)
    | none, array mark slots => (array mark (slots ++ [(some k, null)]), slots.length)
    | none, c => (c, 0)

def modifyChild (i : Nat) (f : Any S A → Any S A) : Any S A → Any S A
  | array mark slots => array mark (slots.modify i fun slot => (slot.1, f slot.2))
  | c => f c

def withName (mark : A) (k : Bytes) (f : Any S A → Any S A) (c : Any S A) : Any S A :=
  (c.atName mark k).1.modifyChild (c.atName mark k).2 f

def append (mark : A) (value : Any S A) (c : Any S A) : Any S A :=
  (c.atIndex mark c.getSize).modifyChild c.getSize fun _ => value

def fill (mark : A) : Any S A → Any S A
  | null => array mark []
  | c => c

/-! ### Places in a value -/

def reach : List Nat → Any S A → Any S A
  | [], c => c
  | i :: way, c => reach way (c.child i)

def modify : List Nat → (Any S A → Any S A) → Any S A → Any S A
  | [], f, c => f c
  | i :: way, f, c => c.modifyChild i (modify way f)

end Any

/-! ### SlotFinder -/

namespace SlotFinder

open Any

variable {S A : Type}

def asLong (dflt : Int) (text : Bytes) : Int :=
  if ((splitSign (text.dropWhile isspace)).2.takeWhile isdigit).isEmpty then dflt else (strtol text 10).1.toInt

/-- What `dest` refers to. An array is shared with the root; a value of its own is in `apart`. -/
structure Handle (S A : Type) where
  root : Any S A
  way : List Nat
  apart : Option (Any S A)

namespace Handle

def value (h : Handle S A) : Any S A := h.apart.getD (h.root.reach h.way)

def change (f : Any S A → Any S A) (h : Handle S A) : Handle S A :=
  match h.apart, h.root.reach h.way with
  | some c, _ => { h with apart := some (f c) }
  | none, array _ _ => { h with root := h.root.modify h.way f }
  | none, c => { h with apart := some (f c) }

/-- `dest = dest[i]`, where the slot exists. -/
def enter (i : Nat) (h : Handle S A) : Handle S A :=
  match h.apart with
  | some c => { h with apart := some (c.child i) }
  | none => { h with way := h.way ++ [i] }

/-- `dest[k]`, which makes a slot for the empty name each time. -/
def makeName (mark : A) (k : Bytes) (h : Handle S A) : Handle S A := h.change fun c => (c.atName mark k).1

/-- `dest = dest[k]`, where a null becomes an array. -/
def enterName (mark : A) (k : Bytes) (h : Handle S A) : Handle S A :=
  let filled := h.change (withName mark k (fill mark))
  (filled.makeName mark k).enter (filled.value.atName mark k).2

/-- `dest = dest[i]`, where a null becomes an array. A simple value is its own slot. -/
def enterIndex (mark : A) (i : Nat) (h : Handle S A) : Handle S A :=
  (h.change fun c => (c.atIndex mark i).modifyChild i (fill mark)).enter i

end Handle

/-- `dest`, and what `IntOperate` returns in its other parameters. -/
structure State (S A : Type) where
  dest : Handle S A
  destSlotname : Bytes
  destIdx : Int

/-- `StringTokenizer` with one delimiter: the tokens. -/
def tokens (delim : UInt8) (text : Bytes) : List Bytes := if text = [] then [] else text.splitOn delim

def walkNames (mark : A) : List Bytes → State S A → Bool × State S A
  | [], s => (false, s)
  | [k], s => (true, { s with destSlotname := k })
  | k :: ks, s => walkNames mark ks { s with dest := s.dest.enterName mark k }

def enterFront (mark : A) : Bool × State S A → State S A
  | (true, s) => { s with dest := (s.dest.makeName mark s.destSlotname).enterName mark s.destSlotname }
  | (false, s) => s

/-- `IntOperate`; each call has a shorter text. -/
def intOperate (mark : A) (delim indexdelim : UInt8) : Nat → State S A → Bool × State S A
  | 0, s => (false, s)
  | fuel + 1, s =>
    if indexdelim ∈ s.destSlotname then
      let front := s.destSlotname.takeWhile (· != indexdelim)
      let rest := (s.destSlotname.dropWhile (· != indexdelim)).tail
      let s := if front = [] then s else enterFront mark (intOperate mark delim indexdelim fuel { s with destSlotname := front })
      if rest = [] then (true, { s with destSlotname := [] })
      else
        let token := rest.takeWhile fun c => !Anything.isDelim delim indexdelim c
        let remainder := rest.drop token.length
        let remainder := if remainder.head? = some delim then remainder.tail else remainder
        let s := { s with destSlotname := remainder, destIdx := asLong (-1) token }
        if remainder = [] then (true, s)
        else intOperate mark delim indexdelim fuel { s with dest := s.dest.enterIndex mark s.destIdx.toNat }
    else walkNames mark (tokens delim s.destSlotname) s

end SlotFinder

/-! ### SlotCleaner -/

namespace Any

variable {S A : Type}

/-- `Remove(long)`. -/
def removeIndex (i : Nat) : Any S A → Any S A
  | array mark slots => array mark (slots.eraseIdx i)
  | c => if i = 0 then null else c

/-- `Remove(const char *)`. -/
def removeName (k : Bytes) (c : Any S A) : Any S A :=
  match c, c.findIndex k with
  | array mark slots, some i => array mark (slots.eraseIdx i)
  | c, _ => c

end Any

namespace SlotCleaner

open Any

variable {S A : Type}

def remove (mark : A) (removeLast : Bool) (destSlotname : Bytes) (destIdx : Int) (parent : Any S A) : Any S A :=
  if destSlotname ≠ [] then
    let made := parent.atName mark destSlotname
    let size := (made.1.child made.2).getSize
    if removeLast ∧ 1 < size then made.1.modifyChild made.2 (removeIndex (size - 1)) else made.1.removeName destSlotname
  else if destIdx ≠ -1 then
    let made := parent.atIndex mark destIdx.toNat
    let size := (made.child destIdx.toNat).getSize
    if removeLast ∧ 1 < size then made.modifyChild destIdx.toNat (removeIndex (size - 1)) else made.removeIndex destIdx.toNat
  else parent

def operate (mark : A) (dest : Any S A) (slotName : Bytes) (removeLast : Bool := false) (delim : UInt8 := '.'.toUInt8)
    (indexdelim : UInt8 := ':'.toUInt8) : Any S A :=
  if slotName = [] then dest
  else
    match dest.lookupPath delim indexdelim slotName with
    | none => dest
    | some _ =>
      match SlotFinder.intOperate mark delim indexdelim (slotName.length + 1) ⟨⟨dest, [], none⟩, slotName, -1⟩ with
      | (true, s) => (s.dest.change (remove mark removeLast s.destSlotname s.destIdx)).root
      | (false, s) => s.dest.root

end SlotCleaner

/-! ### Places that stay as they are -/

namespace Any

variable {S A : Type}

theorem modifyChild_congr {f g : Any S A → Any S A} {i : Nat} {c : Any S A} (same : f (c.child i) = g (c.child i)) :
    c.modifyChild i f = c.modifyChild i g := by
  cases c with
  | null => exact same
  | simple s => exact same
  | array mark slots =>
    rw [modifyChild, modifyChild]
    congr 1
    apply List.ext_getElem?
    intro j
    rw [List.getElem?_modify, List.getElem?_modify]
    by_cases here : i = j
    · subst here
      rw [child] at same
      cases at_i : slots[i]? with
      | none => rfl
      | some slot =>
        rw [at_i] at same
        simpa using same
    · simp [here]

theorem modifyChild_id (i : Nat) (c : Any S A) : c.modifyChild i id = c := by
  cases c with
  | null => rfl
  | simple s => rfl
  | array mark slots =>
    rw [modifyChild]
    congr 1
    exact List.modify_id i slots

theorem modify_congr {f g : Any S A → Any S A} (way : List Nat) {c : Any S A} (same : f (c.reach way) = g (c.reach way)) :
    c.modify way f = c.modify way g := by
  induction way generalizing c with
  | nil => exact same
  | cons i way ih => exact modifyChild_congr (ih same)

theorem modify_id (way : List Nat) (c : Any S A) : c.modify way id = c := by
  induction way generalizing c with
  | nil => rfl
  | cons i way ih =>
    rw [modify, modifyChild_congr (g := id) (ih (c.child i)), modifyChild_id]

theorem modify_self {f : Any S A → Any S A} {way : List Nat} {c : Any S A} (same : f (c.reach way) = c.reach way) :
    c.modify way f = c := by
  rw [modify_congr (g := id) way same, modify_id]

theorem atIndex_array (mark : A) {m : A} {slots : List (Option Bytes × Any S A)} (i : Nat) :
    (array m slots).atIndex mark i = array m (slots ++ List.replicate (i + 1 - slots.length) (none, null)) := by
  by_cases first : 0 < i
  · rw [atIndex, if_pos (.inl first)]
    rfl
  · rw [atIndex, if_neg (by simp [first, isNull])]

theorem atIndex_self (mark : A) {m : A} {slots : List (Option Bytes × Any S A)} {i : Nat} (inside : i < slots.length) :
    (array m slots).atIndex mark i = array m slots := by
  have none : i + 1 - slots.length = 0 := by omega
  rw [atIndex_array, none, List.replicate_zero, List.append_nil]

theorem atName_self (mark : A) {k : Bytes} {c : Any S A} {i : Nat} (named : k ≠ []) (found : c.findIndex k = some i) :
    c.atName mark k = (c, i) := by
  rw [atName, if_neg named, found]

theorem array_of_findIndex {k : Bytes} {c : Any S A} {i : Nat} (found : c.findIndex k = some i) :
    ∃ m slots, c = array m slots := by
  cases c with
  | null => cases found
  | simple s => cases found
  | array m slots => exact ⟨m, slots, rfl⟩

theorem fill_self {mark : A} {c : Any S A} (full : c.isNull = false) : c.fill mark = c := by
  cases c with
  | null => cases full
  | simple s => rfl
  | array mark slots => rfl

/-! ### Paths of a name and indices -/

open Anything (isDelim atDelim scanIndex scanName ifaHash decimal)

structure PathName (name : Bytes) : Prop where
  named : name ≠ []
  plain : 0 ∉ name
  inside : ∀ c ∈ name, isDelim '.'.toUInt8 ':'.toUInt8 c = false

instance : DecidablePred PathName := fun name =>
  decidable_of_iff (name ≠ [] ∧ 0 ∉ name ∧ (name.all fun c => !isDelim '.'.toUInt8 ':'.toUInt8 c) = true) <| by
    simp only [List.all_eq_true, Bool.not_eq_true']
    exact ⟨fun ⟨named, plain, inside⟩ => ⟨named, plain, inside⟩, fun ⟨named, plain, inside⟩ => ⟨named, plain, inside⟩⟩

def indexPath (indices : List Nat) : Bytes := indices.flatMap fun i => ':'.toUInt8 :: decimalText i

/-- The indices lead to a value that is not null, and all values on the way are arrays. -/
def Leads : List Nat → Any S A → Prop
  | [], _ => True
  | i :: indices, c => (∃ mark slots, c = array mark slots) ∧ i < c.getSize ∧ (c.child i).isNull = false ∧ Leads indices (c.child i)

end Any

end Coast
