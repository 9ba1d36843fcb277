import Coast.Anything.ArrayRefinement
import Coast.Base.Number

/-!
# Cloning a graph of values

`AnyImpl::DeepClone` copies an implementation and everything that its slots refer to. An implementation with
more than one reference goes through a table from addresses to copies, so that it is copied once.
-/

namespace Coast.Anything

variable {V : Type}

inductive Impl (V : Type) where
  | value (v : V)
  | array (slots : Entries (Option Nat))

structure AnyImpl (V : Type) where
  impl : Impl V
  fRefCount : Nat

abbrev Heap (V : Type) := List (AnyImpl V)

structure Cloning (V : Type) where
  heap : Heap V
  xreftable : List (Bytes × Nat)

/-- `ThisToHex`: sixteen digits. -/
def thisToHex (this : Nat) : Bytes :=
  let digits := (Nat.toDigits 16 this).map fun c => UInt8.ofNat c.toNat
  List.replicate (16 - digits.length) '0'.toUInt8 ++ digits

def hexValue (text : Bytes) : Nat := text.foldl (fun n c => n * 16 + digitValue c) 0

theorem hexValue_toDigits (n : Nat) : hexValue ((Nat.toDigits 16 n).map fun c => UInt8.ofNat c.toNat) = n := by
  have digit : ∀ d < 16, digitValue (UInt8.ofNat (Nat.digitChar d).toNat) = d := by decide
  induction n using Nat.strongRecOn with
  | _ n ih =>
    by_cases small : n < 16
    · rw [Nat.toDigits_of_lt_base small]
      simp [hexValue, digit n small]
    · have last : n % 16 < 16 := Nat.mod_lt n (by decide)
      have front := ih (n / 16) (by omega)
      rw [hexValue] at front
      rw [Nat.toDigits_of_base_le (by decide) (by omega), List.map_append, hexValue, List.foldl_append,
        front]
      simp only [List.map_cons, List.map_nil, List.foldl_cons, List.foldl_nil, digit _ last]
      omega

theorem hexValue_thisToHex (this : Nat) : hexValue (thisToHex this) = this := by
  have zeros : ∀ k, (List.replicate k '0'.toUInt8).foldl (fun n c => n * 16 + digitValue c) 0 = 0 := by
    have zero : digitValue '0'.toUInt8 = 0 := by decide
    intro k
    induction k with
    | zero => rfl
    | succ k ih => rw [List.replicate_succ, List.foldl_cons, zero, ih]
  rw [thisToHex, hexValue, List.foldl_append, zeros]
  exact hexValue_toDigits this

theorem thisToHex_injective {this that : Nat} (same : thisToHex this = thisToHex that) : this = that := by
  rw [← hexValue_thisToHex this, same, hexValue_thisToHex]

def Impl.clone : Impl V → Impl V
  | value v => value v
  | array _ => array []

def Impl.slots : Impl V → Entries (Option Nat)
  | value _ => []
  | array slots => slots

def Impl.assign (key : Option Key) (value : Option Nat) : Impl V → Impl V
  | .value v => .value v
  | array slots =>
    match key with
    | some k => array (Entries.apply (.atKey k (some value)) slots)
    | none => array (Entries.apply (.append value) slots)

namespace Heap

def ref (this : Nat) (heap : Heap V) : Heap V := heap.modify this fun obj => { obj with fRefCount := obj.fRefCount + 1 }

/-- `Unref`; what has no reference left is not used again. -/
def unref (this : Nat) (heap : Heap V) : Heap V := heap.modify this fun obj => { obj with fRefCount := obj.fRefCount - 1 }

def slotsAt (heap : Heap V) (this : Nat) : Entries (Option Nat) := (heap[this]?.map fun obj => obj.impl.slots).getD []

/-- `pImpl->At(key) = value`, with the reference that the value brings along. -/
def assign (pImpl : Nat) (key : Option Key) (value : Option Nat) (heap : Heap V) : Heap V :=
  let slots := heap.slotsAt pImpl
  let old := key.bind fun k => (slots.position k).bind fun i => slots[i]?.bind Prod.snd
  let heap : Heap V := heap.modify pImpl fun obj => { obj with impl := obj.impl.assign key value }
  match old with
  | some old => heap.unref old
  | none => heap

end Heap

/-- `Anything::DeepClone(Allocator *, Anything &)`. -/
def anyDeepClone (deepClone : Nat → Cloning V → Option (Nat × Cloning V)) (value : Option Nat) (s : Cloning V) :
    Option (Option Nat × Cloning V) :=
  match value with
  | none => some (none, s)
  | some this => (deepClone this s).map fun r => (some r.1, r.2)

/-- The slots from `i` on, of which there are `count`. -/
def cloneSlots (deepClone : Nat → Cloning V → Option (Nat × Cloning V)) (this pImpl : Nat) : Nat → Nat → Cloning V → Option (Cloning V)
  | 0, _, s => some s
  | count + 1, i, s => do
    let slot ← (s.heap.slotsAt this)[i]?
    let cloned ← anyDeepClone deepClone slot.2 s
    cloneSlots deepClone this pImpl count (i + 1) { cloned.2 with heap := cloned.2.heap.assign pImpl slot.1 cloned.1 }

/-- `DoDeepClone`, which does something for arrays only. -/
def doDeepClone (deepClone : Nat → Cloning V → Option (Nat × Cloning V)) (this pObj : Nat) (s : Cloning V) : Option (Nat × Cloning V) := do
  let obj ← s.heap[this]?
  match obj.impl with
  | .value _ => return (pObj, s)
  | .array slots => return (pObj, ← cloneSlots deepClone this pObj slots.length 0 s)

/-- `AnyImpl::DeepClone`. The fuel bounds the depth of the calls. -/
def deepClone : Nat → Nat → Cloning V → Option (Nat × Cloning V)
  | 0, _, _ => none
  | fuel + 1, this, s => do
    let obj ← s.heap[this]?
    let cloned := s.heap ++ [⟨obj.impl.clone, 1⟩]
    if 1 < obj.fRefCount then
      match s.xreftable.lookup (thisToHex this) with
      | some pObj => return (pObj, { s with heap := s.heap.ref pObj })
      | none => doDeepClone (deepClone fuel) this s.heap.length ⟨cloned, (thisToHex this, s.heap.length) :: s.xreftable⟩
    else doDeepClone (deepClone fuel) this s.heap.length { s with heap := cloned }

/-- `Anything::DeepClone(Allocator *)`: the clone, and the heap with it. -/
def deepCloneOf (fuel : Nat) (value : Option Nat) (heap : Heap V) : Option (Option Nat × Heap V) :=
  (anyDeepClone (deepClone fuel) value ⟨heap, []⟩).map fun r => (r.1, r.2.heap)

/-! ### Graphs -/

namespace Heap

/-- The slot `i` of `p` refers to `n`. -/
def Refers (heap : Heap V) (p i n : Nat) : Prop := ∃ key, (heap.slotsAt p)[i]? = some (key, some n)

/-- How many slots refer to `n`. -/
def slotCount (heap : Heap V) (n : Nat) : Nat := (heap.map fun obj => (obj.impl.slots.map Prod.snd).count (some n)).sum

/-- The reference counts are right for these handles, one of which is the value, and the slots of an array have
distinct names. -/
structure Sound (heap : Heap V) (handles : Nat → Nat) (value : Option Nat) : Prop where
  closed : ∀ p i n, heap.Refers p i n → n < heap.length
  counted : ∀ n obj, heap[n]? = some obj → obj.fRefCount = heap.slotCount n + handles n
  distinct : ∀ obj ∈ heap, (obj.impl.slots.filterMap Prod.fst).Nodup
  held : ∀ this, value = some this → this < heap.length ∧ 0 < handles this

inductive Reached (heap : Heap V) (value : Option Nat) : Nat → Prop
  | value {n : Nat} (held : value = some n) : Reached heap value n
  | slot {p i n : Nat} (reached : Reached heap value p) (refers : heap.Refers p i n) : Reached heap value n

end Heap

def Impl.rename (f : Nat → Nat) : Impl V → Impl V
  | value v => value v
  | array slots => array (slots.map fun slot => (slot.1, slot.2.map f))

def Isomorphic (heap : Heap V) (value : Option Nat) (heap' : Heap V) (value' : Option Nat) : Prop :=
  ∃ f, value' = value.map f ∧ (∀ m n, heap.Reached value m → heap.Reached value n → f m = f n → m = n) ∧
    ∀ n, heap.Reached value n → heap'[f n]?.map AnyImpl.impl = heap[n]?.map fun obj => obj.impl.rename f

end Coast.Anything
