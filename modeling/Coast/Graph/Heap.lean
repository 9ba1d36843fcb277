import Coast.Lib.Graphs
import Coast.Text.RoundTrip

/-!
# Anythings that share nodes

An `Anything` is a handle: null, or the address of its implementation. The implementations are the
cells of a heap; an array holds names and handles.
-/

namespace Coast

open Anything (Key Entries)
open Graphs

inductive Scalar (D : Type) where
  | long (n : Int64)
  | double (d : D)
  | string (s : Bytes)
  | vbuf (b : Buffer)
  | object (p : UInt64)

abbrev AnyHeap (D α : Type) := Heap (Scalar D) (Option Key) α

variable {D α β : Type}

namespace Scalar

def toTree : Scalar D → AnyTree D
  | long n => .long n
  | double d => .double d
  | string s => .string s
  | vbuf b => .vbuf b
  | object p => .object p

def isDouble : Scalar D → Bool
  | double _ => true
  | _ => false

def isNumber : Scalar D → Bool
  | long _ => true
  | object _ => true
  | _ => false

/-- An entry of a parse level, as `resolveToAnyLevel` takes it. -/
def level : Scalar D → Option Level
  | string s => some (.key s)
  | long n => some (.index n)
  | _ => none

end Scalar

theorem filterMap_fst (slots : Entries β) : slots.filterMap Prod.fst = (slots.map Prod.fst).filterMap id := by
  rw [List.filterMap_map]
  rfl

namespace Level

def ofSlot (key : Option Key) (i : Nat) : Level :=
  match key with
  | some k => .key k.text
  | none => .index (Int64.ofNat i)

/-- `FindIndex` of a name or an index. -/
def findIndex (slots : Entries β) : Level → Option Nat
  | key k => (Key.ofText k).bind slots.position
  | index i => if 0 ≤ i.toInt ∧ i.toInt.toNat < slots.length then some i.toInt.toNat else none

theorem position_of_name {slots : Entries β} (distinct : (slots.filterMap Prod.fst).Nodup) {i : Nat} {k : Key} {v : β}
    (here : slots[i]? = some (some k, v)) : slots.position k = some i := by
  induction slots generalizing i with
  | nil => cases here
  | cons e slots ih =>
    rw [Entries.position, List.findIdx?_cons]
    cases i with
    | zero =>
      rw [List.getElem?_cons_zero, Option.some.injEq] at here
      simp [here]
    | succ i =>
      rw [List.getElem?_cons_succ] at here
      have later : k ∈ slots.filterMap Prod.fst := List.mem_filterMap.mpr ⟨_, List.mem_of_getElem? here, rfl⟩
      have other : (e.1 == some k) = false := by
        rw [beq_eq_false_iff_ne]
        intro same
        rw [List.filterMap_cons_some same] at distinct
        exact (List.nodup_cons.mp distinct).1 later
      have rest : (slots.filterMap Prod.fst).Nodup := distinct.sublist ((List.sublist_cons_self e slots).filterMap _)
      have found := ih rest here
      rw [Entries.position] at found
      simp [other, found]

theorem findIndex_ofSlot {slots : Entries β} (distinct : (slots.filterMap Prod.fst).Nodup) (short : slots.length < 2 ^ 63)
    {i : Nat} {key : Option Key} {v : β} (here : slots[i]? = some (key, v)) : findIndex slots (ofSlot key i) = some i := by
  have inside : i < slots.length := (List.getElem?_eq_some_iff.mp here).1
  cases key with
  | some k => rw [ofSlot, findIndex, ofText_text, Option.bind_some, position_of_name distinct here]
  | none =>
    have value : (Int64.ofNat i).toInt = i := Int64.toInt_ofNat_of_lt (by omega)
    rw [ofSlot, findIndex, value, if_pos ⟨by omega, by omega⟩]
    rfl

end Level

end Coast
