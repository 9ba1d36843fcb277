import Coast.Anything.NamedSlots

/-!
# Putting a value at a path

`SlotPutter` makes the slots on its way. What other paths lead to stays as it is, where they part from it
at names, or at indices of slots that are there.
-/

namespace Coast

open Anything (ifaHash decimal)
open PathStep (tail path Plain Fits)

namespace SlotPutter

open Any

variable {S A : Type}

def put (mark : A) (source : Any S A) (append : Bool) (destSlotname : Bytes) (destIdx : Int) (work : Any S A) : Any S A :=
  let change : Any S A → Any S A := if append then Any.append mark source else fun _ => source
  if destSlotname ≠ [] then work.withName mark destSlotname change
  else (work.atIndex mark destIdx.toNat).modifyChild destIdx.toNat change

/-- The destination, which becomes an array by `EnsureArrayImpl`. -/
def operate (mark : A) (source dest : Any S A) (destSlotname : Bytes) (append : Bool := false) (delim : UInt8 := '.'.toUInt8)
    (indexdelim : UInt8 := ':'.toUInt8) : Any S A :=
  match SlotFinder.intOperate mark delim indexdelim (destSlotname.length + 1) ⟨⟨dest.expand mark, [], none⟩, destSlotname, -1⟩ with
  | (true, s) => (s.dest.change (put mark source append s.destSlotname s.destIdx)).root
  | (false, s) => s.dest.root

end SlotPutter

namespace Any

variable {S A : Type} {mark m : A} {c : Any S A} {f g h : Any S A → Any S A} {slots : List (Option Bytes × Any S A)} {i : Nat}
  {steps qs : List PathStep} {step last : PathStep}

/-! ### LookupPath as a walk -/

def lookOf : List PathStep → Any S A → Option (Any S A)
  | [], c => some c
  | step :: steps, c => (c.slotOf steps step).bind fun i => lookOf steps (c.child i)

theorem lookOf_place (steps : List PathStep) (c : Any S A) : (placeOf steps c).map (fun way => c.reach way) = lookOf steps c := by
  induction steps generalizing c with
  | nil => rfl
  | cons step steps ih =>
    rw [placeOf, lookOf]
    cases c.slotOf steps step with
    | none => rfl
    | some i =>
      rw [Option.bind_some, Option.bind_some, ← ih, Option.map_map]
      rfl

theorem lookupPath_path (some : steps ≠ []) (plain : ∀ step ∈ steps, step.Plain) (fits : ∀ step ∈ steps, step.Fits) :
    c.lookupPath '.'.toUInt8 ':'.toUInt8 (path steps) = lookOf steps c := by
  rw [lookupPath_place, place_path some plain fits, lookOf_place]

theorem lookOf_fill (some : steps ≠ []) (c : Any S A) : lookOf steps (c.fill mark) = lookOf steps c := by
  obtain ⟨step, steps, rfl⟩ := List.exists_cons_of_ne_nil some
  cases c with
  | simple s => rfl
  | array m slots => rfl
  | null => cases step <;> simp [lookOf, fill, slotOf, findIndex, getSize]

theorem eq_null (null : c.isNull = true) : c = .null := by
  cases c with
  | null => rfl
  | simple s => cases null
  | array m slots => cases null

theorem lookOf_null (some : steps ≠ []) : lookOf steps (null : Any S A) = none := by
  obtain ⟨step, steps, rfl⟩ := List.exists_cons_of_ne_nil some
  cases step <;> simp [lookOf, slotOf, findIndex, getSize]

/-! ### Where two paths part -/

def Same : PathStep → PathStep → Prop
  | .name a, .name b => a = b
  | .index d, .index e => decimal d = decimal e
  | _, _ => False

def Parts (c : Any S A) : PathStep → PathStep → Prop
  | .name a, .name b => a ≠ b
  | .index d, .index e => decimal d ≠ decimal e ∧ decimal d < c.getSize ∧ decimal e < c.getSize
  | _, _ => False

def slotValue (c : Any S A) : PathStep → Any S A
  | .name k => c.named k
  | .index digits => c.child (decimal digits)

def Diverge : List PathStep → List PathStep → Any S A → Prop
  | p :: ps, q :: qs, c => c.Parts p q ∨ (Same p q ∧ Diverge ps qs (c.slotValue p))
  | _, _, _ => False

theorem Diverge.some {ps : List PathStep} (diverge : Diverge ps qs c) : qs ≠ [] := by
  rintro rfl
  cases ps <;> exact diverge

theorem slotValue_fill (step : PathStep) (c : Any S A) : (c.fill mark).slotValue step = c.slotValue step := by
  cases c with
  | simple s => rfl
  | array m slots => rfl
  | null =>
    cases step with
    | name k => exact named_expand mark k null
    | index digits => rfl

theorem Diverge.fill {ps : List PathStep} (diverge : Diverge ps qs c) : Diverge ps qs (c.fill mark) := by
  cases ps with
  | nil => exact diverge
  | cons p ps =>
    cases qs with
    | nil => exact diverge
    | cons q qs =>
      refine diverge.imp (fun parts => ?_) fun later => ⟨later.1, (slotValue_fill p c).symm ▸ later.2⟩
      cases c <;> exact parts

/-! ### One step -/

theorem findIndex_update_other {k k' : Bytes} (named : k ≠ []) (other : k' ≠ k) :
    ((array m slots).update mark (.name k) f).findIndex k' = (array m slots).findIndex k' := by
  cases own : (array m slots).findIndex k with
  | some j => rw [update_name_found named own, findIndex_modifyChild]
  | none =>
    have differ : ¬ k = k' := fun same => other same.symm
    rw [update_name_new named own, findIndex_append]
    simp [findIndex, differ]

theorem slotOf_other {k k' : Bytes} (named : k ≠ []) (other : (if (ifaHash k').1 = 0 then k' ++ tail qs else k') ≠ k) :
    (((array m slots).update mark (.name k) f).slotOf qs (.name k')).bind (fun i => lookOf qs (((array m slots).update mark (.name k) f).child i)) =
      ((array m slots).slotOf qs (.name k')).bind fun i => lookOf qs ((array m slots).child i) := by
  rw [slotOf, slotOf, findIndex_update_other named other]
  cases found : (array m slots).findIndex (if (ifaHash k').1 = 0 then k' ++ tail qs else k') with
  | none => rfl
  | some i => rw [Option.bind_some, Option.bind_some, child_update_other named other found]

theorem longer_ne {k k' : Bytes} (isName : PathName k) (some : qs ≠ []) : k' ++ tail qs ≠ k := by
  rintro rfl
  obtain ⟨q, qs, rfl⟩ := List.exists_cons_of_ne_nil some
  have inside := isName.inside q.delim (List.mem_append_right _ List.mem_cons_self)
  rw [PathStep.isDelim_delim] at inside
  cases inside

theorem lookOf_parts {q : PathStep} (plain : step.Plain) (parts : (array m slots).Parts step q) :
    lookOf (q :: qs) ((array m slots).update mark step f) = lookOf (q :: qs) (array m slots) := by
  cases step with
  | name a =>
    cases q with
    | index e => exact parts.elim
    | name b =>
      refine slotOf_other plain.named ?_
      by_cases zero : (ifaHash b).1 = 0
      · rw [if_pos zero]
        cases qs with
        | nil =>
          have whole : b ++ tail [] = b := List.append_nil b
          rw [whole]
          exact fun same => parts same.symm
        | cons next qs => exact longer_ne plain (List.cons_ne_nil _ _)
      · rw [if_neg zero]
        exact fun same => parts same.symm
  | index d =>
    cases q with
    | name b => exact parts.elim
    | index e =>
      obtain ⟨differ, inside, inside'⟩ := parts
      have size : ((array m slots).modifyChild (decimal d) f).getSize = (array m slots).getSize := by
        rw [modifyChild, getSize, List.length_modify]
        rfl
      rw [update_index_inside inside, lookOf, lookOf, slotOf, slotOf, size, child_modifyChild_ne (Ne.symm differ)]
      split
      · rw [Option.bind_some, Option.bind_some, child_modifyChild_ne (Ne.symm differ)]
      · rfl

theorem slotOf_same {q : PathStep} (same : Same step q) (c : Any S A) : c.slotOf qs q = c.slotOf qs step := by
  cases step with
  | name a =>
    cases q with
    | index e => exact same.elim
    | name b => rw [show a = b from same]
  | index d =>
    cases q with
    | name b => exact same.elim
    | index e => rw [slotOf, slotOf, show decimal d = decimal e from same]

/-- `LookupPath` reads the name of the step alone. -/
def Read (qs : List PathStep) (step : PathStep) : Prop := ∀ k, step = .name k → qs ≠ [] → (ifaHash k).1 ≠ 0

theorem slotOf_read {k : Bytes} (read : Read qs (.name k)) (c : Any S A) : c.slotOf qs (.name k) = c.findIndex k := by
  rw [slotOf]
  split
  · rename_i zero
    obtain rfl : qs = [] := not_not.mp fun some => read k rfl some zero
    rw [show k ++ tail [] = k from List.append_nil k]
  · rfl

theorem lookOf_slotValue (read : Read qs step) (some : qs ≠ []) :
    lookOf (step :: qs) (array m slots) = lookOf qs ((array m slots).slotValue step) := by
  cases step with
  | name k =>
    rw [lookOf, slotOf_read read, slotValue, named]
    cases found : (array m slots).findIndex k with
    | none => exact (lookOf_null some).symm
    | some i => rfl
  | index d =>
    rw [lookOf, slotOf, slotValue]
    split
    · rfl
    · rename_i empty
      have null : (array m slots).child (decimal d) = null := by
        by_cases inside : decimal d < slots.length
        · exact eq_null (Bool.eq_true_of_not_eq_false fun full => empty ⟨inside, full⟩)
        · rw [child_array, List.getElem?_eq_none (by omega)]
          rfl
      rw [null]
      exact (lookOf_null some).symm

theorem lookOf_update (plain : step.Plain) (read : Read qs step) (full : (h ((array m slots).slotValue step)).isNull = false) :
    lookOf (step :: qs) ((array m slots).update mark step h) = lookOf qs (h ((array m slots).slotValue step)) := by
  cases step with
  | name a =>
    rw [lookOf, slotOf_read read, slotValue, named]
    cases found : (array m slots).findIndex a with
    | some i =>
      rw [update_name_found plain.named found, findIndex_modifyChild, found, Option.bind_some,
        child_modifyChild_self (lt_of_findIndex found)]
      rfl
    | none =>
      rw [update_name_new plain.named found, findIndex_new plain.named found, Option.bind_some, child_append_last]
      rfl
  | index d =>
    rw [slotValue] at full ⊢
    by_cases inside : decimal d < slots.length
    · have size : ((array m slots).modifyChild (decimal d) h).getSize = slots.length := by
        rw [modifyChild, getSize, List.length_modify]
      rw [update_index_inside inside, lookOf, slotOf, size, child_modifyChild_self inside, if_pos ⟨inside, full⟩, Option.bind_some,
        child_modifyChild_self inside]
    · have outside : slots.length ≤ decimal d := by omega
      have missing : (array m slots).child (decimal d) = null := by rw [child_array, List.getElem?_eq_none outside]; rfl
      have length : (slots ++ List.replicate (decimal d - slots.length) ((none, null) : Option Bytes × Any S A)).length = decimal d := by
        rw [List.length_append, List.length_replicate]
        omega
      have last := child_append_last (m := m) (slots ++ List.replicate (decimal d - slots.length) (none, null)) [] none (h null)
      have size : decimal d < (array m (slots ++ List.replicate (decimal d - slots.length) (none, null) ++ [(none, h null)])).getSize := by
        simp only [getSize, List.length_append, length, List.length_singleton, Nat.lt_add_one]
      rw [length] at last
      rw [missing] at full ⊢
      rw [update_index_new outside, lookOf, slotOf, last, if_pos ⟨size, full⟩, Option.bind_some, last]

theorem lookOf_same {q : PathStep} (plain : step.Plain) (same : Same step q) (some : qs ≠ [])
    (keeps : lookOf qs (h ((array m slots).slotValue step)) = lookOf qs ((array m slots).slotValue step))
    (full : (h ((array m slots).slotValue step)).isNull = false) :
    lookOf (q :: qs) ((array m slots).update mark step h) = lookOf (q :: qs) (array m slots) := by
  rw [lookOf, lookOf, slotOf_same same, slotOf_same same, ← lookOf, ← lookOf]
  by_cases read : Read qs step
  · rw [lookOf_update plain read full, lookOf_slotValue read some, keeps]
  · obtain ⟨k, rfl, -, zero⟩ : ∃ k, step = .name k ∧ qs ≠ [] ∧ (ifaHash k).1 = 0 := by simpa [Read] using read
    refine slotOf_other plain.named ?_
    rw [if_pos zero]
    exact longer_ne plain some

theorem isNull_through {mark : A} {g : Any S A → Any S A} (plain : ∀ step ∈ steps ++ [last], step.Plain) (full : c.isNull = false) :
    (through mark (update mark last g) steps c).isNull = false := by
  rcases array_or c with ⟨m, slots, rfl⟩ | other
  · cases steps with
    | nil =>
      obtain ⟨slots', updated, -⟩ := update_array mark m slots (plain last List.mem_cons_self) g
      rw [through, onArray, updated]
      rfl
    | cons step steps =>
      obtain ⟨slots', updated, -⟩ := update_array mark m slots (plain step List.mem_cons_self)
        fun child => through mark (update mark last g) steps (child.fill mark)
      rw [through, onArray, updated]
      rfl
  · rw [through_other other]
    exact full

theorem lookOf_through {g : Any S A → Any S A} (plain : ∀ step ∈ steps ++ [last], step.Plain) (diverge : Diverge (steps ++ [last]) qs c) :
    lookOf qs (through mark (update mark last g) steps c) = lookOf qs c := by
  induction steps generalizing c qs with
  | nil =>
    rcases array_or c with ⟨m, slots, rfl⟩ | other
    · cases qs with
      | nil => exact diverge.elim
      | cons q qs =>
        rcases diverge with parts | ⟨-, later⟩
        · exact lookOf_parts (plain last List.mem_cons_self) parts
        · exact later.elim
    · rw [through_other other]
  | cons step steps ih =>
    rcases array_or c with ⟨m, slots, rfl⟩ | other
    · have isStep := plain step List.mem_cons_self
      have rest : ∀ step ∈ steps ++ [last], step.Plain := fun step mem => plain step (List.mem_cons_of_mem _ mem)
      rw [through, onArray]
      cases qs with
      | nil => exact diverge.elim
      | cons q qs =>
        rcases diverge with parts | ⟨same, later⟩
        · exact lookOf_parts isStep parts
        · refine lookOf_same isStep same later.some ?_ (isNull_through rest (isNull_fill _))
          rw [ih rest later.fill, lookOf_fill later.some]
    · rw [through_other other]

/-! ### The way that a walk makes -/

/-- There are no simple values on the way to the last step, and `LookupPath` reads each of the steps as it stands. -/
def Clear : List PathStep → Any S A → Prop
  | [], _ => True
  | step :: steps, c => (∀ s, c ≠ simple s) ∧ Read steps step ∧ Clear steps (c.slotValue step)

theorem clear_fill (c : Any S A) : Clear steps (c.fill mark) ↔ Clear steps c := by
  cases steps with
  | nil => exact Iff.rfl
  | cons step steps =>
    have simple : (∀ s, c.fill mark ≠ simple s) ↔ ∀ s, c ≠ simple s := by cases c <;> simp [fill]
    rw [Clear, Clear, slotValue_fill, simple]

section Put

variable {mark : A} {source : Any S A}

theorem clear_array (clear : Clear (step :: steps) c) (full : c.isNull = false) : ∃ m slots, c = array m slots := by
  cases c with
  | null => cases full
  | simple s => exact absurd rfl (clear.1 s)
  | array m slots => exact ⟨m, slots, rfl⟩

def valueAt : List PathStep → Any S A → Any S A
  | [], c => c
  | step :: steps, c => valueAt steps (c.slotValue step)

theorem valueAt_fill (some : steps ≠ []) (c : Any S A) : valueAt steps (c.fill mark) = valueAt steps c := by
  obtain ⟨step, steps, rfl⟩ := List.exists_cons_of_ne_nil some
  rw [valueAt, valueAt, slotValue_fill]

theorem lookOf_change (filled : (h (valueAt (steps ++ [last]) c)).isNull = false) (plain : ∀ step ∈ steps ++ [last], step.Plain)
    (clear : Clear (steps ++ [last]) c) (full : c.isNull = false) :
    lookOf (steps ++ [last]) (through mark (update mark last h) steps c) = some (h (valueAt (steps ++ [last]) c)) := by
  induction steps generalizing c with
  | nil =>
    obtain ⟨m, slots, rfl⟩ := clear_array clear full
    exact lookOf_update (plain last List.mem_cons_self) clear.2.1 filled
  | cons step steps ih =>
    obtain ⟨m, slots, rfl⟩ := clear_array clear full
    obtain ⟨-, read, clear⟩ := clear
    have some : steps ++ [last] ≠ [] := List.append_ne_nil_of_right_ne_nil _ (List.cons_ne_nil _ _)
    have rest : ∀ step ∈ steps ++ [last], step.Plain := fun step mem => plain step (List.mem_cons_of_mem _ mem)
    have child : (((array m slots).slotValue step).fill mark).isNull = false := isNull_fill _
    have same : valueAt (steps ++ [last]) (((array m slots).slotValue step).fill mark) =
      valueAt (step :: (steps ++ [last])) (array m slots) := valueAt_fill some _
    have below := ih (by rw [same]; exact filled) rest ((clear_fill _).mpr clear) child
    have kept : (through mark (update mark last h) steps (((array m slots).slotValue step).fill mark)).isNull = false :=
      isNull_through rest child
    rw [same] at below
    rw [through, onArray, List.cons_append]
    exact (lookOf_update (plain step List.mem_cons_self) read kept).trans below

theorem lookOf_put (filled : source.isNull = false) (plain : ∀ step ∈ steps ++ [last], step.Plain) (clear : Clear (steps ++ [last]) c)
    (full : c.isNull = false) :
    lookOf (steps ++ [last]) (through mark (update mark last fun _ => source) steps c) = some source := by
  exact @lookOf_change S A c (fun _ => source) steps last mark filled plain clear full

theorem lookOf_put_other (plain : ∀ step ∈ steps ++ [last], step.Plain) (blocked : ¬Clear (steps ++ [last]) c) :
    lookOf (steps ++ [last]) (through mark (update mark last fun _ => source) steps c) = lookOf (steps ++ [last]) c := by
  induction steps generalizing c with
  | nil =>
    rcases array_or c with ⟨m, slots, rfl⟩ | other
    · exact absurd ⟨fun s => by simp, fun k _ some => absurd rfl some, trivial⟩ blocked
    · rw [through_other other]
  | cons step steps ih =>
    rcases array_or c with ⟨m, slots, rfl⟩ | other
    · have rest : ∀ step ∈ steps ++ [last], step.Plain := fun step mem => plain step (List.mem_cons_of_mem _ mem)
      have some : steps ++ [last] ≠ [] := List.append_ne_nil_of_right_ne_nil _ (List.cons_ne_nil _ _)
      rw [through, onArray, List.cons_append]
      by_cases read : Read (steps ++ [last]) step
      · have later : ¬Clear (steps ++ [last]) (((array m slots).slotValue step).fill mark) :=
          fun clear => blocked ⟨fun s => by simp, read, (clear_fill _).mp clear⟩
        have kept : (through mark (update mark last fun _ => source) steps (((array m slots).slotValue step).fill mark)).isNull = false :=
          isNull_through rest (isNull_fill _)
        rw [lookOf_slotValue read some, ← lookOf_fill some, ← ih rest later]
        exact lookOf_update (plain step List.mem_cons_self) read kept
      · obtain ⟨k, rfl, -, zero⟩ : ∃ k, step = .name k ∧ steps ++ [last] ≠ [] ∧ (ifaHash k).1 = 0 := by
          by_contra none
          exact read fun k is some zero => none ⟨k, is, some, zero⟩
        have isStep := plain _ List.mem_cons_self
        refine slotOf_other isStep.named ?_
        rw [if_pos zero]
        exact longer_ne isStep some
    · rw [through_other other]

theorem lookOf_expand (some : steps ≠ []) (c : Any S A) : lookOf steps (c.expand mark) = lookOf steps c := by
  obtain ⟨step, steps, rfl⟩ := List.exists_cons_of_ne_nil some
  cases c with
  | null => exact lookOf_fill (c := null) some
  | array m slots => rfl
  | simple s =>
    cases step with
    | name k => simp [lookOf, slotOf, expand, findIndex]
    | index d =>
      by_cases first : decimal d = 0
      · simp [lookOf, slotOf, expand, getSize, child, isNull, first]
      · simp [lookOf, slotOf, expand, getSize, first]

end Put

end Any

namespace SlotPutter

open Any

variable {S A : Type} {mark : A}

theorem operate_walk {steps : List PathStep} {last : PathStep} (plain : ∀ step ∈ steps ++ [last], step.Plain ∧ step.Fits)
    (source dest : Any S A) (append : Bool) : operate mark source dest (path (steps ++ [last])) append =
      through mark (update mark last (if append then Any.append mark source else fun _ => source)) steps (dest.expand mark) := by
  obtain ⟨s, walked, changed⟩ := SlotFinder.change_intOperate mark (dest.expand mark) (f := put mark source append)
    (g := update mark last (if append then Any.append mark source else fun _ => source)) (fun step mem => (plain step mem).1)
    (fun step mem => (plain step mem).2) (by
      intro n i ends
      cases last with
      | name k =>
        obtain rfl : n = k := ends
        have named : n ≠ [] := (plain (.name n) (by simp)).1.nonempty
        funext c
        exact if_pos named
      | index digits =>
        obtain ⟨rfl, rfl⟩ : n = [] ∧ i = decimal digits := ends
        rfl)
  rw [operate, walked]
  exact changed

theorem operate_through {steps : List PathStep} {last : PathStep} (plain : ∀ step ∈ steps ++ [last], step.Plain ∧ step.Fits)
    (source dest : Any S A) : operate mark source dest (path (steps ++ [last])) =
      through mark (update mark last fun _ => source) steps (dest.expand mark) := operate_walk plain source dest false

theorem isNull_append (value c : Any S A) : (Any.append mark value c).isNull = false := by
  cases c <;> simp [Any.append, atIndex, expand, modifyChild, isNull, getSize]

end SlotPutter

end Coast
