import Coast.Anything.SlotWalk

/-!
# The slot that is removed

`SlotCleaner` removes the slot that `LookupPath` finds as long as the parent is an array, and the hash of
no name before the last step is 0.
-/

namespace Coast

open Anything (isDelim atDelim ifaHash decimal segments splitDelims delimited Segment)
open PathStep (tail path Plain Fits)

/-! ### The segments of a path -/

namespace PathStep

def segment (step : PathStep) : Segment :=
  match step with
  | name k => ⟨'.'.toUInt8, false, k⟩
  | index digits => ⟨':'.toUInt8, true, digits⟩

theorem takeWhile_text {step : PathStep} (plain : step.Plain) (steps : List PathStep) :
    (step.text ++ tail steps).takeWhile (fun c => !isDelim '.'.toUInt8 ':'.toUInt8 c) = step.text ∧
      (step.text ++ tail steps).dropWhile (fun c => !isDelim '.'.toUInt8 ':'.toUInt8 c) = tail steps := by
  have inside : ∀ c ∈ step.text, (!isDelim '.'.toUInt8 ':'.toUInt8 c) = true := by
    intro c mem
    rw [plain.inside c mem]
    rfl
  rw [List.takeWhile_append_of_pos inside, List.dropWhile_append_of_pos inside]
  cases steps with
  | nil => exact ⟨List.append_nil _, rfl⟩
  | cons next steps => simp [tail_cons, isDelim_delim]

theorem splitDelims_tail {steps : List PathStep} (plain : ∀ step ∈ steps, step.Plain) :
    (splitDelims '.'.toUInt8 ':'.toUInt8 (tail steps)).2 = steps.map fun step => (step.delim, step.text) := by
  induction steps with
  | nil => rfl
  | cons step steps ih =>
    obtain ⟨taken, dropped⟩ := takeWhile_text (plain step List.mem_cons_self) steps
    rw [tail_cons, Anything.splitDelims_cons isDelim_delim, taken, dropped, ih fun step mem => plain step (List.mem_cons_of_mem _ mem)]
    rfl

theorem segments_path {steps : List PathStep} (plain : ∀ step ∈ steps, step.Plain) :
    segments '.'.toUInt8 ':'.toUInt8 (path steps) = steps.map segment := by
  have delimiters : ∀ steps : List PathStep, delimited ':'.toUInt8 (steps.map fun step => (step.delim, step.text)) = steps.map segment := by
    intro steps
    rw [delimited, List.map_map]
    refine List.map_congr_left fun step _ => ?_
    cases step <;> rfl
  cases steps with
  | nil => rfl
  | cons step steps =>
    cases step with
    | index digits =>
      have split : splitDelims '.'.toUInt8 ':'.toUInt8 (path (index digits :: steps)) =
          ([], (index digits :: steps).map fun step => (step.delim, step.text)) := by
        rw [← splitDelims_tail plain]
        rfl
      rw [segments, split]
      exact delimiters _
    | name k =>
      have isName := plain (name k) List.mem_cons_self
      obtain ⟨taken, dropped⟩ := takeWhile_text isName steps
      simp only [text] at taken dropped
      rw [segments, path_name, Anything.splitDelims_eq, taken, dropped, splitDelims_tail fun step mem => plain step (List.mem_cons_of_mem _ mem)]
      dsimp only
      rw [if_neg (Any.PathName.named isName), delimiters]
      rfl

end PathStep

namespace Any

variable {S A : Type} {mark m : A} {c : Any S A} {f : Any S A → Any S A} {slots : List (Option Bytes × Any S A)} {i : Nat}
  {rest steps : List PathStep} {step last : PathStep}

/-! ### Both walks -/

/-- `LookupPath` takes a name for itself. -/
def Hashed : PathStep → Prop
  | .name k => (ifaHash k).1 ≠ 0
  | .index _ => True

theorem update_found (mark : A) (f : Any S A → Any S A) (plain : step.Plain) (hashed : Hashed step ∨ rest = []) (found : (array m slots).slotOf rest step = some i) :
    i < slots.length ∧ (array m slots).update mark step f = (array m slots).modifyChild i f := by
  cases step with
  | index digits =>
    rw [slotOf] at found
    split at found
    · rename_i here
      cases found
      exact ⟨here.1, update_index_inside here.1⟩
    · cases found
  | name k =>
    have own : (array m slots).findIndex k = some i := by
      rw [slotOf] at found
      rcases hashed with nonzero | rfl
      · rwa [if_neg nonzero] at found
      · have whole : k ++ tail [] = k := List.append_nil k
        rwa [whole, ite_self] at found
    exact ⟨lt_of_findIndex own, update_name_found plain.named own⟩

theorem child_update_other {k k' : Bytes} (named : k ≠ []) (other : k' ≠ k) (found : (array m slots).findIndex k' = some i) :
    ((array m slots).update mark (.name k) f).child i = (array m slots).child i := by
  cases own : (array m slots).findIndex k with
  | none =>
    rw [update_name_new named own]
    exact child_append_left _ (lt_of_findIndex found)
  | some j =>
    rw [update_name_found named own]
    refine child_modifyChild_ne ?_
    rintro rfl
    rw [findIndex] at own found
    split at found
    · cases found
    · rw [if_neg named] at own
      obtain ⟨inside, at_k', -⟩ := List.findIdx?_eq_some_iff_getElem.mp found
      obtain ⟨_, at_k, -⟩ := List.findIdx?_eq_some_iff_getElem.mp own
      rw [decide_eq_true_eq] at at_k at_k'
      exact other (Option.some.inj (at_k'.symm.trans at_k))

theorem placeOf_null {way : List Nat} : placeOf (step :: steps) (null : Any S A) ≠ some way := by
  rw [placeOf]
  cases step with
  | name k => simp [slotOf, findIndex]
  | index digits => simp [slotOf, getSize]

theorem child_other (other : ∀ m slots, c ≠ array m slots) : c.child i = c := by
  cases c with
  | null => rfl
  | simple s => rfl
  | array m slots => exact absurd rfl (other m slots)

theorem reach_other (other : ∀ m slots, c ≠ array m slots) (way : List Nat) : c.reach way = c := by
  induction way with
  | nil => rfl
  | cons i way ih => rw [reach, child_other other, ih]

theorem placeOf_cons {way : List Nat} (found : placeOf (step :: (steps ++ [last])) c = some way) :
    ∃ i way', c.slotOf (steps ++ [last]) step = some i ∧ placeOf (steps ++ [last]) (c.child i) = some way' ∧ way = i :: way' ∧
      way.dropLast = i :: way'.dropLast ∧ (c.child i).isNull = false := by
  rw [placeOf] at found
  obtain ⟨i, slot, found⟩ := Option.bind_eq_some_iff.mp found
  obtain ⟨way', rest, rfl⟩ := Option.map_eq_some_iff.mp found
  obtain ⟨next, more, shape⟩ := List.exists_cons_of_ne_nil (List.append_ne_nil_of_right_ne_nil steps (List.cons_ne_nil last []))
  have some : way' ≠ [] := by
    rintro rfl
    rw [shape, placeOf] at rest
    obtain ⟨j, -, none⟩ := Option.bind_eq_some_iff.mp rest
    obtain ⟨way, -, none⟩ := Option.map_eq_some_iff.mp none
    cases none
  have full : (c.child i).isNull = false := by
    cases null : c.child i with
    | null =>
      rw [null, shape] at rest
      exact absurd rest placeOf_null
    | simple s => rfl
    | array m slots => rfl
  exact ⟨i, way', slot, rest, rfl, List.dropLast_cons_of_ne_nil some, full⟩

theorem through_found {way : List Nat} (plain : ∀ step ∈ steps, step.Plain) (hashed : ∀ step ∈ steps, Hashed step)
    (found : placeOf (steps ++ [last]) c = some way) (parent : ∃ m slots, c.reach way.dropLast = array m slots) :
    through mark f steps c = c.modify way.dropLast f := by
  induction steps generalizing c way with
  | nil =>
    rw [List.nil_append, placeOf] at found
    obtain ⟨i, -, found⟩ := Option.bind_eq_some_iff.mp found
    cases found
    obtain ⟨m, slots, here⟩ := parent
    have here : c = array m slots := here
    rw [here]
    rfl
  | cons step steps ih =>
    obtain ⟨i, way', slot, rest, rfl, front, full⟩ := placeOf_cons found
    rw [front] at parent ⊢
    rcases array_or c with ⟨m, slots, rfl⟩ | other
    · have updated := (update_found mark (fun child => through mark f steps (child.fill mark)) (plain step List.mem_cons_self)
        (.inl (hashed step List.mem_cons_self)) slot).2
      have below := ih (fun step mem => plain step (List.mem_cons_of_mem _ mem)) (fun step mem => hashed step (List.mem_cons_of_mem _ mem)) rest parent
      rw [through, onArray, updated]
      refine modifyChild_congr ?_
      rw [fill_self full, below]
    · obtain ⟨m, slots, here⟩ := parent
      rw [reach_other other] at here
      exact absurd here (other m slots)

theorem through_missed (mark : A) (f : Any S A → Any S A) {way : List Nat} (plain : ∀ step ∈ steps, step.Plain) (missed : ¬ ∀ step ∈ steps, Hashed step)
    (found : placeOf (steps ++ [last]) c = some way) : (through mark f steps c).reach way.dropLast = c.reach way.dropLast := by
  induction steps generalizing c way with
  | nil => exact absurd (fun step mem => absurd mem List.not_mem_nil) missed
  | cons step steps ih =>
    obtain ⟨i, way', slot, rest, rfl, front, full⟩ := placeOf_cons found
    rcases array_or c with ⟨m, slots, rfl⟩ | other
    · rw [front, through, onArray, reach, reach]
      by_cases hashed : Hashed step
      · obtain ⟨inside, updated⟩ := update_found mark (fun child => through mark f steps (child.fill mark))
          (plain step List.mem_cons_self) (.inl hashed) slot
        have later : ¬ ∀ step ∈ steps, Hashed step := fun all => missed (List.forall_mem_cons.mpr ⟨hashed, all⟩)
        rw [updated, child_modifyChild_self inside, fill_self full]
        exact ih (fun step mem => plain step (List.mem_cons_of_mem _ mem)) later rest
      · cases step with
        | index digits => exact absurd trivial hashed
        | name k =>
          have zero : (ifaHash k).1 = 0 := Classical.byContradiction hashed
          rw [slotOf, if_pos zero] at slot
          have longer : k ++ tail (steps ++ [last]) ≠ k := by simpa using PathStep.tail_ne_nil (by simp)
          rw [child_update_other (plain _ List.mem_cons_self).named longer slot]
    · rw [through_other other]

theorem slotOf_lt (found : (array m slots).slotOf rest step = some i) : i < slots.length := by
  cases step with
  | name k => exact lt_of_findIndex (m := m) found
  | index digits =>
    rw [slotOf] at found
    split at found
    · rename_i here
      cases found
      exact here.1
    · cases found

theorem placeOf_last {way : List Nat} (found : placeOf (steps ++ [last]) c = some way) :
    ∃ i, way = way.dropLast ++ [i] ∧ (c.reach way.dropLast).slotOf [] last = some i := by
  induction steps generalizing c way with
  | nil =>
    rw [List.nil_append, placeOf] at found
    obtain ⟨i, slot, found⟩ := Option.bind_eq_some_iff.mp found
    cases found
    exact ⟨i, rfl, slot⟩
  | cons step steps ih =>
    obtain ⟨i, way', -, rest, rfl, front, -⟩ := placeOf_cons found
    obtain ⟨j, shape, slot⟩ := ih rest
    rw [front]
    exact ⟨j, congrArg (i :: ·) shape, slot⟩

theorem placeOf_leads {way : List Nat} (found : placeOf (steps ++ [last]) c = some way)
    (parent : ∃ m slots, c.reach way.dropLast = array m slots) : Leads way.dropLast c := by
  induction steps generalizing c way with
  | nil =>
    rw [List.nil_append, placeOf] at found
    obtain ⟨i, -, found⟩ := Option.bind_eq_some_iff.mp found
    cases found
    exact trivial
  | cons step steps ih =>
    obtain ⟨i, way', slot, rest, rfl, front, full⟩ := placeOf_cons found
    rw [front] at parent ⊢
    rcases array_or c with ⟨m, slots, rfl⟩ | other
    · exact ⟨⟨m, slots, rfl⟩, slotOf_lt slot, full, ih rest parent⟩
    · obtain ⟨m, slots, here⟩ := parent
      rw [reach_other other] at here
      exact absurd here (other m slots)

end Any

/-! ### SlotCleaner -/

namespace SlotCleaner

open Any

variable {S A : Type} {mark m : A} {slots : List (Option Bytes × Any S A)} {dest : Any S A} {steps : List PathStep}
  {last : PathStep} {i : Nat}

def removeStep (mark : A) (removeLast : Bool) : PathStep → Any S A → Any S A
  | .name k => remove mark removeLast k (-1)
  | .index digits => remove mark removeLast [] (decimal digits)

theorem removeStep_name {k : Bytes} {parent : Any S A} (named : k ≠ []) (found : parent.findIndex k = some i) :
    removeStep mark false (.name k) parent = parent.removeName k := by
  rw [removeStep, remove, if_pos named, atName_self mark named found]
  simp

theorem removeStep_index {digits : Bytes} (inside : decimal digits < slots.length) :
    removeStep mark false (.index digits) (array m slots) = (array m slots).removeIndex (decimal digits) := by
  have some : ¬ ((decimal digits : Int) = -1) := by omega
  rw [removeStep, remove, if_neg (by simp), if_pos some]
  simp [atIndex_self mark inside]

theorem removeStep_found (plain : last.Plain) (found : (array m slots).slotOf [] last = some i) :
    removeStep mark false last (array m slots) = array m (slots.eraseIdx i) := by
  cases last with
  | name k =>
    have whole : k ++ tail [] = k := List.append_nil k
    rw [slotOf, whole, ite_self] at found
    rw [removeStep_name plain.named found]
    simp [removeName, found]
  | index digits =>
    have inside := slotOf_lt found
    rw [slotOf] at found
    split at found
    · cases found
      exact removeStep_index inside
    · cases found

theorem operate_through (mark : A) (removeLast : Bool) (plain : ∀ step ∈ steps ++ [last], step.Plain) (fits : ∀ step ∈ steps ++ [last], step.Fits)
    {found : Any S A} (looked : dest.lookupPath '.'.toUInt8 ':'.toUInt8 (path (steps ++ [last])) = some found) :
    operate mark dest (path (steps ++ [last])) removeLast = through mark (removeStep mark removeLast last) steps dest := by
  obtain ⟨s, walked, changed⟩ := SlotFinder.change_intOperate mark dest (f := remove mark removeLast)
    (g := removeStep mark removeLast last) plain fits (by
      intro n i ends
      cases last with
      | name k =>
        obtain rfl : n = k := ends
        funext c
        have named : n ≠ [] := (plain (.name n) (by simp)).nonempty
        rw [removeStep, remove, remove, if_pos named, if_pos named]
      | index digits =>
        obtain ⟨rfl, rfl⟩ : n = [] ∧ i = decimal digits := ends
        rfl)
  rw [operate, if_neg (PathStep.path_ne_nil (by simp) plain), looked]
  dsimp only
  rw [walked]
  exact changed

theorem operate_found (mark : A) {way : List Nat} (plain : ∀ step ∈ steps ++ [last], step.Plain) (fits : ∀ step ∈ steps ++ [last], step.Fits)
    (hashed : ∀ step ∈ steps, Hashed step) (found : placeOf (steps ++ [last]) dest = some way)
    (parent : ∃ m slots, dest.reach way.dropLast = array m slots) :
    operate mark dest (path (steps ++ [last])) = dest.modify way.dropLast (removeStep mark false last) := by
  have looked := lookupPath_place '.'.toUInt8 ':'.toUInt8 dest (path (steps ++ [last]))
  rw [place_path (List.append_ne_nil_of_right_ne_nil steps (List.cons_ne_nil last [])) plain fits, found] at looked
  rw [operate_through mark false plain fits looked]
  exact through_found (fun step mem => plain step (List.mem_append_left _ mem)) hashed found parent

def Removed (way : List Nat) (dest dest' : Any S A) : Prop :=
  ∃ up i m slots, way = up ++ [i] ∧ dest.reach up = array m slots ∧ i < slots.length ∧
    dest' = dest.modify up fun _ => array m (slots.eraseIdx i)

/-- Exactly the slot that `LookupPath` finds is gone. -/
def Removes (path : Bytes) (dest dest' : Any S A) : Prop :=
  match dest.place '.'.toUInt8 ':'.toUInt8 path with
  | none => dest' = dest
  | some way => Removed way dest dest'

/-- The slot that a path denotes is removed if the parent is an array, and no name that others follow has
the hash 0. -/
theorem removes_slot_iff {path : Bytes} (plain : 0 ∉ path)
    (fits : ∀ s ∈ segments '.'.toUInt8 ':'.toUInt8 path, s.byIndex = true → decimal s.text < 2 ^ 63) :
    Removes path dest (operate mark dest path) ↔ ∀ way, dest.place '.'.toUInt8 ':'.toUInt8 path = some way →
      (∃ m slots, dest.reach way.dropLast = array m slots) ∧
      ∀ s ∈ (segments '.'.toUInt8 ':'.toUInt8 path).dropLast, s.byIndex = false → (ifaHash s.text).1 ≠ 0 := by
  have looked := lookupPath_place '.'.toUInt8 ':'.toUInt8 dest path
  rw [Removes]
  cases place : dest.place '.'.toUInt8 ':'.toUInt8 path with
  | none =>
    rw [place] at looked
    have same : operate mark dest path = dest := by
      rw [operate, looked]
      exact ite_self dest
    refine ⟨fun _ way found => ?_, fun _ => same⟩
    cases found
  | some way =>
    obtain ⟨whole, some, plainAll, rfl⟩ := steps_of_place place plain
    obtain ⟨steps, last, rfl⟩ : ∃ steps last, whole = steps ++ [last] :=
      ⟨_, _, (List.dropLast_append_getLast some).symm⟩
    have segs := PathStep.segments_path plainAll
    have fitsAll : ∀ step ∈ steps ++ [last], step.Fits := by
      intro step mem
      cases step with
      | name k => exact trivial
      | index digits =>
        refine fits (PathStep.index digits).segment ?_ rfl
        rw [segs]
        exact List.mem_map_of_mem mem
    have names : (∀ s ∈ (segments '.'.toUInt8 ':'.toUInt8 (PathStep.path (steps ++ [last]))).dropLast,
        s.byIndex = false → (ifaHash s.text).1 ≠ 0) ↔ ∀ step ∈ steps, Hashed step := by
      rw [segs, List.map_append, List.map_singleton, List.dropLast_concat, List.forall_mem_map]
      refine forall₂_congr fun step _ => ?_
      cases step with
      | name k => exact ⟨fun hashed => hashed rfl, fun hashed _ => hashed⟩
      | index digits => exact ⟨fun _ => trivial, fun _ same => by cases same⟩
    rw [place] at looked
    have found := (place_path (c := dest) some plainAll fitsAll).symm.trans place
    have plainSteps : ∀ step ∈ steps, step.Plain := fun step mem => plainAll step (List.mem_append_left _ mem)
    have plainLast := plainAll last (List.mem_append_right _ List.mem_cons_self)
    have result := operate_through mark false plainAll fitsAll looked
    obtain ⟨i, shape, slot⟩ := placeOf_last found
    rw [names, result]
    constructor
    · rintro ⟨up, j, m, slots, rfl, parent, inside, removed⟩ way' same
      cases same
      rw [List.dropLast_concat]
      refine ⟨⟨m, slots, parent⟩, Classical.byContradiction fun missed => ?_⟩
      have leads := placeOf_leads found ⟨m, slots, by rw [List.dropLast_concat]; exact parent⟩
      have kept := through_missed mark (removeStep mark false last) plainSteps missed found
      rw [List.dropLast_concat] at leads kept
      rw [removed, reach_modify leads, parent] at kept
      have lengths := congrArg getSize kept
      rw [getSize, getSize, List.length_eraseIdx, if_pos inside] at lengths
      omega
    · intro holds
      obtain ⟨⟨m, slots, parent⟩, hashed⟩ := holds way rfl
      rw [parent] at slot
      refine ⟨way.dropLast, i, m, slots, shape, parent, slotOf_lt slot, ?_⟩
      rw [through_found plainSteps hashed found ⟨m, slots, parent⟩]
      refine modify_congr way.dropLast ?_
      rw [parent]
      exact removeStep_found plainLast slot

theorem removes_slot_iff_names :
    let dest : Any Nat Unit := array () [(some (ascii "a"), array () [(some (ascii "b"), simple 7), (none, simple 8)])]
    Removes (ascii "a.b") dest (operate () dest (ascii "a.b")) ↔ ∀ way, dest.place '.'.toUInt8 ':'.toUInt8 (ascii "a.b") = some way →
      (∃ m slots, dest.reach way.dropLast = array m slots) ∧
      ∀ s ∈ (segments '.'.toUInt8 ':'.toUInt8 (ascii "a.b")).dropLast, s.byIndex = false → (ifaHash s.text).1 ≠ 0 :=
  removes_slot_iff (by decide) (by decide)

/-- A simple value is found as its own slot 0. It is cleared in the copy that the walk has made. -/
theorem removes_slot_simple :
    let dest : Any Nat Unit := array () [(some (ascii "a"), simple 7)]
    dest.lookupPath '.'.toUInt8 ':'.toUInt8 (ascii "a:0") = some (simple 7) ∧ operate () dest (ascii "a:0") = dest ∧
      ¬ Removes (ascii "a:0") dest (operate () dest (ascii "a:0")) := by
  intro dest
  refine ⟨rfl, rfl, ?_⟩
  have place : dest.place '.'.toUInt8 ':'.toUInt8 (ascii "a:0") = some [0, 0] := rfl
  rw [Removes, place]
  rintro ⟨up, i, m, slots, way, parent, -⟩
  obtain ⟨rfl, -⟩ : [0] = up ∧ [0] = [i] := List.append_inj' way rfl
  cases parent

/-! ### Paths of a name and indices, and of two names -/

def indexSteps (indices : List Nat) : List PathStep := indices.map fun i => .index (decimalText i)

theorem plain_indexSteps (indices : List Nat) : ∀ step ∈ indexSteps indices, step.Plain := by
  intro step mem
  obtain ⟨i, -, rfl⟩ := List.mem_map.mp mem
  exact ⟨decimalText_ne_nil i, isdigit_of_mem_decimalText⟩

theorem decimal_decimalText (n : Nat) : decimal (decimalText n) = n := by
  rw [← SlotFinder.foldl_decimal isdigit_of_mem_decimalText, digitsValue_decimalText]

theorem fits_indexSteps {indices : List Nat} (fits : ∀ i ∈ indices, i < 2 ^ 63) : ∀ step ∈ indexSteps indices, step.Fits := by
  intro step mem
  obtain ⟨i, member, rfl⟩ := List.mem_map.mp mem
  rw [PathStep.Fits, decimal_decimalText]
  exact fits i member

theorem hashed_indexSteps (indices : List Nat) : ∀ step ∈ indexSteps indices, Hashed step := by
  intro step mem
  obtain ⟨i, -, rfl⟩ := List.mem_map.mp mem
  exact trivial

theorem path_indexSteps (name : Bytes) (indices : List Nat) : path (.name name :: indexSteps indices) = name ++ indexPath indices := by
  rw [PathStep.path_name, indexPath, tail, indexSteps, List.flatMap_map]
  rfl

theorem placeOf_indexSteps {c : Any S A} {indices : List Nat} (leads : Leads indices c) : placeOf (indexSteps indices) c = some indices := by
  induction indices generalizing c with
  | nil => rfl
  | cons i indices ih =>
    obtain ⟨-, inside, full, rest⟩ := leads
    have value := decimal_decimalText i
    have below := ih rest
    rw [indexSteps] at below ⊢
    rw [List.map_cons, placeOf, slotOf, value, if_pos ⟨inside, full⟩, Option.bind_some, below]
    rfl

theorem leads_last {i : Nat} {indices : List Nat} {c : Any S A} (leads : Leads (i :: indices) c) :
    ∃ m slots, c.reach (i :: indices).dropLast = array m slots ∧ (i :: indices).getLast (List.cons_ne_nil i indices) < slots.length := by
  induction indices generalizing i c with
  | nil =>
    obtain ⟨⟨m, slots, rfl⟩, inside, -⟩ := leads
    exact ⟨m, slots, rfl, inside⟩
  | cons j indices ih =>
    obtain ⟨-, -, -, rest⟩ := leads
    exact ih rest

theorem operate_indices {name : Bytes} {k i : Nat} {indices : List Nat} (isName : PathName name) (hashed : (ifaHash name).1 ≠ 0)
    (found : dest.findIndex name = some k) (fits : ∀ j ∈ i :: indices, j < 2 ^ 63) (leads : Leads (i :: indices) (dest.child k)) :
    operate mark dest (name ++ indexPath (i :: indices)) =
      dest.modify (k :: (i :: indices).dropLast) (removeIndex ((i :: indices).getLast (List.cons_ne_nil i indices))) := by
  have some := List.cons_ne_nil i indices
  obtain ⟨m, slots, parent, inside⟩ := leads_last leads
  have split : PathStep.name name :: indexSteps (i :: indices) =
      (.name name :: indexSteps (i :: indices).dropLast) ++ [.index (decimalText ((i :: indices).getLast some))] := by
    conv_lhs => rw [← List.dropLast_append_getLast some, indexSteps, List.map_append]
    rfl
  have place : placeOf ((.name name :: indexSteps (i :: indices).dropLast) ++ [.index (decimalText ((i :: indices).getLast some))]) dest =
      Option.some (k :: i :: indices) := by
    rw [← split, placeOf, slotOf, if_neg hashed, found, Option.bind_some, placeOf_indexSteps leads]
    rfl
  have plain : ∀ step ∈ PathStep.name name :: indexSteps (i :: indices), step.Plain :=
    List.forall_mem_cons.mpr ⟨isName, plain_indexSteps _⟩
  have fit : ∀ step ∈ PathStep.name name :: indexSteps (i :: indices), step.Fits :=
    List.forall_mem_cons.mpr ⟨trivial, fits_indexSteps fits⟩
  have named : ∀ step ∈ PathStep.name name :: indexSteps (i :: indices).dropLast, Hashed step :=
    List.forall_mem_cons.mpr ⟨hashed, hashed_indexSteps _⟩
  have removed := operate_found mark (split ▸ plain) (split ▸ fit) named place ⟨m, slots, parent⟩
  rw [← split, path_indexSteps] at removed
  rw [removed]
  refine modify_congr (k :: (i :: indices).dropLast) ?_
  have there : dest.reach (k :: (i :: indices).dropLast) = array m slots := parent
  have value := decimal_decimalText ((i :: indices).getLast some)
  rw [there, removeStep_index (by rw [value]; exact inside), value]

theorem lookupPath_names {group key : Bytes} (isGroup : PathName group) (hashed : (ifaHash group).1 ≠ 0) (isKey : PathName key) :
    dest.lookupPath '.'.toUInt8 ':'.toUInt8 (group ++ '.'.toUInt8 :: key) =
      (dest.findIndex group).bind fun i => ((dest.child i).findIndex key).map fun j => (dest.child i).child j := by
  have plain : ∀ step ∈ [PathStep.name group, .name key], step.Plain :=
    List.forall_mem_cons.mpr ⟨isGroup, List.forall_mem_singleton.mpr isKey⟩
  have fits : ∀ step ∈ [PathStep.name group, .name key], step.Fits :=
    List.forall_mem_cons.mpr ⟨trivial, List.forall_mem_singleton.mpr trivial⟩
  have whole : key ++ tail [] = key := List.append_nil key
  have text : path [.name group, .name key] = group ++ '.'.toUInt8 :: key := congrArg (fun t => group ++ '.'.toUInt8 :: t) whole
  have place := place_path (c := dest) (List.cons_ne_nil _ _) plain fits
  rw [text] at place
  rw [lookupPath_place, place, placeOf, slotOf, if_neg hashed]
  cases dest.findIndex group with
  | none => rfl
  | some i =>
    rw [Option.bind_some, Option.bind_some, placeOf, slotOf, whole, ite_self]
    cases (dest.child i).findIndex key <;> rfl

theorem operate_names {group key : Bytes} {i j : Nat} (isGroup : PathName group) (hashed : (ifaHash group).1 ≠ 0) (isKey : PathName key)
    (found : dest.findIndex group = some i) (below : (dest.child i).findIndex key = some j) :
    operate mark dest (group ++ '.'.toUInt8 :: key) = dest.modify [i] (removeName key) := by
  obtain ⟨m, slots, parent⟩ := array_of_findIndex below
  have plain : ∀ step ∈ [PathStep.name group] ++ [.name key], step.Plain :=
    List.forall_mem_cons.mpr ⟨isGroup, List.forall_mem_singleton.mpr isKey⟩
  have fit : ∀ step ∈ [PathStep.name group] ++ [.name key], step.Fits :=
    List.forall_mem_cons.mpr ⟨trivial, List.forall_mem_singleton.mpr trivial⟩
  have named : ∀ step ∈ [PathStep.name group], Hashed step := List.forall_mem_singleton.mpr hashed
  have whole : key ++ tail [] = key := List.append_nil key
  have text : path ([PathStep.name group] ++ [.name key]) = group ++ '.'.toUInt8 :: key :=
    congrArg (fun t => group ++ '.'.toUInt8 :: t) whole
  have place : placeOf ([PathStep.name group] ++ [.name key]) dest = some [i, j] := by
    rw [List.singleton_append, placeOf, slotOf, if_neg hashed, found, Option.bind_some, placeOf, slotOf, whole, ite_self, below]
    rfl
  have removed := operate_found mark plain fit named place ⟨m, slots, parent⟩
  rw [text] at removed
  rw [removed]
  exact modify_congr [i] (removeStep_name isKey.named below)

end SlotCleaner

end Coast
