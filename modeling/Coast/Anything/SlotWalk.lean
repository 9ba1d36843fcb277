import Coast.Anything.SlotPaths

/-!
# What walking to a slot leaves behind

`IntOperate` makes the slots on its way and changes the value that it ends at. As long as it goes through
arrays, the root sees all of that; at any other value it goes on with a copy.
-/

namespace Coast

open Anything (isDelim atDelim decimal)
open PathStep (tail path Plain Fits)

namespace Any

variable {S A : Type}

/-! ### Slots of an array -/

section Slots

variable {m : A} {slots : List (Option Bytes × Any S A)} {f g : Any S A → Any S A} {i j : Nat} {k : Bytes}

theorem child_array : (array m slots).child i = (slots[i]?.map Prod.snd).getD null := rfl

theorem child_modifyChild_self (inside : i < slots.length) : ((array m slots).modifyChild i f).child i = f ((array m slots).child i) := by
  simp [modifyChild, child_array, inside]

theorem child_modifyChild_ne (other : j ≠ i) : ((array m slots).modifyChild i f).child j = (array m slots).child j := by
  simp [modifyChild, child_array, Ne.symm other]

theorem child_append_left (more : List (Option Bytes × Any S A)) (inside : i < slots.length) :
    (array m (slots ++ more)).child i = (array m slots).child i := by
  rw [child_array, List.getElem?_append_left inside, ← child_array]

theorem child_append_last (slots more : List (Option Bytes × Any S A)) (name : Option Bytes) (value : Any S A) :
    (array m (slots ++ (name, value) :: more)).child slots.length = value := by
  simp [child_array]

theorem modifyChild_modifyChild : ((array m slots).modifyChild i f).modifyChild i g = (array m slots).modifyChild i (g ∘ f) := by
  rw [modifyChild, modifyChild, modifyChild, List.modify_modify_eq]
  rfl

theorem modifyChild_append (slots more : List (Option Bytes × Any S A)) (name : Option Bytes) (value : Any S A) :
    (array m (slots ++ (name, value) :: more)).modifyChild slots.length f = array m (slots ++ (name, f value) :: more) := by
  rw [modifyChild, List.modify_eq_take_cons_drop (by simp)]
  simp

theorem findIndex_names : (array m slots).findIndex k = if k = [] then none else (slots.map Prod.fst).findIdx? fun name => name = some k := by
  rw [findIndex, List.findIdx?_map]
  rfl

theorem findIndex_modifyChild : ((array m slots).modifyChild i f).findIndex k = (array m slots).findIndex k := by
  rw [modifyChild, findIndex_names, findIndex_names]
  congr 2
  apply List.ext_getElem?
  intro j
  rw [List.getElem?_map, List.getElem?_map, List.getElem?_modify]
  cases slots[j]? with
  | none => rfl
  | some slot => simp only [Option.map_some]; split <;> rfl

theorem lt_of_findIndex (found : (array m slots).findIndex k = some i) : i < slots.length := by
  rw [findIndex] at found
  split at found
  · cases found
  · exact (List.findIdx?_eq_some_iff_findIdx_eq.mp found).1

theorem findIndex_append (more : List (Option Bytes × Any S A)) : (array m (slots ++ more)).findIndex k =
    ((array m slots).findIndex k).or (((array m more).findIndex k).map fun i => i + slots.length) := by
  rw [findIndex, findIndex, findIndex]
  split
  · rfl
  · rw [List.findIdx?_append]

end Slots

/-! ### Changing the slot of a step -/

def makeSlot (mark : A) (c : Any S A) : PathStep → Any S A × Nat
  | .name k => c.atName mark k
  | .index digits => (c.atIndex mark (decimal digits), decimal digits)

def update (mark : A) (step : PathStep) (f : Any S A → Any S A) (c : Any S A) : Any S A :=
  (c.makeSlot mark step).1.modifyChild (c.makeSlot mark step).2 f

def onArray (f : Any S A → Any S A) : Any S A → Any S A
  | array m slots => f (array m slots)
  | c => c

def through (mark : A) (f : Any S A → Any S A) : List PathStep → Any S A → Any S A
  | [] => onArray f
  | step :: steps => onArray (update mark step fun child => through mark f steps (child.fill mark))

theorem array_or (c : Any S A) : (∃ m slots, c = array m slots) ∨ ∀ m slots, c ≠ array m slots := by
  cases c with
  | null => exact .inr fun m slots same => by cases same
  | simple s => exact .inr fun m slots same => by cases same
  | array m slots => exact .inl ⟨m, slots, rfl⟩

theorem through_other {mark : A} {f : Any S A → Any S A} {steps : List PathStep} {c : Any S A} (other : ∀ m slots, c ≠ array m slots) :
    through mark f steps c = c := by
  cases c with
  | null => cases steps <;> rfl
  | simple s => cases steps <;> rfl
  | array m slots => exact absurd rfl (other m slots)

theorem isNull_fill {mark : A} (c : Any S A) : (c.fill mark).isNull = false := by
  cases c <;> rfl

section Update

variable {mark m : A} {slots : List (Option Bytes × Any S A)} {f g : Any S A → Any S A} {i : Nat} {k digits : Bytes}
  {step : PathStep}

theorem atName_new (named : k ≠ []) (absent : (array m slots).findIndex k = none) :
    (array m slots).atName mark k = (array m (slots ++ [(some k, null)]), slots.length) := by
  rw [atName, if_neg named, absent]
  rfl

theorem update_name_found (named : k ≠ []) (found : (array m slots).findIndex k = some i) :
    (array m slots).update mark (.name k) f = (array m slots).modifyChild i f := by
  rw [update, makeSlot, atName_self mark named found]

theorem update_name_new (named : k ≠ []) (absent : (array m slots).findIndex k = none) :
    (array m slots).update mark (.name k) f = array m (slots ++ [(some k, f null)]) := by
  rw [update, makeSlot, atName_new named absent]
  exact modifyChild_append slots [] (some k) null

theorem update_index_inside (inside : decimal digits < slots.length) :
    (array m slots).update mark (.index digits) f = (array m slots).modifyChild (decimal digits) f := by
  rw [update, makeSlot, atIndex_self mark inside]

theorem update_index_new (outside : slots.length ≤ decimal digits) : (array m slots).update mark (.index digits) f =
    array m (slots ++ List.replicate (decimal digits - slots.length) (none, null) ++ [(none, f null)]) := by
  have more : decimal digits + 1 - slots.length = decimal digits - slots.length + 1 := by omega
  have length : (slots ++ List.replicate (decimal digits - slots.length) ((none, null) : Option Bytes × Any S A)).length = decimal digits := by
    rw [List.length_append, List.length_replicate]
    omega
  have last := modifyChild_append (f := f) (m := m) (slots ++ List.replicate (decimal digits - slots.length) (none, null)) [] none null
  rw [length] at last
  rw [update, makeSlot]
  dsimp only
  rw [atIndex_array, more, List.replicate_succ', ← List.append_assoc, last]

theorem atName_expand (named : k ≠ []) (c : Any S A) : c.atName mark k = (c.expand mark).atName mark k := by
  cases c with
  | null => simp [atName, findIndex, named, expand]
  | simple s => simp [atName, findIndex, named, expand]
  | array m slots => rfl

theorem findIndex_new (named : k ≠ []) (absent : (array m slots).findIndex k = none) (value : Any S A) :
    (array m (slots ++ [(some k, value)])).findIndex k = some slots.length := by
  rw [findIndex_append, absent, findIndex, if_neg named]
  simp

theorem atName_atName (named : k ≠ []) (c : Any S A) : (c.atName mark k).1.atName mark k = c.atName mark k := by
  rw [atName_expand named c]
  rcases array_or (c.expand mark) with ⟨m, slots, expanded⟩ | other
  · rw [expanded]
    cases found : (array m slots).findIndex k with
    | some i => rw [atName_self mark named found, atName_self mark named found]
    | none => rw [atName_new named found, atName_self mark named (findIndex_new named found null)]
  · cases c <;> exact absurd rfl (other _ _)

theorem makeSlot_named (mark m : A) (slots : List (Option Bytes × Any S A)) (named : k ≠ []) : ∃ slots', ((array m slots).atName mark k).1 = array m slots' ∧
    ((array m slots).atName mark k).2 < slots'.length := by
  cases found : (array m slots).findIndex k with
  | some i =>
    rw [atName_self mark named found]
    exact ⟨slots, rfl, lt_of_findIndex found⟩
  | none =>
    rw [atName_new named found]
    exact ⟨_, rfl, by simp⟩

theorem makeSlot_array (mark m : A) (slots : List (Option Bytes × Any S A)) (plain : step.Plain) : ∃ slots', ((array m slots).makeSlot mark step).1 = array m slots' ∧
    ((array m slots).makeSlot mark step).2 < slots'.length := by
  cases step with
  | name k => exact makeSlot_named mark m slots plain.named
  | index digits =>
    rw [makeSlot]
    refine ⟨_, atIndex_array mark _, ?_⟩
    rw [List.length_append, List.length_replicate]
    omega

theorem update_array (mark m : A) (slots : List (Option Bytes × Any S A)) (plain : step.Plain) (f : Any S A → Any S A) : ∃ slots', (array m slots).update mark step f = array m slots' ∧
    ((array m slots).makeSlot mark step).2 < slots'.length := by
  obtain ⟨slots', made, inside⟩ := makeSlot_array mark m slots plain
  rw [update, made]
  exact ⟨_, rfl, by simpa using inside⟩

theorem update_update (plain : step.Plain) : ((array m slots).update mark step f).modifyChild ((array m slots).makeSlot mark step).2 g =
    (array m slots).update mark step (g ∘ f) := by
  obtain ⟨slots', made, -⟩ := makeSlot_array mark m slots plain
  rw [update, update, made, modifyChild_modifyChild]

theorem child_update (mark m : A) (slots : List (Option Bytes × Any S A)) (plain : step.Plain) : ((array m slots).update mark step f).child ((array m slots).makeSlot mark step).2 =
    f (((array m slots).makeSlot mark step).1.child ((array m slots).makeSlot mark step).2) := by
  obtain ⟨slots', made, inside⟩ := makeSlot_array mark m slots plain
  rw [update, made, child_modifyChild_self inside]

theorem atName_update (mark m : A) (slots : List (Option Bytes × Any S A)) (named : k ≠ []) : ((array m slots).update mark (.name k) f).atName mark k =
    ((array m slots).update mark (.name k) f, ((array m slots).makeSlot mark (.name k)).2) := by
  cases found : (array m slots).findIndex k with
  | some i =>
    rw [update_name_found named found, makeSlot, atName_self mark named found]
    exact atName_self mark named (findIndex_modifyChild.trans found)
  | none =>
    rw [update_name_new named found, atName_self mark named (findIndex_new named found (f null)), makeSlot, atName_new named found]

end Update

/-! ### Changing what is at the end of a way -/

section Ways

variable {c : Any S A} {f g : Any S A → Any S A} {way : List Nat} {i : Nat}

theorem modify_append (more : List Nat) : c.modify (way ++ more) f = c.modify way (modify more f) := by
  induction way generalizing c with
  | nil => rfl
  | cons i way ih => exact modifyChild_congr ih

theorem reach_modify (leads : Leads way c) : (c.modify way f).reach way = f (c.reach way) := by
  induction way generalizing c with
  | nil => rfl
  | cons i way ih =>
    obtain ⟨⟨m, slots, rfl⟩, inside, -, rest⟩ := leads
    rw [modify, reach, child_modifyChild_self inside]
    exact ih rest

theorem modify_modify (leads : Leads way c) : (c.modify way f).modify way g = c.modify way (g ∘ f) := by
  induction way generalizing c with
  | nil => rfl
  | cons i way ih =>
    obtain ⟨⟨m, slots, rfl⟩, inside, -, rest⟩ := leads
    rw [modify, modify, modifyChild_modifyChild]
    exact modifyChild_congr (ih rest)

theorem isNull_modify (leads : Leads way c) (full : (f (c.reach way)).isNull = false) : (c.modify way f).isNull = false := by
  cases way with
  | nil => exact full
  | cons i way =>
    obtain ⟨⟨m, slots, rfl⟩, -⟩ := leads
    rfl

theorem leads_modify {m : A} {slots : List (Option Bytes × Any S A)} (leads : Leads way c) (here : f (c.reach way) = array m slots)
    (inside : i < slots.length) (full : ((array m slots).child i).isNull = false) : Leads (way ++ [i]) (c.modify way f) := by
  induction way generalizing c with
  | nil =>
    rw [modify, show f c = array m slots from here]
    exact ⟨⟨m, slots, rfl⟩, inside, full, trivial⟩
  | cons j way ih =>
    obtain ⟨⟨m', slots', rfl⟩, inside', -, rest⟩ := leads
    have below := ih rest here
    have value : (array m' slots').modify (j :: way) f = (array m' slots').modifyChild j (modify way f) := rfl
    have more : (((array m' slots').modifyChild j (modify way f)).child j).isNull = false := by
      rw [child_modifyChild_self inside']
      refine isNull_modify rest ?_
      rw [show f (((array m' slots').child j).reach way) = array m slots from here]
      rfl
    refine ⟨⟨m', _, rfl⟩, ?_, more, ?_⟩
    · rw [value, modifyChild, getSize, List.length_modify]
      exact inside'
    · rw [value, child_modifyChild_self inside']
      exact below

end Ways

end Any

/-! ### The handle on the way -/

namespace SlotFinder

open Any

variable {S A : Type} {mark : A}

namespace Handle

def step (mark : A) (h : Handle S A) : PathStep → Handle S A
  | .name k => h.enterName mark k
  | .index digits => h.enterIndex mark (decimal digits)

def walk (mark : A) (steps : List PathStep) (h : Handle S A) : Handle S A := steps.foldl (fun h step => h.step mark step) h

def Loose (h : Handle S A) : Prop := h.apart = none → ∀ m slots, h.root.reach h.way ≠ array m slots

variable {h : Handle S A} {m : A} {slots : List (Option Bytes × Any S A)} {f : Any S A → Any S A}

theorem value_shared (shared : h.apart = none) : h.value = h.root.reach h.way := by
  rw [value, shared]
  rfl

theorem change_array (shared : h.apart = none) (here : h.root.reach h.way = array m slots) (f : Any S A → Any S A) :
    h.change f = { h with root := h.root.modify h.way f } := by
  simp only [change, shared, here]

theorem enter_shared (shared : h.apart = none) (i : Nat) : h.enter i = { h with way := h.way ++ [i] } := by
  simp only [enter, shared]

theorem change_loose (loose : h.Loose) (f : Any S A → Any S A) : ∃ c, h.change f = { h with apart := some c } := by
  rw [change]
  cases shared : h.apart with
  | some c => exact ⟨f c, rfl⟩
  | none =>
    cases here : h.root.reach h.way with
    | null => exact ⟨_, rfl⟩
    | simple s => exact ⟨_, rfl⟩
    | array m slots => exact absurd here (loose shared m slots)

theorem loose_apart (root : Any S A) (way : List Nat) (c : Any S A) : Loose ⟨root, way, some c⟩ := fun shared => by cases shared

theorem step_loose (mark : A) (loose : h.Loose) (step : PathStep) : ∃ c, h.step mark step = { h with apart := some c } := by
  cases step with
  | name k =>
    obtain ⟨c, filled⟩ := change_loose loose (withName mark k (fill mark))
    obtain ⟨c', again⟩ := change_loose (loose_apart h.root h.way c) fun c => (c.atName mark k).1
    rw [Handle.step, enterName, filled, makeName, again]
    exact ⟨_, rfl⟩
  | index digits =>
    obtain ⟨c, filled⟩ := change_loose loose fun c => (c.atIndex mark (decimal digits)).modifyChild (decimal digits) (fill mark)
    rw [Handle.step, enterIndex, filled]
    exact ⟨_, rfl⟩

theorem root_walk_loose (mark : A) (loose : h.Loose) (steps : List PathStep) : (h.walk mark steps).root = h.root ∧ (h.walk mark steps).Loose := by
  induction steps generalizing h with
  | nil => exact ⟨rfl, loose⟩
  | cons step steps ih =>
    obtain ⟨c, stepped⟩ := step_loose mark loose step
    rw [walk, List.foldl_cons, stepped]
    exact ih (loose_apart h.root h.way c)

theorem step_array (mark : A) {step : PathStep} (shared : h.apart = none) (leads : Leads h.way h.root)
    (here : h.root.reach h.way = array m slots) (plain : step.Plain) :
    h.step mark step = ⟨h.root.modify h.way (update mark step (fill mark)), h.way ++ [((array m slots).makeSlot mark step).2], none⟩ := by
  cases step with
  | index digits =>
    rw [Handle.step, enterIndex, change_array shared here, enter_shared (by exact shared), shared]
    rfl
  | name k =>
    have filled : h.change (withName mark k (fill mark)) = { h with root := h.root.modify h.way (update mark (.name k) (fill mark)) } :=
      change_array shared here _
    have there : (h.root.modify h.way (update mark (.name k) (fill mark))).reach h.way = (array m slots).update mark (.name k) (fill mark) := by
      rw [reach_modify leads, here]
    obtain ⟨slots', made, -⟩ := update_array mark m slots plain (fill mark)
    have named := atName_update mark m slots (f := fill mark) plain.named
    have again : (h.root.modify h.way (update mark (.name k) (fill mark))).modify h.way (fun c => (c.atName mark k).1) =
        h.root.modify h.way (update mark (.name k) (fill mark)) := by
      refine modify_self ?_
      rw [there, named]
    rw [Handle.step, enterName, filled, makeName, change_array (by exact shared) (there.trans made)]
    dsimp only
    rw [again, value_shared (by exact shared), there, named, enter_shared (by exact shared), shared]

def Sound (h : Handle S A) : Prop := h.apart = none → Leads h.way h.root

theorem onward {step : PathStep} (leads : Leads h.way h.root) (here : h.root.reach h.way = array m slots) (plain : step.Plain) :
    Leads (h.way ++ [((array m slots).makeSlot mark step).2]) (h.root.modify h.way (update mark step (fill mark))) := by
  obtain ⟨slots', made, inside⟩ := update_array mark m slots plain (fill mark)
  have full := child_update mark m slots (f := fill mark) plain
  refine leads_modify leads (by rw [here]; exact made) inside ?_
  rw [← made, full]
  exact isNull_fill _

theorem sound_step {step : PathStep} (sound : h.Sound) (plain : step.Plain) : (h.step mark step).Sound := by
  have loosely : h.Loose → (h.step mark step).Sound := by
    intro loose shared
    obtain ⟨c, stepped⟩ := step_loose mark loose step
    rw [stepped] at shared
    cases shared
  cases shared : h.apart with
  | some c => exact loosely fun none => by rw [shared] at none; cases none
  | none =>
    rcases array_or (h.root.reach h.way) with ⟨m, slots, here⟩ | other
    · rw [step_array mark shared (sound shared) here plain]
      exact fun _ => onward (sound shared) here plain
    · exact loosely fun _ => other

theorem sound_walk {steps : List PathStep} (sound : h.Sound) (plain : ∀ step ∈ steps, step.Plain) : (h.walk mark steps).Sound := by
  induction steps generalizing h with
  | nil => exact sound
  | cons step steps ih =>
    exact ih (sound_step sound (plain step List.mem_cons_self)) fun step mem => plain step (List.mem_cons_of_mem _ mem)

theorem enterName_makeName {k : Bytes} (sound : h.Sound) (named : k ≠ []) : (h.makeName mark k).enterName mark k = h.enterName mark k := by
  have same : ∀ c : Any S A, (c.atName mark k).1.withName mark k (fill mark) = c.withName mark k (fill mark) := by
    intro c
    rw [withName, atName_atName named, withName]
  have filled : (h.makeName mark k).change (withName mark k (fill mark)) = h.change (withName mark k (fill mark)) := by
    cases shared : h.apart with
    | some c => simp only [makeName, change, shared, same]
    | none =>
      rcases array_or (h.root.reach h.way) with ⟨m, slots, here⟩ | other
      · have there : (h.root.modify h.way fun c => (c.atName mark k).1).reach h.way = ((array m slots).atName mark k).1 := by
          rw [reach_modify (sound shared), here]
        obtain ⟨slots', made, -⟩ := makeSlot_named mark m slots named
        rw [makeName, change_array shared here, change_array (by exact shared) (there.trans made), change_array shared here]
        dsimp only
        rw [modify_modify (sound shared)]
        congr 2
        exact funext same
      · cases here : h.root.reach h.way with
        | null => simp only [makeName, change, shared, here, same]
        | simple s => simp only [makeName, change, shared, here, same]
        | array m slots => exact absurd here (other m slots)
  rw [enterName, enterName, filled]

theorem root_change_loose (loose : h.Loose) (steps : List PathStep) : ((h.walk mark steps).change f).root = h.root := by
  obtain ⟨root, loose'⟩ := root_walk_loose mark loose steps
  obtain ⟨c, changed⟩ := change_loose loose' f
  rw [changed]
  exact root

theorem change_walk {steps : List PathStep} (plain : ∀ step ∈ steps, step.Plain) (shared : h.apart = none)
    (leads : Leads h.way h.root) : ((h.walk mark steps).change f).root = h.root.modify h.way (through mark f steps) := by
  induction steps generalizing h with
  | nil =>
    rcases array_or (h.root.reach h.way) with ⟨m, slots, here⟩ | other
    · rw [walk, List.foldl_nil, change_array shared here]
      refine modify_congr h.way ?_
      rw [here]
      rfl
    · rw [root_change_loose (fun _ => other), modify_self (through_other other)]
  | cons step steps ih =>
    rcases array_or (h.root.reach h.way) with ⟨m, slots, here⟩ | other
    · have isStep := plain step List.mem_cons_self
      have rest := ih (h := ⟨h.root.modify h.way (update mark step (fill mark)), h.way ++ [((array m slots).makeSlot mark step).2], none⟩)
        (fun step mem => plain step (List.mem_cons_of_mem _ mem)) rfl (onward leads here isStep)
      have stepped := step_array mark shared leads here isStep
      rw [walk, List.foldl_cons, stepped]
      refine rest.trans ?_
      dsimp only
      rw [modify_append, modify_modify leads]
      refine modify_congr h.way ?_
      rw [here]
      exact update_update isStep
    · rw [root_change_loose (fun _ => other), modify_self (through_other other)]

end Handle

/-! ### IntOperate along the steps -/

/-- What `IntOperate` returns for the last step. -/
def Ends (slotname : Bytes) (idx : Int) : PathStep → Prop
  | .name k => slotname = k
  | .index digits => slotname = [] ∧ idx = decimal digits

theorem foldl_decimal {digits : Bytes} (all : ∀ c ∈ digits, isdigit c = true) : digitsValue 10 digits = decimal digits := by
  have taken : ∀ c ∈ digits, decide (digitValue c < 10) = true := fun c mem => decide_eq_true (digitValue_lt_ten (all c mem))
  rw [digitsValue, List.takeWhile_eq_self_iff.mpr taken, decimal]
  refine List.foldl_ext _ _ _ fun n c mem => ?_
  rw [digitValue, if_pos (all c mem)]

theorem asLong_digits {digits : Bytes} (plain : (PathStep.index digits).Plain) (fits : decimal digits < 2 ^ 63) :
    asLong (-1) digits = decimal digits := by
  obtain ⟨c, rest, rfl⟩ := List.exists_cons_of_ne_nil plain.1
  have digit := plain.2 c List.mem_cons_self
  obtain ⟨space, minus, plus⟩ := digit_not_mark digit
  have text : splitSign ((c :: rest).dropWhile isspace) = (false, c :: rest) := by
    rw [List.dropWhile_cons_of_neg (by simp [space])]
    simp [splitSign, minus, plus]
  have some : ((c :: rest).takeWhile isdigit).isEmpty = false := by
    rw [List.takeWhile_cons_of_pos digit]
    rfl
  have value : strtol (c :: rest) 10 = (Int64.ofNat (decimal (c :: rest)), false) := by
    have ten : ¬ (10 = 16) := by decide
    rw [strtol, scanNumber, text]
    simp only [if_neg ten, foldl_decimal plain.2, if_pos fits]
  rw [asLong, text, some, value]
  simp only [Bool.false_eq_true, if_false]
  exact Int64.toInt_ofNat_of_lt fits

theorem length_path_le (steps : List PathStep) : (path steps).length ≤ (tail steps).length := by
  cases steps with
  | nil => exact Nat.le_refl 0
  | cons step steps =>
    cases step with
    | name k => rw [PathStep.path_name, PathStep.tail_cons, List.length_cons]; exact Nat.le_succ _
    | index digits => exact Nat.le_refl _

def names (ks : List Bytes) : List PathStep := ks.map .name

theorem colon_not_mem {step : PathStep} (plain : step.Plain) : '.'.toUInt8 ∉ step.text ∧ ':'.toUInt8 ∉ step.text :=
  ⟨fun mem => absurd (plain.inside _ mem) (by decide), fun mem => absurd (plain.inside _ mem) (by decide)⟩

theorem colon_not_mem_tail {ks : List Bytes} (plain : ∀ k ∈ ks, PathName k) : ':'.toUInt8 ∉ tail (names ks) := by
  induction ks with
  | nil => exact List.not_mem_nil
  | cons k ks ih =>
    have differ : ':'.toUInt8 ≠ '.'.toUInt8 := by decide
    have here := (colon_not_mem (show (PathStep.name k).Plain from plain k List.mem_cons_self)).2
    intro mem
    rcases List.mem_cons.mp mem with same | mem
    · exact differ same
    · rcases List.mem_append.mp mem with mem | mem
      · exact here mem
      · exact ih (fun k mem => plain k (List.mem_cons_of_mem _ mem)) mem

theorem colon_not_mem_path {ks : List Bytes} (plain : ∀ k ∈ ks, PathName k) : ':'.toUInt8 ∉ path (names ks) := by
  cases ks with
  | nil => exact List.not_mem_nil
  | cons k ks =>
    intro mem
    rcases List.mem_append.mp mem with mem | mem
    · exact (colon_not_mem (show (PathStep.name k).Plain from plain k List.mem_cons_self)).2 mem
    · exact colon_not_mem_tail (fun k mem => plain k (List.mem_cons_of_mem _ mem)) mem

theorem names_or_index (steps : List PathStep) : (∃ ks, steps = names ks) ∨
    ∃ ks digits rest, steps = names ks ++ .index digits :: rest := by
  induction steps with
  | nil => exact .inl ⟨[], rfl⟩
  | cons step steps ih =>
    cases step with
    | index digits => exact .inr ⟨[], digits, steps, rfl⟩
    | name k =>
      rcases ih with ⟨ks, rfl⟩ | ⟨ks, digits, rest, rfl⟩
      · exact .inl ⟨k :: ks, rfl⟩
      · exact .inr ⟨k :: ks, digits, rest, rfl⟩

theorem path_index_behind (ks : List Bytes) (digits : Bytes) (rest : List PathStep) :
    path (names ks ++ .index digits :: rest) = path (names ks) ++ ':'.toUInt8 :: (digits ++ tail rest) := by
  cases ks with
  | nil => rfl
  | cons k ks =>
    have behind : tail (names ks ++ .index digits :: rest) = tail (names ks) ++ ':'.toUInt8 :: (digits ++ tail rest) := by
      rw [tail, List.flatMap_append]
      rfl
    rw [names, List.map_cons, List.cons_append, PathStep.path_name, ← names, behind, PathStep.path_name, List.append_assoc]

theorem tokens_names {k : Bytes} {ks : List Bytes} (plain : ∀ k' ∈ k :: ks, PathName k') :
    tokens '.'.toUInt8 (path (names (k :: ks))) = k :: ks := by
  have noDot : ∀ k' ∈ k :: ks, '.'.toUInt8 ∉ k' := fun k' mem => (colon_not_mem (show (PathStep.name k').Plain from plain k' mem)).1
  have some : path (names (k :: ks)) ≠ [] := List.append_ne_nil_of_left_ne_nil (plain k List.mem_cons_self).named _
  rw [tokens, if_neg some]
  clear some plain
  induction ks generalizing k with
  | nil =>
    have whole : path (names [k]) = k := List.append_nil k
    rw [whole, List.splitOn_eq_singleton (noDot k List.mem_cons_self)]
  | cons k' ks ih =>
    have split : path (names (k :: k' :: ks)) = k ++ '.'.toUInt8 :: path (names (k' :: ks)) := rfl
    rw [split, List.splitOn_append_cons_self_of_not_mem (noDot k List.mem_cons_self), ih fun k mem => noDot k (List.mem_cons_of_mem _ mem)]

theorem walkNames_eq (ks : List Bytes) (k : Bytes) (s : State S A) :
    walkNames mark (ks ++ [k]) s = (true, ⟨s.dest.walk mark (names ks), k, s.destIdx⟩) := by
  induction ks generalizing s with
  | nil => rfl
  | cons k' ks ih =>
    rw [List.cons_append]
    cases more : ks ++ [k] with
    | nil => exact absurd more (by simp)
    | cons k'' rest =>
      rw [walkNames, ← more, ih]
      · rfl
      · exact fun same => by cases same

theorem plain_names {ks : List Bytes} (plain : ∀ step ∈ names ks, step.Plain) : ∀ k ∈ ks, PathName k :=
  fun k mem => plain (.name k) (List.mem_map_of_mem mem)

theorem enter_names {fuel : Nat} {ks : List Bytes} {s : State S A} (some : ks ≠ []) (plain : ∀ k ∈ ks, PathName k) (sound : s.dest.Sound)
    (walks : ∃ n i, intOperate mark '.'.toUInt8 ':'.toUInt8 fuel { s with destSlotname := path (names ks) } =
      (true, ⟨s.dest.walk mark (names ks.dropLast), n, i⟩) ∧ Ends n i (.name (ks.getLast some))) :
    ∃ n i, enterFront mark (intOperate mark '.'.toUInt8 ':'.toUInt8 fuel { s with destSlotname := path (names ks) }) =
      ⟨s.dest.walk mark (names ks), n, i⟩ := by
  obtain ⟨n, i, walked, rfl⟩ := walks
  have last := plain (ks.getLast some) (List.getLast_mem some)
  have before : (s.dest.walk mark (names ks.dropLast)).Sound := by
    refine Handle.sound_walk sound fun step mem => ?_
    obtain ⟨k, mem', rfl⟩ := List.mem_map.mp mem
    exact plain k (List.dropLast_subset ks mem')
  have whole : s.dest.walk mark (names ks) = (s.dest.walk mark (names ks.dropLast)).enterName mark (ks.getLast some) := by
    conv_lhs => rw [← List.dropLast_append_getLast some, names, List.map_append, Handle.walk, List.foldl_append]
    rfl
  rw [walked, enterFront]
  dsimp only
  rw [Handle.enterName_makeName before last.named, whole]
  exact ⟨_, i, rfl⟩

theorem intOperate_path (mark : A) {fuel : Nat} {steps : List PathStep} {last : PathStep} {s : State S A}
    (plain : ∀ step ∈ steps ++ [last], step.Plain) (fits : ∀ step ∈ steps ++ [last], step.Fits)
    (text : s.destSlotname = path (steps ++ [last])) (enough : s.destSlotname.length < fuel) (sound : s.dest.Sound) :
    ∃ n i, intOperate mark '.'.toUInt8 ':'.toUInt8 fuel s = (true, ⟨s.dest.walk mark steps, n, i⟩) ∧ Ends n i last := by
  induction fuel generalizing steps last s with
  | zero => omega
  | succ fuel ih =>
    rcases names_or_index (steps ++ [last]) with ⟨ks, shape⟩ | ⟨ks, digits, rest, shape⟩
    · -- no index: the tokens are the names
      rw [shape] at plain text
      have plain' := plain_names plain
      obtain ⟨ks', k, rfl⟩ : ∃ ks' k, ks = ks' ++ [k] := by
        rcases List.eq_nil_or_concat ks with rfl | ⟨ks', k, rfl⟩
        · exact absurd shape (by simp [names])
        · exact ⟨ks', k, List.concat_eq_append⟩
      have split : steps = names ks' ∧ [last] = [.name k] := by
        rw [names, List.map_append] at shape
        exact List.append_inj' shape rfl
      obtain ⟨rfl, lasts⟩ := split
      obtain rfl := List.singleton_injective lasts
      have tokenized : tokens '.'.toUInt8 (path (names (ks' ++ [k]))) = ks' ++ [k] := by
        obtain ⟨k₀, more, same⟩ := List.exists_cons_of_ne_nil (List.append_ne_nil_of_right_ne_nil ks' (List.cons_ne_nil k []))
        rw [same] at plain' ⊢
        exact tokens_names plain'
      refine ⟨k, s.destIdx, ?_, rfl⟩
      rw [intOperate, if_neg (by rw [text]; exact colon_not_mem_path plain'), text, tokenized, walkNames_eq]
    · -- the names before the first index, the index, and what is behind it
      rw [shape] at plain fits text
      have plainNames := plain_names fun step mem => plain step (List.mem_append_left _ mem)
      have plainIndex := plain _ (List.mem_append_right _ List.mem_cons_self)
      have noColon := colon_not_mem_path plainNames
      rw [path_index_behind] at text
      have other : ∀ c ∈ path (names ks), (c != ':'.toUInt8) = true := fun c mem => bne_iff_ne.mpr fun same => noColon (same ▸ mem)
      have taken : s.destSlotname.takeWhile (· != ':'.toUInt8) = path (names ks) := by
        rw [text, List.takeWhile_append_of_pos other]
        simp
      have dropped : s.destSlotname.dropWhile (· != ':'.toUInt8) = ':'.toUInt8 :: (digits ++ tail rest) := by
        rw [text, List.dropWhile_append_of_pos other]
        simp
      have colon : ':'.toUInt8 ∈ s.destSlotname := by
        rw [text]
        exact List.mem_append_right _ List.mem_cons_self
      have length : s.destSlotname.length = (path (names ks)).length + (digits.length + (tail rest).length + 1) := by
        rw [text, List.length_append, List.length_cons, List.length_append]
      obtain ⟨n, i, entered⟩ : ∃ n i, (if path (names ks) = [] then s else
          enterFront mark (intOperate mark '.'.toUInt8 ':'.toUInt8 fuel { s with destSlotname := path (names ks) })) =
            ⟨s.dest.walk mark (names ks), n, i⟩ := by
        by_cases none : ks = []
        · subst none
          exact ⟨s.destSlotname, s.destIdx, rfl⟩
        · have some : path (names ks) ≠ [] := PathStep.path_ne_nil (by simpa [names] using none)
            fun step mem => plain step (List.mem_append_left _ mem)
          have whole : names ks = names ks.dropLast ++ [.name (ks.getLast none)] := by
            conv_lhs => rw [← List.dropLast_append_getLast none, names, List.map_append]
            rfl
          rw [if_neg some]
          refine enter_names none plainNames sound ?_
          refine ih ?_ ?_ (congrArg path whole) ?_ sound
          · rw [← whole]
            exact fun step mem => plain step (List.mem_append_left _ mem)
          · rw [← whole]
            exact fun step mem => fits step (List.mem_append_left _ mem)
          · dsimp only
            omega
      have more : digits ++ tail rest ≠ [] := List.append_ne_nil_of_left_ne_nil plainIndex.1 _
      have token : (digits ++ tail rest).takeWhile (fun c => !isDelim '.'.toUInt8 ':'.toUInt8 c) = digits := by
        have inside : ∀ c ∈ digits, (!isDelim '.'.toUInt8 ':'.toUInt8 c) = true := by
          intro c mem
          rw [plainIndex.inside c mem]
          rfl
        rw [List.takeWhile_append_of_pos inside]
        cases rest with
        | nil => exact List.append_nil digits
        | cons step rest => simp [PathStep.tail_cons, PathStep.isDelim_delim]
      have value := asLong_digits plainIndex (fits _ (List.mem_append_right _ List.mem_cons_self))
      rw [intOperate, if_pos colon]
      dsimp only
      rw [taken, dropped, entered, List.tail_cons, if_neg more, token, List.drop_left, PathStep.tail_trim, value]
      rcases List.eq_nil_or_concat rest with rfl | ⟨rest', last', rfl⟩
      · obtain ⟨rfl, lasts⟩ := List.append_inj' shape rfl
        obtain rfl := List.singleton_injective lasts
        exact ⟨[], decimal digits, rfl, rfl, rfl⟩
      · rw [List.concat_eq_append] at shape plain fits length ⊢
        have split : steps = names ks ++ .index digits :: rest' ∧ [last] = [last'] := by
          rw [← List.cons_append, ← List.append_assoc] at shape
          exact List.append_inj' shape rfl
        obtain ⟨rfl, lasts⟩ := split
        obtain rfl := List.singleton_injective lasts
        have behind : ∀ step ∈ rest' ++ [last], step ∈ names ks ++ .index digits :: (rest' ++ [last]) := fun step mem =>
          List.mem_append_right _ (List.mem_cons_of_mem _ mem)
        have some : path (rest' ++ [last]) ≠ [] := PathStep.path_ne_nil (by simp) fun step mem => plain step (behind step mem)
        rw [if_neg some, Int.toNat_natCast]
        have before : (s.dest.walk mark (names ks)).Sound := Handle.sound_walk sound fun step mem => plain step (List.mem_append_left _ mem)
        have short := length_path_le (rest' ++ [last])
        have whole : s.dest.walk mark (names ks ++ .index digits :: rest') =
            ((s.dest.walk mark (names ks)).enterIndex mark (decimal digits)).walk mark rest' := by
          rw [Handle.walk, List.foldl_append]
          rfl
        rw [whole]
        have entered : ((s.dest.walk mark (names ks)).step mark (.index digits)).Sound := Handle.sound_step before plainIndex
        refine ih (fun step mem => plain step (behind step mem)) (fun step mem => fits step (behind step mem)) rfl ?_ entered
        dsimp only
        omega

theorem change_intOperate (mark : A) (dest : Any S A) {steps : List PathStep} {last : PathStep} {f : Bytes → Int → Any S A → Any S A}
    {g : Any S A → Any S A} (plain : ∀ step ∈ steps ++ [last], step.Plain) (fits : ∀ step ∈ steps ++ [last], step.Fits)
    (changes : ∀ n i, Ends n i last → f n i = g) :
    ∃ s, intOperate mark '.'.toUInt8 ':'.toUInt8 ((path (steps ++ [last])).length + 1) ⟨⟨dest, [], none⟩, path (steps ++ [last]), -1⟩ =
      (true, s) ∧ (s.dest.change (f s.destSlotname s.destIdx)).root = through mark g steps dest := by
  obtain ⟨n, i, walked, ends⟩ := intOperate_path mark (s := ⟨⟨dest, [], none⟩, path (steps ++ [last]), -1⟩) plain fits rfl
    (Nat.lt_succ_self _) fun _ => trivial
  refine ⟨_, walked, ?_⟩
  dsimp only
  rw [changes n i ends]
  exact Handle.change_walk (fun step mem => plain step (List.mem_append_left _ mem)) rfl trivial

end SlotFinder

end Coast
