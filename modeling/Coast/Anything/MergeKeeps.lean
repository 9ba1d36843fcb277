import Coast.Anything.AnyUtils

/-!
# What a merge keeps of the master

A merge that overwrites replaces what a named slot holds by a simple value without looking at what was
there, be it an array. Everywhere else the arrays of the master stay where they are and only grow.
-/

namespace Coast.Any

variable {S A : Type}

/-- The array at the end of a way of indices: which one it is, and the names of its slots. -/
def arrayAt : List Nat → Any S A → Option (A × List (Option Bytes))
  | [], array m slots => some (m, slots.map Prod.fst)
  | [], _ => none
  | i :: way, array _ slots => slots[i]?.bind fun slot => arrayAt way slot.2
  | _ :: _, _ => none

def Keeps (c c' : Any S A) : Prop :=
  ∀ way m names, c.arrayAt way = some (m, names) → ∃ names', c'.arrayAt way = some (m, names') ∧ names <+: names'

/-! ### Arrays from before the merge -/

section Old

variable {mark : A} {c c' c'' : Any S A}

def KeepsOld (mark : A) (c c' : Any S A) : Prop :=
  ∀ way m names, m ≠ mark → c.arrayAt way = some (m, names) → ∃ names', c'.arrayAt way = some (m, names') ∧ names <+: names'

def NoneOld (mark : A) (c c' : Any S A) : Prop :=
  ∀ way m names', m ≠ mark → c'.arrayAt way = some (m, names') → ∃ names, c.arrayAt way = some (m, names) ∧ names <+: names'

def New (mark : A) (c : Any S A) : Prop := ∀ way m names, c.arrayAt way = some (m, names) → m = mark

theorem KeepsOld.refl (c : Any S A) : KeepsOld mark c c := fun _ _ names _ here => ⟨names, here, List.prefix_rfl⟩

theorem NoneOld.refl (c : Any S A) : NoneOld mark c c := fun _ _ names _ here => ⟨names, here, List.prefix_rfl⟩

theorem NoneOld.trans (first : NoneOld mark c c') (second : NoneOld mark c' c'') : NoneOld mark c c'' := by
  intro way m names'' old here
  obtain ⟨names', there, more'⟩ := second way m names'' old here
  obtain ⟨names, before, more⟩ := first way m names' old there
  exact ⟨names, before, more.trans more'⟩

theorem keepsOld_trans_iff (first : NoneOld mark c c') (second : NoneOld mark c' c'') :
    KeepsOld mark c c'' ↔ KeepsOld mark c c' ∧ KeepsOld mark c' c'' := by
  constructor
  · intro kept
    refine ⟨fun way m names old here => ?_, fun way m names' old there => ?_⟩
    · obtain ⟨names'', last, _⟩ := kept way m names old here
      obtain ⟨names', there, _⟩ := second way m names'' old last
      obtain ⟨names₀, before, more⟩ := first way m names' old there
      obtain ⟨-, rfl⟩ := Prod.mk.inj (Option.some.inj (here.symm.trans before))
      exact ⟨names', there, more⟩
    · obtain ⟨names, here, more⟩ := first way m names' old there
      obtain ⟨names'', last, _⟩ := kept way m names old here
      obtain ⟨names₀, before, more'⟩ := second way m names'' old last
      obtain ⟨-, rfl⟩ := Prod.mk.inj (Option.some.inj (there.symm.trans before))
      exact ⟨names'', last, more'⟩
  · rintro ⟨kept, kept'⟩ way m names old here
    obtain ⟨names', there, more⟩ := kept way m names old here
    obtain ⟨names'', last, more'⟩ := kept' way m names' old there
    exact ⟨names'', last, more.trans more'⟩

theorem New.keepsOld (new : New mark c) (c' : Any S A) : KeepsOld mark c c' :=
  fun way m names old here => absurd (new way m names here) old

theorem New.noneOld (new : New mark c') (c : Any S A) : NoneOld mark c c' :=
  fun way m names old here => absurd (new way m names here) old

theorem arrayAt_leaf (leaf : c.isArray = false) (way : List Nat) : c.arrayAt way = none := by
  cases c with
  | null => cases way <;> rfl
  | simple s => cases way <;> rfl
  | array m slots => cases leaf

theorem new_leaf (leaf : c.isArray = false) : New mark c := by
  intro way m names here
  rw [arrayAt_leaf leaf] at here
  cases here

theorem new_array {slots : List (Option Bytes × Any S A)} (new : ∀ slot ∈ slots, New mark slot.2) : New mark (array mark slots) := by
  intro way m names here
  cases way with
  | nil =>
    obtain ⟨rfl, -⟩ := Prod.mk.inj (Option.some.inj here)
    rfl
  | cons i way =>
    obtain ⟨slot, at_i, below⟩ := Option.bind_eq_some_iff.mp here
    exact new slot (List.mem_of_getElem? at_i) way m names below

theorem keepsOld_leaf_iff (leaf : c'.isArray = false) : KeepsOld mark c c' ↔ New mark c := by
  refine ⟨fun kept way m names here => ?_, fun new => new.keepsOld c'⟩
  by_contra old
  obtain ⟨names', there, -⟩ := kept way m names old here
  rw [arrayAt_leaf leaf] at there
  cases there

theorem deepCloneSlots_eq (mark : A) (slots : List (Option Bytes × Any S A)) :
    deepClone.deepCloneSlots mark slots = slots.map fun slot => (slot.1, slot.2.deepClone mark) := by
  induction slots with
  | nil => rfl
  | cons slot slots ih => rw [deepClone.deepCloneSlots, ih]; rfl

theorem new_deepClone (mark : A) (c : Any S A) : New mark (c.deepClone mark) := by
  induction c using induct with
  | leaf v leaf =>
    cases v with
    | null => exact new_leaf rfl
    | simple s => exact new_leaf rfl
    | array m slots => cases leaf
  | array m slots ih =>
    rw [deepClone, deepCloneSlots_eq]
    refine new_array fun slot mem => ?_
    obtain ⟨slot', mem', rfl⟩ := List.mem_map.mp mem
    exact ih slot' mem'

/-! ### Changes of one slot -/

theorem arrayAt_cons {m : A} {slots : List (Option Bytes × Any S A)} (i : Nat) (way : List Nat) :
    (array m slots).arrayAt (i :: way) = ((array m slots).child i).arrayAt way := by
  rw [arrayAt, child]
  cases slots[i]? with
  | none => exact (arrayAt_leaf rfl way).symm
  | some slot => rfl

theorem child_modifyChild {m : A} {slots : List (Option Bytes × Any S A)} (i j : Nat) (f : Any S A → Any S A) :
    ((array m slots).modifyChild i f).child j =
      if i = j ∧ j < slots.length then f ((array m slots).child j) else (array m slots).child j := by
  rw [modifyChild, child, child, List.getElem?_modify]
  by_cases inside : j < slots.length
  · rw [List.getElem?_eq_getElem inside]
    by_cases here : i = j
    · simp only [if_pos (And.intro here inside), if_pos here]
      rfl
    · simp only [if_neg fun both : i = j ∧ j < slots.length => here both.1, if_neg here]
      rfl
  · rw [if_neg fun both => inside both.2, List.getElem?_eq_none (Nat.le_of_not_lt inside)]
    rfl

theorem child_outside {m : A} {slots : List (Option Bytes × Any S A)} {i : Nat} (outside : ¬i < slots.length) :
    (array m slots).child i = null := by
  rw [child, List.getElem?_eq_none (Nat.le_of_not_lt outside)]
  rfl

theorem noneOld_modifyChild {i : Nat} {f : Any S A → Any S A} (below : NoneOld mark (c.child i) (f (c.child i))) :
    NoneOld mark c (c.modifyChild i f) := by
  cases c with
  | null => exact below
  | simple s => exact below
  | array m slots =>
    intro way m' names old here
    cases way with
    | nil => exact ⟨names, here ▸ congrArg (fun names => some (m, names)) (map_fst_modify slots i f).symm, List.prefix_rfl⟩
    | cons j way =>
      rw [modifyChild, arrayAt_cons, ← modifyChild, child_modifyChild] at here
      rw [arrayAt_cons]
      split at here
      · rename_i at_j
        obtain ⟨rfl, -⟩ := at_j
        exact below way m' names old here
      · exact ⟨names, here, List.prefix_rfl⟩

theorem keepsOld_modifyChild_iff {i : Nat} {f : Any S A → Any S A} :
    KeepsOld mark c (c.modifyChild i f) ↔ KeepsOld mark (c.child i) (f (c.child i)) := by
  cases c with
  | null => exact .rfl
  | simple s => exact .rfl
  | array m slots =>
    constructor
    · intro kept way m' names old here
      by_cases inside : i < slots.length
      · obtain ⟨names', there, more⟩ := kept (i :: way) m' names old ((arrayAt_cons i way).trans here)
        rw [modifyChild, arrayAt_cons, ← modifyChild, child_modifyChild, if_pos ⟨rfl, inside⟩] at there
        exact ⟨names', there, more⟩
      · rw [child_outside inside, arrayAt_leaf rfl] at here
        cases here
    · intro below way m' names old here
      cases way with
      | nil => exact ⟨names, here ▸ congrArg (fun names => some (m, names)) (map_fst_modify slots i f), List.prefix_rfl⟩
      | cons j way =>
        rw [arrayAt_cons] at here
        rw [modifyChild, arrayAt_cons, ← modifyChild, child_modifyChild]
        split
        · rename_i at_j
          obtain ⟨rfl, -⟩ := at_j
          exact below way m' names old here
        · exact ⟨names, here, List.prefix_rfl⟩

theorem old_add {m : A} {slots : List (Option Bytes × Any S A)} (name : Option Bytes) {value : Any S A} (new : New mark value) :
    NoneOld mark (array m slots) (array m (slots ++ [(name, value)])) ∧
      KeepsOld mark (array m slots) (array m (slots ++ [(name, value)])) := by
  have names : slots.map Prod.fst <+: (slots ++ [(name, value)]).map Prod.fst := List.map_append ▸ List.prefix_append _ _
  constructor
  · intro way m' names' old here
    cases way with
    | nil =>
      obtain ⟨rfl, rfl⟩ := Prod.mk.inj (Option.some.inj here)
      exact ⟨_, rfl, names⟩
    | cons i way =>
      obtain ⟨slot, at_i, below⟩ := Option.bind_eq_some_iff.mp here
      rcases Nat.lt_or_ge i slots.length with inside | behind
      · rw [List.getElem?_append_left inside] at at_i
        exact ⟨names', Option.bind_eq_some_iff.mpr ⟨slot, at_i, below⟩, List.prefix_rfl⟩
      · rw [List.getElem?_append_right behind] at at_i
        obtain rfl := List.mem_singleton.mp (List.mem_of_getElem? at_i)
        exact absurd (new way m' names' below) old
  · intro way m' names' old here
    cases way with
    | nil =>
      obtain ⟨rfl, rfl⟩ := Prod.mk.inj (Option.some.inj here)
      exact ⟨_, rfl, names⟩
    | cons i way =>
      obtain ⟨slot, at_i, below⟩ := Option.bind_eq_some_iff.mp here
      exact ⟨names', Option.bind_eq_some_iff.mpr ⟨slot, List.getElem?_append_left (List.getElem?_eq_some_iff.mp at_i).1 ▸ at_i, below⟩,
        List.prefix_rfl⟩

theorem old_leaf (before : List (Option Bytes × Any S A)) (first : ∀ slot ∈ before, New mark slot.2) (leaf : c.isArray = false)
    (name : Option Bytes) {value : Any S A} (new : New mark value) :
    NoneOld mark c (array mark (before ++ [(name, value)])) ∧ KeepsOld mark c (array mark (before ++ [(name, value)])) := by
  refine ⟨New.noneOld (new_array fun slot mem => ?_) c, (new_leaf leaf).keepsOld _⟩
  rcases List.mem_append.mp mem with old | last
  · exact first slot old
  · obtain rfl := List.mem_singleton.mp last
    exact new

theorem old_withName_undefined {k : Bytes} (named : k ≠ []) (undefined : c.isDefined k = false) {f : Any S A → Any S A}
    (new : New mark (f null)) : NoneOld mark c (c.withName mark k f) ∧ KeepsOld mark c (c.withName mark k f) := by
  rw [withName_expand]
  cases c with
  | null =>
    rw [expand, withName_array named]
    exact old_leaf [] (List.forall_mem_nil _) rfl (some k) new
  | simple s =>
    rw [expand, withName_array named]
    exact old_leaf [(none, simple s)] (List.forall_mem_singleton.mpr (new_leaf rfl)) rfl (some k) new
  | array m slots =>
    rw [isDefined, findIndex_array named, Option.isSome_eq_false_iff, Option.isNone_iff_eq_none] at undefined
    rw [expand, withName_array named, change_eq, undefined]
    exact old_add (some k) new

theorem old_append {value : Any S A} (new : New mark value) :
    NoneOld mark c (append mark value c) ∧ KeepsOld mark c (append mark value c) := by
  cases c with
  | null => exact old_leaf [] (List.forall_mem_nil _) rfl none new
  | simple s => exact old_leaf [(none, simple s)] (List.forall_mem_singleton.mpr (new_leaf rfl)) rfl none new
  | array m slots =>
    rw [append_array]
    exact old_add none new

theorem withName_defined {k : Bytes} (named : k ≠ []) (defined : c.isDefined k = true) (f : Any S A → Any S A) :
    ∃ i, c.named k = c.child i ∧ c.withName mark k f = c.modifyChild i f := by
  obtain ⟨i, found⟩ := Option.isSome_iff_exists.mp defined
  refine ⟨i, ?_, ?_⟩
  · rw [Any.named, found]
    rfl
  · rw [withName, atName_self mark named found]

end Old

/-! ### What is spared -/

section Spares

variable (conv : Conversions S) (mark : A) (bOverwriteSlots : Bool)

mutual

/-- Nowhere in the merge is a simple value written over an array from before it, or over a value that
holds one. -/
def Spares : Any S A → Any S A → Prop
  | array _ slots, anyMaster => SparesSlots anyMaster.masterIndices 0 slots anyMaster
  | null, anyMaster => bOverwriteSlots = true → anyMaster.isNull = true ∨ anyMaster.asString conv = [] ∨ New mark anyMaster
  | simple s, anyMaster => bOverwriteSlots = true → anyMaster.asString conv = conv.asString s ∨ New mark anyMaster

/-- The passes over the slots from `i` on, each with the master that it finds. -/
def SparesSlots (anyMasterIdx : List Nat) (i : Nat) : List (Option Bytes × Any S A) → Any S A → Prop
  | [], _ => True
  | (name, value) :: slots, anyMaster =>
    (if value.isArray = false then name.getD [] ≠ [] → bOverwriteSlots = true → New mark (anyMaster.named (name.getD []))
      else if name.getD [] = [] then
        anyMasterIdx ≠ [] → Spares value (anyMaster.child (target conv mark bOverwriteSlots anyMasterIdx i value anyMaster))
      else anyMaster.isDefined (name.getD []) = true → Spares value (anyMaster.named (name.getD []))) ∧
    SparesSlots anyMasterIdx (i + 1) slots (mergeSlot conv mark bOverwriteSlots false anyMasterIdx i (name, value) (0, anyMaster)).2

end

variable {conv mark bOverwriteSlots}

/-- A step takes no old array from nowhere, and keeps those that are there under a condition. -/
def Step (mark : A) (c c' : Any S A) (condition : Prop) : Prop := NoneOld mark c c' ∧ (KeepsOld mark c c' ↔ condition)

theorem Step.kept {c c' : Any S A} (kept : NoneOld mark c c' ∧ KeepsOld mark c c') {condition : Prop} (holds : condition) :
    Step mark c c' condition := ⟨kept.1, iff_of_true kept.2 holds⟩

theorem Step.unchanged (c : Any S A) {condition : Prop} (holds : condition) : Step mark c c condition :=
  .kept ⟨.refl c, .refl c⟩ holds

theorem Step.modifyChild {c : Any S A} {i : Nat} {f : Any S A → Any S A} {condition : Prop}
    (below : Step mark (c.child i) (f (c.child i)) condition) : Step mark c (c.modifyChild i f) condition :=
  ⟨noneOld_modifyChild below.1, keepsOld_modifyChild_iff.trans below.2⟩

theorem Step.withName {c : Any S A} {k : Bytes} (named : k ≠ []) (defined : c.isDefined k = true) {f : Any S A → Any S A}
    {condition : Prop} (below : Step mark (c.named k) (f (c.named k)) condition) : Step mark c (c.withName mark k f) condition := by
  obtain ⟨i, view, change⟩ : ∃ i, c.named k = c.child i ∧ c.withName mark k f = c.modifyChild i f :=
    withName_defined named defined f
  rw [view] at below
  rw [change]
  exact below.modifyChild

theorem Step.leaf {c value : Any S A} (leaf : value.isArray = false) : Step mark c value (New mark c) :=
  ⟨(new_leaf leaf).noneOld c, keepsOld_leaf_iff leaf⟩

theorem Step.overwritten {c value : Any S A} (leaf : value.isArray = false) {same : Prop} (other : ¬same) :
    Step mark c (if !false && bOverwriteSlots then value else c) (bOverwriteSlots = true → same ∨ New mark c) := by
  cases bOverwriteSlots with
  | true => exact ⟨(Step.leaf leaf).1, (Step.leaf leaf).2.trans ⟨fun new _ => .inr new, fun spared => (spared rfl).resolve_left other⟩⟩
  | false => exact .unchanged c fun overwrite => Bool.noConfusion overwrite

theorem deepClone_leaf {value : Any S A} (leaf : value.isArray = false) : (value.deepClone mark).isArray = false := by
  cases value with
  | null => rfl
  | simple s => rfl
  | array m slots => cases leaf

theorem mergeSlot_old (name : Option Bytes) {value : Any S A}
    (merge : ∀ c, Step mark c (doAnyMerge conv mark bOverwriteSlots false value c).2 (Spares conv mark bOverwriteSlots value c))
    (anyMasterIdx : List Nat) (i : Nat) (c : Any S A) :
    Step mark c (mergeSlot conv mark bOverwriteSlots false anyMasterIdx i (name, value) (0, c)).2
      (if value.isArray = false then name.getD [] ≠ [] → bOverwriteSlots = true → New mark (c.named (name.getD []))
        else if name.getD [] = [] then
          anyMasterIdx ≠ [] → Spares conv mark bOverwriteSlots value (c.child (target conv mark bOverwriteSlots anyMasterIdx i value c))
        else c.isDefined (name.getD []) = true → Spares conv mark bOverwriteSlots value (c.named (name.getD []))) := by
  rw [mergeSlot_cases]
  dsimp only
  by_cases leaf : value.isArray = false
  · rw [if_pos leaf, if_pos leaf]
    by_cases named : name.getD [] ≠ []
    · rw [if_pos named]
      by_cases defined : c.isDefined (name.getD []) = true
      · cases overwrite : bOverwriteSlots with
        | true =>
          rw [if_pos ⟨rfl, .inr rfl⟩]
          have written : Step mark (c.named (name.getD [])) (value.deepClone mark) (New mark (c.named (name.getD []))) :=
            .leaf (deepClone_leaf leaf)
          have step := written.withName (f := fun _ => value.deepClone mark) named defined
          simpa only [named, forall_const, ne_eq, not_false_eq_true] using step
        | false =>
          rw [if_neg (by simp [defined])]
          exact .unchanged c fun _ overwrite => Bool.noConfusion overwrite
      · have undefined := Bool.eq_false_iff.mpr defined
        rw [if_pos ⟨rfl, .inl undefined⟩]
        refine .kept (old_withName_undefined named undefined (new_deepClone mark value)) fun _ _ => ?_
        rw [named_of_not_defined undefined]
        exact new_leaf rfl
    · rw [if_neg named]
      split
      · exact .kept (old_append (new_deepClone mark value)) fun some => absurd some named
      · exact .unchanged c fun some => absurd some named
  · rw [if_neg leaf, if_neg leaf]
    by_cases unnamed : name.getD [] = []
    · rw [if_pos unnamed, if_pos unnamed, if_neg Bool.false_ne_true]
      by_cases arrays : anyMasterIdx ≠ []
      · rw [if_pos arrays]
        have step := Step.modifyChild (c := c) (i := target conv mark bOverwriteSlots anyMasterIdx i value c)
          (f := fun m => (doAnyMerge conv mark bOverwriteSlots false value m).2) (merge _)
        simpa only [arrays, forall_const, ne_eq, not_false_eq_true] using step
      · rw [if_neg arrays]
        exact .kept (old_append (new_deepClone mark value)) fun some => absurd some arrays
    · rw [if_neg unnamed, if_neg unnamed]
      by_cases defined : c.isDefined (name.getD []) = true
      · rw [if_pos defined]
        have step := Step.withName unnamed defined
          (f := fun _ => (doAnyMerge conv mark bOverwriteSlots false value (c.named (name.getD []))).2) (merge _)
        simpa only [defined, forall_const] using step
      · rw [if_neg defined, if_neg Bool.false_ne_true]
        have undefined := Bool.eq_false_iff.mpr defined
        exact .kept (old_withName_undefined unnamed undefined (new_deepClone mark value)) fun some => absurd some defined

theorem mergeSlots_master (anyMasterIdx : List Nat) (i : Nat) (slots : List (Option Bytes × Any S A)) (r : Nat × Any S A) :
    (mergeSlots conv mark bOverwriteSlots false anyMasterIdx i slots r).2 =
      (mergeSlots conv mark bOverwriteSlots false anyMasterIdx i slots (0, r.2)).2 := by
  induction slots generalizing i r with
  | nil => rw [mergeSlots, mergeSlots]
  | cons slot slots ih =>
    have same : (mergeSlot conv mark bOverwriteSlots false anyMasterIdx i slot r).2 =
        (mergeSlot conv mark bOverwriteSlots false anyMasterIdx i slot (0, r.2)).2 := by
      obtain ⟨name, value⟩ := slot
      rw [mergeSlot_cases, mergeSlot_cases]
    rw [mergeSlots_cons, mergeSlots_cons, ih, same, ← ih]

theorem mergeSlots_old {slots : List (Option Bytes × Any S A)}
    (merge : ∀ slot ∈ slots, ∀ c, Step mark c (doAnyMerge conv mark bOverwriteSlots false slot.2 c).2
      (Spares conv mark bOverwriteSlots slot.2 c)) (anyMasterIdx : List Nat) (i : Nat) (c : Any S A) :
    Step mark c (mergeSlots conv mark bOverwriteSlots false anyMasterIdx i slots (0, c)).2
      (SparesSlots conv mark bOverwriteSlots anyMasterIdx i slots c) := by
  induction slots generalizing i c with
  | nil =>
    rw [mergeSlots, SparesSlots]
    exact .unchanged c trivial
  | cons slot slots ih =>
    obtain ⟨name, value⟩ := slot
    rw [mergeSlots_cons, mergeSlots_master, SparesSlots]
    obtain ⟨none, kept⟩ := mergeSlot_old name (merge _ List.mem_cons_self) anyMasterIdx i c
    obtain ⟨none', kept'⟩ := ih (fun slot mem => merge slot (List.mem_cons_of_mem _ mem)) (i + 1)
      (mergeSlot conv mark bOverwriteSlots false anyMasterIdx i (name, value) (0, c)).2
    exact ⟨none.trans none', (keepsOld_trans_iff none none').trans (and_congr kept kept')⟩

theorem doAnyMerge_old (roaToMerge anyMaster : Any S A) :
    Step mark anyMaster (doAnyMerge conv mark bOverwriteSlots false roaToMerge anyMaster).2
      (Spares conv mark bOverwriteSlots roaToMerge anyMaster) := by
  induction roaToMerge using induct generalizing anyMaster with
  | leaf v leaf =>
    cases v with
    | null =>
      rw [doAnyMerge, Spares]
      by_cases same : anyMaster.isNull = true ∨ anyMaster.asString conv = []
      · rw [if_pos same]
        exact .unchanged anyMaster fun _ => same.imp_right .inl
      · rw [if_neg same]
        rw [← or_assoc]
        exact .overwritten rfl same
    | simple s =>
      rw [doAnyMerge, Spares]
      by_cases same : anyMaster.asString conv = conv.asString s
      · rw [if_pos same]
        exact .unchanged anyMaster fun _ => .inl same
      · rw [if_neg same]
        exact .overwritten rfl same
    | array m slots => cases leaf
  | array m slots ih =>
    rw [doAnyMerge, Spares]
    exact mergeSlots_old ih _ _ _

end Spares

mutual

def marks : Any S A → List A
  | array m slots => m :: marksOf slots
  | _ => []

def marksOf : List (Option Bytes × Any S A) → List A
  | [] => []
  | (_, value) :: slots => marks value ++ marksOf slots

end

theorem marks_of_mem {slot : Option Bytes × Any S A} {slots : List (Option Bytes × Any S A)} (mem : slot ∈ slots) {m : A}
    (below : m ∈ slot.2.marks) : m ∈ marksOf slots := by
  induction slots with
  | nil => cases mem
  | cons slot' slots ih =>
    rw [marksOf, List.mem_append]
    rcases List.mem_cons.mp mem with rfl | mem
    · exact .inl below
    · exact .inr (ih mem)

theorem mem_marks {way : List Nat} {c : Any S A} {m : A} {names : List (Option Bytes)} (here : c.arrayAt way = some (m, names)) :
    m ∈ c.marks := by
  induction way generalizing c with
  | nil =>
    cases c with
    | null => cases here
    | simple s => cases here
    | array m' slots =>
      obtain ⟨rfl, -⟩ := Prod.mk.inj (Option.some.inj here)
      exact List.mem_cons_self
  | cons i way ih =>
    cases c with
    | null => cases here
    | simple s => cases here
    | array m' slots =>
      obtain ⟨slot, at_i, below⟩ := Option.bind_eq_some_iff.mp here
      exact List.mem_cons_of_mem m' (marks_of_mem (List.mem_of_getElem? at_i) (ih below))

end Coast.Any
