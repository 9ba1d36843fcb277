import Coast.Anything.AnyMerge

/-!
# Merging in place

`AnyMerge` describes what a merge makes of the master. The code reads the master with `operator[]`, which
makes a slot that is not there, and a trial walks down into the master itself. Here each of these reads
goes through the master; none of them makes a slot.
-/

namespace Coast.AnyUtils

open Any

variable {S A : Type} (conv : Conversions S) (mark : A)

def slotName (i : Nat) : Any S A → Option Bytes
  | array _ slots => slots[i]?.bind Prod.fst
  | _ => none

/-- The indices in `anyMasterIdx`, and the master after the types have been read. -/
def findArrays : List Nat → Any S A → List Nat × Any S A
  | [], anyMaster => ([], anyMaster)
  | m :: indices, anyMaster =>
    if slotName m anyMaster = none then
      let anyMaster := anyMaster.atIndex mark m
      let rest := findArrays indices anyMaster
      (if (anyMaster.child m).isArray then m :: rest.1 else rest.1, rest.2)
    else findArrays indices anyMaster

/-- A merge into `anyMaster[i]`. -/
def intoIndex (i : Nat) (merge : Any S A → Nat × Any S A) (anyMaster : Any S A) : Nat × Any S A :=
  let anyMaster := anyMaster.atIndex mark i
  let merged := merge (anyMaster.child i)
  (merged.1, anyMaster.modifyChild i fun _ => merged.2)

/-- A merge into `anyMaster[k]`. -/
def intoName (k : Bytes) (merge : Any S A → Nat × Any S A) (anyMaster : Any S A) : Nat × Any S A :=
  let slot := anyMaster.atName mark k
  let merged := merge (slot.1.child slot.2)
  (merged.1, slot.1.modifyChild slot.2 fun _ => merged.2)

def findMatches (test : Any S A → Nat × Any S A) : List Nat → Any S A → List (Nat × Nat) × Any S A
  | [], anyMaster => ([], anyMaster)
  | m :: indices, anyMaster =>
    let tried := intoIndex mark m test anyMaster
    let rest := findMatches test indices tried.2
    ((m, tried.1) :: rest.1, rest.2)

mutual

/-- `DoAnyMerge`: the number of hits and the master. -/
def doAnyMerge (bOverwriteSlots bTest : Bool) : Any S A → Any S A → Nat × Any S A
  | array _ slots, anyMaster =>
    if slots.isEmpty then (0, anyMaster)
    else
      let found := findArrays mark (List.range anyMaster.getSize) anyMaster
      mergeSlots bOverwriteSlots bTest found.1 0 slots (0, found.2)
  | null, anyMaster =>
    if anyMaster.isNull ∨ anyMaster.asString conv = [] then (1, anyMaster)
    else (0, if !bTest && bOverwriteSlots then null else anyMaster)
  | simple s, anyMaster =>
    if anyMaster.asString conv = conv.asString s then (1, anyMaster)
    else (0, if !bTest && bOverwriteSlots then simple s else anyMaster)

def mergeSlots (bOverwriteSlots bTest : Bool) (anyMasterIdx : List Nat) (i : Nat) :
    List (Option Bytes × Any S A) → Nat × Any S A → Nat × Any S A
  | [], r => r
  | (name, value) :: slots, (lHitCount, anyMaster) =>
    let strInputSlotname := name.getD []
    let r :=
      if value.isArray = false then
        if strInputSlotname ≠ [] then
          if anyMaster.isDefined strInputSlotname = false ∨ bOverwriteSlots then
            (lHitCount, if bTest then anyMaster else anyMaster.withName mark strInputSlotname fun _ => value.deepClone mark)
          else (lHitCount, anyMaster)
        else if anyMaster.contains conv (value.asString conv) then (lHitCount + 1, anyMaster)
        else (lHitCount, if bTest then anyMaster else append mark (value.deepClone mark) anyMaster)
      else if strInputSlotname = [] then
        if anyMasterIdx ≠ [] then
          let anyMatches := findMatches mark (fun m => doAnyMerge bOverwriteSlots true value m) anyMasterIdx anyMaster
          let lMaxIdx := winner anyMatches.1 i
          (lHitCount, if bTest then anyMatches.2
            else (intoIndex mark lMaxIdx (fun m => doAnyMerge bOverwriteSlots bTest value m) anyMatches.2).2)
        else (lHitCount, if bTest then anyMaster else append mark (value.deepClone mark) anyMaster)
      else
        if anyMaster.isDefined strInputSlotname then
          let merged := intoName mark strInputSlotname (fun m => doAnyMerge bOverwriteSlots bTest value m) anyMaster
          (lHitCount + merged.1, merged.2)
        else (lHitCount, if bTest then anyMaster else anyMaster.withName mark strInputSlotname fun _ => value.deepClone mark)
    mergeSlots bOverwriteSlots bTest anyMasterIdx (i + 1) slots r

end

def anyMerge (anyMaster roaToMerge : Any S A) (bOverwriteSlots : Bool) : Any S A :=
  (doAnyMerge conv mark bOverwriteSlots false roaToMerge anyMaster).2

/-! ### Reading a slot that is there -/

section Reads

variable {mark} {c : Any S A}

theorem atIndex_inside {i : Nat} (inside : i < c.getSize) : c.atIndex mark i = c := by
  cases c with
  | null => exact absurd inside (Nat.not_lt_zero i)
  | simple s =>
    obtain rfl := Nat.lt_one_iff.mp inside
    rfl
  | array m slots => exact atIndex_self mark inside

theorem intoIndex_eq {i : Nat} (inside : i < c.getSize) (merge : Any S A → Nat × Any S A) :
    intoIndex mark i merge c = ((merge (c.child i)).1, c.modifyChild i fun m => (merge m).2) := by
  rw [intoIndex, atIndex_inside inside]
  exact congrArg (Prod.mk _) (modifyChild_congr (f := fun _ => (merge (c.child i)).2) rfl)

theorem intoName_eq {k : Bytes} (named : k ≠ []) (defined : c.isDefined k = true) (merge : Any S A → Nat × Any S A) :
    intoName mark k merge c = ((merge (c.named k)).1, c.withName mark k fun _ => (merge (c.named k)).2) := by
  obtain ⟨i, found⟩ := Option.isSome_iff_exists.mp defined
  rw [intoName, withName, atName_self mark named found, Any.named, found]
  rfl

theorem findArrays_eq {indices : List Nat} (inside : ∀ m ∈ indices, m < c.getSize) : findArrays mark indices c =
    (indices.filter fun m => (slotName m c).isNone && (c.child m).isArray, c) := by
  induction indices with
  | nil => rfl
  | cons m indices ih =>
    have rest := ih fun m' mem => inside m' (List.mem_cons_of_mem m mem)
    rw [findArrays, atIndex_inside (inside m List.mem_cons_self), List.filter_cons]
    dsimp only
    rw [rest]
    cases slotName m c with
    | some name => rfl
    | none =>
      rw [if_pos rfl]
      cases (c.child m).isArray <;> rfl

theorem findArrays_range : findArrays mark (List.range c.getSize) c = (c.masterIndices, c) := by
  rw [findArrays_eq fun m mem => List.mem_range.mp mem]
  refine Prod.ext ?_ rfl
  cases c with
  | null => rfl
  | simple s => rfl
  | array m slots =>
    refine List.filter_congr fun j mem => ?_
    obtain ⟨slot, here⟩ : ∃ slot, slots[j]? = some slot := ⟨_, List.getElem?_eq_getElem (List.mem_range.mp mem)⟩
    rw [slotName, child, here]
    rfl

theorem findMatches_eq {indices : List Nat} (inside : ∀ m ∈ indices, m < c.getSize) {test : Any S A → Nat × Any S A}
    (pure : ∀ m, (test m).2 = m) : findMatches mark test indices c = (indices.map fun m => (m, (test (c.child m)).1), c) := by
  induction indices with
  | nil => rfl
  | cons m indices ih =>
    have rest := ih fun m' mem => inside m' (List.mem_cons_of_mem m mem)
    have kept : (c.modifyChild m fun m => (test m).2) = c := (modifyChild_congr (pure _)).trans (modifyChild_id m c)
    rw [findMatches, intoIndex_eq (inside m List.mem_cons_self), kept, rest]
    rfl

end Reads

/-! ### The trial -/

section Trial

variable {conv} {mark} {c : Any S A}

theorem withName_named {k : Bytes} (named : k ≠ []) (defined : c.isDefined k = true) : (c.withName mark k fun _ => c.named k) = c := by
  obtain ⟨i, found⟩ := Option.isSome_iff_exists.mp defined
  have view : c.named k = c.child i := by rw [Any.named, found]; rfl
  rw [withName, atName_self mark named found, view]
  exact (modifyChild_congr (f := fun _ => c.child i) (g := id) rfl).trans (modifyChild_id i c)

theorem mergeSlots_test {slots : List (Option Bytes × Any S A)} (bOverwriteSlots : Bool)
    (pure : ∀ slot ∈ slots, ∀ m, (Any.doAnyMerge conv mark bOverwriteSlots true slot.2 m).2 = m)
    (anyMasterIdx : List Nat) (i : Nat) (r : Nat × Any S A) :
    (Any.mergeSlots conv mark bOverwriteSlots true anyMasterIdx i slots r).2 = r.2 := by
  induction slots generalizing i r with
  | nil => rw [Any.mergeSlots]
  | cons slot slots ih =>
    obtain ⟨name, value⟩ := slot
    rw [mergeSlots_cons, ih fun slot mem => pure slot (List.mem_cons_of_mem _ mem), mergeSlot_cases]
    have here := pure _ List.mem_cons_self
    split
    · split
      · exact if_neg (by rintro ⟨⟨⟩, -⟩)
      · exact if_neg (by rintro ⟨⟨⟩, -⟩)
    · split
      · rfl
      · rename_i named
        split
        · rename_i defined
          rw [here]
          exact withName_named named defined
        · rfl

theorem doAnyMerge_test (bOverwriteSlots : Bool) (roaToMerge anyMaster : Any S A) :
    (Any.doAnyMerge conv mark bOverwriteSlots true roaToMerge anyMaster).2 = anyMaster := by
  induction roaToMerge using Any.induct generalizing anyMaster with
  | leaf v leaf =>
    cases v with
    | null => rw [Any.doAnyMerge]; split <;> rfl
    | simple s => rw [Any.doAnyMerge]; split <;> rfl
    | array m slots => cases leaf
  | array m slots ih =>
    rw [Any.doAnyMerge]
    exact mergeSlots_test bOverwriteSlots ih _ _ _

end Trial

/-! ### The merge in place is the merge -/

section InPlace

variable {conv} {mark} {c : Any S A}

def Inside (anyMasterIdx : List Nat) (c : Any S A) : Prop :=
  ∀ j ∈ anyMasterIdx, ∃ m slots, c = array m slots ∧ j < slots.length

theorem Inside.lt {anyMasterIdx : List Nat} (inside : Inside anyMasterIdx c) : ∀ j ∈ anyMasterIdx, j < c.getSize := by
  intro j mem
  obtain ⟨m, slots, rfl, below⟩ := inside j mem
  exact below

theorem Inside.extends {anyMasterIdx : List Nat} {c' : Any S A} (inside : Inside anyMasterIdx c) (more : Extends c c') :
    Inside anyMasterIdx c' := by
  intro j mem
  obtain ⟨m, slots, shape, below⟩ := inside j mem
  obtain ⟨slots', shape', names⟩ := more m slots shape
  have length := names.length_le
  rw [List.length_map, List.length_map] at length
  exact ⟨m, slots', shape', below.trans_le length⟩

theorem inside_masterIndices (c : Any S A) : Inside c.masterIndices c := by
  intro j mem
  cases c with
  | null => cases mem
  | simple s => cases mem
  | array m slots => exact ⟨m, slots, rfl, List.mem_range.mp (List.mem_filter.mp mem).1⟩

theorem mergeSlots_eq {slots : List (Option Bytes × Any S A)} (bOverwriteSlots bTest : Bool)
    (same : ∀ slot ∈ slots, ∀ bTest m, doAnyMerge conv mark bOverwriteSlots bTest slot.2 m =
      Any.doAnyMerge conv mark bOverwriteSlots bTest slot.2 m)
    (anyMasterIdx : List Nat) (i : Nat) (r : Nat × Any S A) (inside : Inside anyMasterIdx r.2) :
    mergeSlots conv mark bOverwriteSlots bTest anyMasterIdx i slots r =
      Any.mergeSlots conv mark bOverwriteSlots bTest anyMasterIdx i slots r := by
  induction slots generalizing i r with
  | nil => rw [mergeSlots, Any.mergeSlots]
  | cons slot slots ih =>
    have rest := ih fun slot mem => same slot (List.mem_cons_of_mem _ mem)
    rw [mergeSlots_cons, ← rest (i + 1) _ (inside.extends (extends_mergeSlot conv mark _ _ _ _ _ _))]
    obtain ⟨name, value⟩ := slot
    obtain ⟨lHitCount, anyMaster⟩ := r
    rw [mergeSlots, mergeSlot, Any.mergeSlots, Any.mergeSlots]
    refine congrArg (mergeSlots conv mark bOverwriteSlots bTest anyMasterIdx (i + 1) slots) ?_
    have here := same _ List.mem_cons_self
    dsimp only at here inside ⊢
    split
    · rfl
    split
    · split
      · rename_i arrays
        simp only [here]
        have pure : ∀ m, (Any.doAnyMerge conv mark bOverwriteSlots true value m).2 = m := doAnyMerge_test bOverwriteSlots value
        have wins := inside.lt _ (target_mem conv mark bOverwriteSlots arrays i value anyMaster)
        rw [target] at wins
        rw [findMatches_eq inside.lt pure]
        dsimp only
        rw [intoIndex_eq wins]
      · rfl
    · split
      · rename_i named defined
        simp only [here]
        rw [intoName_eq named defined]
      · rfl

/-- Each read of the master finds its slot, so that the merge in place does what `AnyMerge` describes. -/
theorem doAnyMerge_eq (bOverwriteSlots bTest : Bool) (roaToMerge anyMaster : Any S A) :
    doAnyMerge conv mark bOverwriteSlots bTest roaToMerge anyMaster =
      Any.doAnyMerge conv mark bOverwriteSlots bTest roaToMerge anyMaster := by
  induction roaToMerge using Any.induct generalizing bTest anyMaster with
  | leaf v leaf =>
    cases v with
    | null => rw [doAnyMerge, Any.doAnyMerge]
    | simple s => rw [doAnyMerge, Any.doAnyMerge]
    | array m slots => cases leaf
  | array m slots ih =>
    rw [doAnyMerge, Any.doAnyMerge, findArrays_range]
    have merged := mergeSlots_eq bOverwriteSlots bTest (fun slot mem => ih slot mem) anyMaster.masterIndices 0 (0, anyMaster)
      (inside_masterIndices anyMaster)
    cases slots with
    | nil => rw [Any.mergeSlots]; rfl
    | cons slot slots => exact merged

theorem anyMerge_eq (bOverwriteSlots : Bool) (roaToMerge anyMaster : Any S A) :
    anyMerge conv mark anyMaster roaToMerge bOverwriteSlots = anyMaster.anyMerge conv mark roaToMerge bOverwriteSlots := by
  rw [anyMerge, doAnyMerge_eq]
  rfl

end InPlace

/-- In the trial mode a merge leaves the master as it is, at whatever depth and whatever is overwritten. -/
theorem trial_pure (conv : Conversions S) (mark : A) (anyMaster roaToMerge : Any S A) (bOverwriteSlots : Bool) :
    (doAnyMerge conv mark bOverwriteSlots true roaToMerge anyMaster).2 = anyMaster := by
  rw [doAnyMerge_eq]
  exact doAnyMerge_test bOverwriteSlots roaToMerge anyMaster

end Coast.AnyUtils
