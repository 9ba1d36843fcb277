import Coast.Anything.MergeKeeps

/-!
# What a merge adds

A merge that does not overwrite takes nothing away. A simple value that an array is merged into becomes the
first slot of a new array, as `Expand` makes it; every other simple value stays at its path.
-/

namespace Coast.Any

variable {S A : Type}

inductive Selector where
  | name (k : Bytes)
  | position (i : Nat)

def slotAt : Selector → Any S A → Option (Any S A)
  | .name k, c => (c.findIndex k).map c.child
  | .position i, array _ slots => slots[i]?.map Prod.snd
  | .position _, _ => none

def simpleAt : List Selector → Any S A → Option S
  | [], simple s => some s
  | [], _ => none
  | selector :: path, c => (c.slotAt selector).bind fun value => simpleAt path value

mutual

def Grown : Any S A → Any S A → Prop
  | null, _ => True
  | simple s, c' => c' = simple s ∨ ∃ m rest, c' = array m ((none, simple s) :: rest)
  | array m slots, c' => ∃ slots', c' = array m slots' ∧ GrownSlots slots slots'

def GrownSlots : List (Option Bytes × Any S A) → List (Option Bytes × Any S A) → Prop
  | [], _ => True
  | (name, value) :: slots, slots' => ∃ value' rest, slots' = (name, value') :: rest ∧ Grown value value' ∧ GrownSlots slots rest

end

section Grown

variable {c c' orig value : Any S A} {slots slots' : List (Option Bytes × Any S A)} {mark m : A} {i : Nat} {f : Any S A → Any S A}
  {selector : Selector} {path : List Selector} {s : S}

theorem grownSlots_iff : GrownSlots slots slots' ↔
    ∀ (i : Nat) (slot : Option Bytes × Any S A), slots[i]? = some slot → ∃ value', slots'[i]? = some (slot.1, value') ∧ Grown slot.2 value' := by
  induction slots generalizing slots' with
  | nil => simp [GrownSlots]
  | cons slot slots ih =>
    obtain ⟨name, value⟩ := slot
    rw [GrownSlots]
    constructor
    · rintro ⟨value', rest, rfl, grown, more⟩ i slot at_i
      cases i with
      | zero =>
        obtain rfl := Option.some.inj at_i
        exact ⟨value', rfl, grown⟩
      | succ i => exact ih.mp more i slot at_i
    · intro all
      obtain ⟨value', first, grown⟩ := all 0 (name, value) rfl
      cases slots' with
      | nil => cases first
      | cons slot' rest =>
        obtain rfl := Option.some.inj first
        exact ⟨value', rest, rfl, grown, ih.mpr fun i slot at_i => all (i + 1) slot at_i⟩

theorem Grown.refl (c : Any S A) : Grown c c := by
  induction c using Any.induct with
  | leaf v leaf =>
    cases v with
    | null => trivial
    | simple s => exact .inl rfl
    | array m slots => cases leaf
  | array m slots ih =>
    exact ⟨slots, rfl, grownSlots_iff.mpr fun i slot at_i => ⟨slot.2, at_i, ih slot (List.mem_of_getElem? at_i)⟩⟩

/-! ### What stays at its place -/

theorem GrownSlots.names (grown : GrownSlots slots slots') : slots.map Prod.fst <+: slots'.map Prod.fst := by
  induction slots generalizing slots' with
  | nil => exact List.nil_prefix
  | cons slot slots ih =>
    obtain ⟨value', rest, rfl, -, more⟩ := grown
    exact List.cons_prefix_cons.mpr ⟨rfl, ih more⟩

theorem GrownSlots.findIdx (grown : GrownSlots slots slots') {k : Bytes} (found : slots.findIdx? (fun slot => slot.1 = some k) = some i) :
    slots'.findIdx? (fun slot => slot.1 = some k) = some i := by
  induction slots generalizing slots' i with
  | nil => cases found
  | cons slot slots ih =>
    obtain ⟨name, value⟩ := slot
    obtain ⟨value', rest, rfl, -, more⟩ := grown
    rw [List.findIdx?_cons] at found ⊢
    by_cases own : name = some k
    · simpa [own] using found
    · simp only [own, decide_false, Bool.false_eq_true, if_false] at found ⊢
      obtain ⟨j, later, rfl⟩ := Option.map_eq_some_iff.mp found
      rw [ih more later]
      rfl

theorem Grown.slotAt (grown : Grown c c') (held : c.slotAt selector = some value) :
    ∃ value', c'.slotAt selector = some value' ∧ Grown value value' := by
  cases c with
  | null => cases selector <;> cases held
  | simple s => cases selector <;> cases held
  | array m slots =>
    obtain ⟨slots', rfl, grown⟩ := grown
    cases selector with
    | position i =>
      obtain ⟨slot, at_i, rfl⟩ := Option.map_eq_some_iff.mp held
      obtain ⟨value', at_i', grown'⟩ := grownSlots_iff.mp grown i slot at_i
      exact ⟨value', Option.map_eq_some_iff.mpr ⟨_, at_i', rfl⟩, grown'⟩
    | name k =>
      obtain ⟨i, found, rfl⟩ := Option.map_eq_some_iff.mp held
      have named : k ≠ [] := by
        rintro rfl
        cases found
      rw [findIndex_array named] at found
      obtain ⟨inside, -⟩ := List.findIdx?_eq_some_iff_getElem.mp found
      have at_i := List.getElem?_eq_getElem inside
      obtain ⟨value', at_i', grown'⟩ := grownSlots_iff.mp grown i _ at_i
      refine ⟨value', Option.map_eq_some_iff.mpr ⟨i, ?_, ?_⟩, ?_⟩
      · rw [findIndex_array named]
        exact grown.findIdx found
      · rw [child, at_i']
        rfl
      · rw [child, at_i]
        exact grown'

theorem Grown.simpleAt (grown : Grown c c') (held : c.simpleAt path = some s) :
    c'.simpleAt path = some s ∨ c'.simpleAt (path ++ [.position 0]) = some s := by
  induction path generalizing c c' with
  | nil =>
    cases c with
    | null => cases held
    | array m slots => cases held
    | simple s' =>
      rcases grown with rfl | ⟨m, rest, rfl⟩
      · exact .inl held
      · exact .inr held
  | cons selector path ih =>
    obtain ⟨value, here, below⟩ := Option.bind_eq_some_iff.mp held
    obtain ⟨value', here', grown'⟩ := grown.slotAt here
    exact (ih grown' below).imp (fun same => Option.bind_eq_some_iff.mpr ⟨value', here', same⟩)
      fun first => Option.bind_eq_some_iff.mpr ⟨value', here', first⟩

theorem Grown.keeps (grown : Grown c c') : Keeps c c' := by
  intro way m names here
  induction way generalizing c c' with
  | nil =>
    cases c with
    | null => cases here
    | simple s => cases here
    | array m' slots =>
      obtain ⟨slots', rfl, grown⟩ := grown
      obtain ⟨rfl, rfl⟩ := Prod.mk.inj (Option.some.inj here)
      exact ⟨_, rfl, grown.names⟩
  | cons i way ih =>
    cases c with
    | null => cases here
    | simple s => cases here
    | array m' slots =>
      obtain ⟨slots', rfl, grown⟩ := grown
      obtain ⟨slot, at_i, below⟩ := Option.bind_eq_some_iff.mp here
      obtain ⟨value', at_i', grown'⟩ := grownSlots_iff.mp grown i slot at_i
      obtain ⟨names', there, more⟩ := ih grown' below
      exact ⟨names', Option.bind_eq_some_iff.mpr ⟨_, at_i', there⟩, more⟩

theorem Grown.isArray (grown : Grown c c') (isArray : (c.child i).isArray = true) : (c'.child i).isArray = true := by
  cases c with
  | null => cases isArray
  | simple s => cases isArray
  | array m slots =>
    obtain ⟨slots', rfl, grown⟩ := grown
    cases at_i : slots[i]? with
    | none =>
      rw [child, at_i] at isArray
      cases isArray
    | some slot =>
      rw [child, at_i] at isArray
      obtain ⟨value', at_i', grown'⟩ := grownSlots_iff.mp grown i slot at_i
      rw [child, at_i']
      obtain ⟨name, value⟩ := slot
      cases value with
      | null => cases isArray
      | simple s => cases isArray
      | array m' inner =>
        obtain ⟨inner', rfl, -⟩ := grown'
        rfl

/-! ### Changes that take nothing away -/

theorem Grown.add (grown : Grown orig c) (shape : c.expand mark = array m slots) (slot : Option Bytes × Any S A) :
    Grown orig (array m (slots ++ [slot])) := by
  cases orig with
  | null => trivial
  | simple s =>
    rcases grown with rfl | ⟨m', rest, rfl⟩
    · obtain ⟨rfl, rfl⟩ := Any.array.inj shape
      exact .inr ⟨mark, [slot], rfl⟩
    · obtain ⟨rfl, rfl⟩ := Any.array.inj shape
      exact .inr ⟨m', rest ++ [slot], rfl⟩
  | array m' slots₀ =>
    obtain ⟨slots', rfl, grown⟩ := grown
    obtain ⟨rfl, rfl⟩ := Any.array.inj shape
    refine ⟨_, rfl, grownSlots_iff.mpr fun i slot' at_i => ?_⟩
    obtain ⟨value', at_i', grown'⟩ := grownSlots_iff.mp grown i slot' at_i
    exact ⟨value', List.getElem?_append_left (List.getElem?_eq_some_iff.mp at_i').1 ▸ at_i', grown'⟩

theorem expand_array (mark : A) (c : Any S A) : ∃ m slots, c.expand mark = array m slots := by
  cases c with
  | null => exact ⟨mark, [], rfl⟩
  | simple s => exact ⟨mark, [(none, simple s)], rfl⟩
  | array m slots => exact ⟨m, slots, rfl⟩

theorem Grown.withName_undefined (grown : Grown orig c) {k : Bytes} (named : k ≠ []) (undefined : c.isDefined k = false) :
    Grown orig (c.withName mark k f) := by
  obtain ⟨m, slots, shape⟩ := expand_array mark c
  have missing : slots.findIdx? (fun slot => slot.1 = some k) = none := by
    rw [← findIndex_array (m := m) named, ← shape, ← Option.isNone_iff_eq_none, ← Option.isSome_eq_false_iff, ← undefined, isDefined]
    cases c <;> simp [expand, findIndex, named]
  rw [withName_expand, shape, withName_array named, change_eq, missing]
  exact grown.add shape _

theorem Grown.append (grown : Grown orig c) (value : Any S A) : Grown orig (append mark value c) := by
  obtain ⟨m, slots, shape⟩ := expand_array mark c
  rw [append_expand, shape, append_array]
  exact grown.add shape _

theorem Grown.modifyChild (grown : Grown orig c) (isArray : c.isArray = true)
    (other : ∀ m s rest, c = array m ((none, simple s) :: rest) → i ≠ 0)
    (below : ∀ value, Grown value (c.child i) → Grown value (f (c.child i))) : Grown orig (c.modifyChild i f) := by
  cases orig with
  | null => trivial
  | simple s =>
    rcases grown with rfl | ⟨m, rest, rfl⟩
    · cases isArray
    · obtain ⟨j, rfl⟩ := Nat.exists_eq_succ_of_ne_zero (other m s rest rfl)
      exact .inr ⟨m, rest.modify j fun slot => (slot.1, f slot.2), rfl⟩
  | array m slots =>
    obtain ⟨slots', rfl, grown⟩ := grown
    refine ⟨_, rfl, grownSlots_iff.mpr fun j slot at_j => ?_⟩
    obtain ⟨value', at_j', grown'⟩ := grownSlots_iff.mp grown j slot at_j
    rw [List.getElem?_modify, at_j']
    by_cases here : i = j
    · subst here
      rw [child, at_j'] at below
      exact ⟨f value', by simp, below _ grown'⟩
    · exact ⟨value', by simp [here], grown'⟩

theorem Grown.withName_defined (grown : Grown orig c) {k : Bytes} (named : k ≠ []) (defined : c.isDefined k = true)
    (below : ∀ value, Grown value (c.named k) → Grown value (f (c.named k))) : Grown orig (c.withName mark k f) := by
  obtain ⟨i, found⟩ := Option.isSome_iff_exists.mp defined
  have view : c.named k = c.child i := by rw [Any.named, found]; rfl
  rw [withName, atName_self mark named found]
  refine grown.modifyChild ?_ ?_ (view ▸ below)
  · cases c with
    | null => cases found
    | simple s => cases found
    | array m slots => rfl
  · rintro m s rest rfl rfl
    rw [findIndex_array named] at found
    simp [List.findIdx?_cons] at found

end Grown

/-! ### The merge -/

section Merge

variable {conv : Conversions S} {mark : A} {value c orig : Any S A}

theorem masterIndices_arrays (c : Any S A) : ∀ j ∈ c.masterIndices, (c.child j).isArray = true := by
  intro j mem
  cases c with
  | null => cases mem
  | simple s => cases mem
  | array m slots =>
    obtain ⟨slot, at_j, both⟩ := Option.any_eq_true _ _ |>.mp (List.mem_filter.mp mem).2
    rw [child, at_j]
    exact (Bool.and_eq_true_iff.mp both).2

theorem isArray_of_child {j : Nat} (isArray : (c.child j).isArray = true) : c.isArray = true := by
  cases c with
  | null => cases isArray
  | simple s => cases isArray
  | array m slots => rfl

theorem grown_mergeSlot (name : Option Bytes)
    (merge : ∀ orig c, Grown orig c → Grown orig (doAnyMerge conv mark false false value c).2) {anyMasterIdx : List Nat}
    (arrays : ∀ j ∈ anyMasterIdx, (c.child j).isArray = true) (i lHitCount : Nat) (grown : Grown orig c) :
    Grown orig (mergeSlot conv mark false false anyMasterIdx i (name, value) (lHitCount, c)).2 := by
  rw [mergeSlot_cases]
  dsimp only
  by_cases leaf : value.isArray = false
  · rw [if_pos leaf]
    by_cases named : name.getD [] ≠ []
    · rw [if_pos named]
      split
      · rename_i missing
        exact grown.withName_undefined named (missing.2.resolve_right Bool.false_ne_true)
      · exact grown
    · rw [if_neg named]
      split
      · exact grown.append _
      · exact grown
  · rw [if_neg leaf]
    by_cases unnamed : name.getD [] = []
    · rw [if_pos unnamed, if_neg Bool.false_ne_true]
      by_cases some : anyMasterIdx ≠ []
      · rw [if_pos some]
        have isArray := arrays _ (target_mem conv mark false some i value c)
        refine grown.modifyChild (isArray_of_child isArray) ?_ fun v => merge v _
        rintro m s rest rfl first
        rw [first] at isArray
        cases isArray
      · rw [if_neg some]
        exact grown.append _
    · rw [if_neg unnamed]
      by_cases defined : c.isDefined (name.getD []) = true
      · rw [if_pos defined]
        exact grown.withName_defined unnamed defined fun v => merge v _
      · rw [if_neg defined, if_neg Bool.false_ne_true]
        exact grown.withName_undefined unnamed (Bool.eq_false_iff.mpr defined)

theorem grown_mergeSlots {slots : List (Option Bytes × Any S A)}
    (merge : ∀ slot ∈ slots, ∀ orig c, Grown orig c → Grown orig (doAnyMerge conv mark false false slot.2 c).2) {anyMasterIdx : List Nat}
    (arrays : ∀ j ∈ anyMasterIdx, (c.child j).isArray = true) (i lHitCount : Nat) (grown : Grown orig c) :
    Grown orig (mergeSlots conv mark false false anyMasterIdx i slots (lHitCount, c)).2 := by
  induction slots generalizing i lHitCount c with
  | nil =>
    rw [mergeSlots]
    exact grown
  | cons slot slots ih =>
    obtain ⟨name, value⟩ := slot
    have here := merge _ List.mem_cons_self
    have changed : Grown c (mergeSlot conv mark false false anyMasterIdx i (name, value) (lHitCount, c)).2 :=
      grown_mergeSlot name here arrays i lHitCount (.refl c)
    rw [mergeSlots_cons]
    exact ih (fun slot mem => merge slot (List.mem_cons_of_mem _ mem)) (fun j mem => changed.isArray (arrays j mem)) (i + 1) _
      (grown_mergeSlot name here arrays i lHitCount grown)

theorem grown_doAnyMerge (roaToMerge : Any S A) (orig c : Any S A) (grown : Grown orig c) :
    Grown orig (doAnyMerge conv mark false false roaToMerge c).2 := by
  induction roaToMerge using induct generalizing orig c with
  | leaf v leaf =>
    cases v with
    | null =>
      rw [doAnyMerge]
      split <;> exact grown
    | simple s =>
      rw [doAnyMerge]
      split <;> exact grown
    | array m slots => cases leaf
  | array m slots ih =>
    rw [doAnyMerge]
    exact grown_mergeSlots ih (masterIndices_arrays c) 0 0 grown

end Merge

end Coast.Any
