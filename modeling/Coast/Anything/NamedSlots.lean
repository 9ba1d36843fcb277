import Coast.Anything.SlotRemoval

/-!
# Slots by name

What a slot of a name shows after a slot of any name has been changed, made or removed.
-/

namespace Coast.Any

variable {S A : Type} {mark : A}

/-- `operator[](const char *)` of a view: null where there is no such slot. -/
def named (k : Bytes) (c : Any S A) : Any S A := ((c.findIndex k).map c.child).getD null

def isDefined (k : Bytes) (c : Any S A) : Bool := (c.findIndex k).isSome

theorem named_of_not_defined {k : Bytes} {c : Any S A} (undefined : c.isDefined k = false) : c.named k = null := by
  rw [isDefined, Option.isSome_eq_false_iff, Option.isNone_iff_eq_none] at undefined
  rw [named, undefined]
  rfl

theorem named_nil (c : Any S A) : c.named [] = null := by
  cases c <;> rfl

section Slots

variable {slots : List (Option Bytes × Any S A)} {m : A}

theorem named_array (k : Bytes) : (array m slots).named k =
    if k = [] then null else ((slots.find? fun slot => slot.1 = some k).map Prod.snd).getD null := by
  rw [named, findIndex]
  split
  · rfl
  · rw [List.find?_eq_bind_findIdx?_getElem?]
    cases slots.findIdx? fun slot => slot.1 = some k with
    | none => rfl
    | some i => rfl

theorem findIndex_array {k : Bytes} (named : k ≠ []) : (array m slots).findIndex k = slots.findIdx? fun slot => slot.1 = some k := by
  rw [findIndex, if_neg named]

def change (k : Bytes) (f : Any S A → Any S A) : List (Option Bytes × Any S A) → List (Option Bytes × Any S A)
  | [] => [(some k, f null)]
  | slot :: slots => if slot.1 = some k then (slot.1, f slot.2) :: slots else slot :: change k f slots

theorem change_eq (k : Bytes) (f : Any S A → Any S A) : change k f slots =
    match slots.findIdx? fun slot => slot.1 = some k with
    | some i => slots.modify i fun slot => (slot.1, f slot.2)
    | none => slots ++ [(some k, f null)] := by
  induction slots with
  | nil => rfl
  | cons slot slots ih =>
    rw [change, List.findIdx?_cons]
    by_cases here : slot.1 = some k
    · rw [if_pos here, if_pos (decide_eq_true here)]
      rfl
    · rw [if_neg here, if_neg (by simpa using here), ih]
      cases slots.findIdx? fun slot => slot.1 = some k <;> rfl

theorem modify_last (name : Option Bytes) (f : Any S A → Any S A) :
    (slots ++ [(name, null)]).modify slots.length (fun slot => (slot.1, f slot.2)) = slots ++ [(name, f null)] := by
  rw [List.modify_eq_take_cons_drop (by simp)]
  simp

theorem withName_array {k : Bytes} (isNamed : k ≠ []) (f : Any S A → Any S A) :
    (array m slots).withName mark k f = array m (change k f slots) := by
  rw [change_eq, withName, atName, if_neg isNamed, findIndex_array isNamed]
  cases slots.findIdx? fun slot => slot.1 = some k with
  | some i => rfl
  | none => exact congrArg (array m) (modify_last (some k) f)

theorem withName_array_nil (f : Any S A → Any S A) : (array m slots).withName mark [] f = array m (slots ++ [(none, f null)]) := by
  have one : slots.length + 1 - slots.length = 1 := by omega
  have made : (array m slots).atName mark [] = (array m (slots ++ [(none, null)]), slots.length) := by
    rw [atName, if_pos rfl, getSize, atIndex_array, one]
    rfl
  rw [withName, made]
  exact congrArg (array m) (modify_last none f)

theorem find?_change (k k' : Bytes) (f : Any S A → Any S A) : (change k' f slots).find? (fun slot => slot.1 = some k) =
    if k = k' then some (some k, f (((slots.find? fun slot => slot.1 = some k).map Prod.snd).getD null))
    else slots.find? fun slot => slot.1 = some k := by
  induction slots with
  | nil =>
    by_cases same : k = k'
    · simp [change, same]
    · simp [change, same, Ne.symm same]
  | cons slot slots ih =>
    obtain ⟨name, value⟩ := slot
    by_cases here : name = some k'
    · subst here
      by_cases same : k = k'
      · simp [change, same]
      · simp [change, same, Ne.symm same]
    · by_cases other : name = some k
      · subst other
        have apart : k ≠ k' := fun same => here (congrArg some same)
        simp [change, apart]
      · simp [change, here, other, ih]

end Slots

theorem withName_expand (k : Bytes) (f : Any S A → Any S A) (c : Any S A) : c.withName mark k f = (c.expand mark).withName mark k f := by
  by_cases unnamed : k = []
  · subst unnamed
    cases c <;> rfl
  · cases c with
    | null => simp [withName, atName, findIndex, unnamed, expand]
    | simple s => simp [withName, atName, findIndex, unnamed, expand]
    | array m slots => rfl

theorem named_expand (mark : A) (k : Bytes) (c : Any S A) : (c.expand mark).named k = c.named k := by
  cases c with
  | null => simp [expand, named, findIndex]
  | simple s => simp [expand, named, findIndex]
  | array m slots => rfl

section Defined

variable {slots : List (Option Bytes × Any S A)} {m : A} {k : Bytes}

theorem isDefined_array (named : k ≠ []) : (array m slots).isDefined k = (slots.find? fun slot => slot.1 = some k).isSome := by
  rw [isDefined, findIndex_array named, Bool.eq_iff_iff, List.find?_isSome, List.findIdx?_isSome, List.any_eq_true]

end Defined

theorem isDefined_expand (mark : A) (c : Any S A) (k : Bytes) : (c.expand mark).isDefined k = c.isDefined k := by
  cases c with
  | null => simp [expand, isDefined, findIndex]
  | simple s => simp [expand, isDefined, findIndex]
  | array m slots => rfl

theorem named_withName (k k' : Bytes) (f : Any S A → Any S A) (c : Any S A) :
    (c.withName mark k' f).named k = if k = k' ∧ k ≠ [] then f (c.named k) else c.named k := by
  rw [withName_expand, ← named_expand mark k c]
  obtain ⟨m, slots, shape⟩ : ∃ m slots, c.expand mark = array m slots := by cases c <;> exact ⟨_, _, rfl⟩
  rw [shape]
  by_cases unnamed : k = []
  · rw [unnamed, named_nil, named_nil, if_neg fun both => both.2 rfl]
  · by_cases other : k' = []
    · have apart : ¬ (k = k' ∧ k ≠ []) := fun both => unnamed (both.1.trans other)
      rw [if_neg apart, other, withName_array_nil, named_array, named_array, if_neg unnamed, if_neg unnamed]
      simp [List.find?_append]
    · rw [withName_array other, named_array, named_array, if_neg unnamed, if_neg unnamed, find?_change]
      by_cases same : k = k'
      · rw [if_pos same, if_pos ⟨same, unnamed⟩]
        rfl
      · rw [if_neg same, if_neg fun both => same both.1]

theorem isDefined_withName (k k' : Bytes) (f : Any S A → Any S A) (c : Any S A) (other : k' ≠ k) (isNamed : k ≠ []) :
    (c.withName mark k f).isDefined k' = c.isDefined k' := by
  obtain ⟨m, slots, shape⟩ : ∃ m slots, c.expand mark = array m slots := by cases c <;> exact ⟨_, _, rfl⟩
  rw [withName_expand, ← isDefined_expand mark c, shape, withName_array isNamed]
  by_cases unnamed : k' = []
  · rw [unnamed]
    rfl
  · rw [isDefined_array unnamed, isDefined_array unnamed, find?_change, if_neg other]

theorem isDefined_withName_self {k : Bytes} (isNamed : k ≠ []) (f : Any S A → Any S A) (c : Any S A) : (c.withName mark k f).isDefined k = true := by
  obtain ⟨m, slots, shape⟩ : ∃ m slots, c.expand mark = array m slots := by cases c <;> exact ⟨_, _, rfl⟩
  rw [withName_expand, shape, withName_array isNamed, isDefined_array isNamed, find?_change, if_pos rfl]
  rfl

/-! ### Removing a slot -/

def Distinct : Any S A → Prop
  | array _ slots => (slots.filterMap Prod.fst).Nodup
  | _ => True

section Remove

variable {slots : List (Option Bytes × Any S A)} {m : A}

theorem names_cons (k : Bytes) (value : Any S A) (slots : List (Option Bytes × Any S A)) :
    ((some k, value) :: slots).filterMap Prod.fst = k :: slots.filterMap Prod.fst := rfl

theorem filterMap_change (k : Bytes) (f : Any S A → Any S A) : (change k f slots).filterMap Prod.fst =
    if some k ∈ slots.map Prod.fst then slots.filterMap Prod.fst else slots.filterMap Prod.fst ++ [k] := by
  induction slots with
  | nil => simp [change]
  | cons slot slots ih =>
    obtain ⟨name, value⟩ := slot
    by_cases here : name = some k
    · simp [change, here]
    · have later : some k ∈ ((name, value) :: slots).map Prod.fst ↔ some k ∈ slots.map Prod.fst := by
        simp [Ne.symm here]
      rw [change, if_neg here]
      simp only [later]
      cases name with
      | none => exact ih
      | some k' =>
        rw [names_cons, names_cons, ih]
        split <;> rfl

theorem distinct_withName {c : Any S A} (distinct : c.Distinct) (k : Bytes) (f : Any S A → Any S A) : (c.withName mark k f).Distinct := by
  have expanded : (c.expand mark).Distinct := by cases c <;> first | exact distinct | exact List.nodup_nil
  obtain ⟨m, slots, shape⟩ : ∃ m slots, c.expand mark = array m slots := by cases c <;> exact ⟨_, _, rfl⟩
  rw [shape] at expanded
  rw [withName_expand, shape]
  by_cases unnamed : k = []
  · rw [unnamed, withName_array_nil, Distinct, List.filterMap_append]
    exact (List.append_nil _).symm ▸ expanded
  · rw [withName_array unnamed, Distinct, filterMap_change]
    split
    · exact expanded
    · rename_i fresh
      refine List.nodup_append.mpr ⟨expanded, List.nodup_singleton k, ?_⟩
      intro a mem b same
      obtain rfl := List.mem_singleton.mp same
      rintro rfl
      obtain ⟨slot, mem, eq⟩ := List.mem_filterMap.mp mem
      exact fresh (List.mem_map.mpr ⟨slot, mem, eq⟩)

theorem removeName_array {k : Bytes} (isNamed : k ≠ []) :
    (array m slots).removeName k = array m (slots.eraseP fun slot => slot.1 = some k) := by
  unfold removeName
  rw [findIndex_array isNamed, List.eraseP_eq_eraseIdx]
  cases slots.findIdx? fun slot => slot.1 = some k <;> rfl

theorem find?_eraseP {k k' : Bytes} (distinct : (slots.filterMap Prod.fst).Nodup) :
    (slots.eraseP fun slot => slot.1 = some k').find? (fun slot => slot.1 = some k) =
      if k = k' then none else slots.find? fun slot => slot.1 = some k := by
  induction slots with
  | nil => simp
  | cons slot slots ih =>
    obtain ⟨name, value⟩ := slot
    by_cases here : name = some k'
    · subst here
      rw [names_cons, List.nodup_cons] at distinct
      by_cases same : k = k'
      · subst same
        have absent : slots.find? (fun slot => slot.1 = some k) = none := by
          rw [List.find?_eq_none]
          intro slot mem eq
          exact distinct.1 (List.mem_filterMap.mpr ⟨slot, mem, of_decide_eq_true eq⟩)
        simp [absent]
      · simp [same, Ne.symm same]
    · have rest : (slots.filterMap Prod.fst).Nodup := by
        cases name with
        | none => exact distinct
        | some k'' => exact (List.nodup_cons.mp distinct).2
      by_cases found : name = some k
      · have apart : k ≠ k' := fun same => here (found.trans (congrArg some same))
        simp [found, apart]
      · simp [here, found, ih rest]

end Remove

theorem named_removeName {c : Any S A} (distinct : c.Distinct) (k k' : Bytes) :
    (c.removeName k').named k = if k = k' then null else c.named k := by
  cases c with
  | null => simp [removeName, named, findIndex]
  | simple s => simp [removeName, named, findIndex]
  | array m slots =>
    by_cases unnamed : k' = []
    · have kept : (array m slots).removeName [] = array m slots := rfl
      rw [unnamed, kept]
      split
      · rename_i same
        rw [same, named_nil]
      · rfl
    · rw [removeName_array unnamed, named_array, named_array, find?_eraseP distinct]
      by_cases same : k = k'
      · rw [if_pos same, if_pos same]
        split <;> rfl
      · rw [if_neg same, if_neg same]

theorem distinct_removeName {c : Any S A} (distinct : c.Distinct) (k : Bytes) : (c.removeName k).Distinct := by
  cases c with
  | null => exact distinct
  | simple s => exact distinct
  | array m slots =>
    by_cases unnamed : k = []
    · rw [unnamed]
      exact distinct
    · rw [removeName_array unnamed]
      exact (List.eraseP_sublist.filterMap Prod.fst).nodup distinct

section Paths

variable {P : Any S A → Prop} {delim indexdelim : UInt8} {c inner : Any S A} {path tail : Bytes}

theorem lookupStep_child (found : c.lookupStep delim indexdelim path = some (inner, tail)) : ∃ i, inner = c.child i := by
  rw [lookupStep] at found
  split at found
  · split at found
    · cases found
    · split at found
      · cases found
      · split at found
        · cases found
        · cases found
          exact ⟨_, rfl⟩
  · split at found
    · cases found
    · split at found
      · cases found
      · cases found
        exact ⟨_, rfl⟩

theorem lookupLoop_keeps (keeps : ∀ c i, P c → P (child i c)) (fuel : Nat) (start : P c) {r : Any S A}
    (found : lookupLoop delim indexdelim fuel c path = some r) : P r := by
  induction fuel generalizing c path with
  | zero => cases found
  | succ fuel ih =>
    rw [lookupLoop] at found
    split at found
    · cases found
    · next inner tail step =>
      obtain ⟨i, rfl⟩ := lookupStep_child step
      split at found
      · cases found
        exact keeps c i start
      · exact ih (keeps c i start) found

theorem lookupPath_keeps (keeps : ∀ c i, P c → P (child i c)) (start : P c) {r : Any S A}
    (found : c.lookupPath delim indexdelim path = some r) : P r := by
  rw [lookupPath] at found
  split at found
  · obtain ⟨i, -, rfl⟩ := Option.map_eq_some_iff.mp found
    exact keeps c i start
  · split at found
    · cases found
    · exact lookupLoop_keeps keeps path.length start found

end Paths

theorem operate_not_found {dest : Any S A} {path : Bytes} (text : path ≠ [])
    (looked : dest.lookupPath '.'.toUInt8 ':'.toUInt8 path = none) : SlotCleaner.operate mark dest path = dest := by
  rw [SlotCleaner.operate, if_neg text, looked]

theorem operate_names_eq {dest : Any S A} {group key : Bytes} (isGroup : PathName group) (hashed : (Anything.ifaHash group).1 ≠ 0)
    (isKey : PathName key) : SlotCleaner.operate mark dest (group ++ '.'.toUInt8 :: key) =
      if dest.isDefined group ∧ (dest.named group).isDefined key then dest.withName mark group (removeName key) else dest := by
  cases found : dest.findIndex group with
  | none =>
    have undefined : dest.isDefined group = false := by rw [isDefined, found]; rfl
    rw [undefined, if_neg (by simp)]
    refine operate_not_found (List.append_ne_nil_of_left_ne_nil isGroup.named _) ?_
    rw [SlotCleaner.lookupPath_names isGroup hashed isKey, found]
    rfl
  | some i =>
    have defined : dest.isDefined group = true := by rw [isDefined, found]; rfl
    have view : dest.named group = dest.child i := by rw [named, found]; rfl
    rw [defined, view]
    cases below : (dest.child i).findIndex key with
    | none =>
      have undefined : (dest.child i).isDefined key = false := by rw [isDefined, below]; rfl
      rw [undefined, if_neg (by simp)]
      refine operate_not_found (List.append_ne_nil_of_left_ne_nil isGroup.named _) ?_
      rw [SlotCleaner.lookupPath_names isGroup hashed isKey, found, Option.bind_some, below]
      rfl
    | some j =>
      have here : (dest.child i).isDefined key = true := by rw [isDefined, below]; rfl
      rw [here, if_pos ⟨rfl, rfl⟩, SlotCleaner.operate_names isGroup hashed isKey found below, withName, atName_self mark isGroup.named found]
      rfl

end Coast.Any
