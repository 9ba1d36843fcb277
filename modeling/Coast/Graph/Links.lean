import Coast.Graph.Import

/-!
# Patching the references

Patches only change the slots that hold placeholders, and paths to nodes never lead through such slots:
each patch links one slot, whatever was linked before.
-/

namespace Coast

open Anything (Key Entries)
open Graphs

variable {D α : Type}

/-! ### The patches of a tree -/

def Patch.path (xref : Patch) : List Level := xref.level ++ [xref.slot]

namespace CutTree

theorem mem_patchesFrom {level : List Level} {i : Nat} {slots : List (Option Key × CutTree D α)} {xref : Patch} :
    xref ∈ patchesFrom level i slots ↔
      ∃ j key t, slots[j]? = some (key, t) ∧ xref ∈ patches level (.ofSlot key (i + j)) t := by
  induction slots generalizing i with
  | nil => simp [patchesFrom]
  | cons e slots ih =>
    obtain ⟨key, t⟩ := e
    rw [patchesFrom, List.mem_append, ih]
    constructor
    · rintro (own | ⟨j, key', t', here, mem⟩)
      · exact ⟨0, key, t, rfl, own⟩
      · exact ⟨j + 1, key', t', here, by rwa [Nat.add_right_comm, Nat.add_assoc] at mem⟩
    · rintro ⟨_ | j, key', t', here, mem⟩
      · cases here
        exact Or.inl mem
      · exact Or.inr ⟨j, key', t', here, by rwa [Nat.add_right_comm, Nat.add_assoc]⟩

theorem mem_patchesFrom_array (id : α) {slots : List (Option Key × CutTree D α)} {level : List Level} {xref : Patch}
    (each : ∀ e ∈ slots, ∀ {level l}, xref ∈ patches level l e.2 ↔
      ∃ rest first, e.2.find rest = some (.ref first) ∧ xref.path = level ++ l :: rest.map Prod.snd) :
    xref ∈ patchesFrom level 0 slots ↔
      ∃ rest first, (CutTree.array id slots).find rest = some (.ref first) ∧ xref.path = level ++ rest.map Prod.snd := by
  rw [mem_patchesFrom]
  constructor
  · rintro ⟨j, key, t, here, mem⟩
    obtain ⟨rest, first, found, path⟩ := (each _ (List.mem_of_getElem? here)).mp mem
    rw [Nat.zero_add] at path
    refine ⟨(j, .ofSlot key j) :: rest, first, ?_, path⟩
    rw [find, here]
    simpa using found
  · rintro ⟨_ | ⟨⟨j, l⟩, rest⟩, first, found, path⟩
    · cases found
    · rw [find] at found
      split at found
      · rename_i key t here
        split at found
        · rename_i same
          refine ⟨j, key, t, here, (each _ (List.mem_of_getElem? here)).mpr ⟨rest, first, found, ?_⟩⟩
          rw [path, Nat.zero_add, same]
          rfl
        · cases found
      · cases found

theorem mem_patches {t : CutTree D α} {level : List Level} {l : Level} {xref : Patch} :
    xref ∈ patches level l t ↔
      ∃ rest first, t.find rest = some (.ref first) ∧ xref.path = level ++ l :: rest.map Prod.snd := by
  induction t using CutTree.induct generalizing level l with
  | simple t simple =>
    cases t with
    | array id slots => exact absurd rfl (simple id slots)
    | null =>
      refine ⟨nofun, ?_⟩
      rintro ⟨_ | ⟨s, rest⟩, first, found, -⟩ <;> cases found
    | leaf id s =>
      refine ⟨nofun, ?_⟩
      rintro ⟨_ | ⟨s, rest⟩, first, found, -⟩ <;> cases found
    | ref first =>
      rw [patches, List.mem_singleton]
      constructor
      · rintro rfl
        exact ⟨[], first, rfl, rfl⟩
      · rintro ⟨_ | ⟨s, rest⟩, first', found, path⟩
        · obtain ⟨levels, slot⟩ := List.append_inj' path rfl
          rw [← levels, ← (List.cons.inj slot).1]
        · cases found
  | array id slots ih =>
    rw [patches, mem_patchesFrom_array id fun e mem => ih e mem]
    simp only [List.append_assoc, List.singleton_append]

theorem mem_allPatches {t : CutTree D α} (node : ∀ first, t ≠ .ref first) {xref : Patch} :
    xref ∈ t.allPatches ↔ ∃ place first, t.find place = some (.ref first) ∧ xref.path = place.map Prod.snd := by
  cases t with
  | array id slots => exact mem_patchesFrom_array id fun _ _ => mem_patches
  | ref first => exact absurd rfl (node first)
  | null =>
    refine ⟨nofun, ?_⟩
    rintro ⟨_ | ⟨s, rest⟩, first, found, -⟩ <;> cases found
  | leaf id s =>
    refine ⟨nofun, ?_⟩
    rintro ⟨_ | ⟨s, rest⟩, first, found, -⟩ <;> cases found

def Sized (t : CutTree D α) : Prop :=
  ∀ place id slots, t.find place = some (.array id slots) → (slots.filterMap Prod.fst).Nodup ∧ slots.length < 2 ^ 63

theorem Sized.slot {id : α} {slots : List (Option Key × CutTree D α)} (sized : Sized (.array id slots)) :
    ∀ e ∈ slots, Sized e.2 := by
  rintro ⟨key, t⟩ mem place id' slots' found
  obtain ⟨i, here⟩ := List.getElem?_of_mem mem
  refine sized ((i, .ofSlot key i) :: place) id' slots' ?_
  rw [find, here]
  simpa using found

theorem nodup_patchesFrom {level : List Level} {i : Nat} {slots : List (Option Key × CutTree D α)}
    (each : ∀ e ∈ slots, ∀ level l, (patches level l e.2).Nodup)
    (apart : ∀ j j' {e e'}, slots[j]? = some e → slots[j']? = some e' →
      Level.ofSlot e.1 (i + j) = Level.ofSlot e'.1 (i + j') → j = j') : (patchesFrom level i slots).Nodup := by
  induction slots generalizing i with
  | nil => exact List.nodup_nil
  | cons e slots ih =>
    obtain ⟨key, t⟩ := e
    rw [patchesFrom, List.nodup_append]
    refine ⟨each _ (List.mem_cons_self ..) _ _, ih (fun e mem => each e (List.mem_cons_of_mem _ mem)) ?_, ?_⟩
    · intro j j' e e' here there same
      rw [Nat.add_right_comm, Nat.add_right_comm i 1 j'] at same
      exact Nat.succ.inj (apart (j + 1) (j' + 1) here there same)
    · rintro xref own _ other rfl
      obtain ⟨rest, first, -, path⟩ := mem_patches.mp own
      obtain ⟨j, key', t', here, mem⟩ := mem_patchesFrom.mp other
      obtain ⟨rest', first', -, path'⟩ := mem_patches.mp mem
      rw [path] at path'
      have same := (List.cons.inj (List.append_cancel_left path')).1
      rw [Nat.add_right_comm] at same
      cases apart 0 (j + 1) rfl here same

theorem Sized.apart {t : CutTree D α} (sized : t.Sized) {place : List Step} {id : α} {slots : List (Option Key × CutTree D α)}
    (array : t.find place = some (.array id slots)) (j j' : Nat) {e e' : Option Key × CutTree D α}
    (here : slots[j]? = some e) (there : slots[j']? = some e') (same : Level.ofSlot e.1 j = Level.ofSlot e'.1 j') :
    j = j' := by
  obtain ⟨distinct, short⟩ := sized place id slots array
  have first := Level.findIndex_ofSlot distinct short (show slots[j]? = some (e.1, e.2) from here)
  have second := Level.findIndex_ofSlot distinct short (show slots[j']? = some (e'.1, e'.2) from there)
  rw [same, second] at first
  exact (Option.some.inj first).symm

theorem Sized.nodup_slots {id : α} {slots : List (Option Key × CutTree D α)} (sized : Sized (.array id slots))
    (each : ∀ e ∈ slots, ∀ level l, (patches level l e.2).Nodup) (level : List Level) : (patchesFrom level 0 slots).Nodup := by
  refine nodup_patchesFrom each ?_
  intro j j' e e' here there same
  rw [Nat.zero_add, Nat.zero_add] at same
  have whole : (CutTree.array id slots).find [] = some (.array id slots) := rfl
  exact sized.apart whole j j' here there same

theorem Sized.nodup_patches {t : CutTree D α} (sized : t.Sized) (level : List Level) (l : Level) :
    (patches level l t).Nodup := by
  induction t using CutTree.induct generalizing level l with
  | simple t simple =>
    cases t with
    | array id slots => exact absurd rfl (simple id slots)
    | ref first => exact List.nodup_singleton _
    | _ => exact List.nodup_nil
  | array id slots ih => exact sized.nodup_slots (fun e mem => ih e mem (sized.slot e mem)) _

theorem Sized.nodup_allPatches {t : CutTree D α} (sized : t.Sized) : t.allPatches.Nodup := by
  cases t with
  | array id slots => exact sized.nodup_slots (fun e mem => (sized.slot e mem).nodup_patches) _
  | _ => exact List.nodup_nil

end CutTree

/-! ### Links -/

def linkHandle (done : List Patch) (place : List Step) (s : Step) : CutTree D α → Option (List Nat)
  | .null => none
  | .ref first => if ⟨place.map Prod.snd, s.2⟩ ∈ done then some (indices first) else some (indices place ++ [s.1])
  | _ => some (indices place ++ [s.1])

def linkSlots (done : List Patch) (place : List Step) (slots : List (Option Key × CutTree D α)) :
    Entries (Option (List Nat)) :=
  slots.mapIdx fun i e => (e.1, linkHandle done place (i, .ofSlot e.1 i) e.2)

structure Linked (t : CutTree D α) (done : List Patch) (heap : AnyHeap D (List Nat)) : Prop where
  leaf : ∀ {place id s}, t.find place = some (.leaf id s) → heap (indices place) = .leaf s
  array : ∀ {place id slots}, t.find place = some (.array id slots) →
    heap (indices place) = .branch (linkSlots done place slots)
  ref : ∀ {place first}, t.find place = some (.ref first) → ∀ rest,
    heap (indices place ++ rest) = t.placed.heap (indices place ++ rest)

namespace CutTree

theorem placedSlots_eq (slots : List (Option Key × CutTree D α)) : placedSlots slots = slots.map fun e => (e.1, e.2.placed) := by
  induction slots with
  | nil => rfl
  | cons e slots ih => rw [placedSlots, ih, List.map_cons]

theorem find_placed {t u : CutTree D α} {place : List Step} (found : t.find place = some u) :
    t.placed.find (indices place) = some u.placed := by
  induction place generalizing t with
  | nil =>
    cases found
    rfl
  | cons s place ih =>
    obtain ⟨i, l⟩ := s
    cases t with
    | array id slots =>
      rw [find] at found
      split at found
      · rename_i key t here
        split at found
        · show (AnyTree.array (placedSlots slots)).find (i :: indices place) = _
          rw [AnyTree.find, placedSlots_eq, List.getElem?_map, here]
          exact ih found
        · cases found
      · cases found
    | _ => cases found

theorem heap_placed {t u : CutTree D α} {place : List Step} (found : t.find place = some u) :
    t.placed.heap (indices place) = u.placed.cell (indices place) := by
  rw [AnyTree.heap, find_placed found]
  rfl

end CutTree

theorem AnyTree.find_append (v : AnyTree D) (p q : List Nat) : v.find (p ++ q) = (v.find p).bind fun u => u.find q := by
  induction p generalizing v with
  | nil => rfl
  | cons i p ih =>
    cases v with
    | array slots =>
      rw [List.cons_append, find, find, Option.bind_assoc]
      congr 1
      funext e
      exact ih e.2
    | _ => rfl

theorem Level.toAny_of_ne_nil {level : List Level} (some : level ≠ []) : (toAny level : AnyTree D) =
    .array (level.map fun l => (none, l.entry)) := by
  rw [toAny, if_neg (by simpa using some)]

theorem linked_nil {t : CutTree D α} (refs : ∀ place, t.find place ≠ some (.ref [])) : Linked t [] t.placed.heap where
  leaf := by
    intro place id s found
    rw [CutTree.heap_placed found]
    cases s <;> rfl
  array := by
    intro place id slots found
    rw [CutTree.heap_placed found]
    show Cell.branch _ = _
    congr 1
    refine List.ext_getElem? fun i => ?_
    rw [CutTree.placedSlots_eq, linkSlots, List.getElem?_mapIdx, List.getElem?_mapIdx, List.getElem?_map]
    cases here : slots[i]? with
    | none => rfl
    | some e =>
      obtain ⟨key, u⟩ := e
      refine congrArg some (Prod.ext rfl ?_)
      show u.placed.handle (indices place ++ [i]) = linkHandle [] place (i, .ofSlot key i) u
      cases u with
      | null => rfl
      | ref first =>
        have nonempty : first.map Prod.snd ≠ [] := by
          intro none
          rw [List.map_eq_nil_iff] at none
          exact refs _ (by rw [CutTree.find_slot found here, none])
        rw [CutTree.placed, Level.toAny_of_ne_nil nonempty, linkHandle, if_neg List.not_mem_nil]
        rfl
      | leaf id s => cases s <;> rfl
      | array id slots => rfl
  ref := fun _ _ => rfl

/-! ### One patch -/

theorem linkHandle_node {u : CutTree D α} {id : α} (node : u.node? = some id) (done : List Patch) (place : List Step) (s : Step) :
    linkHandle done place s u = some (indices place ++ [s.1]) := by
  cases u with
  | null => cases node
  | ref first => cases node
  | leaf id s => rfl
  | array id slots => rfl

theorem linkSlots_get (done : List Patch) (place : List Step) {slots : List (Option Key × CutTree D α)} {i : Nat}
    {key : Option Key} {u : CutTree D α} (here : slots[i]? = some (key, u)) :
    (linkSlots done place slots)[i]? = some (key, linkHandle done place (i, .ofSlot key i) u) := by
  rw [linkSlots, List.getElem?_mapIdx, here]
  rfl

theorem linkSlots_names (done : List Patch) (place : List Step) (slots : List (Option Key × CutTree D α)) :
    (linkSlots done place slots).filterMap Prod.fst = slots.filterMap Prod.fst := by
  have keys : (linkSlots done place slots).map Prod.fst = slots.map Prod.fst := by
    refine List.ext_getElem? fun i => ?_
    rw [linkSlots, List.getElem?_map, List.getElem?_mapIdx, List.getElem?_map, Option.map_map]
    rfl
  rw [filterMap_fst, keys, ← filterMap_fst]

theorem indices_concat (place : List Step) (s : Step) : indices (place ++ [s]) = indices place ++ [s.1] := by
  simp [indices]

namespace Linked

variable {t : CutTree D α} {done : List Patch} {heap : AnyHeap D (List Nat)} (linked : Linked t done heap) (sized : t.Sized)

include sized in
theorem findIndex {place : List Step} {id : α} {slots : List (Option Key × CutTree D α)}
    (array : t.find place = some (.array id slots)) {i : Nat} {key : Option Key} {u : CutTree D α}
    (here : slots[i]? = some (key, u)) : (Level.ofSlot key i).findIndex (linkSlots done place slots) = some i := by
  obtain ⟨distinct, short⟩ := sized place id slots array
  refine Level.findIndex_ofSlot ?_ ?_ (linkSlots_get done place here)
  · rw [linkSlots_names]
    exact distinct
  · rw [linkSlots, List.length_mapIdx]
    exact short

include linked sized in
theorem resolve {place : List Step} {u : CutTree D α} {id : α} (found : t.find place = some u) (node : u.node? = some id) :
    (place.map fun s => some s.2).foldl (resolveToAnyLevel heap) (t.placed.handle []) = some (indices place) := by
  induction place using List.reverseRecOn generalizing u id with
  | nil =>
    cases found
    cases t with
    | leaf id s => cases s <;> rfl
    | array id slots => rfl
    | null => cases node
    | ref first => cases node
  | append_singleton place s ih =>
    obtain ⟨id', slots, key, above, here, shape⟩ := CutTree.find_concat found
    have level : s.2 = .ofSlot key s.1 := congrArg Prod.snd shape
    rw [List.map_append, List.foldl_append, ih above rfl]
    simp only [List.map_cons, List.map_nil, List.foldl_cons, List.foldl_nil, resolveToAnyLevel, Option.bind_eq_bind,
      Option.bind_some, linked.array above, Cell.slots, level, Linked.findIndex sized above here,
      linkSlots_get done place here, linkHandle_node node, indices_concat]

include linked in
theorem levels {place first : List Step} (found : t.find place = some (.ref first)) (nonempty : first ≠ []) :
    levelsOf heap (some (indices place)) = first.map fun s => some s.2 := by
  have nonempty' : first.map Prod.snd ≠ [] := by simpa using nonempty
  have placeholder : t.placed.find (indices place) = some (.array ((first.map Prod.snd).map fun l => (none, l.entry))) := by
    rw [CutTree.find_placed found, CutTree.placed, Level.toAny_of_ne_nil nonempty']
  have own := linked.ref found []
  rw [List.append_nil, AnyTree.heap, placeholder] at own
  simp only [levelsOf, own, Option.getD_some, AnyTree.cell]
  refine List.ext_getElem? fun i => ?_
  rw [List.getElem?_map, List.getElem?_mapIdx, List.getElem?_map, List.getElem?_map, List.getElem?_map]
  cases here : first[i]? with
  | none => rfl
  | some s =>
    have entry : heap (indices place ++ [i]) = (Level.entry s.2 : AnyTree D).cell (indices place ++ [i]) := by
      rw [linked.ref found [i], AnyTree.heap, AnyTree.find_append, placeholder, Option.bind_some, AnyTree.find,
        List.getElem?_map, List.getElem?_map, here]
      rfl
    simp only [Option.map_some]
    obtain ⟨_, l⟩ := s
    cases l with
    | key k => simp [Level.entry, AnyTree.handle, entry, AnyTree.cell, Scalar.level]
    | index n => simp [Level.entry, AnyTree.handle, entry, AnyTree.cell, Scalar.level]

end Linked

theorem atLevel_ofSlot {β : Type} {slots : Entries (Option β)} (distinct : (slots.filterMap Prod.fst).Nodup)
    (short : slots.length < 2 ^ 63) {i : Nat} {key : Option Key} {v : Option β} (here : slots[i]? = some (key, v))
    (value : Option (Option β)) : atLevel slots (.ofSlot key i) value = Entries.put slots i value := by
  have inside : i < slots.length := (List.getElem?_eq_some_iff.mp here).1
  cases key with
  | some k =>
    have found := Level.position_of_name distinct here
    simp only [Level.ofSlot, atLevel, ofText_text, Option.elim_some, Entries.apply, found]
  | none =>
    have index : (Int64.ofNat i).toInt = i := Int64.toInt_ofNat_of_lt (by omega)
    have full : i + 1 - slots.length = 0 := by omega
    simp only [Level.ofSlot, atLevel, index, Int.toNat_natCast, Entries.apply, full, List.replicate_zero, List.append_nil]

theorem put_none {β : Type} (slots : Entries β) (i : Nat) : Entries.put slots i none = slots := by
  rw [Entries.put]
  refine List.ext_getElem? fun j => ?_
  rw [List.getElem?_modify]
  split <;> cases slots[j]? <;> rfl

theorem linkHandle_cons {xref : Patch} {place : List Step} {s : Step} (other : (⟨place.map Prod.snd, s.2⟩ : Patch) ≠ xref)
    (done : List Patch) (u : CutTree D α) : linkHandle (xref :: done) place s u = linkHandle done place s u := by
  cases u with
  | ref first => simp only [linkHandle, List.mem_cons, other, false_or]
  | _ => rfl

namespace Linked

variable {t : CutTree D α} {done : List Patch} {heap : AnyHeap D (List Nat)}

theorem place_unique (linked : Linked t done heap) (sized : t.Sized) {p q : List Step} {a b : α}
    {slots slots' : List (Option Key × CutTree D α)} (here : t.find p = some (.array a slots))
    (there : t.find q = some (.array b slots')) (same : p.map Prod.snd = q.map Prod.snd) : p = q := by
  have first := linked.resolve sized here rfl
  have second := linked.resolve sized there rfl
  have levels : (p.map fun s => some s.2) = q.map fun s => some s.2 := by
    have wrapped := congrArg (List.map some) same
    rwa [List.map_map, List.map_map] at wrapped
  rw [levels, second] at first
  exact CutTree.find_unique here there (Option.some.inj first).symm

theorem linkSlots_cons (sized : t.Sized) {place first : List Step} {id : α} {slots : List (Option Key × CutTree D α)}
    (array : t.find place = some (.array id slots)) {i : Nat} {key : Option Key} (here : slots[i]? = some (key, .ref first)) :
    Entries.put (linkSlots done place slots) i (some (some (indices first))) =
      linkSlots (⟨place.map Prod.snd, .ofSlot key i⟩ :: done) place slots := by
  refine List.ext_getElem? fun j => ?_
  rw [Entries.put, List.getElem?_modify]
  cases there : slots[j]? with
  | none => simp [linkSlots, there]
  | some e =>
    obtain ⟨key', u⟩ := e
    rw [linkSlots_get _ place there, linkSlots_get _ place there]
    by_cases own : i = j
    · subst own
      rw [here] at there
      cases there
      simp [linkHandle]
    · have other : (⟨place.map Prod.snd, Level.ofSlot key' j⟩ : Patch) ≠ ⟨place.map Prod.snd, Level.ofSlot key i⟩ := by
        intro same
        exact own (sized.apart array i j here there (Patch.mk.inj same).2.symm)
      rw [linkHandle_cons other]
      simp [own]

section

variable {above : List Step} {a : α} {slots : List (Option Key × CutTree D α)}
  (array : t.find above = some (.array a slots)) {i : Nat} {key : Option Key}

include array

theorem patch_eq {first : List Step} (here : slots[i]? = some (key, .ref first)) (linked : Linked t done heap)
    (sized : t.Sized) (fresh : ⟨above.map Prod.snd, .ofSlot key i⟩ ∉ done)
    (nonempty : first ≠ []) {u : CutTree D α} {id : α} (target : t.find first = some u) (node : u.node? = some id) :
    patch (t.placed.handle []) heap ⟨above.map Prod.snd, .ofSlot key i⟩ =
      Function.update heap (indices above) (.branch (linkSlots (⟨above.map Prod.snd, .ofSlot key i⟩ :: done) above slots)) := by
  have bounds := sized above a slots array
  have distinct : ((linkSlots done above slots).filterMap Prod.fst).Nodup := by
    rw [linkSlots_names]
    exact bounds.1
  have short : (linkSlots done above slots).length < 2 ^ 63 := by
    rw [linkSlots, List.length_mapIdx]
    exact bounds.2
  have slot := linkSlots_get done above here
  have found := CutTree.find_slot array here
  have handle : linkHandle done above (i, .ofSlot key i) (.ref first : CutTree D α) =
      some (indices (above ++ [(i, .ofSlot key i)])) := by
    rw [linkHandle, if_neg fresh, indices_concat]
  have preslot : ((above.map Prod.snd).map some).foldl (resolveToAnyLevel heap) (t.placed.handle []) =
      some (indices above) := by
    rw [List.map_map]
    exact linked.resolve sized array rfl
  have referenced : getLevel (linkSlots done above slots) (.ofSlot key i) =
      some (indices (above ++ [(i, .ofSlot key i)])) := by
    rw [getLevel, Linked.findIndex sized array here, Option.bind_some, slot, Option.bind_some, handle]
  simp only [patch, preslot, linked.array array, atLevel_ofSlot distinct short slot, put_none, referenced,
    linked.levels found nonempty, linked.resolve sized target node, linkSlots_cons sized array here]

theorem assign (linked : Linked t done heap) (sized : t.Sized) :
    Linked t (⟨above.map Prod.snd, .ofSlot key i⟩ :: done) (Function.update heap (indices above)
      (.branch (linkSlots (⟨above.map Prod.snd, .ofSlot key i⟩ :: done) above slots))) := by
  have apart : ∀ {p : List Step} {w : CutTree D α}, t.find p = some w → p ≠ above → indices p ≠ indices above := by
    intro p w found different same
    exact different (CutTree.find_unique found array same)
  refine ⟨?_, ?_, ?_⟩
  · intro p id s found
    have different : p ≠ above := by
      rintro rfl
      rw [array] at found
      cases found
    rw [Function.update_of_ne (apart found different)]
    exact linked.leaf found
  · intro p id slots' found
    by_cases own : p = above
    · subst own
      rw [array] at found
      cases found
      exact Function.update_self ..
    · rw [Function.update_of_ne (apart found own), linked.array found]
      congr 1
      refine List.ext_getElem? fun j => ?_
      cases there : slots'[j]? with
      | none => simp [linkSlots, there]
      | some e =>
        have other : (⟨p.map Prod.snd, Level.ofSlot e.1 j⟩ : Patch) ≠ ⟨above.map Prod.snd, Level.ofSlot key i⟩ := by
          intro same
          exact own (linked.place_unique sized found array (Patch.mk.inj same).1)
        rw [linkSlots_get _ p (show _ = some (e.1, e.2) from there), linkSlots_get _ p (show _ = some (e.1, e.2) from there),
          linkHandle_cons other]
  · intro p first' found rest
    -- nothing stands below a reference
    have outside : indices p ++ rest ≠ indices above := by
      intro same
      have cut : (above.take p.length).map Prod.fst = p.map Prod.fst := by
        have taken := congrArg (List.take p.length) same
        rw [indices, indices, List.take_left' (List.length_map ..), ← List.map_take] at taken
        exact taken.symm
      have split := List.take_append_drop p.length above
      rw [← split, CutTree.find_append] at array
      obtain ⟨w, upper, lower⟩ := Option.bind_eq_some_iff.mp array
      rw [CutTree.find_unique upper found cut, found] at upper
      cases upper
      cases below : above.drop p.length with
      | nil =>
        rw [below] at lower
        cases lower
      | cons s r =>
        rw [below] at lower
        cases lower
    rw [Function.update_of_ne outside]
    exact linked.ref found rest

end

theorem patch (linked : Linked t done heap) (sized : t.Sized) (root : ∀ first, t ≠ .ref first) {xref : Patch}
    (fresh : xref ∉ done) {place first : List Step} (found : t.find place = some (.ref first))
    (path : xref.path = place.map Prod.snd) (nonempty : first ≠ []) {u : CutTree D α} {id : α}
    (target : t.find first = some u) (node : u.node? = some id) :
    Linked t (xref :: done) (patch (t.placed.handle []) heap xref) := by
  rcases List.eq_nil_or_concat place with rfl | ⟨above, s, rfl⟩
  · exact absurd (Option.some.inj found) (root first)
  rw [List.concat_eq_append] at found path
  obtain ⟨a, slots, key, array, here, shape⟩ := CutTree.find_concat found
  have known : xref = ⟨above.map Prod.snd, .ofSlot key s.1⟩ := by
    rw [Patch.path, List.map_append] at path
    obtain ⟨levels, slot⟩ := List.append_inj' path rfl
    have own : xref.slot = .ofSlot key s.1 := (List.cons.inj slot).1.trans (congrArg Prod.snd shape)
    rw [← levels, ← own]
  subst known
  rw [patch_eq array here linked sized fresh nonempty target node]
  exact linked.assign array sized

end Linked

theorem linked_patches {t : CutTree D α} (sized : t.Sized) (root : ∀ first, t ≠ .ref first)
    (target : ∀ place first, t.find place = some (.ref first) → first ≠ [] ∧ ∃ u id, t.find first = some u ∧ u.node? = some id)
    {xrefs : List Patch} (each : ∀ xref ∈ xrefs, xref ∈ t.allPatches) (unique : xrefs.Nodup) :
    Linked t xrefs.reverse (xrefs.foldl (patch (t.placed.handle [])) t.placed.heap) := by
  induction xrefs using List.reverseRecOn with
  | nil =>
    refine linked_nil ?_
    intro place found
    exact (target place [] found).1 rfl
  | append_singleton xrefs xref ih =>
    rw [List.forall_mem_append, List.forall_mem_singleton] at each
    rw [List.nodup_append] at unique
    obtain ⟨place, first, found, path⟩ := (CutTree.mem_allPatches root).mp each.2
    obtain ⟨nonempty, u, id, target, node⟩ := target place first found
    rw [List.foldl_append, List.reverse_append]
    refine (ih each.1 unique.1).patch sized root ?_ found path nonempty target node
    rw [List.mem_reverse]
    intro mem
    exact unique.2.2 xref mem xref (List.mem_singleton_self _) rfl

end Coast
