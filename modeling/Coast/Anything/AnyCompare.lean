import Coast.Anything.AnyUtils

/-!
# Comparing a value with a master

`AnyUtils::AnyCompareEqual` checks an input for the slots of a master. A value is equal to itself, and a
comparison that holds still holds when the input has more slots, as long as no index in a path of the
master leads to another slot for it.
-/

namespace Coast

namespace Any

variable {S A : Type}

/-! ### The read-only lookup -/

/-- `ROAnything::At`. -/
def roAt (i : Int) (c : Any S A) : Any S A := if 0 ≤ i ∧ i < c.getSize then c.child i.toNat else null

open Anything (isDelim scanIndex scanName ifaHash)

def roLookupStep (delimSlot delimIdx : UInt8) (c : Any S A) (tok : Bytes) : Option (Any S A × Bytes) :=
  if tok.head? = some delimIdx then
    match scanIndex delimSlot delimIdx tok.tail with
    | none => none
    | some (lIdx, tail) => if lIdx ≥ c.getSize then none else if (c.roAt lIdx).isNull then none else some (c.roAt lIdx, tail)
  else
    match scanName delimSlot delimIdx tok with
    | none => none
    | some key =>
      match c.findIndexHint key (ifaHash key delimSlot delimIdx) with
      | none => none
      | some lIdx => some (c.roAt lIdx, key.drop (ifaHash key delimSlot delimIdx).2)

def roLookupLoop (delimSlot delimIdx : UInt8) : Nat → Any S A → Bytes → Option (Any S A)
  | 0, _, _ => none
  | fuel + 1, c, tok =>
    match c.roLookupStep delimSlot delimIdx tok with
    | none => none
    | some (child, tail) => if tail.isEmpty then some child else roLookupLoop delimSlot delimIdx fuel child tail

/-- `ROAnything::LookupPath`. -/
def roLookupPath (delimSlot delimIdx : UInt8) (c : Any S A) (path : Bytes) : Option (Any S A) :=
  if delimSlot = 0 ∨ delimIdx = 0 ∨ path.any (isDelim delimSlot delimIdx) = false then
    (c.findIndex path).map fun lIdx : Nat => c.roAt lIdx
  else if path.head? = some delimSlot then none
  else roLookupLoop delimSlot delimIdx path.length c path

end Any

namespace AnyUtils

open Any

variable {S A : Type} (conv : Conversions S) (delimSlot delimIdx : UInt8)

/-- `IsEqual("ignore")`. -/
def ignored : Any S A → Bool
  | null => false
  | master => master.asCharPtr conv == ascii "ignore"

mutual

def anyCompareEqual (inputAny : Any S A) : Any S A → Bool
  | array _ slots => compareSlots inputAny slots
  | null => ignored conv (null : Any S A) || inputAny.asString conv == []
  | simple s => ignored conv (simple s : Any S A) || inputAny.asString conv == conv.asString s

def compareSlots (inputAny : Any S A) : List (Option Bytes × Any S A) → Bool
  | [] => true
  | (name, masterSlot) :: slots =>
    (if name.getD [] = [] then
      (List.range inputAny.getSize).any fun j =>
        (slotName j inputAny).getD [] == [] && anyCompareEqual (inputAny.roAt j) masterSlot
    else
      match inputAny.roLookupPath delimSlot delimIdx (name.getD []) with
      | some anySlotCfg => anyCompareEqual anySlotCfg masterSlot
      | none => false) && compareSlots inputAny slots

end

variable {conv delimSlot delimIdx}

/-! ### A value is equal to itself -/

/-- At every depth the names of an array are distinct, not empty and of a kind. -/
inductive Named (p : Bytes → Prop) : Any S A → Prop
  | leaf {c : Any S A} (leaf : c.isArray = false) : Named p c
  | array {m : A} {slots : List (Option Bytes × Any S A)} (distinct : (slots.filterMap Prod.fst).Nodup)
    (names : ∀ slot ∈ slots, ∀ k, slot.1 = some k → k ≠ [] ∧ p k) (each : ∀ slot ∈ slots, Named p slot.2) :
    Named p (array m slots)

theorem Named.each {p : Bytes → Prop} {m : A} {slots : List (Option Bytes × Any S A)} (named : Named p (Any.array m slots)) :
    ∀ slot ∈ slots, Named p slot.2 := by
  cases named with
  | leaf leaf => cases leaf
  | array _ _ each => exact each

theorem Named.names {delimIdx : UInt8} {m : A} {slots : List (Option Bytes × Any S A)}
    (named : Named (fun k => delimIdx ∉ k) (Any.array m slots)) : ∀ slot ∈ slots, delimIdx ∉ slot.1.getD [] := by
  cases named with
  | leaf leaf => cases leaf
  | array _ names _ =>
    intro slot mem
    cases name : slot.1 with
    | none => exact List.not_mem_nil
    | some k => exact (names slot mem k name).2

def slotOf (k : Bytes) (c : Any S A) : Option (Any S A) := (c.findIndex k).map fun lIdx : Nat => c.roAt lIdx

theorem roAt_array {m : A} {slots : List (Option Bytes × Any S A)} {i : Nat} {slot : Option Bytes × Any S A}
    (here : slots[i]? = some slot) : (array m slots).roAt i = slot.2 := by
  have inside := (List.getElem?_eq_some_iff.mp here).1
  rw [roAt, if_pos ⟨Int.natCast_nonneg i, Int.ofNat_lt.mpr inside⟩, child, Int.toNat_natCast, here]
  rfl

theorem slotOf_array (k : Bytes) {m : A} {slots : List (Option Bytes × Any S A)} : slotOf k (array m slots) =
    if k = [] then none else (slots.find? fun slot => slot.1 = some k).map Prod.snd := by
  rw [slotOf, findIndex]
  split
  · rfl
  · rw [List.find?_eq_bind_findIdx?_getElem?]
    cases found : slots.findIdx? fun slot => slot.1 = some k with
    | none => rfl
    | some i =>
      obtain ⟨inside, -⟩ := List.findIdx?_eq_some_iff_getElem.mp found
      have here := List.getElem?_eq_getElem inside
      exact (congrArg some (roAt_array here)).trans (congrArg (Option.map Prod.snd) here.symm)

theorem find?_of_mem {slots : List (Option Bytes × Any S A)} (distinct : (slots.filterMap Prod.fst).Nodup) {k : Bytes} {value : Any S A}
    (mem : (some k, value) ∈ slots) : slots.find? (fun slot => slot.1 = some k) = some (some k, value) := by
  induction slots with
  | nil => cases mem
  | cons slot slots ih =>
    obtain ⟨name, value'⟩ := slot
    by_cases here : name = some k
    · subst here
      rw [names_cons k value', List.nodup_cons] at distinct
      rcases List.mem_cons.mp mem with same | mem
      · rw [List.find?_cons_of_pos (by simp), same]
      · exact distinct.1 (List.mem_filterMap.mpr ⟨(some k, value), mem, rfl⟩) |>.elim
    · rw [List.find?_cons_of_neg (by simpa using here)]
      have rest : (slots.filterMap Prod.fst).Nodup := by
        cases name with
        | none => exact distinct
        | some k' => exact (List.nodup_cons.mp distinct).2
      refine ih rest ((List.mem_cons.mp mem).resolve_left ?_)
      rintro same
      exact here (congrArg Prod.fst same).symm

theorem compareSlots_self {m : A} {slots : List (Option Bytes × Any S A)} (distinct : (slots.filterMap Prod.fst).Nodup)
    (names : ∀ slot ∈ slots, ∀ k, slot.1 = some k → k ≠ [] ∧ k.any (Anything.isDelim delimSlot delimIdx) = false)
    (each : ∀ slot ∈ slots, anyCompareEqual conv delimSlot delimIdx slot.2 slot.2 = true)
    {part : List (Option Bytes × Any S A)} (within : ∀ slot ∈ part, slot ∈ slots) :
    compareSlots conv delimSlot delimIdx (array m slots) part = true := by
  induction part with
  | nil => rw [compareSlots]
  | cons slot part ih =>
    obtain ⟨name, value⟩ := slot
    have mem := within _ List.mem_cons_self
    rw [compareSlots, ih fun slot mem => within slot (List.mem_cons_of_mem _ mem), Bool.and_true]
    cases name with
    | none =>
      obtain ⟨j, here⟩ := List.mem_iff_getElem?.mp mem
      rw [Option.getD_none, if_pos rfl, List.any_eq_true]
      refine ⟨j, List.mem_range.mpr (List.getElem?_eq_some_iff.mp here).1, ?_⟩
      rw [slotName, here, roAt_array here, each _ mem]
      rfl
    | some k =>
      obtain ⟨named, plain⟩ := names _ mem k rfl
      have found : (array m slots).roLookupPath delimSlot delimIdx k = some value := by
        rw [roLookupPath, if_pos (.inr (.inr plain)), ← slotOf, slotOf_array, if_neg named, find?_of_mem distinct mem]
        rfl
      rw [Option.getD_some, if_neg named, found]
      exact each _ mem

theorem anyCompareEqual_self {x : Any S A} (named : Named (fun k => k.any (Anything.isDelim delimSlot delimIdx) = false) x) :
    anyCompareEqual conv delimSlot delimIdx x x = true := by
  induction x using Any.induct with
  | leaf v leaf =>
    cases v with
    | null =>
      rw [anyCompareEqual]
      exact Bool.or_eq_true_iff.mpr (.inr (beq_self_eq_true _))
    | simple s =>
      rw [anyCompareEqual]
      exact Bool.or_eq_true_iff.mpr (.inr (beq_self_eq_true _))
    | array m slots => cases leaf
  | array m slots ih =>
    cases named with
    | leaf leaf => cases leaf
    | array distinct names each =>
      rw [anyCompareEqual]
      exact compareSlots_self distinct names (fun slot mem => ih slot mem (each slot mem)) fun slot mem => mem

/-! ### More slots -/

/-- Slots with others inserted among them: slots with a name anywhere, or at the end only, and slots
without a name at the end. `r` relates the values of those that were there. -/
inductive SlotsInserted (anywhere : Bool) (r : Any S A → Any S A → Prop) :
    List (Option Bytes × Any S A) → List (Option Bytes × Any S A) → Prop
  | nil : SlotsInserted anywhere r [] []
  | keep {name : Option Bytes} {value value' : Any S A} {slots slots' : List (Option Bytes × Any S A)}
    (more : r value value') (rest : SlotsInserted anywhere r slots slots') :
    SlotsInserted anywhere r ((name, value) :: slots) ((name, value') :: slots')
  | named {k : Bytes} {value : Any S A} {slots slots' : List (Option Bytes × Any S A)}
    (place : anywhere = true ∨ slots = []) (rest : SlotsInserted anywhere r slots slots') :
    SlotsInserted anywhere r slots ((some k, value) :: slots')
  | unnamed {value : Any S A} {slots' : List (Option Bytes × Any S A)} (rest : SlotsInserted anywhere r [] slots') :
    SlotsInserted anywhere r [] ((none, value) :: slots')

/-- A tree with slots inserted at any depth; the names that come in are not there yet. -/
inductive Inserted (anywhere : Bool) : Any S A → Any S A → Prop
  | leaf {c : Any S A} (leaf : c.isArray = false) : Inserted anywhere c c
  | array {m m' : A} {slots slots' : List (Option Bytes × Any S A)} (more : SlotsInserted anywhere (Inserted anywhere) slots slots')
    (fresh : (slots'.filterMap Prod.fst).Nodup) : Inserted anywhere (array m slots) (array m' slots')

section Inserted

variable {anywhere : Bool} {r : Any S A → Any S A → Prop} {slots slots' : List (Option Bytes × Any S A)} {c c' : Any S A}

theorem SlotsInserted.mem (more : SlotsInserted anywhere r slots slots') {name : Option Bytes} {value : Any S A}
    (mem : (name, value) ∈ slots) : ∃ value', (name, value') ∈ slots' ∧ r value value' := by
  induction more with
  | nil => cases mem
  | @keep name' value₁ value₁' slots slots' more _ ih =>
    rcases List.mem_cons.mp mem with same | mem
    · obtain ⟨rfl, rfl⟩ := Prod.mk.inj same
      exact ⟨value₁', List.mem_cons_self, more⟩
    · obtain ⟨value', mem', related⟩ := ih mem
      exact ⟨value', List.mem_cons_of_mem _ mem', related⟩
  | named _ _ ih =>
    obtain ⟨value', mem', related⟩ := ih mem
    exact ⟨value', List.mem_cons_of_mem _ mem', related⟩
  | unnamed => cases mem

theorem SlotsInserted.getElem? (more : SlotsInserted false r slots slots') {i : Nat} {name : Option Bytes} {value : Any S A}
    (here : slots[i]? = some (name, value)) : ∃ value', slots'[i]? = some (name, value') ∧ r value value' := by
  induction more generalizing i with
  | nil => cases here
  | @keep name' value₁ value₁' slots slots' more _ ih =>
    cases i with
    | zero =>
      obtain ⟨rfl, rfl⟩ := Prod.mk.inj (Option.some.inj here)
      exact ⟨value₁', rfl, more⟩
    | succ i => exact ih here
  | named place _ _ =>
    obtain rfl := place.resolve_left Bool.false_ne_true
    cases here
  | unnamed => cases here

theorem Inserted.isNull (more : Inserted anywhere c c') : c'.isNull = c.isNull := by
  cases more with
  | leaf => rfl
  | array => rfl

theorem Inserted.asString (conv : Conversions S) (more : Inserted anywhere c c') : c'.asString conv = c.asString conv := by
  cases more with
  | leaf => rfl
  | array => rfl

theorem slotOf_leaf (leaf : c.isArray = false) (k : Bytes) : slotOf k c = none := by
  cases c with
  | null => rfl
  | simple s => rfl
  | array m slots => cases leaf

theorem roAt_leaf (leaf : c.isArray = false) (i : Int) : (c.roAt i).isArray = false := by
  rw [Any.roAt]
  split
  · cases c with
    | null => rfl
    | simple s => rfl
    | array m slots => cases leaf
  · rfl

theorem Inserted.slotOf (more : Inserted anywhere c c') {k : Bytes} {value : Any S A} (found : slotOf k c = some value) :
    ∃ value', AnyUtils.slotOf k c' = some value' ∧ Inserted anywhere value value' := by
  cases more with
  | leaf leaf =>
    rw [slotOf_leaf leaf] at found
    cases found
  | array more fresh =>
    rw [slotOf_array] at found ⊢
    split at found
    · cases found
    · rename_i named
      obtain ⟨⟨name, value⟩, first, rfl⟩ := Option.map_eq_some_iff.mp found
      obtain rfl : name = some k := by simpa using List.find?_some first
      obtain ⟨value', mem', related⟩ := more.mem (List.mem_of_find?_eq_some first)
      rw [if_neg named, find?_of_mem fresh mem']
      exact ⟨value', rfl, related⟩

theorem Inserted.roAt (more : Inserted false c c') {i : Int} (full : (c.roAt i).isNull = false) :
    i < c'.getSize ∧ Inserted false (c.roAt i) (c'.roAt i) := by
  have inside : 0 ≤ i ∧ i < c.getSize := by
    by_contra outside
    rw [Any.roAt, if_neg outside] at full
    cases full
  cases more with
  | leaf leaf => exact ⟨inside.2, .leaf (roAt_leaf leaf i)⟩
  | @array m m' slots slots' more fresh =>
    obtain ⟨j, rfl⟩ := Int.eq_ofNat_of_zero_le inside.1
    have here := List.getElem?_eq_getElem (l := slots) (Int.ofNat_lt.mp inside.2)
    obtain ⟨value', here', related⟩ := more.getElem? here
    have inside' := (List.getElem?_eq_some_iff.mp here').1
    refine ⟨Int.ofNat_lt.mpr inside', ?_⟩
    rw [roAt_array here, roAt_array here']
    exact related

theorem scanName_plain {tok key : Bytes} (plain : delimIdx ∉ tok) (scanned : Anything.scanName delimSlot delimIdx tok = some key) :
    delimIdx ∉ key := by
  cases tok with
  | nil => cases scanned
  | cons c rest =>
    rw [Anything.scanName] at scanned
    split at scanned
    · split at scanned
      · cases scanned
      · cases scanned
        exact fun mem => plain (List.mem_cons_of_mem c mem)
    · cases scanned
      exact plain

theorem roLookupStep_name {tok : Bytes} (name : tok.head? ≠ some delimIdx) (c : Any S A) : c.roLookupStep delimSlot delimIdx tok =
    (Anything.scanName delimSlot delimIdx tok).bind fun key =>
      (AnyUtils.slotOf (if (Anything.ifaHash key delimSlot delimIdx).1 = 0 then key
        else key.take (Anything.ifaHash key delimSlot delimIdx).2) c).map fun value =>
          (value, key.drop (Anything.ifaHash key delimSlot delimIdx).2) := by
  rw [Any.roLookupStep, if_neg name]
  cases Anything.scanName delimSlot delimIdx tok with
  | none => rfl
  | some key =>
    dsimp only [Option.bind_some]
    rw [findIndexHint, AnyUtils.slotOf]
    by_cases unhashed : (Anything.ifaHash key delimSlot delimIdx).1 = 0
    · rw [if_pos unhashed, if_pos unhashed]
      cases c.findIndex key <;> rfl
    · rw [if_neg unhashed, if_neg unhashed]
      cases c.findIndex (key.take (Anything.ifaHash key delimSlot delimIdx).2) <;> rfl

theorem Inserted.roLookupStep (more : Inserted anywhere c c') {tok tail : Bytes} (plain : anywhere = true → delimIdx ∉ tok)
    {value : Any S A} (found : c.roLookupStep delimSlot delimIdx tok = some (value, tail)) :
    ∃ value', c'.roLookupStep delimSlot delimIdx tok = some (value', tail) ∧ Inserted anywhere value value' ∧
      (anywhere = true → delimIdx ∉ tail) := by
  by_cases index : tok.head? = some delimIdx
  · rw [Any.roLookupStep, if_pos index] at found ⊢
    cases anywhere with
    | true => exact absurd (List.mem_of_mem_head? index) (plain rfl)
    | false =>
      cases scanned : Anything.scanIndex delimSlot delimIdx tok.tail with
      | none =>
        rw [scanned] at found
        cases found
      | some step =>
        obtain ⟨lIdx, rest⟩ := step
        rw [scanned] at found
        dsimp only at found ⊢
        split at found
        · cases found
        · split at found
          · cases found
          · rename_i full
            obtain ⟨rfl, rfl⟩ := Prod.mk.inj (Option.some.inj found)
            obtain ⟨inside, related⟩ := more.roAt (Bool.eq_false_iff.mpr full)
            rw [if_neg (Int.not_le.mpr inside), if_neg (related.isNull ▸ full)]
            exact ⟨_, rfl, related, fun always => Bool.noConfusion always⟩
  · rw [roLookupStep_name index] at found ⊢
    obtain ⟨key, scanned, found⟩ := Option.bind_eq_some_iff.mp found
    obtain ⟨value, slot, same⟩ := Option.map_eq_some_iff.mp found
    obtain ⟨rfl, rfl⟩ := Prod.mk.inj same
    obtain ⟨value', slot', related⟩ := more.slotOf slot
    refine ⟨value', ?_, related, fun always mem => scanName_plain (plain always) scanned (List.mem_of_mem_drop mem)⟩
    rw [scanned, Option.bind_some, slot']
    rfl

theorem Inserted.roLookupLoop (more : Inserted anywhere c c') {fuel : Nat} {tok : Bytes} (plain : anywhere = true → delimIdx ∉ tok)
    {value : Any S A} (found : c.roLookupLoop delimSlot delimIdx fuel tok = some value) :
    ∃ value', c'.roLookupLoop delimSlot delimIdx fuel tok = some value' ∧ Inserted anywhere value value' := by
  induction fuel generalizing c c' tok with
  | zero => cases found
  | succ fuel ih =>
    rw [Any.roLookupLoop] at found ⊢
    cases step : c.roLookupStep delimSlot delimIdx tok with
    | none =>
      rw [step] at found
      cases found
    | some next =>
      obtain ⟨child, tail⟩ := next
      obtain ⟨child', step', related, plain'⟩ := more.roLookupStep plain step
      rw [step] at found
      rw [step']
      dsimp only at found ⊢
      split at found
      · rename_i last
        rw [if_pos last]
        cases found
        exact ⟨child', rfl, related⟩
      · rename_i more'
        rw [if_neg more']
        exact ih related plain' found

theorem Inserted.roLookupPath (more : Inserted anywhere c c') {path : Bytes} (plain : anywhere = true → delimIdx ∉ path)
    {value : Any S A} (found : c.roLookupPath delimSlot delimIdx path = some value) :
    ∃ value', c'.roLookupPath delimSlot delimIdx path = some value' ∧ Inserted anywhere value value' := by
  rw [Any.roLookupPath] at found ⊢
  split at found
  · rename_i short
    rw [if_pos short]
    exact more.slotOf found
  · rename_i long
    rw [if_neg long]
    split at found
    · cases found
    · rename_i begins
      rw [if_neg begins]
      exact more.roLookupLoop plain found

theorem Inserted.unnamed (more : Inserted anywhere c c') {j : Nat} (inside : j < c.getSize) (unnamed : (slotName j c).getD [] = []) :
    ∃ j', j' < c'.getSize ∧ (slotName j' c').getD [] = [] ∧ Inserted anywhere (c.roAt j) (c'.roAt j') := by
  cases more with
  | leaf leaf => exact ⟨j, inside, unnamed, .leaf (roAt_leaf leaf j)⟩
  | @array m m' slots slots' more fresh =>
    have here := List.getElem?_eq_getElem (l := slots) inside
    rw [slotName, here] at unnamed
    obtain ⟨value', mem', related⟩ := more.mem (List.mem_of_getElem? here)
    obtain ⟨j', here'⟩ := List.mem_iff_getElem?.mp mem'
    refine ⟨j', (List.getElem?_eq_some_iff.mp here').1, ?_, ?_⟩
    · rw [slotName, here']
      exact unnamed
    · rw [roAt_array here, roAt_array here']
      exact related

theorem compareSlots_inserted (more : Inserted anywhere c c') {master : List (Option Bytes × Any S A)}
    (plain : anywhere = true → ∀ slot ∈ master, delimIdx ∉ slot.1.getD [])
    (each : ∀ slot ∈ master, ∀ value value' : Any S A, Inserted anywhere value value' →
      anyCompareEqual conv delimSlot delimIdx value slot.2 = true → anyCompareEqual conv delimSlot delimIdx value' slot.2 = true)
    (equal : compareSlots conv delimSlot delimIdx c master = true) : compareSlots conv delimSlot delimIdx c' master = true := by
  induction master with
  | nil => rw [compareSlots]
  | cons slot master ih =>
    obtain ⟨name, masterSlot⟩ := slot
    have here := each _ List.mem_cons_self
    rw [compareSlots, Bool.and_eq_true] at equal ⊢
    refine ⟨?_, ih (fun always slot mem => plain always slot (List.mem_cons_of_mem _ mem))
      (fun slot mem => each slot (List.mem_cons_of_mem _ mem)) equal.2⟩
    replace equal := equal.1
    by_cases unnamed : name.getD [] = []
    · rw [if_pos unnamed, List.any_eq_true] at equal ⊢
      obtain ⟨j, range, found⟩ := equal
      obtain ⟨noName, found⟩ := Bool.and_eq_true_iff.mp found
      obtain ⟨j', inside', noName', related⟩ := more.unnamed (List.mem_range.mp range) (beq_iff_eq.mp noName)
      exact ⟨j', List.mem_range.mpr inside', Bool.and_eq_true_iff.mpr ⟨beq_iff_eq.mpr noName', here _ _ related found⟩⟩
    · rw [if_neg unnamed] at equal ⊢
      cases looked : c.roLookupPath delimSlot delimIdx (name.getD []) with
      | none =>
        rw [looked] at equal
        cases equal
      | some anySlotCfg =>
        obtain ⟨anySlotCfg', looked', related⟩ := more.roLookupPath (fun always => plain always _ List.mem_cons_self) looked
        rw [looked] at equal
        rw [looked']
        exact here _ _ related equal

theorem anyCompareEqual_inserted {m : Any S A} (plain : anywhere = true → Named (fun k => delimIdx ∉ k) m)
    (more : Inserted anywhere c c') (equal : anyCompareEqual conv delimSlot delimIdx c m = true) :
    anyCompareEqual conv delimSlot delimIdx c' m = true := by
  induction m using Any.induct generalizing c c' with
  | leaf v leaf =>
    cases v with
    | null =>
      rw [anyCompareEqual] at equal ⊢
      rw [more.asString conv]
      exact equal
    | simple s =>
      rw [anyCompareEqual] at equal ⊢
      rw [more.asString conv]
      exact equal
    | array m slots => cases leaf
  | array m slots ih =>
    rw [anyCompareEqual] at equal ⊢
    refine compareSlots_inserted more (fun always => (plain always).names) (fun slot mem value value' related same => ?_) equal
    exact ih slot mem (fun always => (plain always).each slot mem) related same

end Inserted

end AnyUtils

end Coast
