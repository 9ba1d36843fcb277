import Coast.Base.Bytes
import Coast.Lib.Parents

/-!
# Installing hierarchies of configurations

The objects of a registry and the clones that an installer makes of them are numbered; a pointer is a
number. A specification is a tree of names.
-/

namespace Coast.Config

open Parents

structure HierarchConfNamed where
  fName : Bytes
  fSuper : Option Nat
  deriving DecidableEq, Repr

abbrev Objects := List HierarchConfNamed

namespace Objects

def getSuper (objects : Objects) (i : Nat) : Option Nat := objects[i]?.bind (·.fSuper)

def getName (objects : Objects) (i : Nat) : Bytes := (objects[i]?.map (·.fName)).getD []

def setSuper (objects : Objects) (i : Nat) (super : Option Nat) : Objects := objects.modify i fun o => { o with fSuper := super }

end Objects

/-! ### Loops over the super objects -/

section Loops

variable (objects : Objects) (fuel : Nat)

def hasSuper (super : Option Nat) : Option Bytes → Option Bool
  | none => some false
  | some name =>
    climb objects.getSuper (fun i _ => if objects.getName i = name then .inr true else .inl ()) (fun _ => false) fuel super ()

/-- `lookup` is the lookup in the object's own configuration. -/
def doLookup {V : Type*} (lookup : Nat → Bytes → Option V) (i : Nat) (key : Bytes) : Option (Option V) :=
  climb objects.getSuper (fun i _ => (lookup i key).elim (.inl ()) fun value => .inr (some value)) (fun _ => none) fuel (some i) ()

/-- `isRole` is whether the `dynamic_cast` succeeds. -/
def getRoleLevel (isRole : Nat → Bool) : Option Nat → Option Int
  | none => some (-1)
  | some i =>
    climb objects.getSuper (fun i level => if isRole i then .inl (level + 1) else .inr level) id fuel (objects.getSuper i) (0 : Int)

end Loops

/-! ### Specifications -/

mutual

inductive Spec where
  | null
  /-- The text is what `AsCharPtr` returns. -/
  | value (text : Bytes)
  | array (slots : Slots)

inductive Slots where
  | nil
  | cons (slotName : Option Bytes) (value : Spec) (rest : Slots)

end

def gcArrayText : Bytes := ascii "AnyArrayImpl"

def Spec.asCharPtr : Spec → Option Bytes
  | null => none
  | value text => some text
  | array _ => some gcArrayText

def Spec.slots : Spec → Slots
  | null => .nil
  | value text => .cons none (.value text) .nil
  | array slots => slots

/-! ### The installer -/

/-- A call of `SetSuper` and the objects before it. -/
structure Call where
  objects : Objects
  leaf : Nat
  root : Option Nat
  deriving DecidableEq, Repr

structure State where
  objects : Objects
  table : List (Bytes × Nat)
  calls : List Call
  deriving DecidableEq, Repr

namespace State

variable (σ : State)

def find : Option Bytes → Option Nat
  | none => none
  | some name => σ.table.lookup name

def setSuper (leaf : Nat) (root : Option Nat) : State :=
  { σ with objects := σ.objects.setSuper leaf root, calls := σ.calls ++ [⟨σ.objects, leaf, root⟩] }

/-- `ConfiguredClone` of the root, and its registration. -/
def clone (root : Nat) (leafName : Bytes) : State :=
  { σ with
    objects := σ.objects ++ [⟨leafName, some root⟩],
    table := if σ.objects.getName root ≠ leafName then (leafName, σ.objects.length) :: σ.table else σ.table }

def getLeaf (leafName : Option Bytes) (root : Option Nat) : Option Nat × State :=
  match σ.find leafName, root, leafName with
  | some leaf, _, _ => (some leaf, σ)
  | none, some root, some leafName => (some σ.objects.length, σ.clone root leafName)
  | none, _, _ => (none, σ)

/-- `GetLeaf` and, for a leaf in the tree of a root, `SetSuper`. -/
def installLeaf (leafName : Bytes) (root : Option Nat) : Option Nat × State :=
  match σ.getLeaf (some leafName) root with
  | (none, σ) => (none, σ)
  | (some leaf, σ) => (some leaf, σ.setSuper leaf root)

def installRoot (fuel : Nat) (root : Option Nat) (name : Option Bytes) : Option Bool :=
  match root with
  | none => some false
  | some root => (hasSuper σ.objects fuel (σ.objects.getSuper root) name).map (!·)

end State

def installValue (root : Option Nat) (name : Option Bytes) (σ : State) (success : Bool) : State × Bool :=
  match name with
  | none => (σ, success)
  | some leafName =>
    match σ.installLeaf leafName root with
    | (none, σ) => (σ, false)
    | (some _, σ) => (σ, success)

mutual

/-- `InstallTree`, with the fuel that each `HasSuper` has. -/
def installTree (fuel : Nat) (root : Option Nat) (rootName : Option Bytes) : Spec → State → Option (State × Bool)
  | .null, σ => (σ.installRoot fuel root rootName).map fun success => (σ, success)
  | .value text, σ => (σ.installRoot fuel root rootName).map fun success => installValue root (some text) σ success
  | .array slots, σ => (σ.installRoot fuel root rootName).bind fun success => installSlots fuel root slots σ success

def installSlots (fuel : Nat) (root : Option Nat) : Slots → State → Bool → Option (State × Bool)
  | .nil, σ, success => some (σ, success)
  | .cons none value rest, σ, success =>
    installSlots fuel root rest (installValue root value.asCharPtr σ success).1 (installValue root value.asCharPtr σ success).2
  | .cons (some leafName) tree rest, σ, success =>
    match σ.installLeaf leafName root with
    | (none, σ) => installSlots fuel root rest σ false
    | (some leaf, σ) =>
      (installTree fuel (some leaf) (some leafName) tree σ).bind fun done => installSlots fuel root rest done.1 (done.2 && success)

end

/-- `DoInstall`. -/
def installAll (fuel : Nat) : Slots → State → Bool → Option (State × Bool)
  | .nil, σ, success => some (σ, success)
  | .cons slotName tree rest, σ, _ =>
    (installTree fuel (σ.getLeaf slotName none).1 slotName tree (σ.getLeaf slotName none).2).bind fun done =>
      installAll fuel rest done.1 done.2

def doInstall (fuel : Nat) (spec : Spec) (objects : Objects) (table : List (Bytes × Nat)) : Option (State × Bool) :=
  installAll fuel spec.slots ⟨objects, table, []⟩ true

/-! ### What the installer does to the objects -/

mutual

/-- `InstallTree` without the checks. -/
def walkTree (root : Option Nat) : Spec → State → State
  | .null, σ => σ
  | .value text, σ => (installValue root (some text) σ true).1
  | .array slots, σ => walkSlots root slots σ

def walkSlots (root : Option Nat) : Slots → State → State
  | .nil, σ => σ
  | .cons none value rest, σ => walkSlots root rest (installValue root value.asCharPtr σ true).1
  | .cons (some leafName) tree rest, σ =>
    match σ.installLeaf leafName root with
    | (none, σ) => walkSlots root rest σ
    | (some leaf, σ) => walkSlots root rest (walkTree (some leaf) tree σ)

end

def walkAll : Slots → State → State
  | .nil, σ => σ
  | .cons slotName tree rest, σ => walkAll rest (walkTree (σ.getLeaf slotName none).1 tree (σ.getLeaf slotName none).2)

def Call.Safe (c : Call) : Prop := ∀ root, c.root = some root → ¬ Above c.objects.getSuper c.leaf root

def Orderly (spec : Spec) (objects : Objects) (table : List (Bytes × Nat)) : Prop :=
  ∀ c ∈ (walkAll spec.slots ⟨objects, table, []⟩).calls, c.Safe

structure Valid (objects : Objects) (table : List (Bytes × Nat)) : Prop where
  supers : ∀ i p, objects.getSuper i = some p → p < objects.length
  table : ∀ name i, table.lookup name = some i → i < objects.length

structure LoopsEnd (objects : Objects) : Prop where
  hasSuper : ∀ super name, ∃ n result, ∀ fuel, n ≤ fuel → hasSuper objects fuel super name = some result
  doLookup : ∀ (V : Type) (lookup : Nat → Bytes → Option V) (i : Nat) (key : Bytes),
    ∃ n result, ∀ fuel, n ≤ fuel → doLookup objects fuel lookup i key = some result
  getRoleLevel : ∀ isRole role, ∃ n level, ∀ fuel, n ≤ fuel → getRoleLevel objects fuel isRole role = some level

/-- `DoInstall` ends, and the hierarchy is acyclic before and after each `SetSuper`. -/
def NeverCyclic (spec : Spec) (objects : Objects) (table : List (Bytes × Nat)) : Prop :=
  ∃ n σ success, (∀ fuel, n ≤ fuel → doInstall fuel spec objects table = some (σ, success)) ∧
    (∀ c ∈ σ.calls, Acyclic c.objects.getSuper) ∧ Acyclic σ.objects.getSuper ∧ LoopsEnd σ.objects

/-! ### The links -/

section Links

variable {objects : Objects}

theorem getSuper_setSuper {leaf : Nat} (inside : leaf < objects.length) (root : Option Nat) :
    (objects.setSuper leaf root).getSuper = Function.update objects.getSuper leaf root := by
  funext i
  unfold Objects.getSuper Objects.setSuper
  by_cases same : i = leaf
  · subst same
    rw [Function.update_self, List.getElem?_modify_eq, List.getElem?_eq_getElem inside]
    rfl
  · rw [Function.update_of_ne same, List.getElem?_modify_ne _ _ (Ne.symm same)]

theorem getSuper_none {i : Nat} (outside : objects.length ≤ i) : objects.getSuper i = none := by
  unfold Objects.getSuper
  rw [List.getElem?_eq_none outside]
  rfl

theorem getSuper_append (o : HierarchConfNamed) :
    Objects.getSuper (objects ++ [o]) = Function.update objects.getSuper objects.length o.fSuper := by
  funext i
  by_cases same : i = objects.length
  · subst same
    rw [Function.update_self]
    unfold Objects.getSuper
    rw [List.getElem?_concat_length]
    rfl
  · rw [Function.update_of_ne same]
    unfold Objects.getSuper
    by_cases inside : i < objects.length
    · rw [List.getElem?_append_left inside]
    · have beyond : objects.length + 1 ≤ i := by omega
      rw [List.getElem?_eq_none (by rw [List.length_append]; exact beyond), List.getElem?_eq_none (by omega)]

theorem above_inside (supers : ∀ i p, objects.getSuper i = some p → p < objects.length) {i p : Nat} (inside : p < objects.length)
    (above : Above objects.getSuper i p) : i < objects.length := by
  induction above using Relation.ReflTransGen.head_induction_on with
  | refl => exact inside
  | head up _ ih => exact ih (supers _ _ up)

theorem acyclic_append_iff (supers : ∀ i p, objects.getSuper i = some p → p < objects.length) {name : Bytes} {root : Nat}
    (inside : root < objects.length) : Acyclic (Objects.getSuper (objects ++ [⟨name, some root⟩])) ↔ Acyclic objects.getSuper := by
  rw [getSuper_append]
  constructor
  · refine fun updated => Subrelation.wf (fun {p i} up => ?_) updated
    have other : i ≠ objects.length := by
      rintro rfl
      rw [Up, getSuper_none (Nat.le_refl _)] at up
      cases up
    rw [Up, Function.update_of_ne other]
    exact up
  · intro acyclic
    refine acyclic.update_iff.mpr fun p is above => ?_
    cases is
    exact absurd (above_inside supers inside above) (Nat.lt_irrefl _)

theorem acyclic_loopsEnd (acyclic : Acyclic objects.getSuper) : LoopsEnd objects where
  hasSuper super name := by
    cases name with
    | none => exact ⟨0, false, fun _ _ => rfl⟩
    | some name => exact acyclic.climb_ends _ _ super ()
  doLookup V lookup i key := acyclic.climb_ends _ _ (some i) ()
  getRoleLevel isRole role := by
    cases role with
    | none => exact ⟨0, -1, fun _ _ => rfl⟩
    | some i => exact acyclic.climb_ends _ _ (objects.getSuper i) 0

end Links

/-! ### The walk -/

structure State.Inv (σ : State) : Prop where
  valid : Valid σ.objects σ.table
  acyclic_iff : (∀ c ∈ σ.calls, c.Safe) ↔ (∀ c ∈ σ.calls, Acyclic c.objects.getSuper) ∧ Acyclic σ.objects.getSuper

structure State.Later (σ σ' : State) : Prop where
  inv : σ'.Inv
  objects : σ.objects.length ≤ σ'.objects.length
  calls : σ.calls <+: σ'.calls

section Walk

variable {σ σ' σ'' : State} {root : Option Nat}

theorem State.Inv.later (inv : σ.Inv) : σ.Later σ := ⟨inv, Nat.le_refl _, List.prefix_rfl⟩

theorem State.Later.trans (first : σ.Later σ') (second : σ'.Later σ'') : σ.Later σ'' :=
  ⟨second.inv, Nat.le_trans first.objects second.objects, first.calls.trans second.calls⟩

def Inside (σ : State) (root : Option Nat) : Prop := ∀ i, root = some i → i < σ.objects.length

theorem Inside.later (inside : Inside σ root) (later : σ.Later σ') : Inside σ' root :=
  fun i is => Nat.lt_of_lt_of_le (inside i is) later.objects

theorem State.Inv.find (inv : σ.Inv) {name : Option Bytes} {i : Nat} (found : σ.find name = some i) : i < σ.objects.length := by
  cases name with
  | none => cases found
  | some name => exact inv.valid.table name i found

theorem State.Inv.clone (inv : σ.Inv) {i : Nat} (inside : i < σ.objects.length) (name : Bytes) : σ.Later (σ.clone i name) := by
  have length : (σ.clone i name).objects.length = σ.objects.length + 1 := List.length_append
  refine ⟨⟨⟨fun j p up => ?_, fun key j found => ?_⟩, ?_⟩, by omega, List.prefix_rfl⟩
  · rw [length]
    have up : Objects.getSuper (σ.objects ++ [⟨name, some i⟩]) j = some p := up
    rw [getSuper_append] at up
    by_cases same : j = σ.objects.length
    · rw [same, Function.update_self] at up
      cases up
      exact Nat.lt_succ_of_lt inside
    · rw [Function.update_of_ne same] at up
      exact Nat.lt_succ_of_lt (inv.valid.supers j p up)
  · rw [length]
    unfold State.clone at found
    dsimp only at found
    split at found
    · rw [List.lookup_cons] at found
      split at found
      · cases found
        exact Nat.lt_succ_self _
      · exact Nat.lt_succ_of_lt (inv.valid.table key j found)
    · exact Nat.lt_succ_of_lt (inv.valid.table key j found)
  · exact inv.acyclic_iff.trans (and_congr_right' (acyclic_append_iff inv.valid.supers inside).symm)

theorem State.Inv.getLeaf (inv : σ.Inv) (name : Option Bytes) (inside : Inside σ root) :
    σ.Later (σ.getLeaf name root).2 ∧ Inside (σ.getLeaf name root).2 (σ.getLeaf name root).1 := by
  unfold State.getLeaf
  split
  · rename_i leaf found
    refine ⟨inv.later, fun i is => ?_⟩
    cases is
    exact inv.find found
  · rename_i i leafName _
    refine ⟨inv.clone (inside i rfl) leafName, fun j is => ?_⟩
    cases is
    have length : (σ.clone i leafName).objects.length = σ.objects.length + 1 := List.length_append
    show σ.objects.length < (σ.clone i leafName).objects.length
    omega
  · exact ⟨inv.later, nofun⟩

theorem State.Inv.setSuper (inv : σ.Inv) {leaf : Nat} (known : leaf < σ.objects.length) (inside : Inside σ root) :
    σ.Later (σ.setSuper leaf root) := by
  have length : (σ.objects.setSuper leaf root).length = σ.objects.length := List.length_modify ..
  refine ⟨⟨⟨fun j p up => ?_, fun key j found => ?_⟩, ?_⟩, Nat.le_of_eq length.symm, List.prefix_append ..⟩
  · show p < (σ.objects.setSuper leaf root).length
    have up : (σ.objects.setSuper leaf root).getSuper j = some p := up
    rw [length]
    rw [getSuper_setSuper known] at up
    by_cases same : j = leaf
    · rw [same, Function.update_self] at up
      exact inside p up
    · rw [Function.update_of_ne same] at up
      exact inv.valid.supers j p up
  · show j < (σ.objects.setSuper leaf root).length
    rw [length]
    exact inv.valid.table key j found
  · show (∀ c ∈ σ.calls ++ [⟨σ.objects, leaf, root⟩], c.Safe) ↔
      (∀ c ∈ σ.calls ++ [⟨σ.objects, leaf, root⟩], Acyclic c.objects.getSuper) ∧ Acyclic (σ.objects.setSuper leaf root).getSuper
    rw [List.forall_mem_append, List.forall_mem_append, List.forall_mem_singleton, List.forall_mem_singleton, inv.acyclic_iff,
      getSuper_setSuper known]
    constructor
    · rintro ⟨⟨before, now⟩, safe⟩
      exact ⟨⟨before, now⟩, now.update_iff.mpr safe⟩
    · rintro ⟨⟨before, now⟩, after⟩
      exact ⟨⟨before, now⟩, now.update_iff.mp after⟩

theorem State.Inv.installLeaf (inv : σ.Inv) (leafName : Bytes) (inside : Inside σ root) :
    σ.Later (σ.installLeaf leafName root).2 ∧ Inside (σ.installLeaf leafName root).2 (σ.installLeaf leafName root).1 := by
  obtain ⟨later, leafInside⟩ := inv.getLeaf (some leafName) inside
  unfold State.installLeaf
  cases got : σ.getLeaf (some leafName) root with
  | mk leaf σ₁ =>
    rw [got] at later leafInside
    cases leaf with
    | none => exact ⟨later, nofun⟩
    | some leaf =>
      have set := later.inv.setSuper (leafInside leaf rfl) (inside.later later)
      exact ⟨later.trans set, leafInside.later set⟩

theorem State.Inv.installValue (inv : σ.Inv) (name : Option Bytes) (inside : Inside σ root) (success : Bool) :
    σ.Later (installValue root name σ success).1 := by
  unfold Config.installValue
  cases name with
  | none => exact inv.later
  | some leafName =>
    have later := (inv.installLeaf leafName inside).1
    dsimp only
    cases installed : σ.installLeaf leafName root with
    | mk leaf σ₁ =>
      rw [installed] at later
      cases leaf <;> exact later

mutual

theorem walkTree_later (tree : Spec) {σ : State} (inv : σ.Inv) {root : Option Nat} (inside : Inside σ root) :
    σ.Later (walkTree root tree σ) := by
  match tree with
  | .null => exact inv.later
  | .value text => exact inv.installValue (some text) inside true
  | .array slots => exact walkSlots_later slots inv inside

theorem walkSlots_later (slots : Slots) {σ : State} (inv : σ.Inv) {root : Option Nat} (inside : Inside σ root) :
    σ.Later (walkSlots root slots σ) := by
  match slots with
  | .nil => exact inv.later
  | .cons none value rest =>
    have first := inv.installValue value.asCharPtr inside true
    exact first.trans (walkSlots_later rest first.inv (inside.later first))
  | .cons (some leafName) tree rest =>
    obtain ⟨first, leafInside⟩ := inv.installLeaf leafName inside
    rw [walkSlots]
    cases installed : σ.installLeaf leafName root with
    | mk leaf σ₁ =>
      rw [installed] at first leafInside
      cases leaf with
      | none => exact first.trans (walkSlots_later rest first.inv (inside.later first))
      | some leaf =>
        have below := walkTree_later tree first.inv leafInside
        have both := first.trans below
        exact both.trans (walkSlots_later rest both.inv (inside.later both))

end

theorem State.Inv.getLeaf_none (inv : σ.Inv) (name : Option Bytes) :
    σ.Later (σ.getLeaf name none).2 ∧ Inside (σ.getLeaf name none).2 (σ.getLeaf name none).1 :=
  inv.getLeaf name nofun

theorem walkAll_later (slots : Slots) {σ : State} (inv : σ.Inv) : σ.Later (walkAll slots σ) := by
  match slots with
  | .nil => exact inv.later
  | .cons slotName tree rest =>
    obtain ⟨first, leafInside⟩ := inv.getLeaf_none slotName
    have both := first.trans (walkTree_later tree first.inv leafInside)
    exact both.trans (walkAll_later rest both.inv)

theorem State.Later.acyclic (later : σ.Later σ') (inv : σ.Inv) (safe : ∀ c ∈ σ'.calls, c.Safe) : Acyclic σ.objects.getSuper :=
  (inv.acyclic_iff.mp fun c mem => safe c (later.calls.subset mem)).2

theorem installRoot_ends (acyclic : Acyclic σ.objects.getSuper) (root : Option Nat) (name : Option Bytes) :
    ∃ n success, ∀ fuel, n ≤ fuel → σ.installRoot fuel root name = some success := by
  cases root with
  | none => exact ⟨0, false, fun _ _ => rfl⟩
  | some root =>
    obtain ⟨n, found, ends⟩ := (acyclic_loopsEnd acyclic).hasSuper (σ.objects.getSuper root) name
    refine ⟨n, !found, fun fuel enough => ?_⟩
    unfold State.installRoot
    dsimp only
    rw [ends fuel enough]
    rfl

theorem installValue_fst (root : Option Nat) (name : Option Bytes) (σ : State) (success : Bool) :
    (installValue root name σ success).1 = (installValue root name σ true).1 := by
  unfold Config.installValue
  cases name with
  | none => rfl
  | some leafName =>
    dsimp only
    cases σ.installLeaf leafName root with
    | mk leaf σ₁ => cases leaf <;> rfl

end Walk

/-! ### The walk and the installer -/

mutual

theorem installTree_walks {fuel : Nat} (tree : Spec) {root : Option Nat} {name : Option Bytes} {σ : State} {done : State × Bool}
    (installed : installTree fuel root name tree σ = some done) : done.1 = walkTree root tree σ := by
  match tree with
  | .null =>
    obtain ⟨success, -, rfl⟩ := Option.map_eq_some_iff.mp installed
    rfl
  | .value text =>
    obtain ⟨success, -, rfl⟩ := Option.map_eq_some_iff.mp installed
    exact installValue_fst root (some text) σ success
  | .array slots =>
    obtain ⟨success, -, rest⟩ := Option.bind_eq_some_iff.mp installed
    exact installSlots_walks slots rest

theorem installSlots_walks {fuel : Nat} (slots : Slots) {root : Option Nat} {σ : State} {success : Bool} {done : State × Bool}
    (installed : installSlots fuel root slots σ success = some done) : done.1 = walkSlots root slots σ := by
  match slots with
  | .nil =>
    cases installed
    rfl
  | .cons none value rest =>
    rw [installSlots] at installed
    rw [walkSlots, ← installValue_fst root value.asCharPtr σ success]
    exact installSlots_walks rest installed
  | .cons (some leafName) tree rest =>
    rw [installSlots] at installed
    rw [walkSlots]
    cases got : σ.installLeaf leafName root with
    | mk leaf σ₁ =>
      rw [got] at installed
      cases leaf with
      | none => exact installSlots_walks rest installed
      | some leaf =>
        obtain ⟨first, below, after⟩ := Option.bind_eq_some_iff.mp installed
        dsimp only
        rw [← installTree_walks tree below]
        exact installSlots_walks rest after

end

theorem installAll_walks {fuel : Nat} (slots : Slots) {σ : State} {success : Bool} {done : State × Bool}
    (installed : installAll fuel slots σ success = some done) : done.1 = walkAll slots σ := by
  match slots with
  | .nil =>
    cases installed
    rfl
  | .cons slotName tree rest =>
    obtain ⟨first, below, after⟩ := Option.bind_eq_some_iff.mp installed
    rw [walkAll, ← installTree_walks tree below]
    exact installAll_walks rest after

mutual

theorem installTree_ends (tree : Spec) {σ : State} (inv : σ.Inv) {root : Option Nat} (inside : Inside σ root)
    (safe : ∀ c ∈ (walkTree root tree σ).calls, c.Safe) (name : Option Bytes) :
    ∃ n success, ∀ fuel, n ≤ fuel → installTree fuel root name tree σ = some (walkTree root tree σ, success) := by
  obtain ⟨n, success, ends⟩ := installRoot_ends ((walkTree_later tree inv inside).acyclic inv safe) root name
  match tree with
  | .null =>
    refine ⟨n, success, fun fuel enough => ?_⟩
    rw [installTree, ends fuel enough]
    rfl
  | .value text =>
    refine ⟨n, (installValue root (some text) σ success).2, fun fuel enough => ?_⟩
    rw [installTree, ends fuel enough]
    exact congrArg some (Prod.ext (installValue_fst ..) rfl)
  | .array slots =>
    obtain ⟨m, result, slotsEnd⟩ := installSlots_ends slots inv inside safe success
    refine ⟨max n m, result, fun fuel enough => ?_⟩
    rw [installTree, ends fuel (by omega)]
    exact slotsEnd fuel (by omega)

theorem installSlots_ends (slots : Slots) {σ : State} (inv : σ.Inv) {root : Option Nat} (inside : Inside σ root)
    (safe : ∀ c ∈ (walkSlots root slots σ).calls, c.Safe) (success : Bool) :
    ∃ n result, ∀ fuel, n ≤ fuel → installSlots fuel root slots σ success = some (walkSlots root slots σ, result) := by
  match slots with
  | .nil => exact ⟨0, success, fun _ _ => by rw [installSlots, walkSlots]⟩
  | .cons none value rest =>
    have first := inv.installValue value.asCharPtr inside true
    rw [walkSlots] at safe
    obtain ⟨n, result, ends⟩ :=
      installSlots_ends rest first.inv (inside.later first) safe (installValue root value.asCharPtr σ success).2
    refine ⟨n, result, fun fuel enough => ?_⟩
    rw [installSlots, walkSlots, installValue_fst]
    exact ends fuel enough
  | .cons (some leafName) tree rest =>
    obtain ⟨first, leafInside⟩ := inv.installLeaf leafName inside
    rw [walkSlots] at safe
    cases installed : σ.installLeaf leafName root with
    | mk leaf σ₁ =>
      rw [installed] at first leafInside safe
      cases leaf with
      | none =>
        obtain ⟨n, result, ends⟩ := installSlots_ends rest first.inv (inside.later first) safe false
        refine ⟨n, result, fun fuel enough => ?_⟩
        rw [installSlots, walkSlots, installed]
        exact ends fuel enough
      | some leaf =>
        have below := walkTree_later tree first.inv leafInside
        have both := first.trans below
        have after := walkSlots_later rest both.inv (inside.later both)
        obtain ⟨n, treeSuccess, treeEnds⟩ :=
          installTree_ends tree first.inv leafInside (fun c mem => safe c (after.calls.subset mem)) (some leafName)
        obtain ⟨m, result, restEnds⟩ := installSlots_ends rest both.inv (inside.later both) safe (treeSuccess && success)
        refine ⟨max n m, result, fun fuel enough => ?_⟩
        rw [installSlots, walkSlots, installed]
        dsimp only
        rw [treeEnds fuel (by omega)]
        exact restEnds fuel (by omega)

end

theorem installAll_ends (slots : Slots) {σ : State} (inv : σ.Inv) (safe : ∀ c ∈ (walkAll slots σ).calls, c.Safe) (success : Bool) :
    ∃ n result, ∀ fuel, n ≤ fuel → installAll fuel slots σ success = some (walkAll slots σ, result) := by
  match slots with
  | .nil => exact ⟨0, success, fun _ _ => by rw [installAll, walkAll]⟩
  | .cons slotName tree rest =>
    obtain ⟨first, leafInside⟩ := inv.getLeaf_none slotName
    rw [walkAll] at safe
    have below := walkTree_later tree first.inv leafInside
    have after := walkAll_later rest below.inv
    obtain ⟨n, treeSuccess, treeEnds⟩ :=
      installTree_ends tree first.inv leafInside (fun c mem => safe c (after.calls.subset mem)) slotName
    obtain ⟨m, result, restEnds⟩ := installAll_ends rest below.inv safe treeSuccess
    refine ⟨max n m, result, fun fuel enough => ?_⟩
    rw [installAll, walkAll, treeEnds fuel (by omega)]
    exact restEnds fuel (by omega)

/-- `DoInstall` keeps an acyclic hierarchy acyclic exactly when it puts no object below itself. -/
theorem never_cyclic_iff (spec : Spec) {objects : Objects} {table : List (Bytes × Nat)} (valid : Valid objects table)
    (acyclic : Acyclic objects.getSuper) : NeverCyclic spec objects table ↔ Orderly spec objects table := by
  have inv : State.Inv ⟨objects, table, []⟩ := ⟨valid, ⟨fun _ => ⟨nofun, acyclic⟩, fun _ => nofun⟩⟩
  have later := walkAll_later spec.slots inv
  constructor
  · rintro ⟨n, σ, success, installed, before, after, -⟩
    have walked : σ = walkAll spec.slots ⟨objects, table, []⟩ := installAll_walks spec.slots (installed n (Nat.le_refl n))
    rw [walked] at before after
    exact later.inv.acyclic_iff.mpr ⟨before, after⟩
  · intro orderly
    obtain ⟨before, after⟩ := later.inv.acyclic_iff.mp orderly
    obtain ⟨n, success, ends⟩ := installAll_ends spec.slots inv orderly true
    exact ⟨n, _, success, ends, before, after, acyclic_loopsEnd after⟩

def single (name : Bytes) : Objects := [⟨name, none⟩]

theorem single_acyclic (name : Bytes) : Acyclic (single name).getSuper := by
  refine ⟨fun i => ⟨i, fun p up => ?_⟩⟩
  cases i <;> cases up

theorem single_valid (name : Bytes) : Valid (single name) [(name, 0)] where
  supers i p up := by cases i <;> cases up
  table key i found := by
    rw [List.lookup_cons] at found
    split at found
    · cases found
      exact Nat.zero_lt_one
    · cases found

/-- `{ /A { B } }` -/
def oneBelow : Spec := .array (.cons (some (ascii "A")) (.array (.cons none (.value (ascii "B")) .nil)) .nil)

theorem never_cyclic_oneBelow : NeverCyclic oneBelow (single (ascii "A")) [(ascii "A", 0)] := by
  refine (never_cyclic_iff oneBelow (single_valid _) (single_acyclic _)).mpr fun c mem root is above => ?_
  obtain rfl : c = ⟨[⟨ascii "A", none⟩, ⟨ascii "B", some 0⟩], 1, some 0⟩ := List.mem_singleton.mp mem
  cases is
  rcases Relation.ReflTransGen.cases_head above with same | ⟨p, up, -⟩
  · cases same
  · cases up

/-- `{ /A { A } }` -/
def selfBelow : Spec := .array (.cons (some (ascii "A")) (.array (.cons none (.value (ascii "A")) .nil)) .nil)

theorem object_below_itself : Valid (single (ascii "A")) [(ascii "A", 0)] ∧ Acyclic (single (ascii "A")).getSuper ∧
    ∃ σ, doInstall 1 selfBelow (single (ascii "A")) [(ascii "A", 0)] = some (σ, true) ∧ ¬ Acyclic σ.objects.getSuper ∧
      ∀ fuel, doLookup σ.objects fuel (fun _ _ => (none : Option Unit)) 0 [] = none := by
  refine ⟨single_valid _, single_acyclic _, ⟨[⟨ascii "A", some 0⟩], [(ascii "A", 0)], [⟨single (ascii "A"), 0, some 0⟩]⟩, rfl, ?_, ?_⟩
  · exact fun acyclic => acyclic.irrefl (i := 0) rfl .refl
  · intro fuel
    induction fuel with
    | zero => rfl
    | succ fuel ih => exact ih

end Coast.Config
