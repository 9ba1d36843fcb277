import Coast.Anything.DeepClone

/-!
# A clone is the graph again

Each copy has one implementation that it is made from. The copies of a run are the implementations that can
be reached, each once: one with more references is found in the table, and one with a single reference is
come to through a single slot.
-/

namespace Coast.Anything

variable {V : Type}

open Heap

section Copies

variable {heap : Heap V} {origins origins' : List Nat} {s s' : Cloning V} {n m d j : Nat} {obj : AnyImpl V} {key : Option Key}

def Origin (heap : Heap V) (origins : List Nat) (d n : Nat) : Prop := ∃ j, d = heap.length + j ∧ origins[j]? = some n

def SlotCopied (heap : Heap V) (origins : List Nat) (slot' slot : Option Key × Option Nat) : Prop :=
  slot'.1 = slot.1 ∧ Option.Rel (Origin heap origins) slot'.2 slot.2

def Copied (heap : Heap V) (origins : List Nat) : Impl V → Impl V → Prop
  | .value v', .value v => v' = v
  | .array slots', .array slots => ∀ (i : Nat) (slot' : Option Key × Option Nat), slots'[i]? = some slot' →
    ∃ slot, slots[i]? = some slot ∧ SlotCopied heap origins slot' slot
  | _, _ => False

def Shared (heap : Heap V) (n : Nat) : Prop := ∃ obj, heap[n]? = some obj ∧ 1 < obj.fRefCount

structure Copying (heap : Heap V) (origins : List Nat) (s : Cloning V) : Prop where
  length : s.heap.length = heap.length + origins.length
  kept : ∀ n < heap.length, s.heap[n]? = heap[n]?
  copied : ∀ j n, origins[j]? = some n →
    ∃ obj obj', heap[n]? = some obj ∧ s.heap[heap.length + j]? = some obj' ∧ Copied heap origins obj'.impl obj.impl
  table : ∀ n d, s.xreftable.lookup (thisToHex n) = some d ↔ Shared heap n ∧ Origin heap origins d n

theorem getElem?_more {l l' : List Nat} (more : l <+: l') {j n : Nat} (at_j : l[j]? = some n) : l'[j]? = some n := by
  obtain ⟨t, rfl⟩ := more
  rw [List.getElem?_append_left (List.getElem?_eq_some_iff.mp at_j).1]
  exact at_j

theorem Origin.more (origin : Origin heap origins d n) (more : origins <+: origins') : Origin heap origins' d n := by
  obtain ⟨j, rfl, at_j⟩ := origin
  exact ⟨j, rfl, getElem?_more more at_j⟩

theorem origin_append : Origin heap (origins ++ [n]) d m ↔ Origin heap origins d m ∨ (d = heap.length + origins.length ∧ m = n) := by
  constructor
  · rintro ⟨j, rfl, at_j⟩
    rcases Nat.lt_or_ge j origins.length with old | new
    · rw [List.getElem?_append_left old] at at_j
      exact .inl ⟨j, rfl, at_j⟩
    · rw [List.getElem?_append_right new, List.getElem?_singleton] at at_j
      split at at_j
      · exact .inr ⟨by omega, (Option.some.inj at_j).symm⟩
      · cases at_j
  · rintro (old | ⟨rfl, rfl⟩)
    · exact old.more (List.prefix_append _ _)
    · exact ⟨origins.length, rfl, by simp⟩

theorem SlotCopied.more {slot' slot : Option Key × Option Nat} (copied : SlotCopied heap origins slot' slot) (more : origins <+: origins') :
    SlotCopied heap origins' slot' slot := by
  obtain ⟨key', value'⟩ := slot'
  obtain ⟨key, value⟩ := slot
  obtain ⟨same, rel⟩ := copied
  refine ⟨same, ?_⟩
  dsimp only at rel ⊢
  cases rel with
  | some origin => exact .some (origin.more more)
  | none => exact .none

theorem Copied.more {impl' impl : Impl V} (copied : Copied heap origins impl' impl) (more : origins <+: origins') :
    Copied heap origins' impl' impl := by
  cases impl' with
  | value v' =>
    cases impl with
    | value v => exact copied
    | array slots => exact copied
  | array slots' =>
    cases impl with
    | value v => exact copied
    | array slots =>
      intro i slot' at_i
      obtain ⟨slot, at_i', same⟩ := copied i slot' at_i
      exact ⟨slot, at_i', same.more more⟩

theorem slotsAt_some (at_n : heap[n]? = some obj) : heap.slotsAt n = obj.impl.slots := by
  rw [slotsAt, at_n]
  rfl

theorem slotsAt_modify (this : Nat) (f : AnyImpl V → AnyImpl V) (n : Nat) : slotsAt (heap.modify this f) n =
    if this = n then (heap[n]?.map fun obj => (f obj).impl.slots).getD [] else heap.slotsAt n := by
  rw [slotsAt, slotsAt, List.getElem?_modify]
  split <;> cases heap[n]? <;> rfl

theorem slotsAt_ref (this n : Nat) : (heap.ref this).slotsAt n = heap.slotsAt n := by
  rw [ref, slotsAt_modify]
  split
  · rfl
  · rfl

theorem Copying.source (copying : Copying heap origins s) (at_j : origins[j]? = some n) : n < heap.length := by
  obtain ⟨obj, _, at_n, -⟩ := copying.copied j n at_j
  exact (List.getElem?_eq_some_iff.mp at_n).1

theorem Copying.slotsAt_kept (copying : Copying heap origins s) (inside : n < heap.length) : s.heap.slotsAt n = heap.slotsAt n := by
  rw [slotsAt, slotsAt, copying.kept n inside]

theorem Copying.slot (copying : Copying heap origins s) (at_j : origins[j]? = some n) {i : Nat} {slot' : Option Key × Option Nat}
    (here : (s.heap.slotsAt (heap.length + j))[i]? = some slot') :
    ∃ slot, (heap.slotsAt n)[i]? = some slot ∧ SlotCopied heap origins slot' slot := by
  obtain ⟨obj, obj', at_n, at_d, copied⟩ := copying.copied j n at_j
  rw [slotsAt_some at_d] at here
  rw [slotsAt_some at_n]
  cases shape' : obj'.impl with
  | value v' =>
    rw [shape'] at here
    cases here
  | array slots' =>
    rw [shape'] at here copied
    cases shape : obj.impl with
    | value v =>
      rw [shape] at copied
      exact copied.elim
    | array slots =>
      rw [shape] at copied
      exact copied i slot' here

/-! ### Changes of the heap -/

theorem Copying.modify (copying : Copying heap origins s) (at_j : origins[j]? = some n) {f : AnyImpl V → AnyImpl V}
    (still : ∀ obj obj', heap[n]? = some obj → s.heap[heap.length + j]? = some obj' → Copied heap origins obj'.impl obj.impl →
      Copied heap origins (f obj').impl obj.impl) :
    Copying heap origins { s with heap := s.heap.modify (heap.length + j) f } where
  length := (List.length_modify ..).trans copying.length
  kept m inside := by
    have other : heap.length + j ≠ m := by omega
    rw [List.getElem?_modify, copying.kept m inside]
    simp [other]
  copied j' m at_j' := by
    obtain ⟨obj, obj', at_m, at_d, copied⟩ := copying.copied j' m at_j'
    by_cases here : j = j'
    · subst here
      obtain rfl := Option.some.inj (at_j.symm.trans at_j')
      exact ⟨obj, f obj', at_m, by simp [at_d], still obj obj' at_m at_d copied⟩
    · exact ⟨obj, obj', at_m, by simp [at_d, here], copied⟩
  table := copying.table

theorem Copying.ref (copying : Copying heap origins s) (origin : Origin heap origins d n) :
    Copying heap origins { s with heap := s.heap.ref d } := by
  obtain ⟨j, rfl, at_j⟩ := origin
  exact copying.modify at_j fun _ _ _ _ copied => copied

theorem Copying.clone (copying : Copying heap origins s) (at_n : heap[n]? = some obj) {xreftable : List (Bytes × Nat)}
    (table : ∀ m d, xreftable.lookup (thisToHex m) = some d ↔ Shared heap m ∧ Origin heap (origins ++ [n]) d m) :
    Copying heap (origins ++ [n]) ⟨s.heap ++ [⟨obj.impl.clone, 1⟩], xreftable⟩ where
  length := by simp [copying.length, Nat.add_assoc]
  kept m inside := by
    have longer : m < s.heap.length := by rw [copying.length]; omega
    rw [List.getElem?_append_left longer, copying.kept m inside]
  copied j m at_j := by
    have more : origins <+: origins ++ [n] := List.prefix_append _ _
    rcases Nat.lt_or_ge j origins.length with old | new
    · rw [List.getElem?_append_left old] at at_j
      obtain ⟨obj, obj', at_m, at_d, copied⟩ := copying.copied j m at_j
      exact ⟨obj, obj', at_m, by rw [List.getElem?_append_left (by rw [copying.length]; omega), at_d], copied.more more⟩
    · rw [List.getElem?_append_right new, List.getElem?_singleton] at at_j
      split at at_j
      · rename_i last
        obtain rfl := Option.some.inj at_j
        refine ⟨obj, ⟨obj.impl.clone, 1⟩, at_n, ?_, ?_⟩
        · rw [List.getElem?_append_right (by rw [copying.length]; omega), copying.length, List.getElem?_singleton, if_pos (by omega)]
        · cases obj.impl with
          | value v => rfl
          | array slots => simp [Impl.clone, Copied]
      · cases at_j
  table := table

theorem Copying.table_shared (copying : Copying heap origins s) (shared : Shared heap n) (fresh : ∀ d, ¬Origin heap origins d n)
    (m d : Nat) : ((thisToHex n, s.heap.length) :: s.xreftable).lookup (thisToHex m) = some d ↔
      Shared heap m ∧ Origin heap (origins ++ [n]) d m := by
  rw [origin_append, ← copying.length]
  by_cases same : m = n
  · subst same
    rw [List.lookup_cons_self]
    constructor
    · intro here
      exact ⟨shared, .inr ⟨(Option.some.inj here).symm, rfl⟩⟩
    · rintro ⟨-, either⟩
      rw [(either.resolve_left (fresh d)).1]
  · have other : (thisToHex m == thisToHex n) = false := beq_eq_false_iff_ne.mpr fun same' => same (thisToHex_injective same')
    have old : ((thisToHex n, s.heap.length) :: s.xreftable).lookup (thisToHex m) = s.xreftable.lookup (thisToHex m) := by
      simp [List.lookup_cons, other]
    rw [old, copying.table]
    simp [same]

theorem Copying.table_alone (copying : Copying heap origins s) (alone : ¬Shared heap n) (m d : Nat) :
    s.xreftable.lookup (thisToHex m) = some d ↔ Shared heap m ∧ Origin heap (origins ++ [n]) d m := by
  rw [copying.table, origin_append]
  refine and_congr_right fun shared => ⟨.inl, fun either => either.resolve_right ?_⟩
  rintro ⟨-, rfl⟩
  exact alone shared

theorem key_once {slots : Entries (Option Nat)} (distinct : (slots.filterMap Prod.fst).Nodup) {i i' : Nat} {k : Key} {a b : Option Nat}
    (at_i : slots[i]? = some (some k, a)) (at_i' : slots[i']? = some (some k, b)) : ¬i < i' := by
  intro before
  obtain ⟨inside, at_i⟩ := List.getElem?_eq_some_iff.mp at_i
  obtain ⟨inside', at_i'⟩ := List.getElem?_eq_some_iff.mp at_i'
  have apart := List.pairwise_iff_getElem.mp (List.pairwise_filterMap.mp distinct) i i' inside inside' before
  rw [at_i, at_i'] at apart
  exact apart k rfl k rfl rfl

theorem Impl.assign_new {slots : Entries (Option Nat)} {key : Option Key} (fresh : ∀ k, key = some k → slots.position k = none)
    (value : Option Nat) : (Impl.array slots : Impl V).assign key value = .array (slots ++ [(key, value)]) := by
  cases key with
  | none => rfl
  | some k =>
    rw [Impl.assign, Entries.apply, fresh k rfl]
    rfl

theorem Heap.assign_new (fresh : ∀ k, key = some k → (heap.slotsAt d).position k = none) (value : Option Nat) :
    heap.assign d key value = heap.modify d fun obj => { obj with impl := obj.impl.assign key value } := by
  cases key with
  | none => rfl
  | some k =>
    rw [Heap.assign, Option.bind_some, fresh k rfl]
    rfl

theorem Copying.assign (copying : Copying heap origins s) (distinct : ∀ obj ∈ heap, (obj.impl.slots.filterMap Prod.fst).Nodup)
    (at_j : origins[j]? = some n) {slot : Option Key × Option Nat} {value : Option Nat}
    (next : (heap.slotsAt n)[(s.heap.slotsAt (heap.length + j)).length]? = some slot) (rel : Option.Rel (Origin heap origins) value slot.2) :
    Copying heap origins { s with heap := s.heap.assign (heap.length + j) slot.1 value } ∧
      ∀ m, (s.heap.assign (heap.length + j) slot.1 value).slotsAt m =
        if m = heap.length + j then s.heap.slotsAt m ++ [(slot.1, value)] else s.heap.slotsAt m := by
  obtain ⟨obj, obj', at_n, at_d, copied⟩ := copying.copied j n at_j
  have isDistinct := distinct obj (List.mem_of_getElem? at_n)
  have fresh : ∀ k, slot.1 = some k → (s.heap.slotsAt (heap.length + j)).position k = none := by
    intro k own
    refine List.findIdx?_eq_none_iff.mpr fun other mem => beq_eq_false_iff_ne.mpr fun same => ?_
    obtain ⟨i, inside, at_i⟩ := List.mem_iff_getElem.mp mem
    obtain ⟨first, at_first, copy⟩ := copying.slot at_j ((List.getElem?_eq_getElem inside).trans (congrArg some at_i))
    rw [slotsAt_some at_n] at at_first next
    have named : first = (some k, first.2) := Prod.ext (copy.1.symm.trans same) rfl
    have named' : slot = (some k, slot.2) := Prod.ext own rfl
    exact key_once isDistinct (at_first.trans (congrArg some named)) (next.trans (congrArg some named')) inside
  rw [Heap.assign_new fresh]
  rw [slotsAt_some at_d] at next fresh
  rw [slotsAt_some at_n] at next
  cases shape : obj.impl with
  | value v =>
    rw [shape] at next
    cases next
  | array slots =>
    cases shape' : obj'.impl with
    | value v =>
      rw [shape, shape'] at copied
      exact copied.elim
    | array slots' =>
      rw [shape, shape'] at copied
      rw [shape, shape'] at next
      rw [shape'] at fresh
      have added : (Impl.array slots' : Impl V).assign slot.1 value = .array (slots' ++ [(slot.1, value)]) := Impl.assign_new fresh value
      refine ⟨copying.modify at_j fun o o' at_n' at_d' _ => ?_, fun m => ?_⟩
      · obtain rfl := Option.some.inj (at_n.symm.trans at_n')
        obtain rfl := Option.some.inj (at_d.symm.trans at_d')
        rw [shape, shape']
        dsimp only
        rw [added]
        intro i slot' at_i
        rcases Nat.lt_or_ge i slots'.length with old | last
        · rw [List.getElem?_append_left old] at at_i
          exact copied i slot' at_i
        · rw [List.getElem?_append_right last, List.getElem?_singleton] at at_i
          split at at_i
          · obtain rfl : i = slots'.length := by omega
            obtain rfl := Option.some.inj at_i
            exact ⟨slot, next, rfl, rel⟩
          · cases at_i
      · rw [slotsAt_modify]
        by_cases here : m = heap.length + j
        · subst here
          rw [if_pos rfl, if_pos rfl, at_d, slotsAt_some at_d, shape']
          simp [shape', added, Impl.slots]
        · rw [if_neg (Ne.symm here), if_neg here]

end Copies

/-! ### The loop over the slots -/

section Slots

variable {heap : Heap V} {origins origins' : List Nat} {s s' : Cloning V} {stack : List Nat} {n j J : Nat}
  {clone : Nat → Cloning V → Option (Nat × Cloning V)}

def Done (heap : Heap V) (origins : List Nat) (s : Cloning V) (j : Nat) : Prop :=
  ∀ n, origins[j]? = some n → (s.heap.slotsAt (heap.length + j)).length = (heap.slotsAt n).length

structure Clones (heap : Heap V) (origins : List Nat) (s : Cloning V) (result : Option Nat) (origins' : List Nat) (s' : Cloning V) :
    Prop extends Copying heap origins' s' where
  more : origins <+: origins'
  same : ∀ j < origins.length, s'.heap.slotsAt (heap.length + j) = s.heap.slotsAt (heap.length + j)
  done : ∀ j, origins.length ≤ j → Done heap origins' s' j
  owned : ∀ j, origins.length ≤ j → j < origins'.length → result = some (heap.length + j) ∨
    ∃ e i, origins.length ≤ e ∧ e < j ∧ s'.heap.Refers (heap.length + e) i (heap.length + j)

/-- The loop fills the copy `J` and adds what its slots refer to. -/
structure Fills (heap : Heap V) (J : Nat) (origins : List Nat) (s : Cloning V) (origins' : List Nat) (s' : Cloning V) :
    Prop extends Copying heap origins' s' where
  more : origins <+: origins'
  same : ∀ j < origins.length, j ≠ J → s'.heap.slotsAt (heap.length + j) = s.heap.slotsAt (heap.length + j)
  grown : s.heap.slotsAt (heap.length + J) <+: s'.heap.slotsAt (heap.length + J)
  done : ∀ j, j = J ∨ origins.length ≤ j → Done heap origins' s' j
  owned : ∀ j, origins.length ≤ j → j < origins'.length →
    ∃ e i, (e = J ∨ origins.length ≤ e) ∧ e < j ∧ s'.heap.Refers (heap.length + e) i (heap.length + j)

def Tabled (heap : Heap V) (origins stack : List Nat) : Prop := ∀ m ∈ stack, Shared heap m → ∃ d, Origin heap origins d m

/-- Calls for what the slots of `n` refer to. -/
def ClonesSlots (heap : Heap V) (stack : List Nat) (clone : Nat → Cloning V → Option (Nat × Cloning V)) (n : Nat) : Prop :=
  ∀ i m, heap.Refers n i m → ∀ origins s, Copying heap origins s → Tabled heap origins stack →
    ∃ d origins' s', clone m s = some (d, s') ∧ Clones heap origins s (some d) origins' s' ∧ Origin heap origins' d m

theorem Tabled.more (tabled : Tabled heap origins stack) (more : origins <+: origins') : Tabled heap origins' stack := by
  intro m mem shared
  obtain ⟨d, origin⟩ := tabled m mem shared
  exact ⟨d, origin.more more⟩

theorem outside_none {l : List Nat} (outside : l.length ≤ j) : l[j]? ≠ some n := by
  rw [List.getElem?_eq_none outside]
  exact Option.some_ne_none n |>.symm

theorem Clones.refl (copying : Copying heap origins s) (result : Option Nat) : Clones heap origins s result origins s where
  toCopying := copying
  more := List.prefix_rfl
  same _ _ := rfl
  done _ outside _ at_j := absurd at_j (outside_none outside)
  owned _ outside inside := absurd inside (Nat.not_lt.mpr outside)

theorem anyDeepClone_clones (clones : ClonesSlots heap stack clone n) {i : Nat} {slot : Option Key × Option Nat}
    (here : (heap.slotsAt n)[i]? = some slot) (copying : Copying heap origins s) (tabled : Tabled heap origins stack) :
    ∃ value origins' s', anyDeepClone clone slot.2 s = some (value, s') ∧ Clones heap origins s value origins' s' ∧
      Option.Rel (Origin heap origins') value slot.2 := by
  obtain ⟨key, value⟩ := slot
  cases value with
  | none => exact ⟨none, origins, s, rfl, .refl copying none, .none⟩
  | some m =>
    obtain ⟨d, origins', s', run, cloned, origin⟩ := clones i m ⟨key, here⟩ origins s copying tabled
    exact ⟨some d, origins', s', by rw [anyDeepClone, run]; rfl, cloned, .some origin⟩

theorem getElem?_kept {l l' : List Nat} (more : l <+: l') (inside : j < l.length) : l'[j]? = l[j]? := by
  obtain ⟨t, rfl⟩ := more
  exact List.getElem?_append_left inside

theorem Done.of_same (done : Done heap origins s j) (more : origins <+: origins') (inside : j < origins.length)
    (same : s'.heap.slotsAt (heap.length + j) = s.heap.slotsAt (heap.length + j)) : Done heap origins' s' j := by
  intro n at_j
  rw [same]
  exact done n ((getElem?_kept more inside).symm.trans at_j)

theorem Fills.pass {s₁ s₂ : Cloning V} {origins₁ : List Nat} {value : Option Nat} {slot : Option Key × Option Nat}
    (called : Clones heap origins s value origins₁ s₁) (inside : J < origins.length)
    (assigned : ∀ m, s₂.heap.slotsAt m =
      if m = heap.length + J then s₁.heap.slotsAt m ++ [(slot.1, value)] else s₁.heap.slotsAt m)
    (rest : Fills heap J origins₁ s₂ origins' s') : Fills heap J origins s origins' s' := by
  have longer : origins.length ≤ origins₁.length := called.more.length_le
  have others : ∀ j < origins₁.length, j ≠ J → s'.heap.slotsAt (heap.length + j) = s₁.heap.slotsAt (heap.length + j) := by
    intro j old other
    rw [rest.same j old other, assigned, if_neg (by omega)]
  have own : s₂.heap.slotsAt (heap.length + J) = s.heap.slotsAt (heap.length + J) ++ [(slot.1, value)] := by
    rw [assigned, if_pos rfl, called.same J inside]
  refine ⟨rest.toCopying, called.more.trans rest.more, fun j old other => ?_, ?_, fun j new => ?_, fun j new old => ?_⟩
  · rw [others j (by omega) other, called.same j old]
  · exact (own ▸ List.prefix_append _ _).trans rest.grown
  · rcases new with rfl | new
    · exact rest.done j (.inl rfl)
    · rcases Nat.lt_or_ge j origins₁.length with first | later
      · exact (called.done j new).of_same rest.more first (others j first (by omega))
      · exact rest.done j (.inr later)
  · rcases Nat.lt_or_ge j origins₁.length with first | later
    · rcases called.owned j new first with rfl | ⟨e, i, behind, before, key, refers⟩
      · refine ⟨J, (s.heap.slotsAt (heap.length + J)).length, .inl rfl, by omega, slot.1, ?_⟩
        have filled : (s₂.heap.slotsAt (heap.length + J))[(s.heap.slotsAt (heap.length + J)).length]? =
            some (slot.1, some (heap.length + j)) := by rw [own]; simp
        obtain ⟨t, more⟩ := rest.grown
        rw [← more, List.getElem?_append_left (List.getElem?_eq_some_iff.mp filled).1, filled]
      · exact ⟨e, i, .inr behind, before, key, (others e (by omega) (by omega)).symm ▸ refers⟩
    · obtain ⟨e, i, behind, before, refers⟩ := rest.owned j later old
      exact ⟨e, i, behind.imp_right longer.trans, before, refers⟩

theorem cloneSlots_fills (distinct : ∀ obj ∈ heap, (obj.impl.slots.filterMap Prod.fst).Nodup) (clones : ClonesSlots heap stack clone n)
    (count i : Nat) (copying : Copying heap origins s) (tabled : Tabled heap origins stack) (at_J : origins[J]? = some n)
    (filled : (s.heap.slotsAt (heap.length + J)).length = i) (left : i + count = (heap.slotsAt n).length) :
    ∃ origins' s', cloneSlots clone n (heap.length + J) count i s = some s' ∧ Fills heap J origins s origins' s' := by
  induction count generalizing i origins s with
  | zero =>
    refine ⟨origins, s, rfl, copying, List.prefix_rfl, fun _ _ _ => rfl, List.prefix_rfl, fun j new m at_j => ?_, fun j new old => ?_⟩
    · rcases new with rfl | new
      · obtain rfl := Option.some.inj (at_J.symm.trans at_j)
        rw [filled, ← left, Nat.add_zero]
      · exact absurd at_j (outside_none new)
    · exact absurd old (Nat.not_lt.mpr new)
  | succ count ih =>
    obtain ⟨slot, at_i⟩ : ∃ slot, (heap.slotsAt n)[i]? = some slot := ⟨_, List.getElem?_eq_getElem (by omega)⟩
    obtain ⟨value, origins₁, s₁, run, called, rel⟩ := anyDeepClone_clones clones at_i copying tabled
    have inside : J < origins.length := (List.getElem?_eq_some_iff.mp at_J).1
    have same := called.same J inside
    have next : (heap.slotsAt n)[(s₁.heap.slotsAt (heap.length + J)).length]? = some slot := by rw [same, filled, at_i]
    obtain ⟨copying₂, assigned⟩ := called.toCopying.assign distinct (getElem?_more called.more at_J) next rel
    have longer : ((s₁.heap.assign (heap.length + J) slot.1 value).slotsAt (heap.length + J)).length = i + 1 := by
      rw [assigned, if_pos rfl, List.length_append, same, filled]
      rfl
    obtain ⟨origins', s', rest, fills⟩ :=
      ih (i + 1) copying₂ (tabled.more called.more) (getElem?_more called.more at_J) longer (by omega)
    refine ⟨origins', s', ?_, Fills.pass called inside assigned fills⟩
    rw [cloneSlots, copying.slotsAt_kept (copying.source at_J), at_i]
    simp only [Option.bind_eq_bind, Option.bind_some, run]
    exact rest

end Slots

end Coast.Anything
