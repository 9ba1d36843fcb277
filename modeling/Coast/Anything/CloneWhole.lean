import Coast.Anything.CloneGraph
import Mathlib.Data.List.NodupEquivFin

/-!
# The whole clone

The implementations that a call is still busy with are a path without repetition, so that the calls come to an end. A
node is copied once: two copies of it would come from two references to it.
-/

namespace Coast.Anything

variable {V : Type}

open Heap

/-! ### References -/

theorem two_le_count {l : List (Option Nat)} {a : Option Nat} {i i' : Nat} (at_i : l[i]? = some a) (at_i' : l[i']? = some a)
    (apart : i < i') : 2 ≤ l.count a := by
  obtain ⟨inside, rfl⟩ := List.getElem?_eq_some_iff.mp at_i
  obtain ⟨inside', same⟩ := List.getElem?_eq_some_iff.mp at_i'
  have twice : List.Duplicate l[i] l := List.duplicate_iff_exists_distinct_get.mpr ⟨⟨i, inside⟩, ⟨i', inside'⟩, apart, rfl, same.symm⟩
  have counted := (List.duplicate_iff_sublist.mp twice).count_le l[i]
  simpa using counted

namespace Heap

variable {heap : Heap V} {p p' i i' n : Nat}

theorem slotCount_cons (obj : AnyImpl V) (heap : Heap V) (n : Nat) :
    slotCount (obj :: heap) n = (obj.impl.slots.map Prod.snd).count (some n) + slotCount heap n := List.sum_cons

theorem Refers.value (refers : heap.Refers p i n) : ((heap.slotsAt p).map Prod.snd)[i]? = some (some n) := by
  obtain ⟨key, here⟩ := refers
  rw [List.getElem?_map, here]
  rfl

theorem one_le_slotCount (refers : heap.Refers p i n) : 1 ≤ heap.slotCount n := by
  have value := refers.value
  clear refers
  induction heap generalizing p with
  | nil => simp [slotsAt] at value
  | cons obj heap ih =>
    rw [slotCount_cons]
    cases p with
    | zero =>
      have counted := List.count_pos_iff.mpr (List.mem_of_getElem? value)
      have here : slotsAt (obj :: heap) 0 = obj.impl.slots := rfl
      rw [here] at counted
      omega
    | succ p =>
      have later := ih value
      omega

theorem two_le_slotCount (refers : heap.Refers p i n) (refers' : heap.Refers p' i' n) (apart : p ≠ p' ∨ i ≠ i') :
    2 ≤ heap.slotCount n := by
  induction heap generalizing p p' with
  | nil => simpa [slotsAt] using refers.value
  | cons obj heap ih =>
    rw [slotCount_cons]
    have first : ∀ {i}, Refers (obj :: heap) 0 i n → 1 ≤ (obj.impl.slots.map Prod.snd).count (some n) := fun refers =>
      List.count_pos_iff.mpr (List.mem_of_getElem? refers.value)
    have later : ∀ {p i}, Refers (obj :: heap) (p + 1) i n → Refers heap p i n := id
    cases p with
    | zero =>
      have here := first refers
      cases p' with
      | zero =>
        have places : i ≠ i' := apart.resolve_left fun differ => differ rfl
        rcases Nat.lt_or_gt_of_ne places with before | after
        · have both := two_le_count refers.value refers'.value before
          exact both.trans (Nat.le_add_right _ _)
        · have both := two_le_count refers'.value refers.value after
          exact both.trans (Nat.le_add_right _ _)
      | succ p' =>
        have there := one_le_slotCount (later refers')
        omega
    | succ p =>
      cases p' with
      | zero =>
        have here := first refers'
        have there := one_le_slotCount (later refers)
        omega
      | succ p' =>
        have both := ih (later refers) (later refers') (apart.imp_left fun differ same => differ (congrArg (· + 1) same))
        omega

end Heap

/-! ### The calls -/

section Calls

variable {heap : Heap V} {handles : Nat → Nat} {value : Option Nat} {root : Nat}

inductive Busy (heap : Heap V) (root : Nat) : List Nat → Prop
  | root : Busy heap root [root]
  | slot {p i n : Nat} {stack : List Nat} (busy : Busy heap root (p :: stack)) (refers : heap.Refers p i n) (fresh : n ∉ p :: stack) :
    Busy heap root (n :: p :: stack)

variable {stack : List Nat} {n : Nat}

theorem Busy.nodup (busy : Busy heap root stack) : stack.Nodup := by
  induction busy with
  | root => exact List.nodup_singleton root
  | slot busy refers fresh ih => exact List.nodup_cons.mpr ⟨fresh, ih⟩

theorem Busy.inside (sound : Sound heap handles (some root)) (busy : Busy heap root stack) : ∀ m ∈ stack, m < heap.length := by
  induction busy with
  | root =>
    intro m mem
    rw [List.mem_singleton.mp mem]
    exact (sound.held root rfl).1
  | slot busy refers fresh ih =>
    intro m mem
    rcases List.mem_cons.mp mem with rfl | mem
    · exact sound.closed _ _ _ refers
    · exact ih m mem

theorem Busy.length_le (sound : Sound heap handles (some root)) (busy : Busy heap root stack) : stack.length ≤ heap.length := by
  have small : stack ⊆ List.range heap.length := fun m mem => List.mem_range.mpr (busy.inside sound m mem)
  have bound := (List.subperm_of_subset busy.nodup small).length_le
  rwa [List.length_range] at bound

theorem Busy.entered (busy : Busy heap root stack) : ∀ m ∈ stack, m = root ∨ ∃ q ∈ stack.tail, ∃ i, heap.Refers q i m := by
  induction busy with
  | root => exact fun m mem => .inl (List.mem_singleton.mp mem)
  | slot busy refers fresh ih =>
    intro m mem
    rcases List.mem_cons.mp mem with rfl | mem
    · exact .inr ⟨_, List.mem_cons_self, _, refers⟩
    · rcases ih m mem with isRoot | ⟨q, below, i, refers'⟩
      · exact .inl isRoot
      · exact .inr ⟨q, List.mem_of_mem_tail below, i, refers'⟩

theorem Busy.shared (sound : Sound heap handles (some root)) {p i : Nat} (busy : Busy heap root (p :: stack)) (refers : heap.Refers p i n)
    (again : n ∈ p :: stack) : Shared heap n := by
  have inside := busy.inside sound n again
  refine ⟨heap[n], List.getElem?_eq_getElem inside, ?_⟩
  rw [sound.counted n _ (List.getElem?_eq_getElem inside)]
  rcases busy.entered n again with rfl | ⟨q, below, i', refers'⟩
  · have one := one_le_slotCount refers
    have held := (sound.held n rfl).2
    omega
  · have apart : p ≠ q := by
      rintro rfl
      exact (List.nodup_cons.mp busy.nodup).1 below
    have two := two_le_slotCount refers refers' (.inl apart)
    omega

variable {origins : List Nat} {s : Cloning V}

theorem slotsAt_append (heap : Heap V) (obj : AnyImpl V) {m : Nat} (inside : m < heap.length) :
    Heap.slotsAt (heap ++ [obj]) m = heap.slotsAt m := by
  rw [Heap.slotsAt, Heap.slotsAt, List.getElem?_append_left inside]

theorem slotsAt_last (heap : Heap V) (obj : AnyImpl V) : Heap.slotsAt (heap ++ [obj]) heap.length = obj.impl.slots := by
  apply slotsAt_some
  rw [List.getElem?_append_right le_rfl, Nat.sub_self]
  rfl

theorem doDeepClone_clones (distinct : ∀ obj ∈ heap, (obj.impl.slots.filterMap Prod.fst).Nodup) {obj : AnyImpl V}
    (at_n : heap[n]? = some obj) {clone : Nat → Cloning V → Option (Nat × Cloning V)} (clones : ClonesSlots heap (n :: stack) clone n)
    {xreftable : List (Bytes × Nat)} (length : s.heap.length = heap.length + origins.length)
    (copying : Copying heap (origins ++ [n]) ⟨s.heap ++ [⟨obj.impl.clone, 1⟩], xreftable⟩) (tabled : Tabled heap origins stack) :
    ∃ d origins' s', doDeepClone clone n s.heap.length ⟨s.heap ++ [⟨obj.impl.clone, 1⟩], xreftable⟩ = some (d, s') ∧
      Clones heap origins s (some d) origins' s' ∧ Origin heap origins' d n := by
  have at_J : (origins ++ [n])[origins.length]? = some n := by simp
  have made : Origin heap (origins ++ [n]) (heap.length + origins.length) n := ⟨origins.length, rfl, at_J⟩
  have more : origins <+: origins ++ [n] := List.prefix_append _ _
  have before : ∀ j < origins.length, Heap.slotsAt (s.heap ++ [⟨obj.impl.clone, 1⟩]) (heap.length + j) = s.heap.slotsAt (heap.length + j) :=
    fun j old => slotsAt_append _ _ (by omega)
  have empty : Heap.slotsAt (s.heap ++ [⟨obj.impl.clone, 1⟩]) (heap.length + origins.length) = [] := by
    rw [← length, slotsAt_last]
    cases obj.impl <;> rfl
  have source : (s.heap ++ [⟨obj.impl.clone, 1⟩])[n]? = some obj := by
    rw [copying.kept n (List.getElem?_eq_some_iff.mp at_n).1, at_n]
  rw [doDeepClone, source, length]
  cases shape : obj.impl with
  | value v =>
    have noSlots : heap.slotsAt n = [] := by
      rw [slotsAt_some at_n, shape]
      rfl
    refine ⟨_, _, _, by simp only [Option.bind_eq_bind, Option.bind_some, shape]; rfl, ⟨copying, more, before, ?_, ?_⟩, made⟩
    · intro j new m at_j
      obtain rfl : j = origins.length := by
        have inside := (List.getElem?_eq_some_iff.mp at_j).1
        rw [List.length_append, List.length_singleton] at inside
        omega
      obtain rfl := Option.some.inj (at_J.symm.trans at_j)
      rw [empty, noSlots]
    · intro j new old
      rw [List.length_append, List.length_singleton] at old
      exact .inl (congrArg some (by omega))
  | array slots =>
    have tabled' : Tabled heap (origins ++ [n]) (n :: stack) := by
      intro m mem shared
      rcases List.mem_cons.mp mem with rfl | mem
      · exact ⟨_, made⟩
      · obtain ⟨d, origin⟩ := tabled m mem shared
        exact ⟨d, origin.more more⟩
    have places : (heap.slotsAt n).length = slots.length := by
      rw [slotsAt_some at_n, shape]
      rfl
    obtain ⟨origins', s', run, fills⟩ := cloneSlots_fills distinct clones slots.length 0 copying tabled' at_J
      (by rw [empty]; rfl) (by rw [places, Nat.zero_add])
    have longer : (origins ++ [n]).length = origins.length + 1 := by simp
    have run' := run
    rw [shape] at run'
    refine ⟨_, origins', s', by simp only [Option.bind_eq_bind, Option.bind_some, shape, run']; rfl,
      ⟨fills.toCopying, more.trans fills.more, fun j old => ?_, fun j new => ?_, fun j new old => ?_⟩, made.more fills.more⟩
    · rw [fills.same j (by omega) (by omega)]
      exact before j old
    · rcases Nat.eq_or_lt_of_le new with same | later
      · exact fills.done j (.inl same.symm)
      · exact fills.done j (.inr (by omega))
    · rcases Nat.eq_or_lt_of_le new with rfl | later
      · exact .inl rfl
      · obtain ⟨e, i, behind, earlier, refers⟩ := fills.owned j (by omega) old
        exact .inr ⟨e, i, by omega, earlier, refers⟩

variable {fuel : Nat}

theorem deepClone_found (copying : Copying heap origins s) {d : Nat} (shared : Shared heap n) (origin : Origin heap origins d n) :
    deepClone (fuel + 1) n s = some (d, { s with heap := s.heap.ref d }) ∧
      Clones heap origins s (some d) origins { s with heap := s.heap.ref d } := by
  have found := (copying.table n d).mpr ⟨shared, origin⟩
  obtain ⟨obj, at_n, many⟩ := shared
  have source : s.heap[n]? = some obj := by rw [copying.kept n (List.getElem?_eq_some_iff.mp at_n).1, at_n]
  constructor
  · rw [deepClone, source]
    simp [many, found]
  · exact ⟨copying.ref origin, List.prefix_rfl, fun j _ => slotsAt_ref d (heap.length + j),
      fun j outside m at_j => absurd at_j (outside_none outside), fun j outside inside => absurd inside (Nat.not_lt.mpr outside)⟩

theorem deepClone_clones (sound : Sound heap handles (some root)) : ∀ (fuel n : Nat) (stack origins : List Nat) (s : Cloning V),
    Busy heap root (n :: stack) → Copying heap origins s → Tabled heap origins stack → (Shared heap n → ∀ d, ¬Origin heap origins d n) →
    heap.length < fuel + stack.length →
      ∃ d origins' s', deepClone fuel n s = some (d, s') ∧ Clones heap origins s (some d) origins' s' ∧ Origin heap origins' d n := by
  intro fuel
  induction fuel with
  | zero =>
    intro n stack origins s busy copying tabled fresh enough
    have short := busy.length_le sound
    rw [List.length_cons] at short
    omega
  | succ fuel ih =>
    intro n stack origins s busy copying tabled fresh enough
    have short := busy.length_le sound
    rw [List.length_cons] at short
    have inside := busy.inside sound n List.mem_cons_self
    have at_n : heap[n]? = some heap[n] := List.getElem?_eq_getElem inside
    have source : s.heap[n]? = some heap[n] := by rw [copying.kept n inside, at_n]
    have clones : ClonesSlots heap (n :: stack) (deepClone fuel) n := by
      intro i m refers origins s copying tabled
      by_cases found : ∃ d, Shared heap m ∧ Origin heap origins d m
      · obtain ⟨d, shared, origin⟩ := found
        obtain ⟨fuel, rfl⟩ := Nat.exists_eq_succ_of_ne_zero (show fuel ≠ 0 by omega)
        obtain ⟨run, cloned⟩ := deepClone_found copying shared origin
        exact ⟨d, origins, _, run, cloned, origin⟩
      · have new : m ∉ n :: stack := by
          intro again
          have shared := busy.shared sound refers again
          obtain ⟨d, origin⟩ := tabled m again shared
          exact found ⟨d, shared, origin⟩
        exact ih m (n :: stack) origins s (busy.slot refers new) copying tabled (fun shared d origin => found ⟨d, shared, origin⟩)
          (by rw [List.length_cons]; omega)
    rw [deepClone, source]
    by_cases many : 1 < heap[n].fRefCount
    · have shared : Shared heap n := ⟨_, at_n, many⟩
      have none : s.xreftable.lookup (thisToHex n) = none := by
        cases found : s.xreftable.lookup (thisToHex n) with
        | none => rfl
        | some d => exact absurd ((copying.table n d).mp found).2 (fresh shared d)
      have next := copying.clone at_n (copying.table_shared shared (fresh shared))
      simp only [Option.bind_eq_bind, Option.bind_some, many, if_true, none]
      exact doDeepClone_clones sound.distinct at_n clones copying.length next tabled
    · have alone : ¬Shared heap n := by
        rintro ⟨obj, at_n', many'⟩
        obtain rfl := Option.some.inj (at_n.symm.trans at_n')
        exact many many'
      have next := copying.clone at_n (copying.table_alone alone)
      simp only [Option.bind_eq_bind, Option.bind_some, many, if_false]
      exact doDeepClone_clones sound.distinct at_n clones copying.length next tabled

/-! ### The clone -/

theorem Origin.unique {d : Nat} {m : Nat} (origin : Origin heap origins d n) (origin' : Origin heap origins d m) : n = m := by
  obtain ⟨j, rfl, at_j⟩ := origin
  obtain ⟨j', same, at_j'⟩ := origin'
  obtain rfl : j = j' := by omega
  exact Option.some.inj (at_j.symm.trans at_j')

theorem Copying.refers (copying : Copying heap origins s) {e i j p : Nat} (at_e : origins[e]? = some p) (at_j : origins[j]? = some n)
    (refers : s.heap.Refers (heap.length + e) i (heap.length + j)) : heap.Refers p i n := by
  obtain ⟨key, here⟩ := refers
  obtain ⟨⟨key', value⟩, at_i, same, rel⟩ := copying.slot at_e here
  dsimp only at rel
  cases rel with
  | some origin =>
    obtain rfl := origin.unique ⟨j, rfl, at_j⟩
    exact ⟨key', at_i⟩

theorem Clones.once (sound : Sound heap handles (some root)) {d : Nat} {origins' : List Nat} {s' : Cloning V}
    (clones : Clones heap [] s (some d) origins' s') (isRoot : Origin heap origins' d root) :
    ∀ j' j n : Nat, j < j' → origins'[j]? = some n → origins'[j']? ≠ some n := by
  intro j'
  induction j' using Nat.strongRecOn with
  | ind j' ih =>
    intro j n before at_j at_j'
    have source := clones.source at_j
    have at_n : heap[n]? = some heap[n] := List.getElem?_eq_getElem source
    have counted := sound.counted n _ at_n
    have alone : ¬Shared heap n := by
      intro shared
      have first := (clones.table n (heap.length + j)).mpr ⟨shared, j, rfl, at_j⟩
      have second := (clones.table n (heap.length + j')).mpr ⟨shared, j', rfl, at_j'⟩
      have same := Option.some.inj (first.symm.trans second)
      omega
    have few : heap[n].fRefCount ≤ 1 := Nat.le_of_not_lt fun many => alone ⟨_, at_n, many⟩
    have inside := (List.getElem?_eq_some_iff.mp at_j).1
    have inside' := (List.getElem?_eq_some_iff.mp at_j').1
    have holds : ∀ {k : Nat}, origins'[k]? = some n → some d = some (heap.length + k) → 0 < handles n := by
      intro k at_k same
      obtain rfl := isRoot.unique ⟨k, Option.some.inj same, at_k⟩
      exact (sound.held _ rfl).2
    have slot : ∀ {e i k : Nat}, e < k → k < origins'.length → origins'[k]? = some n → s'.heap.Refers (heap.length + e) i (heap.length + k) →
        ∃ p, origins'[e]? = some p ∧ heap.Refers p i n := by
      intro e i k earlier within at_k refers
      have at_e : origins'[e]? = some origins'[e] := List.getElem?_eq_getElem (by omega)
      exact ⟨_, at_e, clones.refers at_e at_k refers⟩
    rcases clones.owned j (Nat.zero_le j) inside with result | ⟨e, i, -, earlier, refers⟩
    · rcases clones.owned j' (Nat.zero_le j') inside' with result' | ⟨e', i', -, earlier', refers'⟩
      · have same := Option.some.inj (result.symm.trans result')
        omega
      · obtain ⟨p', -, source'⟩ := slot earlier' inside' at_j' refers'
        have held := holds at_j result
        have one := one_le_slotCount source'
        omega
    · obtain ⟨p, at_e, source⟩ := slot earlier inside at_j refers
      rcases clones.owned j' (Nat.zero_le j') inside' with result' | ⟨e', i', -, earlier', refers'⟩
      · have held := holds at_j' result'
        have one := one_le_slotCount source
        omega
      · obtain ⟨p', at_e', source'⟩ := slot earlier' inside' at_j' refers'
        by_cases same : p = p' ∧ i = i'
        · obtain ⟨rfl, rfl⟩ := same
          rcases Nat.lt_trichotomy e e' with less | rfl | more
          · exact ih e' (by omega) e p less at_e at_e'
          · obtain ⟨key, here⟩ := refers
            obtain ⟨key', here'⟩ := refers'
            have one := Option.some.inj (here.symm.trans here')
            have target := Option.some.inj (Prod.mk.inj one).2
            omega
          · exact ih e (by omega) e' p more at_e' at_e
        · have two := two_le_slotCount source source' (by tauto)
          omega

end Calls

/-! ### The graph of the copies -/

section Whole

variable {heap : Heap V} {handles : Nat → Nat} {origins : List Nat} {s : Cloning V} {root d n : Nat}

/-- Where the copy of `n` is. -/
def copyOf (heap : Heap V) (origins : List Nat) (n : Nat) : Nat := heap.length + origins.idxOf n

theorem Origin.eq_copyOf (nodup : origins.Nodup) (origin : Origin heap origins d n) : d = copyOf heap origins n := by
  obtain ⟨j, rfl, at_j⟩ := origin
  obtain ⟨inside, rfl⟩ := List.getElem?_eq_some_iff.mp at_j
  rw [copyOf, nodup.idxOf_getElem]

theorem copyOf_injective {m : Nat} (origin : Origin heap origins d n) (same : copyOf heap origins m = copyOf heap origins n) : m = n := by
  obtain ⟨j, rfl, at_j⟩ := origin
  have mem : n ∈ origins := List.mem_of_getElem? at_j
  have places : origins.idxOf m = origins.idxOf n := Nat.add_left_cancel same
  exact ((List.idxOf_inj mem).mp places.symm).symm

theorem SlotCopied.eq_map (nodup : origins.Nodup) {slot' slot : Option Key × Option Nat} (copied : SlotCopied heap origins slot' slot) :
    slot' = (slot.1, slot.2.map (copyOf heap origins)) := by
  obtain ⟨key', value'⟩ := slot'
  obtain ⟨key, value⟩ := slot
  obtain ⟨same, rel⟩ := copied
  dsimp only at same rel ⊢
  subst same
  cases rel with
  | some origin =>
    rw [origin.eq_copyOf nodup]
    rfl
  | none => rfl

theorem Copied.eq_rename (nodup : origins.Nodup) {impl' impl : Impl V} (copied : Copied heap origins impl' impl)
    (filled : impl'.slots.length = impl.slots.length) : impl' = impl.rename (copyOf heap origins) := by
  cases impl' with
  | value v' =>
    cases impl with
    | value v => exact congrArg Impl.value copied
    | array slots => exact copied.elim
  | array slots' =>
    cases impl with
    | value v => exact copied.elim
    | array slots =>
      refine congrArg Impl.array (List.ext_getElem ?_ fun i inside inside' => ?_)
      · rw [List.length_map]
        exact filled
      · obtain ⟨slot, at_i, copy⟩ := copied i _ (List.getElem?_eq_getElem inside)
        rw [copy.eq_map nodup, List.getElem_map, (List.getElem?_eq_some_iff.mp at_i).2]

theorem Copying.reached (copying : Copying heap origins s) (done : ∀ j, Done heap origins s j) (isRoot : Origin heap origins d root)
    (reached : heap.Reached (some root) n) : ∃ d, Origin heap origins d n := by
  induction reached with
  | value held =>
    obtain rfl := Option.some.inj held
    exact ⟨d, isRoot⟩
  | slot reached refers ih =>
    obtain ⟨_, e, rfl, at_e⟩ := ih
    obtain ⟨key, here⟩ := refers
    have inside := (List.getElem?_eq_some_iff.mp here).1
    rw [← done e _ at_e] at inside
    obtain ⟨⟨key', value'⟩, there⟩ : ∃ slot', (s.heap.slotsAt (heap.length + e))[_]? = some slot' := ⟨_, List.getElem?_eq_getElem inside⟩
    obtain ⟨slot, at_i, -, rel⟩ := copying.slot at_e there
    obtain rfl := Option.some.inj (here.symm.trans at_i)
    dsimp only at rel
    cases rel with
    | some origin => exact ⟨_, origin⟩

theorem Copying.reached_copy (copying : Copying heap origins s) (isRoot : Origin heap origins d root)
    (reached : s.heap.Reached (some d) n) : ∃ m, Origin heap origins n m := by
  induction reached with
  | value held =>
    obtain rfl := Option.some.inj held
    exact ⟨root, isRoot⟩
  | slot reached refers ih =>
    obtain ⟨m, e, rfl, at_e⟩ := ih
    obtain ⟨key, here⟩ := refers
    obtain ⟨⟨key', value⟩, -, -, rel⟩ := copying.slot at_e here
    dsimp only at rel
    cases rel with
    | some origin => exact ⟨_, origin⟩

theorem Copying.isomorphic (copying : Copying heap origins s) (done : ∀ j, Done heap origins s j) (nodup : origins.Nodup)
    (isRoot : Origin heap origins d root) : Isomorphic heap (some root) s.heap (some d) := by
  refine ⟨copyOf heap origins, congrArg some (isRoot.eq_copyOf nodup), fun m n _ reached same => ?_, fun n reached => ?_⟩
  · obtain ⟨_, origin⟩ := copying.reached done isRoot reached
    exact copyOf_injective origin same
  · obtain ⟨_, origin⟩ := copying.reached done isRoot reached
    rw [← origin.eq_copyOf nodup]
    obtain ⟨j, rfl, at_j⟩ := origin
    obtain ⟨obj, obj', at_n, at_d, copied⟩ := copying.copied j n at_j
    have filled := done j n at_j
    rw [slotsAt_some at_d, slotsAt_some at_n] at filled
    rw [at_d, at_n, Option.map_some, Option.map_some, copied.eq_rename nodup filled]

theorem Copying.prefix_heap (copying : Copying heap origins s) : heap <+: s.heap := by
  apply List.prefix_iff_getElem?.mpr
  intro n inside
  rw [copying.kept n inside, List.getElem?_eq_getElem inside]

theorem Copying.start (heap : Heap V) : Copying heap [] ⟨heap, []⟩ where
  length := rfl
  kept _ _ := rfl
  copied _ _ at_j := by cases at_j
  table n d := by simp [Origin]

/-- The clone is the graph once more, behind what was there. -/
theorem deepClone_isomorphic {value : Option Nat} (sound : Sound heap handles value) {fuel : Nat} (enough : heap.length < fuel) :
    ∃ value' heap', deepCloneOf fuel value heap = some (value', heap') ∧ Isomorphic heap value heap' value' ∧ heap <+: heap' ∧
      ∀ n, heap'.Reached value' n → heap.length ≤ n := by
  have unreached : ∀ {n : Nat}, ¬heap.Reached none n := by
    intro n reached
    induction reached with
    | value held => cases held
    | slot _ _ ih => exact ih
  cases value with
  | none =>
    exact ⟨none, heap, rfl, ⟨id, rfl, fun _ _ reached => absurd reached unreached, fun _ reached => absurd reached unreached⟩,
      List.prefix_rfl, fun _ reached => absurd reached unreached⟩
  | some root =>
    obtain ⟨d, origins, s, run, clones, isRoot⟩ := deepClone_clones sound fuel root [] [] ⟨heap, []⟩ .root (.start heap)
      (by simp [Tabled]) (by simp [Origin]) enough
    have nodup : origins.Nodup := by
      apply List.nodup_iff_getElem?_ne_getElem?.mpr
      intro j j' before inside
      have at_j : origins[j]? = some origins[j] := List.getElem?_eq_getElem (by omega)
      rw [at_j]
      exact (clones.once sound isRoot j' j _ before at_j).symm
    have done : ∀ j, Done heap origins s j := fun j => clones.done j (Nat.zero_le j)
    refine ⟨some d, s.heap, ?_, clones.isomorphic done nodup isRoot, clones.prefix_heap, fun n reached => ?_⟩
    · rw [deepCloneOf, anyDeepClone, run]
      rfl
    · obtain ⟨_, j, rfl, -⟩ := clones.reached_copy isRoot reached
      exact Nat.le_add_right _ _

def selfReference : Heap Nat :=
  [⟨.array [(some ⟨ascii "self", by decide, by decide⟩, some 0), (none, some 1), (none, some 1)], 2⟩, ⟨.value 7, 2⟩]

theorem selfReference_sound : Sound selfReference (fun n => if n = 0 then 1 else 0) (some 0) where
  closed p i n refers := by
    have mem := List.mem_of_getElem? refers.value
    rcases p with _ | _ | p
    · have either : n = 0 ∨ n = 1 := by simpa [slotsAt, selfReference, Impl.slots] using mem
      rcases either with rfl | rfl <;> decide
    · cases mem
    · cases mem
  counted n obj at_n := by
    rcases n with _ | _ | n
    · obtain rfl := Option.some.inj at_n
      decide
    · obtain rfl := Option.some.inj at_n
      decide
    · cases at_n
  distinct := by decide
  held this same := by
    obtain rfl := Option.some.inj same
    decide

theorem deepClone_selfReference : ∃ value' heap', deepCloneOf 3 (some 0) selfReference = some (value', heap') ∧
    Isomorphic selfReference (some 0) heap' value' ∧ selfReference <+: heap' ∧
      ∀ n, heap'.Reached value' n → selfReference.length ≤ n :=
  deepClone_isomorphic selfReference_sound (by decide)

end Whole

end Coast.Anything
