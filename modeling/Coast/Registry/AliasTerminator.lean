import Coast.Registry.Table
import Mathlib.Data.List.DropRight

/-!
# Terminating the objects of a registry

The terminator goes through the table from its end and deletes the objects on the way, with all their
names. Names in front of the position and behind it go away, and what is behind moves down.
-/

namespace Coast.Registry

open Any

variable {ι : Type} [DecidableEq ι]

inductive Call (ι : Type) where
  | finalize (ro : ι)
  | delete (ro : ι)
  deriving DecidableEq

def Call.object : Call ι → ι
  | finalize ro | delete ro => ro

namespace AliasTerminator

structure State (ι : Type) where
  ri : RegistryIterator
  name : Bytes
  calls : List (Call ι)
  table : Table ι

variable (isStatic : ι → Bool)

def visit (n : RegistryIterator.Next ι) (calls : List (Call ι)) : State ι :=
  match n.obj with
  | some ro =>
    if isStatic ro then ⟨n.iterator, n.key, calls ++ [.finalize ro], n.table⟩
    else ⟨n.iterator, n.key, calls ++ [.finalize ro, .delete ro], unregisterRegisterableObject n.key n.table⟩
  | none => ⟨n.iterator, n.key, calls, n.table⟩

def turn (s : State ι) : List (Call ι) × Table ι ⊕ State ι :=
  if s.ri.hasMore then .inr (visit isStatic (s.ri.next s.name s.table) s.calls) else .inl (s.calls, s.table)

def loop : Nat → State ι → List (Call ι) × Table ι
  | 0, s => (s.calls, s.table)
  | fuel + 1, s => (turn isStatic s).elim id (loop fuel)

def doTerminate (table : Table ι) : List (Call ι) × Table ι :=
  loop isStatic (table.getSize + 1) ⟨RegistryIterator.make false table, [], [], table⟩

/-! ### Turns -/

def at' (fStart : Int) (name : Bytes) (calls : List (Call ι)) (entries : List (Entry ι)) : State ι :=
  ⟨backwards fStart, name, calls, tableOf entries⟩

section Turns

variable {isStatic}

theorem turn_falls (s s' : State ι) (inv : ∃ fStart, s.ri = backwards fStart) (next : turn isStatic s = .inr s') :
    (∃ fStart, s'.ri = backwards fStart) ∧ (s'.ri.fStart + 1).toNat < (s.ri.fStart + 1).toNat := by
  obtain ⟨ri, name, calls, table⟩ := s
  obtain ⟨fStart, rfl⟩ : ∃ fStart, ri = backwards fStart := inv
  have iterator : ∀ (n : RegistryIterator.Next ι) (calls : List (Call ι)), (visit isStatic n calls).ri = n.iterator := by
    intro n calls
    rw [visit]
    split
    · split <;> rfl
    · rfl
  rw [turn, hasMore_backwards] at next
  split at next
  · rename_i more
    have more := of_decide_eq_true more
    obtain ⟨lower, less, is⟩ := next_lower name table more
    obtain rfl := Sum.inr.inj next
    rw [iterator]
    dsimp only
    rw [is]
    exact ⟨⟨lower, rfl⟩, by dsimp only [backwards]; omega⟩
  · cases next

variable {entries : List (Entry ι)} (name : Bytes) (calls : List (Call ι))

theorem turn_inside {i : Nat} {e : Entry ι} (here : entries[i]? = some e) :
    turn isStatic (at' i name calls entries) = .inr (visit isStatic ⟨e.2, e.1.getD [], backwards (i - 1), tableOf entries⟩ calls) := by
  rw [turn, at', hasMore_backwards, if_pos (decide_eq_true (Int.natCast_nonneg i)), next_inside name here]

theorem turn_static {i : Nat} {k : Option Bytes} {o : ι} (here : entries[i]? = some (k, some o)) (static : isStatic o = true) :
    turn isStatic (at' i name calls entries) = .inr (at' (i - 1) (k.getD []) (calls ++ [.finalize o]) entries) := by
  rw [turn_inside name calls here, visit]
  dsimp only
  rw [if_pos static]
  rfl

theorem turn_harmless {i : Nat} {e : Entry ι} (here : entries[i]? = some e) (harmless : ∀ o, e.2 = some o → isStatic o = true) :
    ∃ name' more, turn isStatic (at' i name calls entries) = .inr (at' (i - 1) name' (calls ++ more) entries) ∧
      ∀ c ∈ more, ∃ o, c = .finalize o ∧ e.2 = some o := by
  obtain ⟨n, obj⟩ := e
  cases obj with
  | none =>
    refine ⟨n.getD [], [], ?_, nofun⟩
    rw [turn_inside name calls here, visit, List.append_nil]
    rfl
  | some o => exact ⟨n.getD [], [.finalize o], turn_static name calls here (harmless o rfl), fun c mem => ⟨o, List.mem_singleton.mp mem, rfl⟩⟩

theorem turn_object {i : Nat} {k : Bytes} {o : ι} (distinct : Distinct entries) (here : entries[i]? = some (some k, some o))
    (mortal : isStatic o = false) :
    turn isStatic (at' i name calls entries) = .inr (at' (i - 1) k (calls ++ [.finalize o, .delete o]) (others o entries)) := by
  rw [turn_inside name calls here, visit]
  dsimp only
  rw [if_neg (by rw [mortal]; exact Bool.false_ne_true), Option.getD_some, unregister_tableOf distinct (List.mem_of_getElem? here)]
  rfl

theorem passes (front : List (Entry ι)) {back : List (Entry ι)} (harmless : ∀ e ∈ back, ∀ o, e.2 = some o → isStatic o = true) {j : Nat}
    (inside : j ≤ back.length) (name : Bytes) (calls : List (Call ι)) : ∃ name' more,
      Loops.loop (turn isStatic) (at' (front.length + j - 1) name calls (front ++ back)) =
        Loops.loop (turn isStatic) (at' (front.length - 1) name' (calls ++ more) (front ++ back)) ∧
      ∀ c ∈ more, ∃ o, c = .finalize o ∧ some o ∈ back.map Prod.snd := by
  induction j generalizing name calls with
  | zero => exact ⟨name, [], by rw [List.append_nil, Int.natCast_zero, add_zero], nofun⟩
  | succ j ih =>
    have here : (front ++ back)[front.length + j]? = some back[j] := by
      rw [List.getElem?_append_right (by omega), Nat.add_sub_cancel_left, List.getElem?_eq_getElem]
    have mem : back[j] ∈ back := List.getElem_mem _
    have start : (front.length + (j + 1 : Nat) - 1 : Int) = (front.length + j : Nat) := by omega
    obtain ⟨name₁, more₁, next, finalized₁⟩ := turn_harmless name calls here (harmless _ mem)
    obtain ⟨name', more, rest, finalized⟩ := ih (by omega) name₁ (calls ++ more₁)
    refine ⟨name', more₁ ++ more, ?_, fun c inMore => ?_⟩
    · rw [start, Loops.loop_goes_on next, Int.natCast_add, rest, List.append_assoc]
    · obtain inMore | inMore := List.mem_append.mp inMore
      · obtain ⟨o, is, own⟩ := finalized₁ c inMore
        exact ⟨o, is, List.mem_map.mpr ⟨_, mem, own⟩⟩
      · exact finalized c inMore

theorem comes_down (front : List (Entry ι)) {back : List (Entry ι)} (harmless : ∀ e ∈ back, ∀ o, e.2 = some o → isStatic o = true) (j : Nat)
    (name : Bytes) (calls : List (Call ι)) : ∃ name' more,
      Loops.loop (turn isStatic) (at' (front.length + j - 1) name calls (front ++ back)) =
        Loops.loop (turn isStatic) (at' (front.length - 1) name' (calls ++ more)
          (front ++ (back ++ if j = back.length + 1 then [(none, none)] else []))) ∧
      ∀ c ∈ more, ∃ o, c = .finalize o ∧ some o ∈ back.map Prod.snd := by
  obtain inside | rfl | beyond : j ≤ back.length ∨ j = back.length + 1 ∨ back.length + 1 < j := by omega
  · rw [if_neg (by omega), List.append_nil]
    exact passes front harmless inside name calls
  · have start : (front.length + (back.length + 1 : Nat) - 1 : Int) = (front ++ back).length := by
      rw [List.length_append]
      omega
    have next : turn isStatic (at' (front ++ back).length name calls (front ++ back)) =
        .inr (at' ((front ++ back).length - 1) [] calls (front ++ back ++ [(none, none)])) := by
      rw [turn, at', hasMore_backwards, if_pos (decide_eq_true (Int.natCast_nonneg _)), next_length]
      rfl
    have harmless' : ∀ e ∈ back ++ [(none, none)], ∀ o, e.2 = some o → isStatic o = true := by
      intro e mem o own
      obtain mem | mem := List.mem_append.mp mem
      · exact harmless e mem o own
      · rw [List.mem_singleton.mp mem] at own
        cases own
    obtain ⟨name', more, rest, finalized⟩ := passes front harmless' (j := back.length) (by simp) [] calls
    refine ⟨name', more, ?_, fun c mem => ?_⟩
    · rw [if_pos rfl, start, Loops.loop_goes_on next, List.append_assoc, ← rest, List.length_append, Int.natCast_add]
    · obtain ⟨o, is, own⟩ := finalized c mem
      refine ⟨o, is, ?_⟩
      simpa using own
  · rw [if_neg (by omega), List.append_nil]
    have far : (front.length + j - 1 : Int) > (front ++ back).length := by
      rw [List.length_append]
      omega
    have same := next_beyond name far
    by_cases empty : front ++ back = []
    · obtain ⟨rfl, rfl⟩ := List.append_eq_nil_iff.mp empty
      refine ⟨name, [], ?_, nofun⟩
      have next : turn isStatic (at' (([] : List (Entry ι)).length + j - 1) name calls ([] ++ [])) = .inr (at' (-1) name calls ([] ++ [])) := by
        rw [turn, at', hasMore_backwards, if_pos (decide_eq_true (by omega)), same, next_negative name _ (by simp)]
        rfl
      rw [Loops.loop_goes_on next, List.append_nil calls]
      rfl
    · have some : 0 < (front ++ back).length := List.length_pos_of_ne_nil empty
      have eq : turn isStatic (at' (front.length + j - 1) name calls (front ++ back)) =
          turn isStatic (at' (front.length + back.length - 1) name calls (front ++ back)) := by
        have last : (front.length + back.length - 1 : Int) = (front ++ back).length - 1 := by
          rw [List.length_append]
          omega
        rw [turn, turn, at', at', hasMore_backwards, hasMore_backwards, last, if_pos (decide_eq_true (by omega)), if_pos (decide_eq_true (by omega)), same]
      rw [Loops.loop_congr eq]
      exact passes front harmless (Nat.le_refl _) name calls

end Turns

/-! ### Which objects have as many names as the loop needs to come to the end of the table -/

def behind (o : ι) (objects : List ι) : Nat := (objects.rtakeWhile fun x => x ≠ o).countP isStatic

/-- The loop does not come to the end of the table when `passed` more entries are behind these. -/
def ClearFrom (passed : Nat) (objects : List ι) : Prop :=
  ∀ o ∈ objects, isStatic o = false → objects.count o ≠ behind isStatic o objects + passed + 2

section Clear

variable {isStatic} {objects : List ι} {x o : ι} {passed : Nat}

theorem behind_self : behind isStatic o (objects ++ [o]) = 0 := by
  rw [behind, List.rtakeWhile_concat_neg _ _ _ (by simp)]
  rfl

theorem behind_other (other : x ≠ o) : behind isStatic o (objects ++ [x]) = behind isStatic o objects + (isStatic x).toNat := by
  rw [behind, List.rtakeWhile_concat_pos _ _ _ (by simpa using other), List.countP_append, behind, List.countP_singleton]
  cases isStatic x <;> rfl

theorem behind_filter (mortal : isStatic x = false) (other : o ≠ x) :
    behind isStatic o (objects.filter fun y => y ≠ x) = behind isStatic o objects := by
  induction objects using List.reverseRecOn with
  | nil => rfl
  | append_singleton objects y ih =>
    rw [List.filter_append]
    by_cases gone : y = x
    · subst gone
      have lost : [y].filter (fun z => z ≠ y) = [] := by simp
      rw [lost, List.append_nil, ih, behind_other (Ne.symm other), mortal]
      rfl
    · have kept : [y].filter (fun z => z ≠ x) = [y] := by simp [gone]
      rw [kept]
      by_cases last : y = o
      · subst last
        rw [behind_self, behind_self]
      · rw [behind_other last, behind_other last, ih]

theorem clearFrom_static (static : isStatic x = true) :
    ClearFrom isStatic passed (objects ++ [x]) ↔ ClearFrom isStatic (passed + 1) objects := by
  have apart : ∀ o, isStatic o = false → x ≠ o := by
    rintro o mortal rfl
    rw [static] at mortal
    cases mortal
  have same : ∀ o, isStatic o = false → (objects ++ [x]).count o = objects.count o ∧
      behind isStatic o (objects ++ [x]) + passed + 2 = behind isStatic o objects + (passed + 1) + 2 := by
    intro o mortal
    rw [List.count_append, List.count_singleton, if_neg (by simpa using apart o mortal), behind_other (apart o mortal), static, Bool.toNat_true]
    omega
  constructor
  · intro clear o mem mortal
    obtain ⟨count, sum⟩ := same o mortal
    rw [← count, ← sum]
    exact clear o (List.mem_append_left _ mem) mortal
  · intro clear o mem mortal
    obtain ⟨count, sum⟩ := same o mortal
    rw [count, sum]
    obtain mem | mem := List.mem_append.mp mem
    · exact clear o mem mortal
    · exact absurd (List.mem_singleton.mp mem).symm (apart o mortal)

theorem clearFrom_mortal (mortal : isStatic x = false) : ClearFrom isStatic passed (objects ++ [x]) ↔
    objects.count x ≠ passed + 1 ∧ ClearFrom isStatic passed (objects.filter fun y => y ≠ x) := by
  have same : ∀ o, o ≠ x → (objects ++ [x]).count o = (objects.filter fun y => y ≠ x).count o ∧
      behind isStatic o (objects ++ [x]) = behind isStatic o (objects.filter fun y => y ≠ x) := by
    intro o other
    constructor
    · rw [List.count_append, List.count_singleton, if_neg (by simpa using Ne.symm other), List.count_filter (by simpa using other)]
      rfl
    · rw [behind_other (Ne.symm other), mortal, behind_filter mortal other]
      rfl
  constructor
  · intro clear
    have last := clear x (List.mem_append_right _ List.mem_cons_self) mortal
    rw [List.count_append, List.count_singleton_self, behind_self] at last
    refine ⟨by omega, fun o mem mortal' => ?_⟩
    obtain ⟨inside, other⟩ := List.mem_filter.mp mem
    have other : o ≠ x := by simpa using other
    obtain ⟨count, place⟩ := same o other
    rw [← count, ← place]
    exact clear o (List.mem_append_left _ inside) mortal'
  · rintro ⟨last, clear⟩ o mem mortal'
    by_cases own : o = x
    · subst own
      rw [List.count_append, List.count_singleton_self, behind_self]
      omega
    · obtain ⟨count, place⟩ := same o own
      rw [count, place]
      refine clear o (List.mem_filter.mpr ⟨?_, by simpa using own⟩) mortal'
      obtain mem | mem := List.mem_append.mp mem
      · exact mem
      · exact absurd (List.mem_singleton.mp mem) own

end Clear

/-! ### The calls -/

def Untouched (calls : List (Call ι)) : Prop := calls.Pairwise fun c d => ∀ o, c = .delete o → d.object ≠ o

structure Logs (objects passed : List ι) (calls : List (Call ι)) : Prop where
  finalized : ∀ o ∈ objects, .finalize o ∈ calls
  deleted : ∀ o, calls.count (.delete o) = if o ∈ objects ∧ isStatic o = false then 1 else 0
  object : ∀ c ∈ calls, c.object ∈ objects ++ passed
  untouched : Untouched calls

section Logs

variable {isStatic} {objects passed : List ι} {x : ι} {calls more : List (Call ι)}

theorem logs_nil : Logs isStatic [] passed [] := ⟨nofun, fun _ => rfl, nofun, List.Pairwise.nil⟩

theorem Logs.static (static : isStatic x = true) (logs : Logs isStatic objects (x :: passed) calls) :
    Logs isStatic (objects ++ [x]) passed (.finalize x :: calls) := by
  obtain ⟨finalized, deleted, object, untouched⟩ := logs
  refine ⟨fun o mem => ?_, fun o => ?_, fun c mem => ?_, ?_⟩
  · obtain mem | mem := List.mem_append.mp mem
    · exact List.mem_cons_of_mem _ (finalized o mem)
    · rw [List.mem_singleton.mp mem]
      exact List.mem_cons_self
  · have same : o ∈ objects ++ [x] ∧ isStatic o = false ↔ o ∈ objects ∧ isStatic o = false := by
      refine and_congr_left fun mortal => ⟨fun mem => ?_, List.mem_append_left _⟩
      obtain mem | mem := List.mem_append.mp mem
      · exact mem
      · rw [List.mem_singleton.mp mem, static] at mortal
        cases mortal
    rw [List.count_cons_of_ne (by simp), deleted]
    simp only [same]
  · rw [List.append_assoc, List.singleton_append]
    obtain rfl | mem := List.mem_cons.mp mem
    · exact List.mem_append_right _ List.mem_cons_self
    · exact object c mem
  · exact List.pairwise_cons.mpr ⟨fun d _ o same => (by cases same), untouched⟩

theorem Logs.mortal (mortal : isStatic x = false) (static : ∀ o ∈ passed, isStatic o = true) (again : ∀ c ∈ more, ∃ o ∈ passed, c = .finalize o)
    (logs : Logs isStatic (objects.filter fun y => y ≠ x) passed calls) :
    Logs isStatic (objects ++ [x]) passed (.finalize x :: .delete x :: (more ++ calls)) := by
  obtain ⟨finalized, deleted, object, untouched⟩ := logs
  have gone : ∀ c ∈ more ++ calls, c.object ≠ x := by
    rintro c mem rfl
    obtain mem | mem := List.mem_append.mp mem
    · obtain ⟨o, inside, rfl⟩ := again c mem
      rw [Call.object, static o inside] at mortal
      cases mortal
    · obtain inside | inside := List.mem_append.mp (object c mem)
      · have other := (List.mem_filter.mp inside).2
        rw [decide_eq_true_eq] at other
        exact other rfl
      · rw [static _ inside] at mortal
        cases mortal
  have passing : ∀ o, more.count (.delete o) = 0 := by
    intro o
    rw [List.count_eq_zero]
    intro mem
    obtain ⟨_, _, same⟩ := again _ mem
    cases same
  refine ⟨fun o mem => ?_, fun o => ?_, fun c mem => ?_, ?_⟩
  · by_cases own : o = x
    · rw [own]
      exact List.mem_cons_self
    · have inside : o ∈ objects := by
        obtain mem | mem := List.mem_append.mp mem
        · exact mem
        · exact absurd (List.mem_singleton.mp mem) own
      refine List.mem_cons_of_mem _ (List.mem_cons_of_mem _ (List.mem_append_right _ (finalized o ?_)))
      exact List.mem_filter.mpr ⟨inside, by simpa using own⟩
  · rw [List.count_cons_of_ne (by simp)]
    by_cases own : o = x
    · subst own
      have none : (more ++ calls).count (.delete o) = 0 := List.count_eq_zero.mpr fun mem => gone _ mem rfl
      rw [List.count_cons_self, none, if_pos ⟨List.mem_append_right _ List.mem_cons_self, mortal⟩]
    · have same : o ∈ objects.filter (fun y => y ≠ x) ↔ o ∈ objects ++ [x] := by simp [own]
      rw [List.count_cons_of_ne (fun eq => own (Call.delete.inj eq).symm), List.count_append, passing, Nat.zero_add, deleted]
      simp only [same]
  · have here : x ∈ objects ++ [x] ++ passed := List.mem_append_left _ (List.mem_append_right _ List.mem_cons_self)
    obtain rfl | mem := List.mem_cons.mp mem
    · exact here
    obtain rfl | mem := List.mem_cons.mp mem
    · exact here
    obtain mem | mem := List.mem_append.mp mem
    · obtain ⟨o, inside, rfl⟩ := again c mem
      exact List.mem_append_right _ inside
    · obtain inside | inside := List.mem_append.mp (object c mem)
      · exact List.mem_append_left _ (List.mem_append_left _ (List.mem_filter.mp inside).1)
      · exact List.mem_append_right _ inside
  · refine List.pairwise_cons.mpr ⟨fun d _ o same => (by cases same), List.pairwise_cons.mpr ⟨fun d mem o same => ?_, ?_⟩⟩
    · obtain rfl := Call.delete.inj same
      exact gone d mem
    · refine List.pairwise_append.mpr ⟨?_, untouched, fun c mem d _ o same => ?_⟩
      · refine List.pairwise_of_forall_mem_list fun c mem d _ o same => ?_
        obtain ⟨_, _, rfl⟩ := again c mem
        cases same
      · obtain ⟨_, _, rfl⟩ := again c mem
        cases same

end Logs

/-! ### The whole run -/

section Run

variable {isStatic}

def Comes (isStatic : ι → Bool) (entries passed : List (Option Bytes × ι)) (k : Nat) : Prop :=
  ∀ name calls, ∃ more k', (calls ++ more, tableOf (real (entries.filter (fun e => isStatic e.2) ++ passed) ++ nulls k')) ∈
      Loops.loop (turn isStatic) (at' (entries.length - 1) name calls (real (entries ++ passed) ++ nulls k)) ∧
    k ≤ k' ∧ (k = 0 → (k' = 0 ↔ ClearFrom isStatic passed.length (entries.map Prod.snd))) ∧
    Logs isStatic (entries.map Prod.snd) (passed.map Prod.snd) more

theorem comes_nil (passed : List (Option Bytes × ι)) (k : Nat) : Comes isStatic [] passed k := by
  intro name calls
  refine ⟨[], k, ?_, Nat.le_refl k, fun none => iff_of_true none nofun, logs_nil⟩
  rw [List.append_nil]
  exact Loops.mem_loop_of_ends rfl

section Last

variable {front passed : List (Option Bytes × ι)} {o : ι} {k : Nat}

omit [DecidableEq ι] in
theorem place_last (e : Option Bytes × ι) : ((front ++ [e]).length : Int) - 1 = front.length := by
  rw [List.length_append, List.length_singleton]
  omega

omit [DecidableEq ι] in
theorem getElem?_last (own : Option Bytes) :
    (real (front ++ [(own, o)] ++ passed) ++ nulls k)[front.length]? = some (own, some o) := by simp [real]

theorem Comes.static {own : Option Bytes} (static : isStatic o = true) (comes : Comes isStatic front ((own, o) :: passed) k) :
    Comes isStatic (front ++ [(own, o)]) passed k := by
  intro name calls
  have moved : front ++ [(own, o)] ++ passed = front ++ (own, o) :: passed := by rw [List.append_assoc, List.singleton_append]
  have left : (front ++ [(own, o)]).filter (fun e => isStatic e.2) ++ passed = front.filter (fun e => isStatic e.2) ++ (own, o) :: passed := by
    rw [List.filter_append, List.filter_cons_of_pos (by exact static), List.filter_nil, List.append_assoc, List.singleton_append]
  obtain ⟨more, k', done, le, clear, logs⟩ := comes (own.getD []) (calls ++ [.finalize o])
  rw [place_last, Loops.loop_goes_on (turn_static name calls (getElem?_last own) static), left, moved, List.map_append]
  refine ⟨.finalize o :: more, k', ?_, le, fun none => ?_, logs.static static⟩
  · rw [List.append_assoc] at done
    exact done
  · rw [List.map_singleton, clearFrom_static static]
    exact clear none

theorem length_filter_add_count (o : ι) (front : List (Option Bytes × ι)) :
    (front.filter fun e => e.2 ≠ o).length + (front.map Prod.snd).count o = front.length := by
  induction front with
  | nil => rfl
  | cons e front ih =>
    by_cases own : e.2 = o
    · rw [List.filter_cons_of_neg (by simpa using own), List.map_cons, own, List.count_cons_self, List.length_cons]
      omega
    · rw [List.filter_cons_of_pos (by simpa using own), List.map_cons, List.count_cons_of_ne own, List.length_cons, List.length_cons]
      omega

theorem Comes.mortal {key : Bytes} (mortal : isStatic o = false) (static : ∀ e ∈ passed, isStatic e.2 = true)
    (named : ∀ e ∈ front, isStatic e.2 = false → e.1 ≠ none) (distinct : Distinct (real (front ++ [(some key, o)] ++ passed)))
    (comes : ∀ k, Comes isStatic (front.filter fun e => e.2 ≠ o) passed k) : Comes isStatic (front ++ [(some key, o)]) passed k := by
  intro name calls
  have apart : ∀ e ∈ passed, e.2 ≠ o := by
    rintro e mem rfl
    rw [static e mem] at mortal
    cases mortal
  have single : ([(some key, o)] : List (Option Bytes × ι)).filter (fun e => e.2 ≠ o) = [] := by simp
  have all : (front ++ [(some key, o)] ++ passed).filter (fun e => e.2 ≠ o) = front.filter (fun e => e.2 ≠ o) ++ passed := by
    have whole : passed.filter (fun e => e.2 ≠ o) = passed := List.filter_eq_self.mpr fun e mem => by simpa using apart e mem
    rw [List.filter_append, List.filter_append, single, List.append_nil, whole]
  have own : ∀ e ∈ front ++ [(some key, o)] ++ passed, e.2 = o → e.1 ≠ none := by
    rintro e mem rfl
    obtain mem | mem := List.mem_append.mp mem
    · obtain mem | mem := List.mem_append.mp mem
      · exact named e mem mortal
      · rw [List.mem_singleton.mp mem]
        exact Option.some_ne_none key
    · exact absurd rfl (apart e mem)
  have removed : others o (real (front ++ [(some key, o)] ++ passed) ++ nulls k) =
      real (front.filter fun e => e.2 ≠ o) ++ (real passed ++ nulls k) := by
    rw [others_append, others_nulls, others_real own, all, real_append, List.append_assoc]
  have harmless : ∀ e ∈ real passed ++ nulls k, ∀ o, e.2 = some o → isStatic o = true := by
    intro e mem o is
    obtain mem | mem := List.mem_append.mp mem
    · obtain ⟨e', inside, rfl⟩ := List.mem_map.mp mem
      obtain rfl := Option.some.inj is
      exact static e' inside
    · rw [eq_null mem] at is
      cases is
  have left : (front ++ [(some key, o)]).filter (fun e => isStatic e.2) = (front.filter fun e => e.2 ≠ o).filter fun e => isStatic e.2 := by
    rw [List.filter_append, List.filter_cons_of_neg (by rw [mortal]; exact Bool.false_ne_true), List.filter_nil, List.append_nil, List.filter_filter]
    refine List.filter_congr fun e _ => ?_
    by_cases same : e.2 = o
    · simp [same, mortal]
    · simp [same]
  have objects : (front.filter fun e => e.2 ≠ o).map Prod.snd = (front.map Prod.snd).filter fun y => y ≠ o := by
    rw [List.filter_map]
    rfl
  have count := length_filter_add_count o front
  have place : ((front.filter fun e => e.2 ≠ o).length + (front.map Prod.snd).count o - 1 : Int) = front.length - 1 := by omega
  obtain ⟨name₁, more₁, down, again⟩ := comes_down (real (front.filter fun e => e.2 ≠ o)) harmless ((front.map Prod.snd).count o)
    key (calls ++ [.finalize o, .delete o])
  -- one past the end there is one null entry more
  let k₁ := if (front.map Prod.snd).count o = passed.length + k + 1 then k + 1 else k
  have size : (real passed ++ nulls k).length = passed.length + k := by rw [List.length_append, length_real, length_nulls]
  have made : real (front.filter fun e => e.2 ≠ o) ++ (real passed ++ nulls k ++
      if (front.map Prod.snd).count o = (real passed ++ nulls k).length + 1 then [(none, none)] else []) =
        real (front.filter (fun e => e.2 ≠ o) ++ passed) ++ nulls k₁ := by
    rw [size, real_append, List.append_assoc, List.append_assoc]
    refine congrArg (_ ++ ·) (congrArg (_ ++ ·) ?_)
    dsimp only [k₁]
    split
    · exact (nulls_succ k).symm
    · exact List.append_nil _
  obtain ⟨more, k', done, le, clear, logs⟩ := comes k₁ name₁ (calls ++ [.finalize o, .delete o] ++ more₁)
  have next := turn_object name calls (distinct.nulls k) (getElem?_last (some key)) mortal
  rw [length_real, place, made] at down
  rw [objects] at clear logs
  rw [place_last, Loops.loop_goes_on next, left, List.map_append, removed, down]
  refine ⟨.finalize o :: .delete o :: (more₁ ++ more), k', ?_, ?_, fun none => ?_, logs.mortal mortal ?_ ?_⟩
  · have appended : calls ++ [.finalize o, .delete o] ++ more₁ ++ more = calls ++ .finalize o :: .delete o :: (more₁ ++ more) := by simp
    rwa [appended] at done
  · refine Nat.le_trans ?_ le
    dsimp only [k₁]
    split <;> omega
  · subst none
    rw [List.map_singleton, clearFrom_mortal mortal]
    by_cases ends : (front.map Prod.snd).count o = passed.length + 1
    · have one : k₁ = 1 := if_pos ends
      exact iff_of_false (by omega) fun both => both.1 ends
    · rw [and_iff_right ends]
      exact clear (if_neg ends)
  · rintro _ mem
    obtain ⟨e, inside, rfl⟩ := List.mem_map.mp mem
    exact static e inside
  · intro c mem
    obtain ⟨o', is, inside⟩ := again c mem
    refine ⟨o', ?_, is⟩
    obtain ⟨e, within, same⟩ := List.mem_map.mp inside
    obtain within | within := List.mem_append.mp within
    · obtain ⟨e', inside', rfl⟩ := List.mem_map.mp within
      obtain rfl := Option.some.inj same
      exact List.mem_map_of_mem inside'
    · rw [eq_null within] at same
      cases same

end Last

/-- The induction is on the entries that the loop has not come to; an object that is deleted takes others than the last away. -/
theorem comes {entries passed : List (Option Bytes × ι)} (static : ∀ e ∈ passed, isStatic e.2 = true)
    (named : ∀ e ∈ entries, isStatic e.2 = false → e.1 ≠ none) (distinct : Distinct (real (entries ++ passed))) (k : Nat) :
    Comes isStatic entries passed k := by
  induction size : entries.length using Nat.strongRecOn generalizing entries passed k with
  | _ n ih =>
    induction entries using List.reverseRecOn with
    | nil => exact comes_nil passed k
    | append_singleton front e _ =>
      obtain ⟨own, o⟩ := e
      rw [List.length_append, List.length_singleton] at size
      have earlier : ∀ e ∈ front, isStatic e.2 = false → e.1 ≠ none := fun e mem => named e (List.mem_append_left _ mem)
      by_cases isStatic' : isStatic o = true
      · rw [List.append_assoc, List.singleton_append] at distinct
        exact .static isStatic' (ih front.length (by omega) (List.forall_mem_cons.mpr ⟨isStatic', static⟩) earlier distinct k rfl)
      · have mortal : isStatic o = false := Bool.eq_false_iff.mpr isStatic'
        obtain ⟨key, rfl⟩ := Option.ne_none_iff_exists'.mp (named (own, o) (List.mem_append_right _ List.mem_cons_self) mortal)
        refine .mortal mortal static earlier distinct fun k => ih _ ?_ static (fun e mem => earlier e (List.mem_filter.mp mem).1) ?_ k rfl
        · have fewer := List.length_filter_le (fun e : Option Bytes × ι => decide (e.2 ≠ o)) front
          omega
        · refine distinct.sublist ?_
          exact (((List.filter_sublist).trans (List.sublist_append_left front _)).append_right passed).map _

end Run

/-! ### Entries without a name stay -/

def Holds (o : ι) (table : Table ι) : Prop := ∃ slots, table = array () slots ∧ (none, simple o) ∈ slots

section Holds

variable {isStatic} {o : ι} {table : Table ι}

omit [DecidableEq ι] in
theorem Holds.removeName (holds : Holds o table) (k : Bytes) : Holds o (table.removeName k) := by
  obtain ⟨slots, rfl, mem⟩ := holds
  by_cases unnamed : k = []
  · rw [unnamed, removeName_nil]
    exact ⟨slots, rfl, mem⟩
  · rw [removeName_array unnamed]
    exact ⟨_, rfl, (List.mem_eraseP_of_neg (by simp)).mpr mem⟩

omit [DecidableEq ι] in
theorem Holds.next (holds : Holds o table) (key : Bytes) (ri : RegistryIterator) : Holds o (ri.next key table).table := by
  rw [RegistryIterator.next]
  split
  · obtain ⟨slots, rfl, mem⟩ := holds
    dsimp only
    rw [atIndex_array]
    exact ⟨_, rfl, List.mem_append_left _ mem⟩
  · exact holds

theorem Holds.aliasLoop (obj : ι) (fuel : Nat) (ri : RegistryIterator) (holds : Holds o table) : Holds o (aliasLoop obj fuel (ri, table)) := by
  induction fuel generalizing ri table with
  | zero => exact holds
  | succ fuel ih =>
    rw [Registry.aliasLoop, aliasTurn]
    split
    · refine ih _ ?_
      dsimp only
      split
      · exact (holds.next [] ri).removeName _
      · exact holds.next [] ri
    · exact holds

theorem Holds.unregister (holds : Holds o table) (name : Bytes) : Holds o (unregisterRegisterableObject name table) := by
  rw [unregisterRegisterableObject]
  split
  · exact (holds.removeName name).aliasLoop _ _ _
  · exact holds

theorem Holds.visit {n : RegistryIterator.Next ι} (holds : Holds o n.table) (calls : List (Call ι)) : Holds o (visit isStatic n calls).table := by
  rw [AliasTerminator.visit]
  split
  · split
    · exact holds
    · exact holds.unregister n.key
  · exact holds

theorem Holds.loop (fuel : Nat) (s : State ι) (holds : Holds o s.table) : Holds o (loop isStatic fuel s).2 := by
  induction fuel generalizing s with
  | zero => exact holds
  | succ fuel ih =>
    rw [AliasTerminator.loop, turn]
    split
    · exact ih _ ((holds.next s.name s.ri).visit s.calls)
    · exact holds

end Holds

/-! ### Terminating -/

/-- Every object is finalized, and each that is not static is deleted once and left alone then. -/
structure Terminated (objects : List ι) (calls : List (Call ι)) : Prop where
  finalized : ∀ o ∈ objects, .finalize o ∈ calls
  deleted : ∀ o ∈ objects, calls.count (.delete o) = if isStatic o then 0 else 1
  untouched : Untouched calls

/-- Objects that are deleted have names, and none of them has two names more than there are entries of static objects
behind the last of its names. -/
structure Clear (r : Registered ι) : Prop where
  named : ∀ e ∈ r.entries, isStatic e.2 = false → e.1 ≠ none
  count : ∀ o ∈ r.objects, isStatic o = false → r.objects.count o ≠ behind isStatic o r.objects + 2

def statics (r : Registered ι) : Registered ι := ⟨r.entries.filter fun e => isStatic e.2, r.distinct.sublist (List.filter_sublist.map _)⟩

section Terminate

variable {isStatic} {r : Registered ι}

theorem doTerminate_loop (r : Registered ι) :
    doTerminate isStatic r.table ∈ Loops.loop (turn isStatic) (at' (r.entries.length - 1) [] [] (real r.entries)) := by
  have start : RegistryIterator.make false r.table = backwards (r.entries.length - 1) := by
    rw [Registered.table, make_backwards, length_real]
  rw [doTerminate, start]
  refine @Loops.mem_loop_of_fuel_within _ _ _ (fun s => (s.ri.fStart + 1).toNat) _ _ (fun _ _ => rfl) turn_falls _ _ ⟨_, rfl⟩ ?_
  rw [Registered.table, getSize_tableOf, length_real]
  show (r.entries.length - 1 + 1 : Int).toNat < r.entries.length + 1
  omega

/-- Objects with names are terminated, and the static ones are left, with null entries behind them if some object has as many names
as it needs. -/
theorem doTerminate_named (named : ∀ e ∈ r.entries, isStatic e.2 = false → e.1 ≠ none) :
    Terminated isStatic r.objects (doTerminate isStatic r.table).1 ∧ ∃ k, (doTerminate isStatic r.table).2 =
      tableOf (real (statics isStatic r).entries ++ nulls k) ∧
      (k = 0 ↔ ∀ o ∈ r.objects, isStatic o = false → r.objects.count o ≠ behind isStatic o r.objects + 2) := by
  have distinct : Distinct (real (r.entries ++ [])) := by
    rw [List.append_nil]
    exact r.distinct
  obtain ⟨more, k, done, -, clear, logs⟩ := comes (nofun : ∀ e ∈ ([] : List (Option Bytes × ι)), isStatic e.2 = true) named distinct 0 [] []
  rw [List.append_nil, List.append_nil, List.nil_append] at done
  have is := Part.mem_unique (doTerminate_loop r) (by simpa [nulls] using done)
  rw [is]
  refine ⟨⟨logs.finalized, fun o mem => ?_, logs.untouched⟩, k, rfl, clear rfl⟩
  have inside : o ∈ r.entries.map Prod.snd := mem
  rw [logs.deleted]
  simp only [inside, true_and]
  cases isStatic o <;> rfl

end Terminate

/-- Termination does what it should exactly if the loop does not come to the end of the table and every object to be deleted has names. -/
theorem doTerminate_iff (r : Registered ι) :
    Terminated isStatic r.objects (doTerminate isStatic r.table).1 ∧ (doTerminate isStatic r.table).2 = (statics isStatic r).table ↔
      Clear isStatic r := by
  constructor
  · rintro ⟨-, left⟩
    have named : ∀ e ∈ r.entries, isStatic e.2 = false → e.1 ≠ none := by
      intro e mem mortal unnamed
      have holds : Holds e.2 r.table := ⟨_, rfl, List.mem_map.mpr ⟨(none, some e.2), List.mem_map.mpr ⟨e, mem, by rw [unnamed]⟩, rfl⟩⟩
      have still : Holds e.2 (doTerminate isStatic r.table).2 := holds.loop _ _
      rw [left] at still
      obtain ⟨slots, same, mem⟩ := still
      obtain ⟨-, rfl⟩ := array.inj same
      obtain ⟨entry, inside, is⟩ := List.mem_map.mp mem
      obtain ⟨e', within, rfl⟩ := List.mem_map.mp inside
      have static := (List.mem_filter.mp within).2
      rw [simple.inj (Prod.mk.inj is).2, mortal] at static
      cases static
    obtain ⟨-, k, table, clear⟩ := doTerminate_named named
    refine ⟨named, clear.mp ?_⟩
    have size := congrArg Any.getSize (table.symm.trans left)
    rw [Registered.table, getSize_tableOf, getSize_tableOf, List.length_append, length_nulls] at size
    omega
  · rintro ⟨named, count⟩
    obtain ⟨terminated, k, table, clear⟩ := doTerminate_named named
    refine ⟨terminated, ?_⟩
    rw [table, clear.mpr count]
    exact congrArg tableOf (List.append_nil _)

def twoNames : Registered Nat := ⟨[(some (ascii "One"), 1), (some (ascii "Two"), 1)], by decide, by decide⟩

example : registerRegisterableObject (ascii "Two") 1 (registerRegisterableObject (ascii "One") 1 (array () [])) = twoNames.table := rfl

/-- When the object has been deleted the loop makes an entry. -/
theorem doTerminate_twoNames : doTerminate (fun _ => false) twoNames.table = ([.finalize 1, .delete 1], array () [(none, null)]) ∧
    (doTerminate (fun _ => false) twoNames.table).2 ≠ (statics (fun _ => false) twoNames).table := by
  refine ⟨rfl, fun same => ?_⟩
  have size : (array () [(none, null)] : Table Nat).getSize = 0 := congrArg Any.getSize same
  cases size

end AliasTerminator

end Coast.Registry
