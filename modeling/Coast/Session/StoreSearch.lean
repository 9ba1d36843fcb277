import Coast.Session.ContextStores
import Mathlib.Algebra.Group.Nat.Even

/-!
# Searching a store

`IntGetStore` passes over the entries that are no stores. It counts its index down once more than the search
does, so that the entry directly below an adapter that was found is not looked at.
-/

namespace Coast.Session

namespace ContextStacks

variable {S A O : Type} {key : CText} {c : ContextStacks S A O}

theorem intGetStoreFrom_lt {index : Int} (start : 0 ≤ index) : (c.intGetStoreFrom (some key) index).2 < index := by
  fun_induction intGetStoreFrom (some key) c index with
  | case1 index start found li here ih =>
    have below := c.fStore.findIndex_lt (some key) start
    by_cases more : 0 ≤ c.fStore.findIndex (some key) index - 1
    · have := ih more
      omega
    · rw [intGetStoreFrom, dif_neg more]
      dsimp only
      omega
  | case2 index start found store here => exact c.fStore.findIndex_lt (some key) start
  | case3 index start found here => exact c.fStore.findIndex_lt (some key) start
  | case4 index start found =>
    dsimp only
    omega
  | case5 index negative => omega

theorem intGetStoreFrom_congr {i j : Int} (some_i : 0 ≤ i) (some_j : 0 ≤ j)
    (same : c.fStore.findIndex (some key) i = c.fStore.findIndex (some key) j) :
    c.intGetStoreFrom (some key) i = c.intGetStoreFrom (some key) j := by
  conv_lhs => rw [intGetStoreFrom, dif_pos some_i, same]
  conv_rhs => rw [intGetStoreFrom, dif_pos some_j]

theorem intGetStoreFrom_negative {index : Int} (negative : ¬ 0 ≤ index) : c.intGetStoreFrom (some key) index = (c.fEmpty, index) := by
  rw [intGetStoreFrom, dif_neg negative]

end ContextStacks

namespace Pushed

variable {S A O : Type} {fEmpty : Any S A} {p : Pushed S A O} {key other : CText} {front rest : List (CText × Stored S A O)}
  {entry : Stored S A O}

theorem findIndex_front (whole : p.stores = front ++ rest) :
    (p.toStacks fEmpty).fStore.findIndex (some key) front.length = EntryStack.findBelow (p.stores.map Prod.fst) key front.length := by
  have inside : ¬ ((front.length : Int) < 0 ∨ (((p.toStacks fEmpty).fStore.keys.length : Nat) : Int) < front.length) := by
    simp [toStacks, EntryStack.ofEntries, whole]
  rw [EntryStack.findIndex, if_neg inside]
  rfl

theorem findIndex_here (whole : p.stores = front ++ (key, entry) :: rest) :
    (p.toStacks fEmpty).fStore.findIndex (some key) (front.length + 1 : Nat) = front.length := by
  have more : p.stores = (front ++ [(key, entry)]) ++ rest := by simp [whole]
  have upTo : (p.toStacks fEmpty).fStore.findIndex (some key) ((front ++ [(key, entry)]).length : Nat) = _ := findIndex_front more
  rw [List.length_append, List.length_singleton] at upTo
  rw [upTo, EntryStack.findBelow, if_pos (by simp [whole])]

theorem search_skip (whole : p.stores = front ++ (other, entry) :: rest) (different : other ≠ key) :
    (p.toStacks fEmpty).intGetStoreFrom (some key) (front.length + 1 : Nat) = (p.toStacks fEmpty).intGetStoreFrom (some key) front.length := by
  have more : p.stores = (front ++ [(other, entry)]) ++ rest := by simp [whole]
  have upTo : (p.toStacks fEmpty).fStore.findIndex (some key) ((front ++ [(other, entry)]).length : Nat) = _ :=
    findIndex_front more
  rw [List.length_append, List.length_singleton] at upTo
  refine ContextStacks.intGetStoreFrom_congr (Int.natCast_nonneg _) (Int.natCast_nonneg _) ?_
  rw [upTo, findIndex_front whole, EntryStack.findBelow, if_neg]
  simpa [whole] using different

theorem search_store {store : Any S A} (whole : p.stores = front ++ (key, .any store) :: rest) :
    (p.toStacks fEmpty).intGetStoreFrom (some key) (front.length + 1 : Nat) = (store, (front.length : Int)) := by
  have stored : (p.toStacks fEmpty).fStore.stack[front.length]? = some (.any store) := by
    simp [toStacks, EntryStack.ofEntries, whole]
  rw [ContextStacks.intGetStoreFrom, dif_pos (Int.natCast_nonneg _), findIndex_here whole, if_pos (Int.natCast_nonneg _)]
  simp only [Int.toNat_natCast, stored]

theorem search_object {li : LookupInterface O} (whole : p.stores = front ++ (key, .object li) :: rest) :
    (p.toStacks fEmpty).intGetStoreFrom (some key) (front.length + 1 : Nat) =
      (p.toStacks fEmpty).intGetStoreFrom (some key) (front.length - 1 : Int) := by
  have stored : (p.toStacks fEmpty).fStore.stack[front.length]? = some (.object li) := by
    simp [toStacks, EntryStack.ofEntries, whole]
  rw [ContextStacks.intGetStoreFrom, dif_pos (Int.natCast_nonneg _), findIndex_here whole, if_pos (Int.natCast_nonneg _)]
  simp only [Int.toNat_natCast, stored]

def NoStore (key : CText) (entries : List (CText × Stored S A O)) : Prop := ∀ e ∈ entries, e.1 = key → ∃ li, e.2 = .object li

def covering (key : CText) (above : List (CText × Stored S A O)) : Nat := (above.takeWhile fun e => e.1 = key).length

theorem noStore_append {lower upper : List (CText × Stored S A O)} :
    NoStore key (lower ++ upper) ↔ NoStore key lower ∧ NoStore key upper := by
  simp only [NoStore, List.mem_append, or_imp, forall_and]

theorem noStore_singleton : NoStore key [(other, entry)] ↔ (other = key → ∃ li, entry = .object li) := by
  simp [NoStore]

theorem search_none (whole : p.stores = front ++ rest) (missing : NoStore key front) :
    ((p.toStacks fEmpty).intGetStoreFrom (some key) front.length).1 = fEmpty ∧
      ((p.toStacks fEmpty).intGetStoreFrom (some key) front.length).2 < 0 := by
  induction few : front.length using Nat.strongRecOn generalizing front rest with
  | ind n ih =>
    rcases List.eq_nil_or_concat front with rfl | ⟨lower, ⟨other, entry⟩, rfl⟩
    · subst few
      have nothing : (p.toStacks fEmpty).fStore.findIndex (some key) (([] : List (CText × Stored S A O)).length : Nat) = _ :=
        findIndex_front whole
      rw [List.length_nil, EntryStack.findBelow] at nothing
      rw [List.length_nil, ContextStacks.intGetStoreFrom, dif_pos (Int.natCast_nonneg 0), nothing]
      simp [toStacks]
    · rw [List.concat_eq_append, List.append_assoc, List.singleton_append] at whole
      rw [List.concat_eq_append, noStore_append, noStore_singleton] at missing
      rw [List.concat_eq_append, List.length_append, List.length_singleton] at few
      subst few
      by_cases here : other = key
      · obtain ⟨li, rfl⟩ := missing.2 here
        subst here
        rw [search_object whole]
        rcases List.eq_nil_or_concat lower with rfl | ⟨lowest, next, rfl⟩
        · rw [ContextStacks.intGetStoreFrom_negative (by simp)]
          simp [toStacks]
        · rw [List.concat_eq_append, noStore_append] at missing
          rw [List.concat_eq_append, List.append_assoc] at whole
          have index : ((lowest.concat next).length : Int) - 1 = lowest.length := by simp
          rw [index]
          exact ih lowest.length (by rw [List.length_concat]; omega) whole missing.1.1 rfl
      · rw [search_skip whole here]
        exact ih lower.length (Nat.lt_succ_self _) whole missing.1 rfl

theorem covering_pair (above : List (CText × Stored S A O)) (next : CText × Stored S A O) (entry : Stored S A O) :
    Even (covering key (above ++ [next, (key, entry)])) ↔ Even (covering key above) := by
  rw [covering, covering, List.takeWhile_append]
  split
  · next all =>
    by_cases same : next.1 = key
    · simp [same, all, Nat.even_add]
    · simp [same, all]
  · rfl

theorem covering_other (above : List (CText × Stored S A O)) (different : other ≠ key) :
    covering key (above ++ [(other, entry)]) = covering key above := by
  rw [covering, covering, List.takeWhile_append]
  split
  · next all => simp [different, all]
  · rfl

/-- The search finds the last store under a key unless the adapters directly above it make it miss the place. The induction is
on what is above, from the top. -/
theorem search_latest_iff {below above : List (CText × Stored S A O)} {store : Any S A}
    (whole : p.stores = below ++ (key, .any store) :: (above ++ rest)) (latest : NoStore key above) :
    (p.toStacks fEmpty).intGetStoreFrom (some key) (below.length + above.length + 1 : Nat) = (store, (below.length : Int)) ↔
      Even (covering key above) := by
  induction few : above.length using Nat.strongRecOn generalizing above rest with
  | ind n ih =>
    rcases List.eq_nil_or_concat above with rfl | ⟨lower, ⟨other, entry⟩, rfl⟩
    · subst few
      exact iff_of_true (search_store whole) (by simp [covering])
    · rw [List.concat_eq_append, List.append_assoc, List.singleton_append, ← List.cons_append, ← List.append_assoc] at whole
      rw [List.concat_eq_append, noStore_append, noStore_singleton] at latest
      rw [List.concat_eq_append, List.length_append, List.length_singleton] at few
      subst few
      have size : below.length + (lower.length + 1) + 1 = (below ++ (key, .any store) :: lower).length + 1 := by
        simp [Nat.add_assoc]
      rw [size]
      by_cases here : other = key
      · obtain ⟨li, rfl⟩ := latest.2 here
        subst here
        rw [search_object whole]
        rcases List.eq_nil_or_concat lower with rfl | ⟨lowest, next, rfl⟩
        · have missed : ((below ++ [(other, Stored.any store)]).length : Int) - 1 = below.length := by simp
          rw [missed]
          refine iff_of_false (fun same => ?_) (by simp [covering])
          have under : ((p.toStacks fEmpty).intGetStoreFrom (some other) below.length).2 < below.length :=
            ContextStacks.intGetStoreFrom_lt (Int.natCast_nonneg below.length)
          rw [same] at under
          exact lt_irrefl _ under
        · have index : ((below ++ (other, Stored.any store) :: lowest.concat next).length : Int) - 1 =
              (below.length + lowest.length + 1 : Nat) := by
            simp
            omega
          rw [List.concat_eq_append, noStore_append] at latest
          have entire : p.stores = below ++ (other, .any store) :: (lowest ++ next :: (other, .object li) :: rest) := by
            rw [whole]
            simp
          rw [index, List.concat_eq_append, List.concat_eq_append, List.append_assoc, List.singleton_append, covering_pair]
          exact ih lowest.length (by rw [List.length_concat]; omega) entire latest.1.1 rfl
      · rw [search_skip whole here, List.concat_eq_append, covering_other lower here]
        have index : (below ++ (key, .any store) :: lower).length = below.length + lower.length + 1 := by
          simp
          omega
        have entire : p.stores = below ++ (key, .any store) :: (lower ++ (other, entry) :: rest) := by
          rw [whole]
          simp
        rw [index]
        exact ih lower.length (Nat.lt_succ_self _) entire latest.1 rfl

def Latest (p : Pushed S A O) (key : CText) (below : List (CText × Stored S A O)) (store : Any S A)
    (above : List (CText × Stored S A O)) : Prop :=
  p.stores = below ++ (key, .any store) :: above ∧ NoStore key above

theorem intGetStore_latest_iff {below above : List (CText × Stored S A O)} {store : Any S A} (last : p.Latest key below store above) :
    (p.toStacks fEmpty).intGetStore (some key) = (store, (below.length : Int)) ↔ Even (covering key above) := by
  have size : (p.toStacks fEmpty).fStoreSz = (below.length + above.length + 1 : Nat) := by
    simp [toStacks, last.1]
    omega
  have whole : p.stores = below ++ (key, .any store) :: (above ++ []) := by
    rw [List.append_nil]
    exact last.1
  rw [ContextStacks.intGetStore, size]
  exact search_latest_iff whole last.2

theorem intGetStore_none (missing : NoStore key p.stores) :
    ((p.toStacks fEmpty).intGetStore (some key)).1 = fEmpty ∧ ((p.toStacks fEmpty).intGetStore (some key)).2 < 0 :=
  search_none (List.append_nil _).symm missing

end Pushed

namespace ContextStacks

variable {S A O : Type}

/-- `GetStore` answers with the store that was pushed last under the key, which `IntGetStore` has found at its place. -/
def AnswersLatest (c : ContextStacks S A O) (session role : Any S A) (key : CText) (place : Nat) (store : Any S A) : Prop :=
  c.intGetStore (some key) = (store, (place : Int)) ∧ ∀ result, c.getStore session role (some key) result = (true, store)

/-- After every sequence of calls the store that was pushed last under a key is answered when the entries directly above it
that have the key are even in number, and only then. Without a store only the keys of the session and the role are answered. -/
theorem getStore_latest_iff (mark : A) (fEmpty session role : Any S A) (calls : List (StackCall S A O)) (key : CText) :
    (∀ below store above, (Pushed.run mark calls).Latest key below store above →
      ((run mark fEmpty calls).AnswersLatest session role key below.length store ↔ Even (Pushed.covering key above))) ∧
    (Pushed.NoStore key (Pushed.run mark calls).stores → ∀ result, (run mark fEmpty calls).getStore session role (some key) result =
      if key.val = ascii "Session" then (true, session) else if key.val = ascii "Role" then (true, role) else (false, fEmpty)) := by
  rw [Pushed.run_toStacks]
  constructor
  · intro below store above last
    rw [AnswersLatest, ← Pushed.intGetStore_latest_iff last]
    refine and_iff_left_of_imp fun found result => ?_
    rw [getStore]
    simp [found]
  · intro missing result
    have found : (((Pushed.run mark calls).toStacks fEmpty).intGetStore (some key)).1 = fEmpty ∧ _ :=
      Pushed.intGetStore_none missing
    rw [getStore]
    simp [found.1, Int.not_le.mpr found.2]

def args : CText := ⟨ascii "Args", by simp [ascii]⟩

def covered : List (StackCall Unit Unit Unit) := [.pushStore (some args) (.array () []), .push (some args) (some ⟨true, ()⟩)]

theorem covered_latest : (Pushed.run () covered).Latest args [(tmp, .any (.array () []))] (.array () []) [(args, .object ⟨true, ()⟩)] := by
  refine ⟨rfl, ?_⟩
  simp [Pushed.NoStore]

theorem intGetStore_covered : ((run () .null covered).intGetStore (some args)).2 < 0 := by
  have lowest : Pushed.NoStore args [(tmp, (.any (.array () []) : Stored Unit Unit Unit))] := by
    simp [Pushed.NoStore, args, tmp, ascii]
  have whole : (Pushed.run () covered).stores = [(tmp, .any (.array () []))] ++ [(args, .any (.array () [])), (args, .object ⟨true, ()⟩)] :=
    rfl
  have upper : (Pushed.run () covered).stores =
      [(tmp, .any (.array () [])), (args, .any (.array () []))] ++ (args, .object ⟨true, ()⟩) :: [] := rfl
  have passed : ((Pushed.run () covered).toStacks .null).intGetStoreFrom (some args) _ = _ := Pushed.search_object upper
  rw [Pushed.run_toStacks]
  change (((Pushed.run () covered).toStacks .null).intGetStoreFrom (some args) _).2 < 0
  refine Eq.trans_lt (congrArg Prod.snd passed) ?_
  exact (Pushed.search_none whole lowest).2

/-- `GetStore` fails although the store is on the stack. -/
theorem getStore_covered : (Pushed.run () covered).Latest args [(tmp, .any (.array () []))] (.array () []) [(args, .object ⟨true, ()⟩)] ∧
    ((run () .null covered).getStore .null .null (some args) .null).1 = false := by
  refine ⟨covered_latest, ?_⟩
  have missed := Int.not_le.mpr intGetStore_covered
  have plain : args.val ≠ ascii "Session" ∧ args.val ≠ ascii "Role" := by
    simp [args, ascii]
  rw [getStore]
  simp only [missed, plain.1, plain.2, if_false]

theorem getStore_latest_new :
    ((run () .null [] : ContextStacks Unit Unit Unit).AnswersLatest .null .null tmp 0 (.array () []) ↔ Even 0) ∧
    ∀ result, (run () .null [] : ContextStacks Unit Unit Unit).getStore .null .null (some args) result =
      if args.val = ascii "Session" then (true, .null) else if args.val = ascii "Role" then (true, .null) else (false, .null) := by
  constructor
  · exact (getStore_latest_iff () .null .null .null [] tmp).1 [] (.array () []) [] ⟨rfl, by simp [Pushed.NoStore]⟩
  · exact (getStore_latest_iff () .null .null .null [] args).2 (by simp [Pushed.NoStore, Pushed.run, args, tmp, ascii])

end ContextStacks

end Coast.Session
