import Mathlib.Data.List.Basic

/-!
# Groups of a list

The elements of a list with one key each, grouped by their keys. The groups are in the order in which their keys
occur first, and the elements of a group in that of the list.
-/

namespace Grouping

variable {α κ : Type*} [DecidableEq κ]

def groups (key : α → κ) (xs : List α) : List (κ × List α) :=
  (xs.map key).eraseDups.map fun k => (k, xs.filter fun x => key x = k)

variable {key : α → κ} {xs : List α} {x : α}

@[simp] theorem groups_nil (key : α → κ) : groups key [] = [] := rfl

theorem keys_groups (key : α → κ) (xs : List α) : (groups key xs).map Prod.fst = (xs.map key).eraseDups := by
  rw [groups, List.map_map]
  exact List.map_id _

theorem nodup_eraseDups (ks : List κ) : ks.eraseDups.Nodup := by
  induction size : ks.length using Nat.strongRecOn generalizing ks with
  | ind n ih =>
    cases ks with
    | nil => exact List.nodup_nil
    | cons k ks =>
      have shorter : (ks.filter fun l => !l == k).length < n :=
        Nat.lt_of_le_of_lt (List.length_filter_le _ ks) (by rw [← size]; exact Nat.lt_succ_self _)
      rw [List.eraseDups_cons, List.nodup_cons]
      refine ⟨fun mem => ?_, ih _ shorter _ rfl⟩
      have kept := (List.mem_filter.mp (List.mem_eraseDups.mp mem)).2
      simp at kept

theorem nodup_keys (key : α → κ) (xs : List α) : ((groups key xs).map Prod.fst).Nodup := by
  rw [keys_groups]
  exact nodup_eraseDups _

theorem mem_keys {k : κ} : k ∈ (groups key xs).map Prod.fst ↔ k ∈ xs.map key := by
  rw [keys_groups]
  exact List.mem_eraseDups

theorem group_some {g : κ × List α} (mem : g ∈ groups key xs) : g.2 ≠ [] ∧ ∀ x ∈ g.2, x ∈ xs ∧ key x = g.1 := by
  obtain ⟨k, isKey, rfl⟩ := List.mem_map.mp mem
  obtain ⟨x, here, is⟩ := List.mem_map.mp (List.mem_eraseDups.mp isKey)
  refine ⟨List.ne_nil_of_mem (List.mem_filter.mpr ⟨here, decide_eq_true is⟩), fun y within => ?_⟩
  obtain ⟨there, same⟩ := List.mem_filter.mp within
  exact ⟨there, of_decide_eq_true same⟩

theorem groups_new (fresh : key x ∉ xs.map key) : groups key (xs ++ [x]) = groups key xs ++ [(key x, [x])] := by
  have alone : [key x].removeAll (xs.map key) = [key x] := by
    rw [List.removeAll, List.filter_singleton]
    simp [fresh]
  have none : xs.filter (fun y => key y = key x) = [] := by
    rw [List.filter_eq_nil_iff]
    intro y mem same
    exact fresh (List.mem_map.mpr ⟨y, mem, of_decide_eq_true same⟩)
  rw [groups, groups, List.map_append, List.map_singleton, List.eraseDups_append, alone, List.map_append]
  congr 1
  · refine List.map_congr_left fun k mem => ?_
    have other : key x ≠ k := by
      rintro rfl
      exact fresh (List.mem_eraseDups.mp mem)
    rw [List.filter_append, List.filter_singleton, decide_eq_false other]
    exact congrArg (Prod.mk k) (List.append_nil _)
  · rw [List.eraseDups_cons, List.filter_nil, List.eraseDups_nil, List.map_singleton, List.filter_append, none,
      List.filter_singleton, decide_eq_true rfl]
    rfl

theorem groups_old (old : key x ∈ xs.map key) :
    groups key (xs ++ [x]) = (groups key xs).map fun g => if g.1 = key x then (g.1, g.2 ++ [x]) else g := by
  have gone : [key x].removeAll (xs.map key) = [] := by
    rw [List.removeAll, List.filter_singleton]
    simp [old]
  rw [groups, groups, List.map_append, List.map_singleton, List.eraseDups_append, gone, List.eraseDups_nil, List.append_nil,
    List.map_map]
  refine List.map_congr_left fun k _ => ?_
  rw [Function.comp_apply, List.filter_append, List.filter_singleton]
  by_cases same : k = key x
  · rw [if_pos same, decide_eq_true same.symm]
    rfl
  · rw [if_neg same, decide_eq_false (Ne.symm same)]
    exact congrArg (Prod.mk k) (List.append_nil _)

end Grouping
