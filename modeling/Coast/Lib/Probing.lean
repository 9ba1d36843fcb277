import Mathlib.Data.List.Basic
import Mathlib.Data.List.GetD
import Mathlib.Data.Nat.ModEq
import Mathlib.Tactic.Common

/-!
# Linear probing with deletion marks

A table of cells that are free, deleted or used. A search walks the cells cyclically from a home
position and stops at the first cell it accepts. `Located` is the invariant that makes lookups
find every used cell: no free cell lies between a used cell and its home.
-/

namespace LinearProbing

variable {α β : Type*}

inductive Cell (α : Type*) where
  | free
  | deleted
  | used (a : α)
  deriving DecidableEq, Repr

def probe (cap start : Nat) : List Nat := (List.range cap).map fun k => (start + k) % cap

/-- Whether a search stops at a cell. `reuse` searches also stop at a deletion mark. -/
def stops (hit : α → Bool) (reuse : Bool) : Cell α → Bool
  | .free => true
  | .deleted => reuse
  | .used a => hit a

def search (t : List (Cell α)) (hit : α → Bool) (reuse : Bool) (start : Nat) : Option Nat :=
  (probe t.length start).find? fun i => stops hit reuse (t.getD i .free)

/-- `i` is reached from `start` without crossing a free cell. -/
def Reaches (t : List (Cell α)) (start i : Nat) : Prop :=
  ∃ k < t.length, (start + k) % t.length = i ∧
    ∀ j < k, t.getD ((start + j) % t.length) .free ≠ .free

def Located (t : List (Cell α)) (home : α → Nat) : Prop :=
  ∀ i a, t[i]? = some (.used a) → Reaches t (home a) i

def contents (t : List (Cell α)) : List α :=
  t.filterMap fun
    | .used a => some a
    | _ => none

theorem getD_of_getElem? {t : List (Cell α)} {i : Nat} {c : Cell α} (h : t[i]? = some c) :
    t.getD i .free = c := by
  simp [List.getD_eq_getElem?_getD, h]

theorem getElem?_of_getD_used {t : List (Cell α)} {i : Nat} {a : α} (h : t.getD i .free = .used a) :
    t[i]? = some (.used a) := by
  rw [List.getD_eq_getElem?_getD] at h
  cases hc : t[i]? with
  | none => simp [hc] at h
  | some c => simpa [hc] using h

theorem mem_contents {t : List (Cell α)} {a : α} : a ∈ contents t ↔ ∃ i : Nat, t[i]? = some (.used a) := by
  unfold contents
  rw [List.mem_filterMap]
  constructor
  · rintro ⟨c, hc, he⟩
    obtain ⟨i, hi⟩ := List.mem_iff_getElem?.mp hc
    cases c with
    | used b =>
      have same : b = a := by simpa using he
      subst same
      exact ⟨i, hi⟩
    | free => simp at he
    | deleted => simp at he
  · rintro ⟨i, hi⟩
    exact ⟨.used a, List.mem_of_getElem? hi, rfl⟩

theorem cell_unique {t : List (Cell α)} {i j : Nat} {a : α} (nodup : (contents t).Nodup)
    (hi : t[i]? = some (.used a)) (hj : t[j]? = some (.used a)) : i = j := by
  induction t generalizing i j with
  | nil => simp at hi
  | cons c t ih =>
    have rest : (contents t).Nodup := by
      cases c with
      | used b => exact (List.nodup_cons.mp nodup).2
      | free => exact nodup
      | deleted => exact nodup
    have lone : ∀ k : Nat, c = .used a → t[k]? ≠ some (.used a) := by
      rintro k rfl cell
      exact (List.nodup_cons.mp nodup).1 (mem_contents.mpr ⟨k, cell⟩)
    cases i with
    | zero =>
      cases j with
      | zero => rfl
      | succ j => exact (lone j (by simpa using hi) (by simpa using hj)).elim
    | succ i =>
      cases j with
      | zero => exact (lone i (by simpa using hj) (by simpa using hi)).elim
      | succ j => exact congrArg (· + 1) (ih (i := i) (j := j) rest (by simpa using hi) (by simpa using hj))

theorem probe_injective {n start j k : Nat} (hj : j < n) (hk : k < n)
    (same : (start + j) % n = (start + k) % n) : j = k := by
  have eq : j ≡ k [MOD n] := Nat.ModEq.add_left_cancel' start same
  exact eq.eq_of_lt_of_lt hj hk

theorem probe_succ {n start k : Nat} (pos : 0 < n) :
    (if (start + k) % n + 1 ≥ n then (start + k) % n + 1 - n else (start + k) % n + 1) = (start + (k + 1)) % n := by
  have wrap := Nat.mod_lt (start + k) pos
  rw [← Nat.add_assoc, ← Nat.mod_add_mod (start + k) n 1]
  split
  · rw [show (start + k) % n + 1 = n by omega]
    simp
  · rw [Nat.mod_eq_of_lt (show (start + k) % n + 1 < n by omega)]

theorem search_eq_some {t : List (Cell α)} {hit : α → Bool} {reuse : Bool} {start i : Nat}
    (h : search t hit reuse start = some i) :
    ∃ k < t.length, (start + k) % t.length = i ∧ stops hit reuse (t.getD i .free) = true ∧
      ∀ j < k, stops hit reuse (t.getD ((start + j) % t.length) .free) = false := by
  unfold search probe at h
  rw [List.find?_map, Option.map_eq_some_iff] at h
  obtain ⟨k, found, rfl⟩ := h
  rw [List.find?_range_eq_some] at found
  obtain ⟨stop, inRange, before⟩ := found
  refine ⟨k, List.mem_range.mp inRange, rfl, stop, ?_⟩
  intro j hj
  simpa using before j hj

theorem search_eq_none {t : List (Cell α)} {hit : α → Bool} {reuse : Bool} {start : Nat}
    (h : search t hit reuse start = none) :
    ∀ k < t.length, stops hit reuse (t.getD ((start + k) % t.length) .free) = false := by
  unfold search probe at h
  rw [List.find?_map, Option.map_eq_none_iff, List.find?_eq_none] at h
  intro k hk
  simpa using h k (List.mem_range.mpr hk)

theorem search_eq_some_of {t : List (Cell α)} {hit : α → Bool} {reuse : Bool} {start k : Nat}
    (hk : k < t.length) (stop : stops hit reuse (t.getD ((start + k) % t.length) .free) = true)
    (before : ∀ j < k, stops hit reuse (t.getD ((start + j) % t.length) .free) = false) :
    search t hit reuse start = some ((start + k) % t.length) := by
  unfold search probe
  rw [List.find?_map, Option.map_eq_some_iff]
  refine ⟨k, ?_, rfl⟩
  rw [List.find?_range_eq_some]
  refine ⟨stop, List.mem_range.mpr hk, ?_⟩
  intro j hj
  simpa using before j hj

theorem exists_probe {n start i : Nat} (hi : i < n) (hs : start < n) :
    ∃ k < n, (start + k) % n = i := by
  by_cases le : start ≤ i
  · exact ⟨i - start, by omega, by rw [show start + (i - start) = i by omega, Nat.mod_eq_of_lt hi]⟩
  · refine ⟨i + n - start, by omega, ?_⟩
    rw [show start + (i + n - start) = i + n by omega, Nat.add_mod_right, Nat.mod_eq_of_lt hi]

theorem search_found {t : List (Cell α)} {home : α → Nat} {hit : α → Bool} {i : Nat} {a : α}
    (located : Located t home) (cell : t[i]? = some (.used a)) (accept : hit a = true)
    (unique : ∀ (j : Nat) b, t[j]? = some (.used b) → hit b = true → j = i) :
    search t hit false (home a) = some i := by
  obtain ⟨k, hk, rfl, chain⟩ := located i a cell
  refine search_eq_some_of hk ?_ ?_
  · rw [getD_of_getElem? cell]
    exact accept
  · intro j hj
    cases hc : t.getD ((home a + j) % t.length) .free with
    | free => exact (chain j hj hc).elim
    | deleted => rfl
    | used b =>
      cases hb : hit b with
      | false => exact hb
      | true =>
        have same := unique _ b (getElem?_of_getD_used hc) hb
        have := probe_injective (by omega) hk same
        omega

theorem search_isSome {t : List (Cell α)} {hit : α → Bool} {reuse : Bool} {start i : Nat} (hs : start < t.length)
    (hi : i < t.length) (stop : stops hit reuse (t.getD i .free) = true) : ∃ p, search t hit reuse start = some p := by
  cases h : search t hit reuse start with
  | some p => exact ⟨p, rfl⟩
  | none =>
    obtain ⟨k, hk, rfl⟩ := exists_probe hi hs
    rw [search_eq_none h k hk] at stop
    cases stop

theorem search_lt {t : List (Cell α)} {hit : α → Bool} {reuse : Bool} {start i : Nat}
    (h : search t hit reuse start = some i) : i < t.length := by
  obtain ⟨k, hk, rfl, _⟩ := search_eq_some h
  exact Nat.mod_lt _ (by omega)

theorem search_reaches {t : List (Cell α)} {hit : α → Bool} {reuse : Bool} {start i : Nat}
    (h : search t hit reuse start = some i) : Reaches t start i := by
  obtain ⟨k, hk, rfl, _, before⟩ := search_eq_some h
  refine ⟨k, hk, rfl, ?_⟩
  intro j hj hc
  have stop := before j hj
  rw [hc] at stop
  cases stop

theorem search_not_used {t : List (Cell α)} {hit : α → Bool} {reuse : Bool} {start i : Nat}
    (absent : ∀ (j : Nat) b, t[j]? = some (.used b) → hit b = false)
    (h : search t hit reuse start = some i) : ∀ b, t[i]? ≠ some (.used b) := by
  intro b cell
  obtain ⟨k, _, _, stop, _⟩ := search_eq_some h
  rw [getD_of_getElem? cell] at stop
  simp [stops, absent i b cell] at stop

theorem reaches_set {t : List (Cell α)} {start i p : Nat} {a : α} (h : Reaches t start i) :
    Reaches (t.set p (.used a)) start i := by
  obtain ⟨k, hk, he, chain⟩ := h
  refine ⟨k, by simpa using hk, by simpa using he, ?_⟩
  intro j hj
  rw [List.length_set]
  have old := chain j hj
  rw [List.getD_eq_getElem?_getD] at old ⊢
  rw [List.getElem?_set]
  split
  · rw [if_pos (by rw [‹p = _›]; exact Nat.mod_lt _ (by omega))]
    simp
  · exact old

theorem located_set {t : List (Cell α)} {home : α → Nat} {p : Nat} {a : α} (located : Located t home)
    (reach : Reaches t (home a) p) : Located (t.set p (.used a)) home := by
  intro i b cell
  rw [List.getElem?_set] at cell
  split at cell
  · rename_i same
    subst same
    split at cell
    · have eq : a = b := by simpa using cell
      subst eq
      exact reaches_set reach
    · simp at cell
  · exact reaches_set (located i b cell)

theorem located_map {t : List (Cell α)} {home : α → Nat} {home' : β → Nat} {f : Cell α → Cell β}
    (located : Located t home)
    (hkeep : ∀ c, c ≠ .free → f c ≠ .free)
    (hused : ∀ c b, f c = .used b → ∃ a, c = .used a ∧ (c ∈ t → home' b = home a)) :
    Located (t.map f) home' := by
  intro i b cell
  rw [List.getElem?_map, Option.map_eq_some_iff] at cell
  obtain ⟨c, hc, he⟩ := cell
  obtain ⟨a, rfl, hhome⟩ := hused c b he
  obtain ⟨k, hk, hi, chain⟩ := located i a hc
  refine ⟨k, by simpa using hk, ?_, ?_⟩
  · rw [List.length_map, hhome (List.mem_of_getElem? hc), hi]
  · intro j hj
    rw [List.length_map, hhome (List.mem_of_getElem? hc)]
    have old := chain j hj
    rw [List.getD_eq_getElem?_getD] at old ⊢
    rw [List.getElem?_map]
    cases ht : t[(home a + j) % t.length]? with
    | none => simp [ht] at old
    | some d =>
      simp only [ht, Option.getD_some] at old
      simpa using hkeep d old

def renumber (g : α → Option β) : Cell α → Cell β
  | .free => .free
  | .deleted => .deleted
  | .used a =>
    match g a with
    | some b => .used b
    | none => .deleted

theorem located_renumber {t : List (Cell α)} {home : α → Nat} {home' : β → Nat} {g : α → Option β}
    (located : Located t home) (same : ∀ a ∈ contents t, ∀ b, g a = some b → home' b = home a) :
    Located (t.map (renumber g)) home' := by
  refine located_map located ?_ ?_
  · intro c used
    cases c with
    | free => exact (used rfl).elim
    | deleted => simp [renumber]
    | used a => cases h : g a <;> simp [renumber, h]
  · intro c b hc
    cases c with
    | free => cases hc
    | deleted => cases hc
    | used a =>
      cases h : g a with
      | none => simp [renumber, h] at hc
      | some b' =>
        have eq : b' = b := by simpa [renumber, h] using hc
        subst eq
        refine ⟨a, rfl, fun member => same a ?_ b' h⟩
        obtain ⟨i, cell⟩ := List.mem_iff_getElem?.mp member
        exact mem_contents.mpr ⟨i, cell⟩

theorem contents_renumber (t : List (Cell α)) (g : α → Option β) :
    contents (t.map (renumber g)) = (contents t).filterMap g := by
  induction t with
  | nil => rfl
  | cons c t ih =>
    cases c with
    | free => exact ih
    | deleted => exact ih
    | used a =>
      have split : contents (.used a :: t) = a :: contents t := rfl
      rw [split, List.map_cons, List.filterMap_cons, ← ih, renumber]
      cases g a <;> rfl

theorem located_replicate_free (n : Nat) (home : α → Nat) :
    Located (List.replicate n (.free : Cell α)) home := by
  intro i a cell
  have := List.mem_of_getElem? cell
  simp at this

theorem contents_set {t : List (Cell α)} {p : Nat} (a : α) (hp : p < t.length) :
    ∃ rest, rest.Sublist (contents t) ∧ (contents (t.set p (.used a))).Perm (a :: rest) ∧
      ((∀ b, t[p]? ≠ some (.used b)) → rest = contents t) := by
  induction t generalizing p with
  | nil => simp at hp
  | cons c t ih =>
    cases p with
    | zero =>
      refine ⟨contents t, ?_, List.Perm.refl _, ?_⟩
      · cases c with
        | used b => exact List.sublist_cons_self _ _
        | free => exact List.Sublist.refl _
        | deleted => exact List.Sublist.refl _
      · intro free
        cases c with
        | used b => exact (free b rfl).elim
        | free => rfl
        | deleted => rfl
    | succ p =>
      obtain ⟨rest, sub, perm, keep⟩ := ih (p := p) (by simpa using hp)
      cases c with
      | used b =>
        refine ⟨b :: rest, sub.cons_cons b, (perm.cons b).trans (List.Perm.swap a b _), ?_⟩
        intro free
        exact congrArg _ (keep (by simpa using free))
      | free => exact ⟨rest, sub, perm, fun free => keep (by simpa using free)⟩
      | deleted => exact ⟨rest, sub, perm, fun free => keep (by simpa using free)⟩

theorem exists_not_used {t : List (Cell α)} (room : (contents t).length < t.length) :
    ∃ i < t.length, ∀ a, t.getD i .free ≠ .used a := by
  induction t with
  | nil => simp at room
  | cons c t ih =>
    cases c with
    | used b =>
      have room' : (contents t).length < t.length := by simpa [contents] using room
      obtain ⟨i, hi, hn⟩ := ih room'
      exact ⟨i + 1, by simpa using hi, by simpa using hn⟩
    | free => exact ⟨0, by simp, by simp⟩
    | deleted => exact ⟨0, by simp, by simp⟩

theorem search_reuse {t : List (Cell α)} {start : Nat} (hit : α → Bool) (hs : start < t.length)
    (room : (contents t).length < t.length) : ∃ p, search t hit true start = some p := by
  obtain ⟨i, hi, hn⟩ := exists_not_used room
  refine search_isSome hs hi ?_
  cases hc : t.getD i .free with
  | used a => exact (hn a hc).elim
  | free => rfl
  | deleted => rfl

theorem search_clean {t : List (Cell α)} {start : Nat} (hit : α → Bool) (hs : start < t.length)
    (room : (contents t).length < t.length) (clean : .deleted ∉ t) : ∃ p, search t hit false start = some p := by
  obtain ⟨i, hi, hn⟩ := exists_not_used room
  refine search_isSome hs hi ?_
  cases hc : t.getD i .free with
  | used a => exact (hn a hc).elim
  | free => rfl
  | deleted =>
    rw [List.getD_eq_getElem _ _ hi] at hc
    exact (clean (hc ▸ List.getElem_mem hi)).elim

end LinearProbing
