import Coast.Graph.Export
import Mathlib.Data.List.Lex

/-!
# The tree of a graph

Every node stands once in the tree, at the place that the visit of the slots in their order comes to
first. A reference stands for a node that more than one slot refers to.
-/

namespace Coast

open Anything (Key Entries)
open Graphs

variable {D α : Type}

namespace CutTree

theorem find_append (t : CutTree D α) (p q : List Step) : t.find (p ++ q) = (t.find p).bind fun u => u.find q := by
  induction p generalizing t with
  | nil => rfl
  | cons s p ih =>
    obtain ⟨i, l⟩ := s
    cases t with
    | array id slots =>
      rw [List.cons_append, find, find]
      cases slots[i]? with
      | none => rfl
      | some e =>
        obtain ⟨key, u⟩ := e
        simp only []
        split
        · exact ih u
        · rfl
    | _ => rfl

theorem find_slot {t : CutTree D α} {id : α} {slots : List (Option Key × CutTree D α)} {place : List Step}
    (array : t.find place = some (.array id slots)) {i : Nat} {key : Option Key} {u : CutTree D α}
    (here : slots[i]? = some (key, u)) : t.find (place ++ [(i, .ofSlot key i)]) = some u := by
  rw [find_append, array, Option.bind_some, find, here]
  simp [find]

theorem find_concat {t u : CutTree D α} {place : List Step} {s : Step} (found : t.find (place ++ [s]) = some u) :
    ∃ id slots key, t.find place = some (.array id slots) ∧ slots[s.1]? = some (key, u) ∧ s = (s.1, .ofSlot key s.1) := by
  obtain ⟨i, l⟩ := s
  rw [find_append] at found
  obtain ⟨w, above, found⟩ := Option.bind_eq_some_iff.mp found
  cases w with
  | array id slots =>
    rw [find] at found
    split at found
    · rename_i key u' here
      split at found
      · rename_i same
        rw [find, Option.some.injEq] at found
        exact ⟨id, slots, key, above, by rw [here, found], by rw [same]⟩
      · cases found
    · cases found
  | _ => cases found

theorem find_unique {t u v : CutTree D α} {p q : List Step} (here : t.find p = some u) (there : t.find q = some v)
    (same : p.map Prod.fst = q.map Prod.fst) : p = q := by
  induction p generalizing t q with
  | nil =>
    rw [List.map_nil, eq_comm, List.map_eq_nil_iff] at same
    exact same.symm
  | cons s p ih =>
    rcases q with _ | ⟨s', q⟩
    · cases same
    · obtain ⟨i, l⟩ := s
      obtain ⟨i', l'⟩ := s'
      obtain ⟨rfl, rest⟩ : i = i' ∧ p.map Prod.fst = q.map Prod.fst := List.cons.inj same
      cases t with
      | array id slots =>
        rw [find] at here there
        split at here
        · rename_i key w slot
          rw [slot] at there
          simp only [] at there
          split at here
          · split at there
            · rename_i level level'
              rw [← level, ← level', ih here there rest]
            · cases there
          · cases here
        · cases here
      | _ => cases here

def node? : CutTree D α → Option α
  | .leaf id _ => some id
  | .array id _ => some id
  | _ => none

end CutTree

def indices (place : List Step) : List Nat := place.map Prod.fst

def Before (p q : List Nat) : Prop := List.Lex (· < ·) p q

theorem Before.trans {p q r : List Nat} (first : Before p q) (second : Before q r) : Before p r :=
  List.lex_trans (fun first second => Nat.lt_trans first second) first second

theorem before_extension (p : List Nat) (i : Nat) (q : List Nat) : Before p (p ++ i :: q) := by
  have deeper := List.Lex.append_left (· < ·) (List.Lex.nil : List.Lex (· < ·) [] (i :: q)) p
  rwa [List.append_nil] at deeper

theorem before_sibling (p : List Nat) {i j : Nat} (less : i < j) (q r : List Nat) : Before (p ++ i :: q) (p ++ j :: r) :=
  List.Lex.append_left (· < ·) (List.Lex.rel less) p

inductive Leads (heap : AnyHeap D α) (root : Option α) : List Step → α → Prop
  | root {a : α} (start : root = some a) : Leads heap root [] a
  | slot {place : List Step} {a b : α} {key : Option Key} {i : Nat} (reached : Leads heap root place a)
    (here : (heap a).slots[i]? = some (key, some b)) : Leads heap root (place ++ [(i, .ofSlot key i)]) b

inductive Stands (visited : Visited α) (place : List Step) : Option α → CutTree D α → Prop
  | null : Stands visited place none .null
  | ref {id : α} {first : List Step} (met : (id, first) ∈ visited) (earlier : Before (indices first) (indices place)) :
    Stands visited place (some id) (.ref first)
  | node {id : α} {t : CutTree D α} (met : (id, place) ∈ visited) (own : t.node? = some id) : Stands visited place (some id) t

/-- What stands for the slots from number `i` on. -/
def SlotsStand (visited : Visited α) (place : List Step) (i : Nat) (slots : Entries (Option α))
    (ts : List (Option Key × CutTree D α)) : Prop :=
  slots.map Prod.fst = ts.map Prod.fst ∧ ∀ j key value, slots[j]? = some (key, value) →
    ∃ t, ts[j]? = some (key, t) ∧ Stands visited (place ++ [(i + j, .ofSlot key (i + j))]) value t

inductive Copies (heap : AnyHeap D α) (visited : Visited α) (place : List Step) (id : α) : CutTree D α → Prop
  | leaf {s : Scalar D} (node : heap id = .leaf s) : Copies heap visited place id (.leaf id s)
  | array {slots : Entries (Option α)} {ts : List (Option Key × CutTree D α)} (node : heap id = .branch slots)
    (each : SlotsStand visited place 0 slots ts) : Copies heap visited place id (.array id ts)

variable {heap : AnyHeap D α} {root : Option α}

theorem Stands.mono {visited visited' : Visited α} (grows : visited ⊆ visited') {place : List Step} {value : Option α}
    {t : CutTree D α} (stands : Stands visited place value t) : Stands visited' place value t := by
  cases stands with
  | null => exact .null
  | ref met earlier => exact .ref (grows met) earlier
  | node met own => exact .node (grows met) own

theorem Copies.mono {visited visited' : Visited α} (grows : visited ⊆ visited') {place : List Step} {id : α}
    {t : CutTree D α} (copies : Copies heap visited place id t) : Copies heap visited' place id t := by
  cases copies with
  | leaf node => exact .leaf node
  | array node each =>
    refine .array node ⟨each.1, ?_⟩
    intro j key value here
    obtain ⟨t, there, stands⟩ := each.2 j key value here
    exact ⟨t, there, stands.mono grows⟩

/-! ### What a visit leaves behind -/

section

variable [DecidableEq α] {fuel : Nat} {place : List Step} {value : Option α} {visited visited' : Visited α}
  {t : CutTree D α}

theorem cut_unique (done : cut heap fuel place value visited = some (t, visited')) :
    (visited.map Prod.fst).Nodup → (visited'.map Prod.fst).Nodup := by
  have concat : ∀ {visited : Visited α} {id : α} {place : List Step}, id ∉ visited.map Prod.fst →
      (visited.map Prod.fst).Nodup → ((visited ++ [(id, place)]).map Prod.fst).Nodup := by
    intro visited id place fresh unique
    rw [List.map_append, List.map_singleton, List.nodup_append]
    refine ⟨unique, List.nodup_singleton id, ?_⟩
    rintro a mem b own rfl
    rw [List.mem_singleton.mp own] at mem
    exact fresh mem
  refine cut_rule (P := fun _ _ visited _ visited' => (visited.map Prod.fst).Nodup → (visited'.map Prod.fst).Nodup)
    (Q := fun _ _ _ visited _ visited' => (visited.map Prod.fst).Nodup → (visited'.map Prod.fst).Nodup)
    ?_ ?_ ?_ ?_ ?_ ?_ done
  · exact fun _ _ => id
  · exact fun _ _ _ _ _ => id
  · exact fun _ _ _ _ fresh _ unique => concat fresh unique
  · exact fun _ _ _ _ _ _ fresh _ inner unique => inner (concat fresh unique)
  · exact fun _ _ _ => id
  · exact fun _ _ _ _ _ _ _ _ _ _ own others unique => others (own unique)

theorem cut_leads (done : cut heap fuel place value visited = some (t, visited')) :
    (∀ a ∈ value, Leads heap root place a) → (∀ e ∈ visited, Leads heap root e.2 e.1) →
      ∀ e ∈ visited', Leads heap root e.2 e.1 := by
  have concat : ∀ {visited : Visited α} {id : α} {place : List Step}, Leads heap root place id →
      (∀ e ∈ visited, Leads heap root e.2 e.1) → ∀ e ∈ visited ++ [(id, place)], Leads heap root e.2 e.1 := by
    intro visited id place own others
    rw [List.forall_mem_append, List.forall_mem_singleton]
    exact ⟨others, own⟩
  refine cut_rule
    (P := fun place value visited _ visited' => (∀ a ∈ value, Leads heap root place a) →
      (∀ e ∈ visited, Leads heap root e.2 e.1) → ∀ e ∈ visited', Leads heap root e.2 e.1)
    (Q := fun place i slots visited _ visited' => ∀ id, Leads heap root place id →
      (∀ j, (heap id).slots[i + j]? = slots[j]?) → (∀ e ∈ visited, Leads heap root e.2 e.1) →
        ∀ e ∈ visited', Leads heap root e.2 e.1)
    ?_ ?_ ?_ ?_ ?_ ?_ done
  · exact fun _ _ _ => id
  · exact fun _ _ _ _ _ _ => id
  · exact fun _ id _ _ _ _ own => concat (own id rfl)
  · intro place id visited slots ts visited' _ node inner own others
    refine inner id (own id rfl) ?_ (concat (own id rfl) others)
    intro j
    rw [node, Nat.zero_add]
    rfl
  · exact fun _ _ _ _ _ _ => id
  · intro place i key value slots visited t visited' ts visited'' own others id here shape before
    refine others id here ?_ (own ?_ before)
    · intro j
      rw [Nat.add_right_comm, Nat.add_assoc, shape (j + 1), List.getElem?_cons_succ]
    · rintro a rfl
      exact .slot here (shape 0)

theorem cut_copies (done : cut heap fuel place value visited = some (t, visited')) :
    (∀ e ∈ visited, Before (indices e.2) (indices place)) →
      visited ⊆ visited' ∧ Stands visited' place value t ∧
        ∀ e ∈ visited', e ∈ visited ∨ ∃ rest u, e.2 = place ++ rest ∧ t.find rest = some u ∧ Copies heap visited' e.2 e.1 u := by
  have met : ∀ (visited : Visited α) (id : α) (place : List Step), (id, place) ∈ visited ++ [(id, place)] := by simp
  refine cut_rule
    (P := fun place value visited t visited' => (∀ e ∈ visited, Before (indices e.2) (indices place)) →
      visited ⊆ visited' ∧ Stands visited' place value t ∧
        ∀ e ∈ visited', e ∈ visited ∨ ∃ rest u, e.2 = place ++ rest ∧ t.find rest = some u ∧ Copies heap visited' e.2 e.1 u)
    (Q := fun place i slots visited ts visited' => (∀ e ∈ visited, Before (indices e.2) (indices place ++ [i])) →
      visited ⊆ visited' ∧ SlotsStand visited' place i slots ts ∧
        ∀ e ∈ visited', e ∈ visited ∨ ∃ j key t rest u, ts[j]? = some (key, t) ∧
          e.2 = place ++ (i + j, .ofSlot key (i + j)) :: rest ∧ t.find rest = some u ∧ Copies heap visited' e.2 e.1 u)
    ?_ ?_ ?_ ?_ ?_ ?_ done
  · exact fun place visited _ => ⟨List.Subset.refl _, .null, fun _ => Or.inl⟩
  · exact fun place id visited first mem before => ⟨List.Subset.refl _, .ref mem (before _ mem), fun _ => Or.inl⟩
  · intro place id visited s _ node before
    refine ⟨List.subset_append_left .., .node (met ..) rfl, ?_⟩
    intro e mem
    rcases List.mem_append.mp mem with old | new
    · exact Or.inl old
    · rw [List.mem_singleton.mp new]
      exact Or.inr ⟨[], .leaf id s, (List.append_nil _).symm, rfl, .leaf node⟩
  · intro place id visited slots ts visited' _ node inner before
    have before' : ∀ e ∈ visited ++ [(id, place)], Before (indices e.2) (indices place ++ [0]) := by
      rw [List.forall_mem_append, List.forall_mem_singleton]
      exact ⟨fun e mem => (before e mem).trans (before_extension ..), before_extension ..⟩
    obtain ⟨grows, stand, new⟩ := inner before'
    refine ⟨fun e mem => grows (List.mem_append_left _ mem), .node (grows (met ..)) rfl, ?_⟩
    intro e mem
    rcases new e mem with old | ⟨j, key, t, rest, u, here, same, found, copies⟩
    · rcases List.mem_append.mp old with old | own
      · exact Or.inl old
      · rw [List.mem_singleton.mp own]
        exact Or.inr ⟨[], .array id ts, (List.append_nil _).symm, rfl, .array node stand⟩
    · rw [Nat.zero_add] at same
      refine Or.inr ⟨_, u, same, ?_, copies⟩
      rw [CutTree.find, here]
      simpa using found
  · exact fun place i visited _ => ⟨List.Subset.refl _, ⟨rfl, fun j key value here => by cases here⟩, fun _ => Or.inl⟩
  · intro place i key value slots visited t visited' ts visited'' own others before
    have here : indices (place ++ [(i, .ofSlot key i)]) = indices place ++ [i] := by simp [indices]
    rw [here] at own
    obtain ⟨grows, stands, new⟩ := own before
    have before' : ∀ e ∈ visited', Before (indices e.2) (indices place ++ [i + 1]) := by
      intro e mem
      rcases new e mem with old | ⟨rest, u, same, -⟩
      · exact (before e old).trans (before_sibling _ (Nat.lt_succ_self i) [] [])
      · rw [same, show indices (place ++ [(i, Level.ofSlot key i)] ++ rest) = indices place ++ i :: indices rest by
          simp [indices]]
        exact before_sibling _ (Nat.lt_succ_self i) _ []
    obtain ⟨grows', ⟨names, each⟩, new'⟩ := others before'
    refine ⟨fun e mem => grows' (grows mem), ⟨by rw [List.map_cons, List.map_cons, names], ?_⟩, ?_⟩
    · rintro (_ | j) key' value' slot
      · rw [List.getElem?_cons_zero, Option.some.injEq] at slot
        cases slot
        exact ⟨t, rfl, stands.mono grows'⟩
      · obtain ⟨t', there, stands'⟩ := each j key' value' slot
        rw [Nat.add_right_comm, Nat.add_assoc] at stands'
        exact ⟨t', there, stands'⟩
    · intro e mem
      rcases new' e mem with old | ⟨j, key', t', rest, u, slot, same, found, copies⟩
      · rcases new e old with old | ⟨rest, u, same, found, copies⟩
        · exact Or.inl old
        · refine Or.inr ⟨0, key, t, rest, u, rfl, ?_, found, copies.mono grows'⟩
          rw [same, List.append_assoc]
          rfl
      · refine Or.inr ⟨j + 1, key', t', rest, u, slot, ?_, found, copies⟩
        rw [same, Nat.add_comm j 1, ← Nat.add_assoc]

theorem cut_met (done : cut heap fuel place value visited = some (t, visited')) :
    visited ⊆ visited' ∧ ∀ rest u id, t.find rest = some u → u.node? = some id → (id, place ++ rest) ∈ visited' := by
  refine cut_rule
    (P := fun place value visited t visited' =>
      visited ⊆ visited' ∧ ∀ rest u id, t.find rest = some u → u.node? = some id → (id, place ++ rest) ∈ visited')
    (Q := fun place i slots visited ts visited' => visited ⊆ visited' ∧ ∀ j key t, ts[j]? = some (key, t) →
      ∀ rest u id, t.find rest = some u → u.node? = some id → (id, place ++ (i + j, .ofSlot key (i + j)) :: rest) ∈ visited')
    ?_ ?_ ?_ ?_ ?_ ?_ done
  · refine fun place visited => ⟨List.Subset.refl _, ?_⟩
    rintro (_ | ⟨s, rest⟩) u id found own
    · cases found
      cases own
    · cases found
  · refine fun place id visited first _ => ⟨List.Subset.refl _, ?_⟩
    rintro (_ | ⟨s, rest⟩) u id found own
    · cases found
      cases own
    · cases found
  · refine fun place id visited s _ _ => ⟨List.subset_append_left .., ?_⟩
    rintro (_ | ⟨s, rest⟩) u id' found own
    · cases found
      cases own
      simp
    · cases found
  · rintro place id visited slots ts visited' _ node ⟨grows, inner⟩
    refine ⟨fun e mem => grows (List.mem_append_left _ mem), ?_⟩
    rintro (_ | ⟨⟨i, l⟩, rest⟩) u id' found own
    · cases found
      cases own
      exact grows (by simp)
    · rw [CutTree.find] at found
      split at found
      · rename_i key t here
        split at found
        · rename_i same
          have below := inner i key t here rest u id' found own
          rwa [Nat.zero_add, same] at below
        · cases found
      · cases found
  · exact fun place i visited => ⟨List.Subset.refl _, fun j key t here => by cases here⟩
  · rintro place i key value slots visited t visited' ts visited'' ⟨grows, own⟩ ⟨grows', others⟩
    refine ⟨fun e mem => grows' (grows mem), ?_⟩
    rintro (_ | j) key' t' slot rest u id found node
    · rw [List.getElem?_cons_zero, Option.some.injEq] at slot
      cases slot
      have below := own rest u id found node
      rw [List.append_assoc] at below
      exact grows' below
    · rw [Nat.add_comm j 1, ← Nat.add_assoc]
      exact others j key' t' slot rest u id found node

end

structure CutOf (heap : AnyHeap D α) (root : Option α) (t : CutTree D α) (visited : Visited α) : Prop where
  unique : (visited.map Prod.fst).Nodup
  stands : Stands visited [] root t
  copies : ∀ {a place}, (a, place) ∈ visited → ∃ u, t.find place = some u ∧ Copies heap visited place a u
  met : ∀ {place u a}, t.find place = some u → u.node? = some a → (a, place) ∈ visited
  leads : ∀ {a place}, (a, place) ∈ visited → Leads heap root place a

theorem cut_cutOf [DecidableEq α] {fuel : Nat} {t : CutTree D α} {visited : Visited α}
    (done : cut heap fuel [] root [] = some (t, visited)) : CutOf heap root t visited where
  unique := cut_unique done List.nodup_nil
  stands := (cut_copies done nofun).2.1
  copies := by
    intro a place mem
    rcases (cut_copies done nofun).2.2 _ mem with old | ⟨rest, u, same, found, copies⟩
    · cases old
    · have here : place = rest := same
      subst here
      exact ⟨u, found, copies⟩
  met := fun found own => (cut_met done).2 _ _ _ found own
  leads := fun mem => cut_leads done (fun a start => .root start) nofun _ mem

/-! ### The first place of a node -/

theorem Leads.unique {p q : List Step} {a b : α} (here : Leads heap root p a) (there : Leads heap root q b)
    (same : indices p = indices q) : a = b := by
  induction here generalizing q b with
  | root start =>
    cases there with
    | root start' => exact Option.some.inj (start.symm.trans start')
    | slot reached slot => simp [indices] at same
  | @slot place c a key i reached slot ih =>
    cases there with
    | root start' => simp [indices] at same
    | @slot place' c' _ key' i' reached' slot' =>
      simp only [indices, List.map_append, List.map_singleton] at same
      obtain ⟨above, last⟩ := List.append_inj' same rfl
      obtain rfl : i = i' := (List.cons.inj last).1
      rw [ih reached' above, slot'] at slot
      exact Option.some.inj (Prod.mk.inj (Option.some.inj slot)).2.symm

theorem Leads.rank_lt {rank : α → Nat} (ranked : Ranked heap rank) {p q : List Step} {a b : α}
    (here : Leads heap root p a) (there : Leads heap root q b) {r : List Nat} (below : indices q = indices p ++ r)
    (deeper : r ≠ []) : rank b < rank a := by
  induction there generalizing r with
  | root start =>
    exact absurd (List.append_eq_nil_iff.mp below.symm).2 deeper
  | @slot place c b key i reached slot ih =>
    have less : rank b < rank c := ranked c key b (List.mem_of_getElem? slot)
    rcases List.eq_nil_or_concat r with rfl | ⟨r', i', rfl⟩
    · exact absurd rfl deeper
    · simp only [indices, List.map_append, List.map_singleton, List.concat_eq_append] at below
      rw [← List.append_assoc] at below
      have above : indices place = indices p ++ r' := (List.append_inj' below rfl).1
      by_cases top : r' = []
      · rw [top, List.append_nil] at above
        rw [here.unique reached above.symm]
        exact less
      · exact Nat.lt_trans less (ih above top)

theorem Before.concat {p q : List Nat} (before : Before p q) (i j : Nat) :
    (∃ r, r ≠ [] ∧ q = p ++ r) ∨ Before (p ++ [i]) (q ++ [j]) := by
  induction before with
  | @nil b q => exact Or.inl ⟨b :: q, List.cons_ne_nil _ _, rfl⟩
  | @cons a p q _ ih =>
    rcases ih with ⟨r, some, rfl⟩ | before
    · exact Or.inl ⟨r, some, rfl⟩
    · exact Or.inr (.cons before)
  | rel less => exact Or.inr (.rel less)

theorem Before.asymm {p q : List Nat} (before : Before p q) : ¬ Before q p := by
  intro after
  exact (List.Lex.asymm (· < ·)).asymm p q before after

namespace CutOf

variable {t : CutTree D α} {visited : Visited α} (tree : CutOf heap root t visited)
include tree

theorem place_unique {a : α} {p q : List Step} (here : (a, p) ∈ visited) (there : (a, q) ∈ visited) : p = q :=
  (Prod.mk.inj (List.inj_on_of_nodup_map tree.unique here there rfl)).2

theorem slot {a : α} {place : List Step} (mem : (a, place) ∈ visited) {i : Nat} {key : Option Key} {value : Option α}
    (here : (heap a).slots[i]? = some (key, value)) :
    ∃ ts u, t.find place = some (.array a ts) ∧ ts[i]? = some (key, u) ∧
      Stands visited (place ++ [(i, .ofSlot key i)]) value u := by
  obtain ⟨u, found, copies⟩ := tree.copies mem
  cases copies with
  | leaf node =>
    rw [node] at here
    cases here
  | array node each =>
    rw [node] at here
    obtain ⟨w, there, stands⟩ := each.2 i key value here
    rw [Nat.zero_add] at stands
    exact ⟨_, w, found, there, stands⟩

theorem met_first {rank : α → Nat} (ranked : Ranked heap rank) {place : List Step} {a : α} (leads : Leads heap root place a) :
    ∃ first, (a, first) ∈ visited ∧ (indices first = indices place ∨ Before (indices first) (indices place)) := by
  induction leads with
  | @root a start =>
    have stands := tree.stands
    rw [start] at stands
    cases stands with
    | ref met earlier => exact absurd earlier List.not_lex_nil
    | node met own => exact ⟨[], met, Or.inl rfl⟩
  | @slot place a b key i reached here ih =>
    obtain ⟨first, met, le⟩ := ih
    obtain ⟨ts, u, -, -, stands⟩ := tree.slot met here
    -- where the slot was visited, `b` was met there or before
    have own : ∃ q, (b, q) ∈ visited ∧ (indices q = indices first ++ [i] ∨ Before (indices q) (indices first ++ [i])) := by
      cases stands with
      | ref met earlier => exact ⟨_, met, Or.inr (by simpa [indices] using earlier)⟩
      | node met own => exact ⟨_, met, Or.inl (by simp [indices])⟩
    obtain ⟨q, met', le'⟩ := own
    have same : indices (place ++ [(i, Level.ofSlot key i)]) = indices place ++ [i] := by simp [indices]
    rw [same]
    refine ⟨q, met', ?_⟩
    rcases le with equal | before
    · rw [← equal]
      exact le'
    · refine Or.inr ?_
      rcases before.concat i i with ⟨r, deeper, below⟩ | before
      · exact absurd ((tree.leads met).rank_lt ranked reached below deeper) (Nat.lt_irrefl _)
      · rcases le' with equal | before'
        · rw [equal]
          exact before
        · exact before'.trans before

theorem first {rank : α → Nat} (ranked : Ranked heap rank) {a : α} {place : List Step} (mem : (a, place) ∈ visited)
    {other : List Step} (leads : Leads heap root other a) : ¬ Before (indices other) (indices place) := by
  intro before
  obtain ⟨first, met, le⟩ := tree.met_first ranked leads
  rw [tree.place_unique met mem] at le
  rcases le with equal | before'
  · rw [equal] at before
    exact before.asymm before
  · exact before.asymm before'

end CutOf

/-! ### Nodes that are met again -/

theorem Leads.reaches {place : List Step} {a : α} (leads : Leads heap root place a) : Reaches heap root a := by
  induction leads with
  | root start => exact .root start
  | slot reached here ih => exact .slot ih (List.mem_of_getElem? here)

def Shared (heap : AnyHeap D α) (root : Option α) (b : α) : Prop :=
  ∃ (a : α) (i : Nat) (key : Option Key) (a' : α) (i' : Nat) (key' : Option Key),
    Reaches heap root a ∧ Reaches heap root a' ∧ (heap a).slots[i]? = some (key, some b) ∧
      (heap a').slots[i']? = some (key', some b) ∧ (a, i) ≠ (a', i')

namespace CutOf

variable {t : CutTree D α} {visited : Visited α} (tree : CutOf heap root t visited)
include tree

theorem parent {place : List Step} {s : Step} {u : CutTree D α} (found : t.find (place ++ [s]) = some u) :
    ∃ a key value, (a, place) ∈ visited ∧ (heap a).slots[s.1]? = some (key, value) ∧ s = (s.1, .ofSlot key s.1) ∧
      Stands visited (place ++ [s]) value u := by
  obtain ⟨a, ts, key, above, here, shape⟩ := CutTree.find_concat found
  have met := tree.met above rfl
  obtain ⟨w, found', copies⟩ := tree.copies met
  rw [above] at found'
  cases found'
  cases copies with
  | @array slots _ node each =>
    have named : (slots.map Prod.fst)[s.1]? = some key := by
      rw [each.1, List.getElem?_map, here]
      rfl
    rw [List.getElem?_map, Option.map_eq_some_iff] at named
    obtain ⟨⟨key', value⟩, slot, rfl⟩ := named
    obtain ⟨w, there, stands⟩ := each.2 s.1 key' value slot
    rw [here, Option.some.injEq, Prod.mk.injEq] at there
    rw [Nat.zero_add, ← shape, ← there.2] at stands
    refine ⟨a, key', value, met, ?_, shape, stands⟩
    rw [node]
    exact slot

theorem not_ref_root (first : List Step) : t.find [] ≠ some (.ref first) := by
  intro found
  rw [CutTree.find, Option.some.injEq] at found
  have stands := tree.stands
  rw [found] at stands
  cases stands with
  | ref met earlier => exact absurd earlier List.not_lex_nil
  | node met own => cases own

theorem shared {rank : α → Nat} (ranked : Ranked heap rank) {place first : List Step}
    (found : t.find place = some (.ref first)) : ∃ b, (b, first) ∈ visited ∧ first ≠ [] ∧ Shared heap root b := by
  rcases List.eq_nil_or_concat place with rfl | ⟨above, s, rfl⟩
  · exact absurd found (tree.not_ref_root first)
  · rw [List.concat_eq_append] at found
    obtain ⟨a, key, value, met, here, shape, stands⟩ := tree.parent found
    cases stands with
    | node met own => cases own
    | @ref b _ met' earlier =>
      obtain ⟨w, found', copies⟩ := tree.copies met'
      have own : w.node? = some b := by cases copies <;> rfl
      rcases List.eq_nil_or_concat first with rfl | ⟨above', s', rfl⟩
      · -- the root is in no slot
        have slot := Leads.slot (tree.leads met) here
        exact absurd ((tree.leads met').rank_lt ranked slot rfl (by simp)) (Nat.lt_irrefl _)
      · rw [List.concat_eq_append] at found'
        obtain ⟨a', key', value', met'', here', shape', stands'⟩ := tree.parent found'
        refine ⟨b, met', by simp, a, s.1, key, a', s'.1, key', (tree.leads met).reaches, (tree.leads met'').reaches, here,
          ?_, ?_⟩
        · cases stands' with
          | null => cases own
          | ref => cases own
          | node _ own' =>
            rw [own, Option.some.injEq] at own'
            rw [here', own']
        · intro same
          obtain ⟨rfl, index⟩ := Prod.mk.inj same
          have slots : s = s' := by
            rw [index, here'] at here
            rw [shape, shape', index, (Prod.mk.inj (Option.some.inj here)).1]
          rw [tree.place_unique met met'', slots, found'] at found
          rw [Option.some.inj found] at own
          cases own

end CutOf

end Coast
