import Coast.Graph.Links

/-!
# Importing an exported graph

The places where the nodes were met first are the addresses of the nodes that are read. Import rebuilds
the graph where every reference is read as it was written.
-/

namespace Coast

open Anything (Key Entries)
open Graphs

variable {D α : Type} {heap : AnyHeap D α} {root : Option α}

def ReadAt (visited : Visited α) (a : α) (address : List Nat) : Prop :=
  ∃ place, (a, place) ∈ visited ∧ address = indices place

namespace CutOf

variable {t : CutTree D α} {visited : Visited α} (tree : CutOf heap root t visited)
include tree

theorem root_not_ref (first : List Step) : t ≠ .ref first := by
  intro same
  exact tree.not_ref_root first (by rw [same]; rfl)

theorem slots_match {done : List Patch} (all : ∀ xref ∈ t.allPatches, xref ∈ done) {place : List Step} {id : α}
    {slots : Entries (Option α)} {ts : List (Option Key × CutTree D α)} (array : t.find place = some (.array id ts))
    (each : SlotsStand visited place 0 slots ts) : Cell.SlotsMatch (ReadAt visited) slots (linkSlots done place ts) := by
  have length : slots.length = ts.length := by
    have names := congrArg List.length each.1
    rwa [List.length_map, List.length_map] at names
  refine .of_getElem (by rw [linkSlots, List.length_mapIdx, length]) ?_
  intro i key value here
  obtain ⟨u, there, stands⟩ := each.2 i key value here
  rw [Nat.zero_add] at stands
  refine ⟨_, linkSlots_get done place there, ?_⟩
  cases stands with
  | null => exact .none
  | node met own =>
    rw [linkHandle_node own]
    exact .some ⟨_, met, (indices_concat place _).symm⟩
  | @ref id first met earlier =>
    have patched : (⟨place.map Prod.snd, .ofSlot key i⟩ : Patch) ∈ done := by
      refine all _ ((CutTree.mem_allPatches tree.root_not_ref).mpr ⟨_, first, CutTree.find_slot array there, ?_⟩)
      rw [Patch.path, List.map_append]
      rfl
    rw [linkHandle, if_pos patched]
    exact .some ⟨first, met, rfl⟩

theorem isomorphism {done : List Patch} (all : ∀ xref ∈ t.allPatches, xref ∈ done) {heap' : AnyHeap D (List Nat)}
    (linked : Linked t done heap') : Isomorphism (ReadAt visited) heap root heap' (t.placed.handle []) where
  root := by
    have stands := tree.stands
    cases stands with
    | null => exact .none
    | ref met earlier => exact absurd earlier List.not_lex_nil
    | @node id t met own =>
      have handle : t.placed.handle [] = some [] := by
        cases t with
        | leaf id s => cases s <;> rfl
        | array id slots => rfl
        | null => cases own
        | ref first => cases own
      rw [handle]
      exact .some ⟨[], met, rfl⟩
  cell := by
    rintro a _ ⟨place, met, rfl⟩
    obtain ⟨u, found, copies⟩ := tree.copies met
    cases copies with
    | leaf node =>
      rw [node, linked.leaf found]
      exact .leaf _
    | array node each =>
      rw [node, linked.array found]
      exact .branch (tree.slots_match all found each)
  functional := by
    rintro a _ _ ⟨place, met, rfl⟩ ⟨place', met', rfl⟩
    rw [tree.place_unique met met']
  injective := by
    rintro a a' _ ⟨place, met, rfl⟩ ⟨place', met', same⟩
    obtain ⟨u, found, copies⟩ := tree.copies met
    obtain ⟨u', found', copies'⟩ := tree.copies met'
    obtain rfl := CutTree.find_unique found found' same
    rw [found] at found'
    cases found'
    cases copies with
    | leaf => cases copies'; rfl
    | array => cases copies'; rfl

end CutOf

/-! ### The round trip -/

/-- A graph without cycles and doubles, with distinct names and no more slots than a `long` can count. -/
structure Exportable (heap : AnyHeap D α) : Prop where
  acyclic : ∃ rank, Ranked heap rank
  single : ∀ a s, heap a = .leaf s → s.isDouble = false
  distinct : ∀ a, ((heap a).slots.filterMap Prod.fst).Nodup
  short : ∀ a, (heap a).slots.length < 2 ^ 63

/-- Where two slots refer to a node, the names on its first place in the order of the slots can be
written in a reference. -/
def SafeReferences (heap : AnyHeap D α) (root : Option α) : Prop :=
  ∀ b place, Shared heap root b → Leads heap root place b →
    (∀ other, Leads heap root other b → ¬ Before (indices other) (indices place)) → ∀ s ∈ place, s.2.Safe

def GraphRoundTrip [DecidableEq α] (env : Environment D) (erange : Bool) (heap : AnyHeap D α) (root : Option α) (level : Nat) :
    Prop :=
  (∃ fuel, (exportAny env heap fuel root level).isSome = true) ∧
    ∀ fuel text, exportAny env heap fuel root level = some text →
      ∃ heap' root' R, importAny env { context := ⟨text, true⟩, erange := erange } = some (true, heap', root') ∧
        Isomorphism R heap root heap' root'

theorem CutOf.sized {t : CutTree D α} {visited : Visited α} (tree : CutOf heap root t visited)
    (exportable : Exportable heap) : t.Sized := by
  intro place id ts found
  obtain ⟨u, found', copies⟩ := tree.copies (tree.met found rfl)
  rw [found] at found'
  cases found'
  cases copies with
  | @array slots _ node each =>
    have distinct := exportable.distinct id
    have short := exportable.short id
    have length := congrArg List.length each.1
    rw [List.length_map, List.length_map] at length
    rw [node] at distinct short
    rw [filterMap_fst, ← each.1, ← filterMap_fst, ← length]
    exact ⟨distinct, short⟩

theorem CutOf.readable {t : CutTree D α} {visited : Visited α} (tree : CutOf heap root t visited) {erange : Bool}
    (exportable : Exportable heap) (kept : erange = false ∨ ∀ a s, heap a = .leaf s → s.isNumber = false)
    (safe : SafeReferences heap root) : t.Readable erange := by
  obtain ⟨rank, ranked⟩ := exportable.acyclic
  intro place u found
  cases u with
  | null => trivial
  | ref first =>
    obtain ⟨b, met, nonempty, shared⟩ := tree.shared ranked found
    exact ⟨nonempty, safe b first shared (tree.leads met) fun other leads => tree.first ranked met leads⟩
  | leaf a s =>
    obtain ⟨u, found', copies⟩ := tree.copies (tree.met found rfl)
    rw [found] at found'
    cases found'
    cases copies with
    | leaf node => exact ⟨exportable.single a s node, kept.imp id fun none => none a s node⟩
  | array id slots => exact (tree.sized exportable place id slots found).1

theorem import_export [DecidableEq α] (env : Environment D) {erange : Bool} (exportable : Exportable heap)
    (kept : erange = false ∨ ∀ a s, heap a = .leaf s → s.isNumber = false) (safe : SafeReferences heap root) (level : Nat) :
    GraphRoundTrip env erange heap root level := by
  have written : ∀ fuel, exportAny env heap fuel root level =
      (cut heap fuel [] root []).map fun r => r.1.print env level := by
    intro fuel
    rw [exportAny, show ({} : PrinterXref α) = .ofVisited [] [] from rfl, visitAny_eq_cut, Option.map_map]
    rfl
  obtain ⟨rank, ranked⟩ := exportable.acyclic
  refine ⟨⟨root.elim 0 (rank · + 1), ?_⟩, ?_⟩
  · rw [written, Option.isSome_map]
    refine cut_isSome ranked ?_ [] []
    rintro a rfl
    exact Nat.lt_succ_self _
  · intro fuel text exported
    rw [written] at exported
    obtain ⟨⟨t, visited⟩, done, rfl⟩ := Option.map_eq_some_iff.mp exported
    have tree := cut_cutOf done
    have sized := tree.sized exportable
    have target : ∀ place first, t.find place = some (.ref first) →
        first ≠ [] ∧ ∃ u id, t.find first = some u ∧ u.node? = some id := by
      intro place first found
      obtain ⟨b, met, nonempty, -⟩ := tree.shared ranked found
      obtain ⟨u, found', copies⟩ := tree.copies met
      exact ⟨nonempty, u, b, found', by cases copies <;> rfl⟩
    obtain ⟨st, parsed, xrefs⟩ := doParse_cut env level (tree.readable exportable kept safe) tree.root_not_ref
    have linked := linked_patches sized tree.root_not_ref target (fun _ mem => mem) sized.nodup_allPatches
    refine ⟨_, _, ReadAt visited, ?_, tree.isomorphism (fun xref mem => List.mem_reverse.mpr mem) linked⟩
    rw [importAny, parsed, ← xrefs]
    rfl

def sharedArray : AnyHeap Unit (Fin 3)
  | 0 => .branch [(some ⟨ascii "a.b", by decide, by decide⟩, some 1), (none, none), (none, some 1)]
  | 1 => .branch [(none, some 2)]
  | 2 => .leaf (.string (ascii "x\n"))

theorem import_export_sharedArray : Exportable sharedArray ∧ SafeReferences sharedArray (some 0) ∧
    GraphRoundTrip bareEnvironment true sharedArray (some 0) 1 := by
  have leaves : ∀ a s, sharedArray a = .leaf s → s = .string (ascii "x\n") := by
    intro a s node
    obtain ⟨_ | _ | _ | a, bound⟩ := a
    · cases node
    · cases node
    · exact (Cell.leaf.inj node).symm
    · omega
  have slots : ∀ a key b, (key, some b) ∈ (sharedArray a).slots →
      a < b ∧ ∀ k ∈ key, k.text = ascii "a.b" := by
    intro a key b mem
    obtain ⟨_ | _ | _ | a, bound⟩ := a
    · change (key, some b) ∈ [_, _, _] at mem
      simp only [List.mem_cons, Prod.mk.injEq, List.not_mem_nil, or_false] at mem
      rcases mem with ⟨rfl, same⟩ | ⟨rfl, same⟩ | ⟨rfl, same⟩
      · cases same
        exact ⟨Nat.lt_add_one _, by rintro _ ⟨⟩; rfl⟩
      · cases same
      · cases same
        exact ⟨Nat.lt_add_one _, by rintro _ ⟨⟩⟩
    · change (key, some b) ∈ [_] at mem
      simp only [List.mem_singleton, Prod.mk.injEq] at mem
      obtain ⟨rfl, same⟩ := mem
      cases same
      exact ⟨Nat.lt_add_one _, by rintro _ ⟨⟩⟩
    · cases mem
    · omega
  have exportable : Exportable sharedArray := by
    refine ⟨⟨fun a => 2 - a.val, ?_⟩, ?_, by decide, by decide⟩
    · intro a key b mem
      have less := (slots a key b mem).1
      have bound := b.isLt
      show 2 - b.val < 2 - a.val
      omega
    · intro a s node
      rw [leaves a s node]
      rfl
  have safe : SafeReferences sharedArray (some 0) := by
    intro b place shared leads first
    clear shared first
    induction leads with
    | root => rintro _ ⟨⟩
    | @slot _ a b key i _ here ih =>
      rw [List.forall_mem_append, List.forall_mem_singleton]
      refine ⟨ih, ?_⟩
      cases key with
      | none => trivial
      | some k =>
        rw [Level.ofSlot, Level.Safe, (slots a _ b (List.mem_of_getElem? here)).2 k rfl]
        exact ⟨by decide, by decide⟩
  refine ⟨exportable, safe, import_export bareEnvironment exportable (Or.inr ?_) safe 1⟩
  intro a s node
  rw [leaves a s node]
  rfl

def sharedUnder (k : Key) : AnyHeap Unit Bool
  | false => .branch [(some k, some true), (some ⟨ascii "b", by decide, by decide⟩, some true)]
  | true => .leaf (.long 1)

/-- The name `\n` is read as a line break in the reference, which leads nowhere. -/
theorem import_export_backslash :
    Exportable (sharedUnder ⟨ascii "\\n", by decide, by decide⟩) ∧
    ¬ GraphRoundTrip bareEnvironment false (sharedUnder ⟨ascii "\\n", by decide, by decide⟩) (some false) 0 := by
  constructor
  · refine ⟨⟨fun a => if a then 0 else 1, ?_⟩, ?_, by decide, by decide⟩
    · rintro (_ | _) k b mem
      · simp only [sharedUnder, Cell.slots, List.mem_cons, Prod.mk.injEq, List.not_mem_nil, or_false] at mem
        rcases mem with ⟨-, same⟩ | ⟨-, same⟩ <;> cases same <;> decide
      · cases mem
    · rintro (_ | _) s node <;> cases node
      rfl
  · rintro ⟨-, trip⟩
    obtain ⟨heap', root', R, imported, iso⟩ := trip 3 (ascii "\x7b\n  /\\n 1\n  /b %\"\\n\"\n\x7d") (by decide +kernel)
    have evaluated : (importAny bareEnvironment
        { context := ⟨ascii "\x7b\n  /\\n 1\n  /b %\"\\n\"\n\x7d", true⟩, erange := false }).map
        (fun r => (r.2.2, (r.2.1 []).slots.map Prod.snd)) = some (some [], [some [0], some [1]]) := by decide +kernel
    rw [imported, Option.map_some, Option.some.injEq, Prod.mk.injEq] at evaluated
    obtain ⟨root, slots⟩ := evaluated
    have roots := iso.root
    rw [show root' = some [] from root] at roots
    cases roots with
    | some related =>
      have both := (iso.cell related).slots
      generalize (heap' []).slots = ys at both slots
      -- the two slots refer to different nodes
      obtain _ | ⟨⟨-, first⟩, _ | ⟨⟨-, second⟩, _⟩⟩ := both
      simp only [List.map_cons, List.cons.injEq] at slots
      rw [slots.1] at first
      rw [slots.2.1] at second
      cases first with
      | some one =>
        cases second with
        | some two => cases iso.functional one two

end Coast
