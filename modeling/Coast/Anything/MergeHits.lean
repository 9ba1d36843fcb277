import Coast.Anything.MergeSimple

/-!
# The hits of a merge

A merge counts the simple values that the master has already. A tree of which the master has all of them is merged
without a change, and a master's array that an unnamed array has won stays the winner.
-/

namespace Coast.Any

variable {S A : Type}

/-! ### Winning again -/

theorem winner_again {anyMasterIdx : List Nat} {hits hits' : Nat → Nat} {i : Nat} (arrays : anyMasterIdx ≠ []) {w most : Nat} (wins : winner (anyMasterIdx.map fun m => (m, hits m)) i = w)
    (bound : ∀ m ∈ anyMasterIdx, hits m ≤ most) (won : hits' w = most) (others : ∀ m ∈ anyMasterIdx, m ≠ w → hits' m = hits m) :
    winner (anyMasterIdx.map fun m => (m, hits' m)) i = w := by
  by_cases before : hits w = most
  · have same : ∀ m ∈ anyMasterIdx, (m, hits' m) = (m, hits m) := by
      intro m mem
      by_cases here : m = w
      · rw [here, won, before]
      · rw [others m mem here]
    rw [List.map_congr_left same, wins]
  · obtain ⟨inside, highest⟩ := winner_highest hits i arrays
    obtain ⟨inside', highest'⟩ := winner_highest hits' i arrays
    rw [wins] at inside highest
    by_contra other
    have less := highest _ inside'
    have atMost := bound w inside
    have more := highest' w inside
    rw [won, others _ inside' other] at more
    omega

/-! ### Hits -/

mutual

def leaves : Any S A → Nat
  | array _ slots => leavesOf slots
  | _ => 1

def leavesOf : List (Option Bytes × Any S A) → Nat
  | [] => 0
  | (name, value) :: slots =>
    (if value.isArray then if name.getD [] = [] then 0 else leaves value else if name.getD [] = [] then 1 else 0) + leavesOf slots

end

section Hits

variable {conv : Conversions S} {mark : A} {bOverwriteSlots bTest : Bool} {anyMasterIdx : List Nat} {i n : Nat} {name : Option Bytes}
  {value c : Any S A}

theorem mergeSlot_hits : (mergeSlot conv mark bOverwriteSlots bTest anyMasterIdx i (name, value) (n, c)).1 =
    n + if value.isArray then if name.getD [] = [] then 0 else
        if c.isDefined (name.getD []) then (doAnyMerge conv mark bOverwriteSlots bTest value (c.named (name.getD []))).1 else 0
      else if name.getD [] = [] then if c.contains conv (value.asString conv) then 1 else 0 else 0 := by
  rw [mergeSlot, mergeSlots, mergeSlots]
  cases value.isArray with
  | false =>
    rw [if_pos rfl, if_neg Bool.false_ne_true]
    by_cases unnamed : name.getD [] = []
    · rw [if_neg fun named => named unnamed, if_pos unnamed]
      split <;> rfl
    · rw [if_pos unnamed, if_neg unnamed]
      split <;> rfl
  | true =>
    rw [if_neg Bool.noConfusion, if_pos rfl]
    by_cases unnamed : name.getD [] = []
    · rw [if_pos unnamed, if_pos unnamed]
      split <;> rfl
    · rw [if_neg unnamed, if_neg unnamed]
      split <;> rfl

theorem mergeSlots_hits_le {slots : List (Option Bytes × Any S A)}
    (below : ∀ slot ∈ slots, ∀ c, (doAnyMerge conv mark bOverwriteSlots bTest slot.2 c).1 ≤ leaves slot.2) (r : Nat × Any S A) :
    (mergeSlots conv mark bOverwriteSlots bTest anyMasterIdx i slots r).1 ≤ r.1 + leavesOf slots := by
  induction slots generalizing i r with
  | nil => rw [mergeSlots, leavesOf, Nat.add_zero]
  | cons slot slots ih =>
    obtain ⟨name, value⟩ := slot
    obtain ⟨n, c⟩ := r
    have here := below _ List.mem_cons_self (c.named (name.getD []))
    have rest := ih (fun slot mem => below slot (List.mem_cons_of_mem _ mem)) (i := i + 1)
      (mergeSlot conv mark bOverwriteSlots bTest anyMasterIdx i (name, value) (n, c))
    rw [mergeSlot_hits] at rest
    rw [mergeSlots_cons, leavesOf]
    refine rest.trans ?_
    dsimp only at here ⊢
    split <;> split <;> (try split) <;> omega

theorem doAnyMerge_hits_le (roaToMerge c : Any S A) : (doAnyMerge conv mark bOverwriteSlots bTest roaToMerge c).1 ≤ leaves roaToMerge := by
  induction roaToMerge using induct generalizing c with
  | leaf v leaf =>
    cases v with
    | null =>
      rw [doAnyMerge, leaves]
      · split <;> simp
      · simp
    | simple s =>
      rw [doAnyMerge, leaves]
      · split <;> simp
      · simp
    | array m slots => cases leaf
  | array m slots ih =>
    rw [doAnyMerge, leaves]
    exact (mergeSlots_hits_le ih (0, c)).trans_eq (Nat.zero_add _)

end Hits

/-! ### Nothing left to do -/

section Settled

variable (conv : Conversions S) (mark : A) (bOverwriteSlots : Bool)

def Settled (value c : Any S A) : Prop := ∀ bTest, doAnyMerge conv mark bOverwriteSlots bTest value c = (leaves value, c)

/-- What the pass over the slot `i` would make is there. -/
def Passed (i : Nat) (slot : Option Bytes × Any S A) (c : Any S A) : Prop :=
  match slot.1 with
  | some k => c.isDefined k = true ∧ if slot.2.isArray then Settled conv mark bOverwriteSlots slot.2 (c.named k)
      else bOverwriteSlots = true → c.named k = slot.2.deepClone mark
  | none => if slot.2.isArray then c.masterIndices ≠ [] ∧ Settled conv mark bOverwriteSlots slot.2
        (c.child (target conv mark bOverwriteSlots c.masterIndices i slot.2 c))
      else c.isArray = true ∧ c.contains conv (slot.2.asString conv) = true

variable {conv mark bOverwriteSlots} {slot : Option Bytes × Any S A} {slots : List (Option Bytes × Any S A)} {c : Any S A} {i : Nat}

theorem Passed.again (passed : Passed conv mark bOverwriteSlots i slot c) (plain : slot.1 ≠ some []) (bTest : Bool) (n : Nat) :
    mergeSlot conv mark bOverwriteSlots bTest c.masterIndices i slot (n, c) = (n + leavesOf [slot], c) := by
  obtain ⟨name, value⟩ := slot
  apply Prod.ext
  · rw [mergeSlot_hits, leavesOf, leavesOf, Nat.add_zero]
    cases name with
    | none =>
      cases isArray : value.isArray with
      | true => rfl
      | false =>
        simp only [Passed, isArray, Bool.false_eq_true, if_false] at passed
        simp [passed.2]
    | some k =>
      have named : k ≠ [] := fun empty => plain (congrArg some empty)
      cases isArray : value.isArray with
      | true =>
        simp only [Passed, isArray, if_true] at passed
        simp [named, passed.1, passed.2 bTest]
      | false => simp [named]
  · rw [mergeSlot_cases]
    cases name with
    | none =>
      cases isArray : value.isArray with
      | true =>
        simp only [Passed, isArray, if_true] at passed
        obtain ⟨arrays, settled⟩ := passed
        have kept := modifyChild_congr (f := fun m => (doAnyMerge conv mark bOverwriteSlots bTest value m).2) (g := id)
          (congrArg Prod.snd (settled bTest))
        rw [modifyChild_id] at kept
        simp [arrays, kept]
      | false =>
        simp only [Passed, isArray, Bool.false_eq_true, if_false] at passed
        simp [passed.2]
    | some k =>
      have named : k ≠ [] := fun empty => plain (congrArg some empty)
      cases isArray : value.isArray with
      | true =>
        simp only [Passed, isArray, if_true] at passed
        obtain ⟨defined, settled⟩ := passed
        have kept : (c.withName mark k fun _ => c.named k) = c := AnyUtils.withName_named named defined
        simp [named, defined, settled bTest, kept]
      | false =>
        simp only [Passed, isArray, Bool.false_eq_true, if_false] at passed
        obtain ⟨defined, same⟩ := passed
        simp only [Option.getD_some, ne_eq, named, not_false_eq_true, if_true, defined, Bool.true_eq_false, false_or]
        split
        · rename_i overwrite
          rw [← same overwrite.2]
          exact AnyUtils.withName_named named defined
        · rfl

theorem settled_of_passed {m : A} (plain : ∀ slot ∈ slots, slot.1 ≠ some [])
    (passed : ∀ j slot, slots[j]? = some slot → Passed conv mark bOverwriteSlots j slot c) :
    Settled conv mark bOverwriteSlots (array m slots) c := by
  intro bTest
  rw [doAnyMerge, leaves]
  have run : ∀ rest i n, (∀ j, rest[j]? = slots[i + j]?) →
      mergeSlots conv mark bOverwriteSlots bTest c.masterIndices i rest (n, c) = (n + leavesOf rest, c) := by
    intro rest
    induction rest with
    | nil =>
      intro i n same
      rw [mergeSlots, leavesOf, Nat.add_zero]
    | cons slot rest ih =>
      intro i n same
      have here : slots[i]? = some slot := (same 0).symm
      rw [mergeSlots_cons, (passed i slot here).again (plain slot (List.mem_of_getElem? here)), ih (i + 1)]
      · simp [leavesOf, Nat.add_assoc]
      · intro j
        rw [Nat.add_right_comm, Nat.add_assoc, ← same (j + 1)]
        rfl
  rw [run slots 0 0 fun j => by rw [Nat.zero_add], Nat.zero_add]

end Settled

end Coast.Any
