import Coast.Lib.Pool
import Coast.Memory.PoolAllocator
import Mathlib.Data.Nat.Log

/-!
# The trackers of the excess memory

Blocks that are not from the pool are booked by their size: `operator[]` finds the tracker of a size, or makes
one and puts it into the list. `Alloc` and `Free` each ask for the tracker again. A class is the exponent of the
power of two that a size is rounded up to.
-/

namespace Coast.Memory

/-- An element of the list; the trackers themselves are numbered. The root is there from the beginning, without a
tracker and with size 0. -/
structure ExcessTrackerElt where
  fTracker : Option Nat
  fulPayloadSize : Nat
  deriving DecidableEq, Repr

/-- The loop of `GetSizeToPowerOf2`: the bits that are set, and the bits. -/
def countBits : Nat → Nat → Nat × Nat → Nat × Nat
  | 0, _, counts => counts
  | bits + 1, ulWishSize, (lBitCnt, lMaxBit) =>
    if ulWishSize = 0 then (lBitCnt, lMaxBit)
    else countBits bits (ulWishSize / 2) (lBitCnt + ulWishSize % 2, lMaxBit + 1)

def getSizeToPowerOf2 (ulWishSize : Nat) : Nat :=
  let (lBitCnt, lMaxBit) := countBits 64 ulWishSize (0, 0)
  2 ^ (if lBitCnt = 1 then lMaxBit - 1 else lMaxBit)

def findTracker (ulPayloadSize : Nat) : List ExcessTrackerElt → Option Nat
  | [] => none
  | elt :: next =>
    if ulPayloadSize ≤ elt.fulPayloadSize then
      if max (elt.fulPayloadSize / 2) fgMinPayloadSize < ulPayloadSize then elt.fTracker else none
    else findTracker ulPayloadSize next

def findTrackerForSize (ulPayloadSize : Nat) (elts : List ExcessTrackerElt) : Option Nat :=
  findTracker (max ulPayloadSize fgMinPayloadSize) elts

/-- The elements that the loop of `InsertTrackerForSize` passes, and the others. -/
def passSmaller (ulPayloadSize : Nat) (elts : List ExcessTrackerElt) : List ExcessTrackerElt × List ExcessTrackerElt :=
  elts.span fun elt => 0 < elt.fulPayloadSize && elt.fulPayloadSize ≤ ulPayloadSize

def insertTrackerForSize (tracker ulPayloadSize : Nat) (elts : List ExcessTrackerElt) : List ExcessTrackerElt :=
  let elt : ExcessTrackerElt := ⟨some tracker, max ulPayloadSize fgMinPayloadSize⟩
  match passSmaller (max ulPayloadSize fgMinPayloadSize) elts with
  | ([], []) => []
  | ([], root :: next) => if 0 < root.fulPayloadSize then elt :: root :: next else [elt]
  | (smaller, larger) => smaller ++ elt :: larger

structure ExcessTrackers where
  elts : List ExcessTrackerElt
  trackers : List MemTracker
  deriving DecidableEq, Repr

namespace ExcessTrackers

def new : ExcessTrackers := ⟨[⟨none, 0⟩], []⟩

/-- `operator[]`. -/
def trackerOf (ulPayloadSize : Nat) (s : ExcessTrackers) : Nat × ExcessTrackers :=
  let ulWishSize := max (getSizeToPowerOf2 ulPayloadSize) fgMinPayloadSize
  match findTrackerForSize ulWishSize s.elts with
  | some tracker => (tracker, s)
  | none => (s.trackers.length, ⟨insertTrackerForSize s.trackers.length ulWishSize s.elts, s.trackers ++ [.counting 0]⟩)

def tracked (s : ExcessTrackers) : List MemTracker := s.elts.filterMap fun elt => elt.fTracker.bind fun t => s.trackers[t]?

def currentlyAllocated (s : ExcessTrackers) : Nat :=
  s.tracked.foldl (fun llTotal tracker => (llTotal + tracker.currentlyAllocated) % 2 ^ 64) 0

def book (f : MemTracker → MemTracker) (tracker : Nat) (s : ExcessTrackers) : ExcessTrackers :=
  { s with trackers := s.trackers.modify tracker f }

end ExcessTrackers

structure PayloadSize where
  bytes : Nat
  inside : bytes ≤ 2 ^ 62
  deriving DecidableEq, Repr

structure ExcessBlock where
  size : PayloadSize
  object : Nat
  deriving DecidableEq, Repr

def ExcessBlock.mh (b : ExcessBlock) : MemoryHeader := ⟨some b.object, 0, b.size.bytes⟩

/-- What a pool does with its excess trackers: an allocation and a free of a block that is live, or a call of
`operator[]` alone. -/
inductive ExcessEvent where
  | ask (size : PayloadSize)
  | alloc (block : ExcessBlock)
  | free (place : Nat)
  deriving DecidableEq, Repr

/-- The calls of `operator[]` with the trackers that they gave, the last call first. -/
structure ExcessOwner where
  excess : ExcessTrackers
  live : List ExcessBlock
  calls : List (Nat × Nat)
  deriving DecidableEq, Repr

namespace ExcessOwner

def new : ExcessOwner := ⟨.new, [], []⟩

/-- `operator[]`, and what is done with the tracker. -/
def call (ulPayloadSize : Nat) (f : MemTracker → MemTracker) (o : ExcessOwner) : ExcessOwner :=
  let (tracker, excess) := o.excess.trackerOf ulPayloadSize
  { o with excess := excess.book f tracker, calls := (ulPayloadSize, tracker) :: o.calls }

def step (o : ExcessOwner) : ExcessEvent → ExcessOwner
  | .ask size => o.call size.bytes id
  | .alloc block => { o.call block.size.bytes (·.trackAlloc block.mh) with live := block :: o.live }
  | .free place =>
    match o.live[place]? with
    | some block => { o.call block.size.bytes (·.trackFree block.mh) with live := o.live.eraseIdx place }
    | none => o

def run (events : List ExcessEvent) : ExcessOwner := events.foldl step new

end ExcessOwner

/-! ### The power of two of a size -/

theorem countBits_eq (bits : Nat) : ∀ {n : Nat} (b m : Nat), 0 < n → n < 2 ^ bits →
    ∃ k c, countBits bits n (b, m) = (b + c, m + (k + 1)) ∧ 2 ^ k ≤ n ∧ n < 2 ^ (k + 1) ∧ 1 ≤ c ∧ (c = 1 ↔ n = 2 ^ k) := by
  induction bits with
  | zero =>
    intro n b m positive small
    omega
  | succ bits ih =>
    intro n b m positive small
    rw [countBits, if_neg (by omega)]
    by_cases last : n / 2 = 0
    · have one : n = 1 := by omega
      subst one
      refine ⟨0, 1, ?_, by decide, by decide, le_refl 1, by decide⟩
      cases bits <;> rfl
    · obtain ⟨k, c, counted, low, high, some, single⟩ := ih (b + n % 2) (m + 1) (Nat.pos_of_ne_zero last) (by omega)
      refine ⟨k + 1, n % 2 + c, ?_, by omega, by omega, by omega, ?_⟩
      · rw [counted, Nat.add_assoc, Nat.add_assoc, Nat.add_comm 1 (k + 1)]
      · rw [Nat.pow_succ]
        omega

theorem getSizeToPowerOf2_eq {n : Nat} (small : n < 2 ^ 64) : getSizeToPowerOf2 n = 2 ^ Nat.clog 2 n := by
  rw [getSizeToPowerOf2]
  by_cases zero : n = 0
  · subst zero
    rfl
  · obtain ⟨k, c, counted, low, high, -, single⟩ := countBits_eq 64 0 0 (Nat.pos_of_ne_zero zero) small
    rw [counted]
    dsimp only
    rw [Nat.zero_add, Nat.zero_add, Nat.add_sub_cancel]
    by_cases exact : n = 2 ^ k
    · rw [if_pos (single.mpr exact), exact, Nat.clog_pow 2 k (by decide)]
    · have above : k < Nat.clog 2 n := (Nat.lt_clog_iff_pow_lt (by decide)).mpr (by omega)
      have below : Nat.clog 2 n ≤ k + 1 := Nat.clog_le_of_le_pow high.le
      have next : Nat.clog 2 n = k + 1 := by omega
      rw [if_neg fun one => exact (single.mp one), next]

def sizeClass (n : Nat) : Nat := max (Nat.clog 2 n) 4

theorem four_le_sizeClass (n : Nat) : 4 ≤ sizeClass n := le_max_right _ _

theorem sizeClass_eq_four {n : Nat} : sizeClass n = 4 ↔ n ≤ 16 := by
  have least : Nat.clog 2 n ≤ 4 ↔ n ≤ 16 := Nat.clog_le_iff_le_pow (by decide)
  rw [sizeClass, max_eq_right_iff, least]

theorem wishSize_eq {n : Nat} (small : n < 2 ^ 64) : max (getSizeToPowerOf2 n) fgMinPayloadSize = 2 ^ sizeClass n := by
  have sixteen : fgMinPayloadSize = 2 ^ 4 := rfl
  rw [getSizeToPowerOf2_eq small, sizeClass, sixteen]
  rcases le_total (Nat.clog 2 n) 4 with le | le
  · rw [max_eq_right le, max_eq_right (Nat.pow_le_pow_right (by decide) le)]
  · rw [max_eq_left le, max_eq_left (Nat.pow_le_pow_right (by decide) le)]

/-! ### The list as a list of classes -/

def eltOf (entry : Nat × Nat) : ExcessTrackerElt := ⟨some entry.1, 2 ^ entry.2⟩

def eltsOf : List (Nat × Nat) → List ExcessTrackerElt
  | [] => [⟨none, 0⟩]
  | entries => entries.map eltOf

theorem eltsOf_cons (entry : Nat × Nat) (entries : List (Nat × Nat)) : eltsOf (entry :: entries) = (entry :: entries).map eltOf := rfl

theorem eltsOf_of_ne_nil {entries : List (Nat × Nat)} (some : entries ≠ []) : eltsOf entries = entries.map eltOf := by
  cases entries with
  | nil => exact absurd rfl some
  | cons entry entries => rfl

def Ascending (entries : List (Nat × Nat)) : Prop := entries.Pairwise fun a b => a.2 < b.2 ∨ a.2 = 4 ∧ b.2 = 4

theorem findTracker_map {entries : List (Nat × Nat)} {k : Nat} (ascending : Ascending entries)
    (least : ∀ entry ∈ entries, 4 ≤ entry.2) :
    findTracker (2 ^ k) (entries.map eltOf) = if 4 < k then (entries.find? fun entry => entry.2 = k).map Prod.fst else none := by
  induction entries with
  | nil => simp [findTracker]
  | cons entry entries ih =>
    obtain ⟨above, rest⟩ := List.pairwise_cons.mp ascending
    have here := least entry List.mem_cons_self
    obtain ⟨j, class_⟩ : ∃ j, entry.2 = j + 1 := ⟨entry.2 - 1, by omega⟩
    have half : max (2 ^ (j + 1) / 2) fgMinPayloadSize = 2 ^ max j 4 := by
      have sixteen : fgMinPayloadSize = 2 ^ 4 := rfl
      rw [Nat.pow_succ, Nat.mul_div_cancel _ (by decide), sixteen]
      rcases le_total j 4 with le | le
      · rw [max_eq_right le, max_eq_right (Nat.pow_le_pow_right (by decide) le)]
      · rw [max_eq_left le, max_eq_left (Nat.pow_le_pow_right (by decide) le)]
    have reach : 2 ^ k ≤ (eltOf entry).fulPayloadSize ↔ k ≤ entry.2 := Nat.pow_le_pow_iff_right (by decide)
    have range : max ((eltOf entry).fulPayloadSize / 2) fgMinPayloadSize < 2 ^ k ↔ max j 4 < k := by
      rw [eltOf, class_, half]
      exact Nat.pow_lt_pow_iff_right (by decide)
    rw [List.map_cons, findTracker]
    simp only [reach, range]
    by_cases inside : k ≤ entry.2
    · rw [if_pos inside]
      by_cases same : entry.2 = k
      · by_cases large : 4 < k
        · rw [if_pos (by omega), if_pos large, List.find?_cons_of_pos (by simpa using same)]
          rfl
        · rw [if_neg (by omega), if_neg large]
      · have none : (entry :: entries).find? (fun entry => entry.2 = k) = none := by
          rw [List.find?_eq_none]
          intro other mem
          rw [decide_eq_true_eq]
          rcases List.mem_cons.mp mem with rfl | later
          · exact same
          · have order := above other later
            omega
        rw [if_neg (by omega), none]
        simp
    · rw [if_neg inside, ih rest fun other mem => least other (List.mem_cons_of_mem _ mem),
        List.find?_cons_of_neg (by simp; omega)]

theorem findTrackerForSize_eltsOf {entries : List (Nat × Nat)} {k : Nat} (ascending : Ascending entries)
    (least : ∀ entry ∈ entries, 4 ≤ entry.2) (class_ : 4 ≤ k) :
    findTrackerForSize (2 ^ k) (eltsOf entries) = if 4 < k then (entries.find? fun entry => entry.2 = k).map Prod.fst else none := by
  have clamped : max (2 ^ k) fgMinPayloadSize = 2 ^ k := max_eq_left (Nat.pow_le_pow_right Nat.two_pos class_)
  rw [findTrackerForSize, clamped]
  cases entries with
  | nil =>
    have positive : ¬ 2 ^ k ≤ 0 := by simp
    simp [eltsOf, findTracker, positive]
  | cons entry entries => exact findTracker_map ascending least

def insertEntry (tracker k : Nat) (entries : List (Nat × Nat)) : List (Nat × Nat) :=
  entries.takeWhile (fun entry => entry.2 ≤ k) ++ (tracker, k) :: entries.dropWhile fun entry => entry.2 ≤ k

theorem insertTrackerForSize_eltsOf (tracker k : Nat) (entries : List (Nat × Nat)) (class_ : 4 ≤ k) :
    insertTrackerForSize tracker (2 ^ k) (eltsOf entries) = eltsOf (insertEntry tracker k entries) := by
  have clamped : max (2 ^ k) fgMinPayloadSize = 2 ^ k := max_eq_left (Nat.pow_le_pow_right Nat.two_pos class_)
  have full : insertEntry tracker k entries ≠ [] := by simp [insertEntry]
  rw [insertTrackerForSize, clamped, eltsOf_of_ne_nil full]
  cases entries with
  | nil => rfl
  | cons entry entries =>
    have passes : (fun elt : ExcessTrackerElt => 0 < elt.fulPayloadSize && elt.fulPayloadSize ≤ 2 ^ k) ∘ eltOf =
        fun entry => decide (entry.2 ≤ k) := by
      funext entry
      have reach : 2 ^ entry.2 ≤ 2 ^ k ↔ entry.2 ≤ k := Nat.pow_le_pow_iff_right (by decide)
      simp [eltOf, reach, Nat.two_pow_pos]
    rw [eltsOf_cons, passSmaller, List.span_eq_takeWhile_dropWhile, List.takeWhile_map, List.dropWhile_map, passes, insertEntry,
      List.map_append, List.map_cons]
    cases smaller : (entry :: entries).takeWhile fun entry => entry.2 ≤ k with
    | nil =>
      cases larger : (entry :: entries).dropWhile fun entry => entry.2 ≤ k with
      | nil =>
        have both := List.takeWhile_append_dropWhile (p := fun entry : Nat × Nat => decide (entry.2 ≤ k)) (l := entry :: entries)
        rw [smaller, larger] at both
        cases both
      | cons root next =>
        have used : 0 < (eltOf root).fulPayloadSize := Nat.two_pow_pos root.2
        simp only [List.map_nil, List.map_cons]
        rw [if_pos used]
        rfl
    | cons first smaller => rfl

/-! ### What is booked -/

def MemTracker.fAllocated : MemTracker → Int
  | null => 0
  | counting fAllocated => fAllocated

def MemTracker.Counting (tracker : MemTracker) : Prop := ∃ n, tracker = counting n

structure Listed (s : ExcessTrackers) (entries : List (Nat × Nat)) : Prop where
  elts : s.elts = eltsOf entries
  ascending : Ascending entries
  least : ∀ entry ∈ entries, 4 ≤ entry.2
  numbers : (entries.map Prod.fst).Perm (List.range s.trackers.length)
  counting : ∀ tracker ∈ s.trackers, tracker.Counting

def booked (trackers : List MemTracker) (p : Nat → Bool) (entry : Nat × Nat) : Int :=
  if p entry.2 then ((trackers[entry.1]?).map MemTracker.fAllocated).getD 0 else 0

namespace Listed

variable {s : ExcessTrackers} {entries : List (Nat × Nat)} {n : Nat}

theorem new : Listed ExcessTrackers.new [] := ⟨rfl, .nil, by simp, by simp [ExcessTrackers.new], by simp [ExcessTrackers.new]⟩

theorem number_lt (listed : Listed s entries) {entry : Nat × Nat} (mem : entry ∈ entries) : entry.1 < s.trackers.length :=
  List.mem_range.mp (listed.numbers.mem_iff.mp (List.mem_map_of_mem mem))

theorem insertEntry_perm (tracker k : Nat) (entries : List (Nat × Nat)) :
    (insertEntry tracker k entries).Perm ((tracker, k) :: entries) := by
  rw [insertEntry]
  refine List.perm_middle.trans ?_
  rw [List.takeWhile_append_dropWhile]

theorem insertEntry_ascending {tracker k : Nat} (ascending : Ascending entries) (least : ∀ entry ∈ entries, 4 ≤ entry.2)
    (fresh : k = 4 ∨ ∀ entry ∈ entries, entry.2 ≠ k) : Ascending (insertEntry tracker k entries) := by
  induction entries with
  | nil => exact List.pairwise_singleton _ _
  | cons entry entries ih =>
    obtain ⟨above, rest⟩ := List.pairwise_cons.mp ascending
    have here := least entry List.mem_cons_self
    by_cases passed : entry.2 ≤ k
    · have moved : insertEntry tracker k (entry :: entries) = entry :: insertEntry tracker k entries := by
        simp [insertEntry, passed]
      rw [moved]
      refine List.pairwise_cons.mpr ⟨?_, ih rest (fun other mem => least other (List.mem_cons_of_mem _ mem))
        (fresh.imp_right fun all other mem => all other (List.mem_cons_of_mem _ mem))⟩
      intro other mem
      rcases List.mem_cons.mp ((insertEntry_perm tracker k entries).mem_iff.mp mem) with rfl | old
      · rcases fresh with rfl | fresh
        · exact .inr ⟨by omega, rfl⟩
        · have apart := fresh entry List.mem_cons_self
          exact .inl (by omega)
      · exact above other old
    · have stopped : insertEntry tracker k (entry :: entries) = (tracker, k) :: entry :: entries := by
        simp [insertEntry, passed]
      rw [stopped]
      refine List.pairwise_cons.mpr ⟨?_, ascending⟩
      intro other mem
      rcases List.mem_cons.mp mem with rfl | later
      · exact .inl (by omega)
      · have order := above other later
        exact .inl (by omega)

theorem trackerOf (listed : Listed s entries) (small : n < 2 ^ 64) :
    4 < sizeClass n ∧ ((s.trackerOf n).1, sizeClass n) ∈ entries ∧ (s.trackerOf n).2 = s ∨
      (sizeClass n = 4 ∨ ∀ entry ∈ entries, entry.2 ≠ sizeClass n) ∧ (s.trackerOf n).1 = s.trackers.length ∧
        Listed (s.trackerOf n).2 (insertEntry s.trackers.length (sizeClass n) entries) ∧
        (s.trackerOf n).2.trackers = s.trackers ++ [.counting 0] := by
  have least := four_le_sizeClass n
  have found := findTrackerForSize_eltsOf listed.ascending listed.least least
  have inserted := insertTrackerForSize_eltsOf s.trackers.length (sizeClass n) entries least
  rw [← listed.elts] at found inserted
  have makes : (sizeClass n = 4 ∨ ∀ entry ∈ entries, entry.2 ≠ sizeClass n) →
      Listed ⟨insertTrackerForSize s.trackers.length (2 ^ sizeClass n) s.elts, s.trackers ++ [.counting 0]⟩
        (insertEntry s.trackers.length (sizeClass n) entries) := by
    intro fresh
    refine ⟨inserted, insertEntry_ascending listed.ascending listed.least fresh, ?_, ?_, ?_⟩
    · intro entry mem
      rcases List.mem_cons.mp ((insertEntry_perm _ _ entries).mem_iff.mp mem) with rfl | old
      · exact least
      · exact listed.least entry old
    · rw [List.length_append, List.length_singleton, List.range_succ]
      refine ((insertEntry_perm _ _ entries).map Prod.fst).trans ?_
      rw [List.map_cons]
      exact (listed.numbers.cons _).trans (List.perm_append_singleton _ _).symm
    · intro tracker mem
      rcases List.mem_append.mp mem with old | made
      · exact listed.counting tracker old
      · exact ⟨0, List.mem_singleton.mp made⟩
  rw [ExcessTrackers.trackerOf, wishSize_eq small, found]
  by_cases large : 4 < sizeClass n
  · rw [if_pos large]
    cases here : entries.find? fun entry => entry.2 = sizeClass n with
    | some entry =>
      have same : entry.2 = sizeClass n := by simpa using List.find?_some here
      exact .inl ⟨large, same ▸ List.mem_of_find?_eq_some here, rfl⟩
    | none =>
      have absent : ∀ entry ∈ entries, entry.2 ≠ sizeClass n := by simpa using List.find?_eq_none.mp here
      exact .inr ⟨.inr absent, rfl, makes (.inr absent), rfl⟩
  · rw [if_neg large]
    have smallest : sizeClass n = 4 := by omega
    exact .inr ⟨.inl smallest, rfl, makes (.inl smallest), rfl⟩

end Listed

section Totals

variable {trackers : List MemTracker} {entries : List (Nat × Nat)} {p : Nat → Bool}

theorem total_congr {ι : Type} {f g : ι → Int} {l : List ι} (same : ∀ x ∈ l, f x = g x) : Pool.total f l = Pool.total g l :=
  congrArg List.sum (List.map_congr_left same)

theorem total_perm {ι : Type} {f : ι → Int} {l l' : List ι} (perm : l.Perm l') : Pool.total f l = Pool.total f l' :=
  (perm.map f).sum_eq

theorem total_number {f : Nat × Nat → Int} {entry : Nat × Nat} (distinct : (entries.map Prod.fst).Nodup) (mem : entry ∈ entries) :
    Pool.total (fun other => if other.1 = entry.1 then f other else 0) entries = f entry := by
  induction entries with
  | nil => cases mem
  | cons first entries ih =>
    obtain ⟨fresh, rest⟩ := List.nodup_cons.mp distinct
    rw [Pool.total_cons]
    by_cases here : first = entry
    · subst here
      have others : Pool.total (fun other => if other.1 = first.1 then f other else 0) entries = Pool.total (fun _ => 0) entries :=
        total_congr fun other inside => if_neg fun same => fresh (List.mem_map.mpr ⟨other, inside, same⟩)
      rw [if_pos rfl, others]
      simp [Pool.total]
    · have later : entry ∈ entries := (List.mem_cons.mp mem).resolve_left fun same => here same.symm
      have apart : first.1 ≠ entry.1 := fun same => fresh (List.mem_map.mpr ⟨entry, later, same.symm⟩)
      rw [if_neg apart, ih rest later, zero_add]

theorem total_class {entry : Nat × Nat} (ascending : entries.Pairwise fun a b => a.2 < b.2) (mem : entry ∈ entries) :
    Pool.total (booked trackers fun k => k = entry.2) entries = booked trackers (fun _ => true) entry := by
  induction entries with
  | nil => cases mem
  | cons first entries ih =>
    obtain ⟨above, rest⟩ := List.pairwise_cons.mp ascending
    rw [Pool.total_cons]
    rcases List.mem_cons.mp mem with rfl | later
    · have others : Pool.total (booked trackers fun k => k = entry.2) entries = Pool.total (fun _ => 0) entries := by
        refine total_congr fun other inside => ?_
        have order := above other inside
        rw [booked, if_neg (by simp; omega)]
      rw [others]
      simp [Pool.total, booked]
    · have order := above entry later
      rw [booked, if_neg (by simp; omega), ih rest later, zero_add]

end Totals

namespace Listed

variable {s : ExcessTrackers} {entries : List (Nat × Nat)} {n : Nat}

theorem distinct (listed : Listed s entries) : (entries.map Prod.fst).Nodup :=
  listed.numbers.nodup_iff.mpr List.nodup_range

theorem book (listed : Listed s entries) {f : MemTracker → MemTracker} {change : Int}
    (changes : ∀ a, f (.counting a) = .counting (a + change)) {entry : Nat × Nat} (mem : entry ∈ entries) :
    Listed (s.book f entry.1) entries ∧ ∀ p, Pool.total (booked (s.book f entry.1).trackers p) entries =
      Pool.total (booked s.trackers p) entries + if p entry.2 then change else 0 := by
  have known : ∀ other ∈ entries, ∃ a, s.trackers[other.1]? = some (.counting a) := by
    intro other inside
    have lt := listed.number_lt inside
    obtain ⟨a, counts⟩ := listed.counting _ (List.getElem_mem lt)
    exact ⟨a, by rw [List.getElem?_eq_getElem lt, counts]⟩
  constructor
  · refine ⟨listed.elts, listed.ascending, listed.least, ?_, ?_⟩
    · rw [ExcessTrackers.book, List.length_modify]
      exact listed.numbers
    · intro tracker inside
      obtain ⟨i, here⟩ := List.mem_iff_getElem?.mp inside
      rw [ExcessTrackers.book, List.getElem?_modify] at here
      obtain ⟨old, there, rfl⟩ := Option.map_eq_some_iff.mp here
      obtain ⟨a, rfl⟩ := listed.counting old (List.mem_of_getElem? there)
      split
      · exact ⟨a + change, changes a⟩
      · exact ⟨a, rfl⟩
  · intro p
    have single := @total_number entries (fun other => if p other.2 then change else 0) entry listed.distinct mem
    rw [← single, ← Pool.total_add]
    refine total_congr fun other inside => ?_
    obtain ⟨a, here⟩ := known other inside
    rw [booked, booked, ExcessTrackers.book, List.getElem?_modify, here]
    by_cases asked : p other.2
    · rw [if_pos asked, if_pos asked, if_pos asked]
      by_cases same : entry.1 = other.1
      · rw [if_pos same.symm]
        simp [same, changes, MemTracker.fAllocated]
      · rw [if_neg (Ne.symm same)]
        simp [same]
    · rw [if_neg asked, if_neg asked, if_neg asked, ite_self, add_zero]

theorem total_insertEntry (listed : Listed s entries) (k : Nat) (p : Nat → Bool) :
    Pool.total (booked (s.trackers ++ [.counting 0]) p) (insertEntry s.trackers.length k entries) =
      Pool.total (booked s.trackers p) entries := by
  rw [total_perm (insertEntry_perm s.trackers.length k entries), Pool.total_cons]
  have nothing : booked (s.trackers ++ [.counting 0]) p (s.trackers.length, k) = 0 := by
    simp [booked, MemTracker.fAllocated]
  rw [nothing, zero_add]
  refine total_congr fun other inside => ?_
  rw [booked, booked, List.getElem?_append_left (listed.number_lt inside)]

end Listed

/-! ### The owner of the blocks -/

def ExcessBlock.bytesOf (p : Nat → Bool) (b : ExcessBlock) : Int := if p (sizeClass b.size.bytes) then b.size.bytes else 0

namespace ExcessOwner

structure Inv (o : ExcessOwner) (entries : List (Nat × Nat)) : Prop where
  listed : Listed o.excess entries
  called : ∀ c ∈ o.calls, 16 < c.1 → (c.2, sizeClass c.1) ∈ entries
  smallest : entries.countP (fun entry => entry.2 = 4) = o.calls.countP fun c => c.1 ≤ 16
  totals : ∀ p, Pool.total (booked o.excess.trackers p) entries = Pool.total (ExcessBlock.bytesOf p) o.live

variable {o : ExcessOwner} {entries : List (Nat × Nat)}

theorem Inv.call (inv : Inv o entries) (n : PayloadSize) {f : MemTracker → MemTracker} {change : Int}
    (changes : ∀ a, f (.counting a) = .counting (a + change)) :
    ∃ entries', Listed (o.call n.bytes f).excess entries' ∧
      (∀ c ∈ (o.call n.bytes f).calls, 16 < c.1 → (c.2, sizeClass c.1) ∈ entries') ∧
      entries'.countP (fun entry => entry.2 = 4) = (o.call n.bytes f).calls.countP (fun c => c.1 ≤ 16) ∧
      ∀ p, Pool.total (booked (o.call n.bytes f).excess.trackers p) entries' =
        Pool.total (ExcessBlock.bytesOf p) o.live + if p (sizeClass n.bytes) then change else 0 := by
  have small : n.bytes < 2 ^ 64 := by
    have inside := n.inside
    omega
  rcases inv.listed.trackerOf small with ⟨large, mem, kept⟩ | ⟨fresh, number, listed, made⟩
  · obtain ⟨still, totals⟩ := inv.listed.book changes mem
    have above : ¬ n.bytes ≤ 16 := fun le => by
      rw [sizeClass_eq_four.mpr le] at large
      omega
    rw [ExcessOwner.call]
    dsimp only
    rw [kept]
    refine ⟨entries, still, ?_, ?_, ?_⟩
    · intro c inside isLarge
      rcases List.mem_cons.mp inside with rfl | old
      · exact mem
      · exact inv.called c old isLarge
    · rw [List.countP_cons_of_neg (by simpa using above), inv.smallest]
    · intro p
      rw [totals, inv.totals]
  · have mem : ((o.excess.trackerOf n.bytes).1, sizeClass n.bytes) ∈ insertEntry o.excess.trackers.length (sizeClass n.bytes) entries := by
      rw [number]
      exact (Listed.insertEntry_perm _ _ entries).mem_iff.mpr List.mem_cons_self
    obtain ⟨still, totals⟩ := listed.book changes mem
    rw [ExcessOwner.call]
    dsimp only
    refine ⟨_, still, ?_, ?_, ?_⟩
    · intro c inside isLarge
      rcases List.mem_cons.mp inside with rfl | old
      · exact mem
      · exact (Listed.insertEntry_perm _ _ entries).mem_iff.mpr (List.mem_cons_of_mem _ (inv.called c old isLarge))
    · rw [(Listed.insertEntry_perm _ _ entries).countP_eq, List.countP_cons, List.countP_cons, inv.smallest]
      simp only [sizeClass_eq_four]
    · intro p
      rw [totals, made, inv.listed.total_insertEntry, inv.totals]

theorem new_inv : Inv new [] := ⟨.new, by simp [new], rfl, fun _ => rfl⟩

theorem trackAlloc_counting (mh : MemoryHeader) (a : Int) : (MemTracker.counting a).trackAlloc mh = .counting (a + mh.fUsableSize) := rfl

theorem trackFree_counting (mh : MemoryHeader) (a : Int) :
    (MemTracker.counting a).trackFree mh = .counting (a + -(mh.fUsableSize : Int)) := by
  rw [MemTracker.trackFree, Int.sub_eq_add_neg]

theorem step_inv (inv : Inv o entries) (event : ExcessEvent) : ∃ entries', Inv (o.step event) entries' := by
  cases event with
  | ask size =>
    obtain ⟨entries', listed, called, smallest, totals⟩ := @Inv.call o entries inv size id 0 fun a => by rw [Int.add_zero, id]
    refine ⟨entries', listed, called, smallest, fun p => ?_⟩
    rw [step, totals, ite_self, add_zero]
    rfl
  | alloc block =>
    obtain ⟨entries', listed, called, smallest, totals⟩ := inv.call block.size (trackAlloc_counting block.mh)
    refine ⟨entries', listed, called, smallest, fun p => ?_⟩
    rw [step]
    dsimp only
    rw [totals, Pool.total_cons, add_comm]
    rfl
  | free place =>
    rw [step]
    cases here : o.live[place]? with
    | none => exact ⟨entries, inv⟩
    | some block =>
      obtain ⟨entries', listed, called, smallest, totals⟩ := inv.call block.size (trackFree_counting block.mh)
      refine ⟨entries', listed, called, smallest, fun p => ?_⟩
      have taken := Pool.total_replace (ExcessBlock.bytesOf p) here none
      rw [Pool.replace, Option.map_none, Option.getD_none, add_zero, ExcessBlock.bytesOf] at taken
      dsimp only
      rw [totals, ← taken, ExcessBlock.mh]
      split <;> simp

theorem run_inv (events : List ExcessEvent) : ∃ entries, Inv (run events) entries := by
  suffices kept : ∀ (o : ExcessOwner) entries, Inv o entries → ∃ entries', Inv (events.foldl step o) entries' from
    kept new [] new_inv
  induction events with
  | nil => exact fun o entries inv => ⟨entries, inv⟩
  | cons event events ih =>
    intro o entries inv
    obtain ⟨entries', next⟩ := step_inv inv event
    exact ih _ entries' next

end ExcessOwner

/-! ### One tracker for each class -/

def ExcessTrackers.used (s : ExcessTrackers) : List ExcessTrackerElt := s.elts.filter fun elt => 0 < elt.fulPayloadSize

namespace ExcessOwner

def liveBytes (o : ExcessOwner) : Nat := (o.live.map fun b => b.size.bytes).sum

structure Books (o : ExcessOwner) : Prop where
  ascending : o.excess.used.Pairwise fun a b => a.fulPayloadSize < b.fulPayloadSize
  powers : ∀ elt ∈ o.excess.used, 16 ≤ elt.fulPayloadSize ∧ ∃ k, elt.fulPayloadSize = 2 ^ k
  same : ∀ a ∈ o.calls, ∀ b ∈ o.calls, max 16 (2 ^ Nat.clog 2 a.1) = max 16 (2 ^ Nat.clog 2 b.1) → a.2 = b.2
  total : (o.excess.tracked.map MemTracker.fAllocated).sum = o.liveBytes
  currently : o.excess.currentlyAllocated = o.liveBytes % 2 ^ 64
  nonnegative : ∀ tracker ∈ o.excess.trackers, 0 ≤ tracker.fAllocated

def asked : List ExcessEvent → List ExcessBlock → List Nat
  | [], _ => []
  | .ask size :: events, live => size.bytes :: asked events live
  | .alloc block :: events, live => block.size.bytes :: asked events (block :: live)
  | .free place :: events, live =>
    match live[place]? with
    | some block => block.size.bytes :: asked events (live.eraseIdx place)
    | none => asked events live

theorem calls_eq (events : List ExcessEvent) (o : ExcessOwner) :
    (events.foldl step o).calls.map Prod.fst = (asked events o.live).reverse ++ o.calls.map Prod.fst := by
  induction events generalizing o with
  | nil => rfl
  | cons event events ih =>
    rw [List.foldl_cons, ih]
    cases event with
    | ask size => simp [step, call, asked]
    | alloc block => simp [step, call, asked]
    | free place =>
      rw [step, asked]
      cases here : o.live[place]? with
      | none => rfl
      | some block => simp [call]

theorem countP_calls (events : List ExcessEvent) :
    (run events).calls.countP (fun c => c.1 ≤ 16) = (asked events []).countP fun n => n ≤ 16 := by
  have sizes := calls_eq events new
  have mapped := List.countP_map (p := fun n : Nat => decide (n ≤ 16)) (f := Prod.fst) (l := (run events).calls)
  rw [run, sizes, List.countP_append, List.countP_reverse] at mapped
  exact mapped.symm.trans (by simp [new])

section Strict

variable {o : ExcessOwner} {entries : List (Nat × Nat)}

theorem used_eq (listed : Listed o.excess entries) : o.excess.used = entries.map eltOf := by
  rw [ExcessTrackers.used, listed.elts]
  cases entries with
  | nil => rfl
  | cons entry entries =>
    rw [eltsOf_cons, List.filter_eq_self]
    intro elt mem
    obtain ⟨other, -, rfl⟩ := List.mem_map.mp mem
    exact decide_eq_true (Nat.two_pow_pos other.2)

theorem used_ascending (listed : Listed o.excess entries) :
    o.excess.used.Pairwise (fun a b => a.fulPayloadSize < b.fulPayloadSize) ↔ entries.Pairwise fun a b => a.2 < b.2 := by
  rw [used_eq listed, List.pairwise_map]
  have order : ∀ a b : Nat × Nat, (eltOf a).fulPayloadSize < (eltOf b).fulPayloadSize ↔ a.2 < b.2 := fun a b =>
    Nat.pow_lt_pow_iff_right (by decide)
  simp only [order]

theorem strict_iff (ascending : Ascending entries) (least : ∀ entry ∈ entries, 4 ≤ entry.2) :
    (entries.Pairwise fun a b => a.2 < b.2) ↔ entries.countP (fun entry => entry.2 = 4) ≤ 1 := by
  induction entries with
  | nil => simp
  | cons entry entries ih =>
    obtain ⟨above, rest⟩ := List.pairwise_cons.mp ascending
    have here := least entry List.mem_cons_self
    have later := ih rest fun other mem => least other (List.mem_cons_of_mem _ mem)
    rw [List.pairwise_cons, later, List.countP_cons]
    by_cases smallest : entry.2 = 4
    · have all : (∀ other ∈ entries, entry.2 < other.2) ↔ entries.countP (fun entry => entry.2 = 4) = 0 := by
        rw [List.countP_eq_zero]
        constructor
        · intro larger other mem
          have order := larger other mem
          simp
          omega
        · intro none other mem
          have apart := none other mem
          rw [decide_eq_true_eq] at apart
          have bound := least other (List.mem_cons_of_mem _ mem)
          omega
      rw [all, if_pos (decide_eq_true smallest)]
      omega
    · have all : ∀ other ∈ entries, entry.2 < other.2 := fun other mem => (above other mem).resolve_right fun both => smallest both.1
      rw [if_neg (by simpa using smallest)]
      exact ⟨And.right, fun le => ⟨all, le⟩⟩

theorem tracked_sum (elts : List (Nat × Nat)) (trackers : List MemTracker) (f : MemTracker → Int) :
    (((elts.map eltOf).filterMap fun elt => elt.fTracker.bind fun t => trackers[t]?).map f).sum =
      Pool.total (fun entry => ((trackers[entry.1]?).map f).getD 0) elts := by
  induction elts with
  | nil => rfl
  | cons entry elts ih =>
    rw [List.map_cons, List.filterMap_cons, Pool.total_cons, ← ih]
    cases here : trackers[entry.1]? <;> simp [eltOf, here]

theorem tracked_total (inv : Inv o entries) : (o.excess.tracked.map MemTracker.fAllocated).sum = o.liveBytes := by
  have all := inv.totals fun _ => true
  have bytes : Pool.total (ExcessBlock.bytesOf fun _ => true) o.live = o.liveBytes := by
    rw [liveBytes, Pool.total]
    induction o.live with
    | nil => rfl
    | cons b live ih => simp [ih, ExcessBlock.bytesOf]
  have shape : o.excess.tracked = (entries.map eltOf).filterMap fun elt => elt.fTracker.bind fun t => o.excess.trackers[t]? := by
    rw [ExcessTrackers.tracked, inv.listed.elts]
    cases entries <;> rfl
  rw [shape, tracked_sum, ← bytes, ← all]
  rfl

theorem currentlyAllocated_eq (inv : Inv o entries) : o.excess.currentlyAllocated = o.liveBytes % 2 ^ 64 := by
  have sums : ∀ (trackers : List MemTracker) (n : Nat) (a : Int), (n : Int) = a % 2 ^ 64 →
      ((trackers.foldl (fun llTotal tracker => (llTotal + tracker.currentlyAllocated) % 2 ^ 64) n : Nat) : Int) =
        (a + (trackers.map MemTracker.fAllocated).sum) % 2 ^ 64 := by
    intro trackers
    induction trackers with
    | nil =>
      intro n a start
      simpa using start
    | cons tracker trackers ih =>
      intro n a start
      rw [List.foldl_cons, List.map_cons, List.sum_cons, ← Int.add_assoc]
      apply ih
      cases tracker with
      | null =>
        rw [MemTracker.currentlyAllocated, MemTracker.fAllocated]
        omega
      | counting b =>
        rw [MemTracker.currentlyAllocated, MemTracker.fAllocated]
        omega
  have sum := sums o.excess.tracked 0 0 rfl
  rw [tracked_total inv] at sum
  rw [ExcessTrackers.currentlyAllocated]
  omega

theorem sizeClass_of_same {m n : Nat} (same : max 16 (2 ^ Nat.clog 2 m) = max 16 (2 ^ Nat.clog 2 n)) : sizeClass m = sizeClass n := by
  have power : ∀ n, max 16 (2 ^ Nat.clog 2 n) = 2 ^ sizeClass n := by
    intro n
    have sixteen : 16 = 2 ^ 4 := rfl
    rw [sizeClass, max_comm, sixteen]
    rcases le_total (Nat.clog 2 n) 4 with le | le
    · rw [max_eq_right le, max_eq_right (Nat.pow_le_pow_right Nat.two_pos le)]
    · rw [max_eq_left le, max_eq_left (Nat.pow_le_pow_right Nat.two_pos le)]
  rw [power, power] at same
  exact Nat.pow_right_injective (le_refl 2) same

theorem same_tracker (inv : Inv o entries) (strict : entries.Pairwise fun a b => a.2 < b.2) {a b : Nat × Nat} (memA : a ∈ o.calls)
    (memB : b ∈ o.calls) (same : max 16 (2 ^ Nat.clog 2 a.1) = max 16 (2 ^ Nat.clog 2 b.1)) : a.2 = b.2 := by
  have classes := sizeClass_of_same same
  by_cases least : sizeClass a.1 = 4
  · -- Both are the only call for the least class.
    have once : (o.calls.filter fun c => c.1 ≤ 16).length ≤ 1 := by
      rw [← List.countP_eq_length_filter, ← inv.smallest]
      exact (strict_iff inv.listed.ascending inv.listed.least).mp strict
    have inA : a ∈ o.calls.filter fun c => c.1 ≤ 16 := List.mem_filter.mpr ⟨memA, decide_eq_true (sizeClass_eq_four.mp least)⟩
    have inB : b ∈ o.calls.filter fun c => c.1 ≤ 16 :=
      List.mem_filter.mpr ⟨memB, decide_eq_true (sizeClass_eq_four.mp (classes ▸ least))⟩
    cases filtered : o.calls.filter fun c => c.1 ≤ 16 with
    | nil =>
      rw [filtered] at inA
      cases inA
    | cons first rest =>
      have alone : rest = [] := by
        rw [filtered, List.length_cons] at once
        exact List.length_eq_zero_iff.mp (by omega)
      rw [filtered, alone, List.mem_singleton] at inA inB
      rw [inA, inB]
  · have largeA : 16 < a.1 := by
      by_contra le
      exact least (sizeClass_eq_four.mpr (by omega))
    have largeB : 16 < b.1 := by
      by_contra le
      exact least (classes.trans (sizeClass_eq_four.mpr (by omega)))
    have distinct : (entries.map Prod.snd).Nodup := List.pairwise_map.mpr (strict.imp fun lt => Nat.ne_of_lt lt)
    exact congrArg Prod.fst (List.inj_on_of_nodup_map distinct (inv.called a memA largeA) (inv.called b memB largeB) classes)

theorem tracker_nonneg (inv : Inv o entries) (strict : entries.Pairwise fun a b => a.2 < b.2) {tracker : MemTracker}
    (mem : tracker ∈ o.excess.trackers) : 0 ≤ tracker.fAllocated := by
  obtain ⟨i, here⟩ := List.mem_iff_getElem?.mp mem
  obtain ⟨inside, -⟩ := List.getElem?_eq_some_iff.mp here
  obtain ⟨entry, listed, rfl⟩ := List.mem_map.mp (inv.listed.numbers.mem_iff.mpr (List.mem_range.mpr inside))
  have total := inv.totals fun k => k = entry.2
  have value : booked o.excess.trackers (fun _ => true) entry = tracker.fAllocated := by
    rw [booked, here]
    rfl
  rw [total_class strict listed, value] at total
  rw [total]
  refine List.sum_nonneg fun bytes mem => ?_
  obtain ⟨b, -, rfl⟩ := List.mem_map.mp mem
  rw [ExcessBlock.bytesOf]
  split <;> omega

end Strict

/-- Every block is booked to one tracker exactly if a history asks at most once for a size up to 16. -/
theorem books_iff (events : List ExcessEvent) : Books (run events) ↔ (asked events []).countP (fun n => n ≤ 16) ≤ 1 := by
  obtain ⟨entries, inv⟩ := run_inv events
  rw [← countP_calls, ← inv.smallest, ← strict_iff inv.listed.ascending inv.listed.least, ← used_ascending inv.listed]
  refine ⟨Books.ascending, fun ascending => ?_⟩
  have strict := (used_ascending inv.listed).mp ascending
  refine ⟨ascending, ?_, ?_, tracked_total inv, currentlyAllocated_eq inv, ?_⟩
  · rw [used_eq inv.listed]
    intro elt mem
    obtain ⟨entry, inside, rfl⟩ := List.mem_map.mp mem
    exact ⟨Nat.pow_le_pow_right Nat.two_pos (inv.listed.least entry inside), entry.2, rfl⟩
  · intro a memA b memB same
    exact same_tracker inv strict memA memB same
  · intro tracker mem
    exact tracker_nonneg inv strict mem

/-- A block of 16 bytes is taken and given back: the second call makes a second tracker. -/
theorem books_sixteen :
    let events : List ExcessEvent := [.alloc ⟨⟨16, by decide⟩, 0⟩, .free 0]
    (run events).excess.used.map (·.fulPayloadSize) = [16, 16] ∧
      (run events).excess.trackers = [.counting 16, .counting (-16)] ∧ ¬ Books (run events) := by
  refine ⟨by decide, by decide, fun books => ?_⟩
  have negative := books.nonnegative (.counting (-16)) (by decide)
  rw [MemTracker.fAllocated] at negative
  omega

end ExcessOwner

end Coast.Memory
