import Coast.Memory.PoolAllocator

/-!
# Blocks in use

The pool hands out memory that nobody holds as long as `Refresh` knows about the blocks in use, which it
does not where the trackers are null trackers.
-/

namespace Coast.Memory

open Extent (occupied)

/-- A bucket that `FindBucketBySize` can return is larger than all buckets before it. -/
def Serves (sizes : List Nat) (order size : Nat) : Prop :=
  sizes[order]? = some size ∧ ∀ j s, j < order → sizes[j]? = some s → s < size

theorem poolBuckets_free {n sz : Nat} : ∀ bucket ∈ poolBuckets n sz, bucket.fFirstFree = [] := by
  induction n generalizing sz with
  | zero => nofun
  | succ n ih =>
    intro bucket mem
    obtain rfl | mem := List.mem_cons.mp mem
    · rfl
    · exact ih bucket mem

@[simp] theorem length_poolBuckets (n sz : Nat) : (poolBuckets n sz).length = n := by
  induction n generalizing sz with
  | zero => rfl
  | succ n ih => rw [poolBuckets, List.length_cons, ih]

theorem poolBuckets_payload {n sz : Nat} (power : sz = 0 ∨ ∃ i < 64, sz = 2 ^ i) :
    ∀ bucket ∈ poolBuckets n sz, bucket.fUsableSize ≤ 2 ^ 63 := by
  induction n generalizing sz with
  | zero => nofun
  | succ n ih =>
    intro bucket mem
    obtain rfl | mem := List.mem_cons.mp mem
    · obtain rfl | ⟨i, below, rfl⟩ := power
      · exact Nat.zero_le _
      · exact Nat.pow_le_pow_right (by decide) (by omega)
    · refine ih ?_ bucket mem
      obtain rfl | ⟨i, below, rfl⟩ := power
      · exact .inl rfl
      · obtain last | inside : i = 63 ∨ i + 1 < 64 := by omega
        · subst last
          exact .inl rfl
        · refine .inr ⟨i + 1, inside, ?_⟩
          rw [← Nat.pow_succ]
          exact Nat.mod_eq_of_lt (Nat.pow_lt_pow_right (by decide) inside)

theorem serves_positive {n order size : Nat} (serves : Serves ((poolBuckets n fgMinPayloadSize).map (·.fSize)) order size) :
    alignedSize < size := by
  obtain ⟨here, before⟩ := serves
  cases n with
  | zero => cases here
  | succ n =>
    cases order with
    | zero =>
      obtain rfl := Option.some.inj here
      decide
    | succ order => exact Nat.lt_trans (by decide) (before 0 (fgMinPayloadSize + alignedSize) (Nat.succ_pos order) rfl)

namespace PoolBucket

@[simp] theorem withFree_fSize (bucket : PoolBucket) (free : List Int) : (bucket.withFree free).fSize = bucket.fSize := rfl

@[simp] theorem withFree_fFirstFree (bucket : PoolBucket) (free : List Int) : (bucket.withFree free).fFirstFree = free := rfl

theorem occupied_withFree_cons (bucket : PoolBucket) (mh : Int) (free : List Int) :
    occupied (bucket.withFree (mh :: free)).extents = Extent.count ⟨mh, bucket.fSize⟩ + occupied (bucket.withFree free).extents :=
  Extent.occupied_cons _ _

theorem extents_of_free {bucket : PoolBucket} {free : List Int} (is : bucket.fFirstFree = free) :
    bucket.extents = (bucket.withFree free).extents := by
  subst is
  rfl

end PoolBucket

namespace PoolAllocator

variable {p p' : PoolAllocator} {bucket larger : PoolBucket} {order place allocSize : Nat}

def sizes (p : PoolAllocator) : List Nat := p.fPoolBuckets.map (·.fSize)

def unused (p : PoolAllocator) : Int → Nat :=
  Extent.count ⟨0, p.lastFree.toNat⟩ + Pool.total (fun bucket => occupied bucket.extents) p.fPoolBuckets

theorem unused_of_free (none : ∀ bucket ∈ p.fPoolBuckets, bucket.fFirstFree = []) : p.unused = Extent.count ⟨0, p.lastFree.toNat⟩ := by
  have empty : Pool.total (fun bucket => occupied bucket.extents) p.fPoolBuckets = 0 := by
    generalize p.fPoolBuckets = buckets at none
    induction buckets with
    | nil => rfl
    | cons bucket buckets ih =>
      rw [Pool.total_cons, ih fun c mem => none c (List.mem_cons_of_mem _ mem), PoolBucket.extents,
        none bucket List.mem_cons_self, List.map_nil, Extent.occupied_nil, add_zero]
  rw [unused, empty, add_zero]

@[simp] theorem trackAlloc_fAllocSz (mh : MemoryHeader) : (p.trackAlloc mh).fAllocSz = p.fAllocSz := by
  unfold trackAlloc
  split <;> rfl

@[simp] theorem trackAlloc_fPoolBuckets (mh : MemoryHeader) : (p.trackAlloc mh).fPoolBuckets = p.fPoolBuckets := by
  unfold trackAlloc
  split <;> rfl

@[simp] theorem trackAlloc_lastFree (mh : MemoryHeader) : (p.trackAlloc mh).lastFree = p.lastFree := by
  unfold trackAlloc
  split <;> rfl

@[simp] theorem trackFree_fAllocSz (mh : MemoryHeader) : (p.trackFree mh).fAllocSz = p.fAllocSz := by
  unfold trackFree
  split <;> rfl

@[simp] theorem trackFree_fPoolBuckets (mh : MemoryHeader) : (p.trackFree mh).fPoolBuckets = p.fPoolBuckets := by
  unfold trackFree
  split <;> rfl

@[simp] theorem trackFree_lastFree (mh : MemoryHeader) : (p.trackFree mh).lastFree = p.lastFree := by
  unfold trackFree
  split <;> rfl

theorem findBucketBySize_iff : p.findBucketBySize allocSize = some (bucket, order) ↔
    p.fPoolBuckets[order]? = some bucket ∧ allocSize ≤ bucket.fSize ∧
      ∀ j c, j < order → p.fPoolBuckets[j]? = some c → c.fSize < allocSize := by
  unfold findBucketBySize
  rw [List.find?_eq_some_iff_getElem]
  constructor
  · rintro ⟨enough, i, inside, found, before⟩
    rw [List.getElem_zipIdx, Prod.mk.injEq, Nat.zero_add] at found
    obtain ⟨rfl, rfl⟩ := found
    rw [List.length_zipIdx] at inside
    refine ⟨List.getElem?_eq_getElem inside, of_decide_eq_true enough, fun j c less at_j => ?_⟩
    obtain ⟨inside_j, rfl⟩ := List.getElem?_eq_some_iff.mp at_j
    have small := before j less
    rw [List.getElem_zipIdx] at small
    simpa using small
  · rintro ⟨here, enough, before⟩
    obtain ⟨inside, rfl⟩ := List.getElem?_eq_some_iff.mp here
    refine ⟨decide_eq_true enough, order, by rwa [List.length_zipIdx], by rw [List.getElem_zipIdx, Nat.zero_add], fun j less => ?_⟩
    have small := before j _ less (List.getElem?_eq_getElem (Nat.lt_trans less inside))
    rw [List.getElem_zipIdx]
    simpa using small

theorem nextAvailable_some (found : p.nextAvailable order = some (larger, place)) :
    p.fPoolBuckets[place]? = some larger ∧ order ≤ place ∧ larger.fFirstFree ≠ [] := by
  have available := List.find?_some found
  have here := List.mk_mem_zipIdx_iff_getElem?.mp (List.mem_of_find?_eq_some found)
  rw [Bool.and_eq_true, decide_eq_true_eq] at available
  exact ⟨here, available.1, by simpa using available.2⟩

theorem serves_of_find (found : p.findBucketBySize allocSize = some (bucket, order)) : Serves p.sizes order bucket.fSize := by
  obtain ⟨here, enough, before⟩ := findBucketBySize_iff.mp found
  refine ⟨by rw [sizes, List.getElem?_map, here]; rfl, fun j s less at_j => ?_⟩
  rw [sizes, List.getElem?_map, Option.map_eq_some_iff] at at_j
  obtain ⟨c, at_j, rfl⟩ := at_j
  exact Nat.lt_of_lt_of_le (before j c less at_j) enough

theorem find_of_serves {size : Nat} (serves : Serves p.sizes order size) :
    ∃ bucket, p.findBucketBySize size = some (bucket, order) ∧ bucket.fSize = size := by
  obtain ⟨here, before⟩ := serves
  rw [sizes, List.getElem?_map, Option.map_eq_some_iff] at here
  obtain ⟨bucket, here, rfl⟩ := here
  refine ⟨bucket, findBucketBySize_iff.mpr ⟨here, Nat.le_refl _, fun j c less at_j => before j c.fSize less ?_⟩, rfl⟩
  rw [sizes, List.getElem?_map, at_j]
  rfl

theorem sizes_putBucket (here : p.fPoolBuckets[order]? = some bucket) (free : List Int) :
    (p.putBucket order (bucket.withFree free)).sizes = p.sizes := by
  have same : p.sizes[order]? = some bucket.fSize := by rw [sizes, List.getElem?_map, here]; rfl
  obtain ⟨inside, value⟩ := List.getElem?_eq_some_iff.mp same
  unfold sizes putBucket at *
  rw [List.map_set, PoolBucket.withFree_fSize, ← value, List.set_getElem_self]

theorem unused_putBucket (here : p.fPoolBuckets[order]? = some bucket) (free : List Int) :
    (p.putBucket order (bucket.withFree free)).unused + occupied bucket.extents =
      p.unused + occupied (bucket.withFree free).extents := by
  have exchanged := Pool.total_replace (fun bucket => occupied bucket.extents) here (some (bucket.withFree free))
  unfold unused putBucket
  rw [add_assoc, add_assoc]
  exact congrArg _ exchanged

structure WellFormed (p : PoolAllocator) : Prop where
  small : p.fAllocSz < 2 ^ 63
  bottom : 0 ≤ p.lastFree
  top : p.lastFree ≤ p.fAllocSz
  original : p.sizes = (poolBuckets p.fPoolBuckets.length fgMinPayloadSize).map (·.fSize)
  filled : ∀ order bucket, p.fPoolBuckets[order]? = some bucket → bucket.fFirstFree ≠ [] → Serves p.sizes order bucket.fSize

theorem wellFormed_new {poolSize maxPoolBuckets : Nat} {level : Int} (fits : poolSize * 1024 % 2 ^ 64 < 2 ^ 63) :
    (new poolSize maxPoolBuckets level).WellFormed where
  small := fits
  bottom := Int.natCast_nonneg _
  top := Int.le_refl _
  original := by simp [sizes, new]
  filled order bucket here nonempty := absurd (poolBuckets_free bucket (List.mem_of_getElem? here)) nonempty

theorem WellFormed.initializeBuckets (wf : p.WellFormed) : p.initializeBuckets.WellFormed where
  small := wf.small
  bottom := Int.natCast_nonneg _
  top := Int.le_refl _
  original := by simp [sizes, PoolAllocator.initializeBuckets]
  filled order bucket here nonempty := absurd (poolBuckets_free bucket (List.mem_of_getElem? here)) nonempty

theorem WellFormed.putBucket (wf : p.WellFormed) (here : p.fPoolBuckets[order]? = some bucket) {free : List Int}
    (serves : free ≠ [] → Serves p.sizes order bucket.fSize) : (p.putBucket order (bucket.withFree free)).WellFormed where
  small := wf.small
  bottom := wf.bottom
  top := wf.top
  original := by
    rw [sizes_putBucket here, wf.original]
    unfold PoolAllocator.putBucket
    rw [List.length_set]
  filled k c at_k nonempty := by
    rw [sizes_putBucket here]
    by_cases same : order = k
    · subst same
      obtain ⟨inside, -⟩ := List.getElem?_eq_some_iff.mp here
      have new : c = bucket.withFree free := by
        unfold PoolAllocator.putBucket at at_k
        rw [List.getElem?_set_self inside] at at_k
        exact (Option.some.inj at_k).symm
      subst new
      exact serves nonempty
    · unfold PoolAllocator.putBucket at at_k
      rw [List.getElem?_set_ne same] at at_k
      exact wf.filled k c at_k nonempty

theorem WellFormed.trackAlloc (wf : p.WellFormed) (mh : MemoryHeader) : (p.trackAlloc mh).WellFormed := by
  obtain ⟨small, bottom, top, original, filled⟩ := wf
  unfold sizes at *
  exact ⟨by simpa using small, by simpa using bottom, by simpa using top, by simpa [sizes] using original,
    by simpa [sizes] using filled⟩

theorem WellFormed.trackFree (wf : p.WellFormed) (mh : MemoryHeader) : (p.trackFree mh).WellFormed := by
  obtain ⟨small, bottom, top, original, filled⟩ := wf
  unfold sizes at *
  exact ⟨by simpa using small, by simpa using bottom, by simpa using top, by simpa [sizes] using original,
    by simpa [sizes] using filled⟩

theorem length_splitBucket (fSize nbuckets : Nat) (bucketEnd : Int) (free : List Int) :
    (splitBucket fSize nbuckets bucketEnd free).length = nbuckets + free.length := by
  induction nbuckets generalizing bucketEnd free with
  | zero => exact (Nat.zero_add _).symm
  | succ nbuckets ih =>
    rw [splitBucket, ih, List.length_cons]
    omega

theorem occupied_splitBucket (bucket : PoolBucket) (nbuckets : Nat) (start : Int) (free : List Int) :
    occupied (bucket.withFree (splitBucket bucket.fSize nbuckets (start + bucket.fSize * nbuckets) free)).extents =
      Extent.count ⟨start, bucket.fSize * nbuckets⟩ + occupied (bucket.withFree free).extents := by
  induction nbuckets generalizing free with
  | zero => rw [Nat.mul_zero, Extent.count_empty, zero_add, splitBucket]
  | succ nbuckets ih =>
    have down : start + (bucket.fSize : Int) * (nbuckets + 1 : Nat) - bucket.fSize = start + bucket.fSize * nbuckets := by
      rw [Nat.cast_succ, Int.mul_add, Int.mul_one]
      omega
    have joined := Extent.count_add start (bucket.fSize * nbuckets) bucket.fSize
    rw [Nat.cast_mul] at joined
    rw [splitBucket, down, ih, PoolBucket.occupied_withFree_cons, ← add_assoc, joined, Nat.mul_succ]

structure Gives (p p' : PoolAllocator) (x : Extent) : Prop where
  wellFormed : p'.WellFormed
  fAllocSz : p'.fAllocSz = p.fAllocSz
  sizes : p'.sizes = p.sizes
  memory : p'.unused + x.count ≤ p.unused
  fTracker : p'.fTracker = p.fTracker
  fPoolTotalExcessTracker : p'.fPoolTotalExcessTracker = p.fPoolTotalExcessTracker

theorem gives_reuse (wf : p.WellFormed) (here : p.fPoolBuckets[order]? = some bucket) {mh : Int} {fNextFree : List Int}
    (free : bucket.fFirstFree = mh :: fNextFree) :
    p.Gives (p.putBucket order (bucket.withFree fNextFree)) ⟨mh, bucket.fSize⟩ where
  wellFormed := wf.putBucket here fun _ => wf.filled order bucket here (by rw [free]; exact List.cons_ne_nil _ _)
  fAllocSz := rfl
  sizes := sizes_putBucket here fNextFree
  memory := by
    have exchanged := unused_putBucket here fNextFree
    rw [PoolBucket.extents_of_free free, PoolBucket.occupied_withFree_cons, ← add_assoc] at exchanged
    exact (add_right_cancel exchanged).le
  fTracker := rfl
  fPoolTotalExcessTracker := rfl

theorem gives_rest (wf : p.WellFormed) (room : (bucket.fSize : Int) < p.lastFree) :
    p.Gives { p with lastFree := p.lastFree - bucket.fSize } ⟨p.lastFree - bucket.fSize, bucket.fSize⟩ where
  wellFormed :=
    { small := wf.small
      bottom := Int.sub_nonneg.mpr (Int.le_of_lt room)
      top := Int.le_trans (Int.sub_le_self _ (Int.natCast_nonneg _)) wf.top
      original := wf.original
      filled := wf.filled }
  fAllocSz := rfl
  sizes := rfl
  memory := by
    have joined := Extent.count_add 0 (p.lastFree - bucket.fSize).toNat bucket.fSize
    have start : (0 : Int) + ((p.lastFree - bucket.fSize).toNat : Nat) = p.lastFree - bucket.fSize := by omega
    have whole : (p.lastFree - bucket.fSize).toNat + bucket.fSize = p.lastFree.toNat := by omega
    rw [start, whole] at joined
    unfold unused
    rw [add_right_comm, joined]
  fTracker := rfl
  fPoolTotalExcessTracker := rfl

theorem gives_split (wf : p.WellFormed) (serves : Serves p.sizes order bucket.fSize)
    (here : p.fPoolBuckets[order]? = some bucket) (there : p.fPoolBuckets[place]? = some larger) (other : order ≠ place)
    (empty : bucket.fFirstFree = []) {mh first : Int} {fNextFree rest : List Int} (free : larger.fFirstFree = mh :: fNextFree)
    (cut : splitBucket bucket.fSize (larger.fSize / bucket.fSize)
      (mh + bucket.fSize * (larger.fSize / bucket.fSize : Nat)) bucket.fFirstFree = first :: rest) :
    p.Gives ((p.putBucket place (larger.withFree fNextFree)).putBucket order (bucket.withFree rest)) ⟨first, bucket.fSize⟩ := by
  have taken := gives_reuse wf there free
  have stays : (p.putBucket place (larger.withFree fNextFree)).fPoolBuckets[order]? = some bucket := by
    unfold putBucket
    rw [List.getElem?_set_ne (Ne.symm other), here]
  refine ⟨taken.wellFormed.putBucket stays fun _ => taken.sizes ▸ serves, rfl, ?_, ?_, rfl, rfl⟩
  · rw [sizes_putBucket stays, taken.sizes]
  · have pieces := occupied_splitBucket bucket (larger.fSize / bucket.fSize) mh bucket.fFirstFree
    have exchanged := unused_putBucket stays rest
    have inside : Extent.count ⟨mh, bucket.fSize * (larger.fSize / bucket.fSize)⟩ ≤ Extent.count ⟨mh, larger.fSize⟩ := by
      refine Extent.count_le_count (Int.le_refl mh) ?_
      have := Nat.mul_div_le larger.fSize bucket.fSize
      unfold Extent.stop
      dsimp only
      omega
    have nothing : occupied (bucket.withFree bucket.fFirstFree).extents = 0 := by rw [empty]; rfl
    rw [cut, PoolBucket.occupied_withFree_cons, nothing, add_zero, add_comm] at pieces
    rw [PoolBucket.extents_of_free rfl, nothing, add_zero] at exchanged
    calc _ = (p.putBucket place (larger.withFree fNextFree)).unused +
          Extent.count ⟨mh, bucket.fSize * (larger.fSize / bucket.fSize)⟩ := by rw [exchanged, add_assoc, pieces]
      _ ≤ (p.putBucket place (larger.withFree fNextFree)).unused + Extent.count ⟨mh, larger.fSize⟩ := by gcongr
      _ ≤ p.unused := taken.memory

theorem alloc_cases (wf : p.WellFormed) (calloc : Option Nat)
    (fits : ∀ bucket order, p.findBucketBySize allocSize = some (bucket, order) → bucket.fSize < 2 ^ 63) :
    p.alloc allocSize calloc = p.allocNotPooled allocSize calloc ∨
      ∃ bucket order address p', p.findBucketBySize allocSize = some (bucket, order) ∧
        p.Gives p' ⟨address, bucket.fSize⟩ ∧ p.alloc allocSize calloc = p'.allocPooled bucket address := by
  unfold alloc
  split
  · exact .inl rfl
  · rename_i bucket order found
    obtain ⟨here, -, -⟩ := findBucketBySize_iff.mp found
    have serves := serves_of_find found
    split
    · rename_i mh fNextFree free
      exact .inr ⟨bucket, order, mh, _, found, gives_reuse wf here free, rfl⟩
    · rename_i empty
      split
      · rename_i room
        rw [asLong, if_pos (fits bucket order found)] at room
        exact .inr ⟨bucket, order, _, _, found, gives_rest wf room, rfl⟩
      · split
        · exact .inl rfl
        · rename_i larger place available
          obtain ⟨there, behind, nonempty⟩ := nextAvailable_some available
          have other : order ≠ place := by
            rintro rfl
            rw [here, Option.some.injEq] at there
            exact nonempty (there ▸ empty)
          split
          · exact .inl rfl
          · rename_i mh fNextFree free
            dsimp only
            split
            · rename_i none
              -- the larger block holds at least one piece
              have smaller : bucket.fSize < larger.fSize :=
                (wf.filled place larger there nonempty).2 order bucket.fSize (by omega) serves.1
              have positive : 0 < bucket.fSize := by have := bucket.sized; unfold alignedSize at this; omega
              have count := length_splitBucket bucket.fSize (larger.fSize / bucket.fSize)
                (mh + bucket.fSize * (larger.fSize / bucket.fSize : Nat)) bucket.fFirstFree
              rw [none, List.length_nil] at count
              have some := Nat.div_pos (Nat.le_of_lt smaller) positive
              omega
            · rename_i first rest cut
              exact .inr ⟨bucket, order, first, _, found, gives_split wf serves here there other empty free cut, rfl⟩

end PoolAllocator

namespace Block

def held (b : Block) : Int → Nat := if b.mh.pooled then b.mh.extent.count else 0

theorem held_pooled {b : Block} (pooled : b.mh.pooled = true) : b.held = b.mh.extent.count := if_pos pooled

def counted (pooled : Bool) (b : Block) : Nat := if b.mh.pooled = pooled then b.mh.fUsableSize else 0

end Block

namespace Owner

open PoolAllocator (findBucketBySize_iff serves_of_find find_of_serves)

variable {o o' : Owner}

def held (live : List Block) : Int → Nat := Pool.total Block.held live

/-- No memory that is in use is in use a second time, on a free list or in the rest of the pool. -/
structure Safe (o : Owner) : Prop where
  apart : o.live.Pairwise fun b c => b.mh.object = c.mh.object → b.mh.extent.Apart c.mh.extent
  inside : ∀ b ∈ o.live, b.mh.pooled → 0 ≤ b.mh.extent.start ∧ b.mh.extent.stop ≤ o.pool.fAllocSz
  enough : ∀ b ∈ o.live, b.mh.pooled → b.requested ≤ b.mh.extent.size
  unlisted : ∀ b ∈ o.live, b.mh.pooled → ∀ bucket ∈ o.pool.fPoolBuckets, ∀ x ∈ bucket.extents, b.mh.extent.Apart x
  unopened : ∀ b ∈ o.live, b.mh.pooled → b.mh.extent.Apart ⟨0, o.pool.lastFree.toNat⟩

inductive Counts (live : List Block) : MemTracker → Option MemTracker → Prop where
  | nothing : Counts live .null none
  | all : Counts live (.counting (Pool.total (Block.counted true) live : Nat))
      (some (.counting (Pool.total (Block.counted false) live : Nat)))

structure Inv (o : Owner) : Prop where
  wellFormed : o.pool.WellFormed
  memory : o.pool.unused + held o.live ≤ Extent.count ⟨0, o.pool.fAllocSz⟩
  served : ∀ b ∈ o.live, b.mh.pooled →
    (∃ order, Serves o.pool.sizes order (b.mh.fUsableSize + alignedSize)) ∧ b.requested ≤ b.mh.extent.size
  named : ∀ b ∈ o.live, ∀ object, b.mh.object = some object → object < o.fresh
  distinct : o.live.Pairwise fun b c => ∀ object, b.mh.object = some object → c.mh.object ≠ some object
  room : objectBytes o.live + o.pool.fAllocSz ≤ 2 ^ 64
  counts : Counts o.live o.pool.fTracker o.pool.fPoolTotalExcessTracker

theorem inv_new {poolSize maxPoolBuckets : Nat} {level : Int} (fits : poolSize * 1024 % 2 ^ 64 < 2 ^ 63) :
    (new poolSize maxPoolBuckets level).Inv where
  wellFormed := PoolAllocator.wellFormed_new fits
  memory := by
    rw [PoolAllocator.unused_of_free poolBuckets_free]
    exact (add_zero _).le
  served := nofun
  named := nofun
  distinct := List.Pairwise.nil
  room := by
    have := fits
    change 0 + poolSize * 1024 % 2 ^ 64 ≤ 2 ^ 64
    omega
  counts := by
    dsimp only [new, PoolAllocator.new]
    split
    · exact .all
    · exact .nothing

theorem Inv.once (inv : o.Inv) (address : Int) : (o.pool.unused + held o.live) address ≤ 1 := by
  exact (inv.memory address).trans (Extent.count_le_one _ address)

theorem held_le {live : List Block} {b : Block} (mem : b ∈ live) (pooled : b.mh.pooled = true) :
    b.mh.extent.count ≤ held live := by
  rw [← Block.held_pooled pooled]
  exact Extent.le_total mem

theorem Inv.apart_unused (inv : o.Inv) {b : Block} (mem : b ∈ o.live) (pooled : b.mh.pooled = true) {x : Extent}
    (le : x.count ≤ o.pool.unused) : b.mh.extent.Apart x := by
  refine Extent.apart_of_le inv.once ?_
  rw [add_comm]
  exact add_le_add le (held_le mem pooled)

theorem Inv.safe (inv : o.Inv) : o.Safe where
  apart := by
    have once : ∀ address, Pool.total Block.held o.live address ≤ 1 := fun address =>
      (Nat.le_add_left _ _).trans (inv.once address)
    refine (List.pairwise_and_iff.mpr ⟨Extent.pairwise_once once, inv.distinct⟩).imp ?_
    rintro b c ⟨alone, distinct⟩ same
    cases object : b.mh.object with
    | some name => exact absurd (same.symm.trans object) (distinct name object)
    | none =>
      have pooled : b.mh.pooled = true := by rw [MemoryHeader.pooled, object]; rfl
      have too : c.mh.pooled = true := by rw [MemoryHeader.pooled, ← same, object]; rfl
      intro address inB inC
      have sum := alone address
      rw [Block.held_pooled pooled, Block.held_pooled too, Extent.count_of_holds inB, Extent.count_of_holds inC] at sum
      omega
  inside b mem pooled := by
    have le : b.mh.extent.count ≤ Extent.count ⟨0, o.pool.fAllocSz⟩ :=
      (held_le mem pooled).trans ((le_add_left le_rfl).trans inv.memory)
    have inside := Extent.inside_of_count_le (Nat.add_pos_left (by decide) _) le
    simpa [Extent.stop] using inside
  enough b mem pooled := (inv.served b mem pooled).2
  unlisted b mem pooled bucket bucketMem x xMem := by
    refine inv.apart_unused mem pooled ?_
    have listed : x.count ≤ occupied bucket.extents := Extent.count_le_occupied xMem
    have total : occupied bucket.extents ≤ Pool.total (fun bucket => occupied bucket.extents) o.pool.fPoolBuckets :=
      @Extent.le_total _ (fun bucket => occupied bucket.extents) _ _ bucketMem
    exact (listed.trans total).trans (le_add_left le_rfl)
  unopened b mem pooled := inv.apart_unused mem pooled (le_add_right le_rfl)

theorem Counts.alloc {p : PoolAllocator} {live : List Block} (counts : Counts live p.fTracker p.fPoolTotalExcessTracker) (b : Block) :
    Counts (b :: live) (p.trackAlloc b.mh).fTracker (p.trackAlloc b.mh).fPoolTotalExcessTracker := by
  obtain ⟨fAllocSz, fPoolBuckets, lastFree, fTracker, fPoolTotalExcessTracker⟩ := p
  cases counts with
  | nothing =>
    unfold PoolAllocator.trackAlloc
    split <;> exact .nothing
  | all =>
    have both := @Counts.all (b :: live)
    rw [Pool.total_cons, Pool.total_cons, Nat.cast_add, Nat.cast_add, add_comm (Block.counted true b : Int),
      add_comm (Block.counted false b : Int)] at both
    unfold PoolAllocator.trackAlloc
    by_cases pooled : b.mh.pooled = true
    · rw [if_pos pooled]
      simpa [Block.counted, pooled, MemTracker.trackAlloc] using both
    · rw [if_neg pooled]
      rw [Bool.not_eq_true] at pooled
      simpa [Block.counted, pooled, MemTracker.trackAlloc] using both

theorem Counts.free {p : PoolAllocator} {live : List Block} (counts : Counts live p.fTracker p.fPoolTotalExcessTracker)
    {place : Nat} {b : Block} (here : live[place]? = some b) :
    Counts (live.eraseIdx place) (p.trackFree b.mh).fTracker (p.trackFree b.mh).fPoolTotalExcessTracker := by
  obtain ⟨fAllocSz, fPoolBuckets, lastFree, fTracker, fPoolTotalExcessTracker⟩ := p
  cases counts with
  | nothing =>
    unfold PoolAllocator.trackFree
    split <;> exact .nothing
  | all =>
    have both := @Counts.all (live.eraseIdx place)
    have total : ∀ pooled, ((Pool.total (Block.counted pooled) (live.eraseIdx place) : Nat) : Int) =
        (Pool.total (Block.counted pooled) live : Nat) - (b.counted pooled : Nat) := by
      intro pooled
      have := Pool.total_replace (Block.counted pooled) here none
      simp only [Pool.replace, Option.map_none, Option.getD_none] at this
      omega
    rw [total, total] at both
    unfold PoolAllocator.trackFree
    by_cases pooled : b.mh.pooled = true
    · rw [if_pos pooled]
      simpa [Block.counted, pooled, MemTracker.trackFree] using both
    · rw [if_neg pooled]
      rw [Bool.not_eq_true] at pooled
      simpa [Block.counted, pooled, MemTracker.trackFree] using both

theorem Inv.push (inv : o.Inv) {p : PoolAllocator} {b : Block} (wellFormed : p.WellFormed)
    (fAllocSz : p.fAllocSz = o.pool.fAllocSz) (sizes : p.sizes = o.pool.sizes) (memory : p.unused + b.held ≤ o.pool.unused)
    (fTracker : p.fTracker = o.pool.fTracker) (excess : p.fPoolTotalExcessTracker = o.pool.fPoolTotalExcessTracker)
    (served : b.mh.pooled → (∃ order, Serves p.sizes order (b.mh.fUsableSize + alignedSize)) ∧ b.requested ≤ b.mh.extent.size)
    (named : ∀ object, b.mh.object = some object → object = o.fresh)
    (room : objectBytes (b :: o.live) + p.fAllocSz ≤ 2 ^ 64) : Inv ⟨p.trackAlloc b.mh, b :: o.live, o.fresh + 1⟩ where
  wellFormed := wellFormed.trackAlloc b.mh
  memory := by
    have same : (p.trackAlloc b.mh).unused = p.unused := by simp [PoolAllocator.unused]
    rw [same, PoolAllocator.trackAlloc_fAllocSz, fAllocSz, held, Pool.total_cons, ← add_assoc]
    exact (add_le_add_left memory _).trans inv.memory
  served c mem pooled := by
    have same : (p.trackAlloc b.mh).sizes = p.sizes := by simp [PoolAllocator.sizes]
    rw [same]
    obtain rfl | mem := List.mem_cons.mp mem
    · exact served pooled
    · rw [sizes]
      exact inv.served c mem pooled
  named c mem object is := by
    obtain rfl | mem := List.mem_cons.mp mem
    · rw [named object is]
      exact Nat.lt_succ_self _
    · exact Nat.lt_succ_of_lt (inv.named c mem object is)
  distinct := by
    refine List.pairwise_cons.mpr ⟨fun c mem object is same => ?_, inv.distinct⟩
    have old := inv.named c mem object same
    rw [named object is] at old
    exact Nat.lt_irrefl _ old
  room := by rwa [PoolAllocator.trackAlloc_fAllocSz]
  counts := by
    refine Counts.alloc ?_ b
    rw [fTracker, excess]
    exact inv.counts

def Allowed : Event → Owner → Prop
  | .alloc allocSize _, o => ∀ bucket order, o.pool.findBucketBySize allocSize.bytes = some (bucket, order) → bucket.fSize < 2 ^ 63
  | .free _, _ => True
  | .refresh, o => o.pool.fTracker = .null → ∀ b ∈ o.live, b.mh.pooled = false

theorem calloc_some {allocSize object : Nat} {fails : Bool} (made : o.calloc allocSize fails = some object) :
    object = o.fresh ∧ objectBytes o.live + o.pool.fAllocSz + allocSize ≤ 2 ^ 64 := by
  unfold calloc at made
  split at made
  · cases made
  · rename_i room
    rw [Bool.or_eq_true, decide_eq_true_eq, not_or, Nat.not_lt] at room
    exact ⟨(Option.some.inj made).symm, room.2⟩

theorem Inv.alloc (inv : o.Inv) {allocSize : AllocSize} {fails : Bool} (allowed : Allowed (.alloc allocSize fails) o)
    (done : step (.alloc allocSize fails) o = .ok o') : o'.Inv := by
  unfold step at done
  dsimp only at done
  obtain heap | ⟨bucket, order, address, p, found, gives, pooled⟩ :=
    PoolAllocator.alloc_cases inv.wellFormed (o.calloc allocSize.bytes fails) allowed
  · rw [heap] at done
    cases made : o.calloc allocSize.bytes fails with
    | none =>
      rw [made] at done
      obtain rfl := Except.ok.inj done
      exact inv
    | some object =>
      rw [made] at done
      obtain rfl := Except.ok.inj done
      obtain ⟨rfl, room⟩ := calloc_some made
      refine @inv.push _ _ ⟨⟨some o.fresh, 0, allocSize.bytes - alignedSize⟩, allocSize.bytes⟩ inv.wellFormed rfl rfl ?_ rfl rfl nofun
        (fun object is => (Option.some.inj is).symm) ?_
      · exact (add_zero o.pool.unused).le
      · have header := allocSize.header
        change (alignedSize + (allocSize.bytes - alignedSize)) + objectBytes o.live + o.pool.fAllocSz ≤ 2 ^ 64
        omega
  · rw [pooled] at done
    obtain rfl := Except.ok.inj done
    obtain ⟨-, enough, -⟩ := findBucketBySize_iff.mp found
    have sized : bucket.fSize = bucket.fUsableSize + alignedSize := bucket.sized
    refine @inv.push _ _ ⟨⟨none, address, bucket.fUsableSize⟩, allocSize.bytes⟩ gives.wellFormed gives.fAllocSz gives.sizes ?_
      gives.fTracker gives.fPoolTotalExcessTracker (fun _ => ⟨⟨order, ?_⟩, ?_⟩) nofun ?_
    · have memory := gives.memory
      rwa [sized, Nat.add_comm] at memory
    · rw [gives.sizes, ← sized]
      exact serves_of_find found
    · change allocSize.bytes ≤ alignedSize + bucket.fUsableSize
      omega
    · rw [gives.fAllocSz]
      exact (Nat.add_le_add_right (Nat.zero_add _).le _).trans inv.room

theorem held_eraseIdx {live : List Block} {place : Nat} {b : Block} (here : live[place]? = some b) :
    held (live.eraseIdx place) + b.held = held live := by
  have exchanged := Pool.total_replace Block.held here none
  rwa [Option.map_none, Option.getD_none, add_zero] at exchanged

theorem unused_free (inv : o.Inv) {b : Block} (mem : b ∈ o.live) :
    (o.pool.free b.mh).unused = o.pool.unused + b.held ∧ (o.pool.free b.mh).WellFormed ∧
      (o.pool.free b.mh).sizes = o.pool.sizes ∧ (o.pool.free b.mh).fAllocSz = o.pool.fAllocSz ∧
      (o.pool.free b.mh).fTracker = (o.pool.trackFree b.mh).fTracker ∧
      (o.pool.free b.mh).fPoolTotalExcessTracker = (o.pool.trackFree b.mh).fPoolTotalExcessTracker := by
  have sameSizes : (o.pool.trackFree b.mh).sizes = o.pool.sizes := by simp [PoolAllocator.sizes]
  have sameUnused : (o.pool.trackFree b.mh).unused = o.pool.unused := by simp [PoolAllocator.unused]
  have wellFormed := inv.wellFormed.trackFree b.mh
  unfold PoolAllocator.free
  by_cases pooled : b.mh.pooled = true
  · obtain ⟨⟨order, serves⟩, -⟩ := inv.served b mem pooled
    obtain ⟨bucket, found, size⟩ := find_of_serves serves
    have here : (o.pool.trackFree b.mh).fPoolBuckets[order]? = some bucket := by
      rw [PoolAllocator.trackFree_fPoolBuckets]
      exact (findBucketBySize_iff.mp found).1
    rw [if_pos pooled, found]
    dsimp only
    refine ⟨?_, wellFormed.putBucket here fun _ => ?_, ?_, by simp [PoolAllocator.putBucket], rfl, rfl⟩
    · have exchanged := PoolAllocator.unused_putBucket here (b.mh.address :: bucket.fFirstFree)
      rw [PoolBucket.occupied_withFree_cons, sameUnused, ← add_assoc] at exchanged
      rw [add_right_cancel exchanged, Block.held_pooled pooled, MemoryHeader.extent, size, Nat.add_comm]
    · rw [sameSizes, size]
      exact serves
    · rw [PoolAllocator.sizes_putBucket here, sameSizes]
  · rw [if_neg pooled, Block.held, if_neg pooled, add_zero]
    exact ⟨sameUnused, wellFormed, sameSizes, PoolAllocator.trackFree_fAllocSz b.mh, rfl, rfl⟩

theorem Inv.free (inv : o.Inv) {place : Nat} (done : step (.free place) o = .ok o') : o'.Inv := by
  unfold step at done
  dsimp only at done
  split at done
  · rename_i b here
    obtain rfl := Except.ok.inj done
    obtain ⟨unused, wellFormed, sizes, fAllocSz, fTracker, excess⟩ := unused_free inv (List.mem_of_getElem? here)
    refine ⟨wellFormed, ?_, ?_, ?_, ?_, ?_, ?_⟩
    · dsimp only
      rw [unused, fAllocSz, add_assoc, add_comm b.held, held_eraseIdx here]
      exact inv.memory
    · intro c mem pooled
      dsimp only
      rw [sizes]
      exact inv.served c (List.mem_of_mem_eraseIdx mem) pooled
    · exact fun c mem => inv.named c (List.mem_of_mem_eraseIdx mem)
    · exact inv.distinct.sublist (List.eraseIdx_sublist _ _)
    · have exchanged := Pool.total_replace (fun b : Block => if b.mh.pooled then 0 else alignedSize + b.mh.fUsableSize) here none
      have room := inv.room
      simp only [Pool.replace, Option.map_none, Option.getD_none] at exchanged
      dsimp only
      rw [fAllocSz]
      unfold objectBytes at *
      omega
    · dsimp only
      rw [fTracker, excess]
      exact inv.counts.free here
  · cases done

theorem held_of_none {live : List Block} (none : ∀ b ∈ live, b.mh.pooled = false) : held live = 0 := by
  induction live with
  | nil => rfl
  | cons b live ih =>
    have first : b.held = 0 := by rw [Block.held, none b List.mem_cons_self]; rfl
    rw [held, Pool.total_cons, first, zero_add]
    exact ih fun c mem => none c (List.mem_cons_of_mem _ mem)

theorem occupied_pooled (live : List Block) :
    occupied ((live.filter (·.mh.pooled)).map (·.mh.extent)) = held live := by
  induction live with
  | nil => rfl
  | cons b live ih =>
    rw [held, Pool.total_cons, Block.held, List.filter_cons]
    by_cases pooled : b.mh.pooled = true
    · rw [if_pos pooled, if_pos pooled, List.map_cons, Extent.occupied_cons, ih, held]
    · rw [if_neg pooled, if_neg pooled, zero_add, ih, held]

theorem size_pooled (live : List Block) : Pool.total Extent.size ((live.filter (·.mh.pooled)).map (·.mh.extent)) =
    Pool.total (fun b => b.counted true + if b.mh.pooled then alignedSize else 0) live := by
  induction live with
  | nil => rfl
  | cons b live ih =>
    rw [Pool.total_cons, List.filter_cons, Block.counted, ← ih]
    by_cases pooled : b.mh.pooled = true
    · rw [if_pos pooled, if_pos pooled, if_pos pooled, List.map_cons, Pool.total_cons, MemoryHeader.extent, Nat.add_comm alignedSize]
    · rw [if_neg pooled, if_neg pooled, if_neg pooled, Nat.zero_add]

theorem Inv.counted_lt (inv : o.Inv) {b : Block} (mem : b ∈ o.live) (pooled : b.mh.pooled = true) :
    Pool.total (Block.counted true) o.live + Pool.total (Block.counted false) o.live < 2 ^ 64 := by
  have inPool := Extent.total_size_le ((occupied_pooled o.live).le.trans ((le_add_left le_rfl).trans inv.memory))
  rw [size_pooled, Pool.total_add] at inPool
  have header : alignedSize ≤ Pool.total (fun b : Block => if b.mh.pooled then alignedSize else 0) o.live := by
    have counts := @Pool.le_total _ (fun b : Block => if b.mh.pooled then alignedSize else 0) _ _ mem
    rwa [if_pos pooled] at counts
  have outside : Pool.total (Block.counted false) o.live ≤ objectBytes o.live := by
    refine Pool.total_le_total (fun c => ?_) o.live
    unfold Block.counted
    cases c.mh.pooled <;> simp
  have room := inv.room
  have positive : 0 < alignedSize := by decide
  dsimp only at inPool
  omega

theorem Inv.none_of_zero (inv : o.Inv) (zero : o.pool.currentlyAllocated = 0) (tracked : o.pool.fTracker ≠ .null) :
    ∀ b ∈ o.live, b.mh.pooled = false := by
  intro b mem
  by_contra pooled
  rw [Bool.not_eq_false] at pooled
  have below := inv.counted_lt mem pooled
  have positive : 0 < Pool.total (Block.counted true) o.live := by
    obtain ⟨⟨order, serves⟩, -⟩ := inv.served b mem pooled
    rw [inv.wellFormed.original] at serves
    have usable := serves_positive serves
    have counts := @Pool.le_total _ (Block.counted true) _ _ mem
    rw [Block.counted, if_pos pooled] at counts
    omega
  have counts := inv.counts
  unfold PoolAllocator.currentlyAllocated at zero
  generalize o.pool.fTracker = fTracker at *
  generalize o.pool.fPoolTotalExcessTracker = excess at *
  cases counts with
  | nothing => exact tracked rfl
  | all =>
    simp only [MemTracker.currentlyAllocated, Option.map_some, Option.getD_some] at zero
    omega

theorem Inv.refresh (inv : o.Inv) (allowed : Allowed .refresh o) (done : step .refresh o = .ok o') : o'.Inv := by
  obtain rfl := Except.ok.inj done
  unfold PoolAllocator.refresh
  split
  · rename_i zero
    have none : ∀ b ∈ o.live, b.mh.pooled = false := by
      by_cases tracked : o.pool.fTracker = .null
      · exact allowed tracked
      · exact inv.none_of_zero zero tracked
    refine ⟨inv.wellFormed.initializeBuckets, ?_, ?_, inv.named, inv.distinct, inv.room, inv.counts⟩
    · dsimp only
      rw [held_of_none none, add_zero, PoolAllocator.unused_of_free poolBuckets_free]
      rfl
    · intro b mem pooled
      rw [none b mem] at pooled
      cases pooled
  · exact inv

theorem Inv.next (inv : o.Inv) {event : Event} (allowed : Allowed event o) (done : step event o = .ok o') : o'.Inv := by
  cases event with
  | alloc allocSize fails => exact inv.alloc allowed done
  | free place => exact inv.free done
  | refresh => exact inv.refresh allowed done

theorem Inv.alloc_outside (inv : o.Inv) {allocSize : AllocSize} {bucket : PoolBucket} {order : Nat}
    (found : o.pool.findBucketBySize allocSize.bytes = some (bucket, order)) (large : 2 ^ 63 ≤ bucket.fSize) (fails : Bool) :
    ∃ o', step (.alloc allocSize fails) o = .ok o' ∧ ¬ o'.Safe := by
  obtain ⟨here, -, -⟩ := findBucketBySize_iff.mp found
  have small := inv.wellFormed.small
  have empty : bucket.fFirstFree = [] := by
    cases free : bucket.fFirstFree with
    | nil => rfl
    | cons mh rest =>
      have listed : Extent.count ⟨mh, bucket.fSize⟩ ≤ occupied bucket.extents := by
        rw [PoolBucket.extents_of_free free, PoolBucket.occupied_withFree_cons]
        exact le_add_right le_rfl
      have total := @Extent.le_total _ (fun bucket => occupied bucket.extents) _ _ (List.mem_of_getElem? here)
      have unused : Extent.count ⟨mh, bucket.fSize⟩ ≤ o.pool.unused := (listed.trans total).trans (le_add_left le_rfl)
      have inside := Extent.inside_of_count_le (Nat.lt_of_lt_of_le (by decide) large)
        (unused.trans ((le_add_right le_rfl).trans inv.memory))
      simp only [Extent.stop] at inside
      omega
  have payload : bucket.fSize ≤ 2 ^ 63 + alignedSize := by
    have original := inv.wellFormed.original
    have size : (poolBuckets o.pool.fPoolBuckets.length fgMinPayloadSize)[order]?.map (·.fSize) = some bucket.fSize := by
      rw [← List.getElem?_map, ← original, PoolAllocator.sizes, List.getElem?_map, here]
      rfl
    obtain ⟨first, at_order, same⟩ := Option.map_eq_some_iff.mp size
    have power := poolBuckets_payload (.inr ⟨4, by decide, rfl⟩) first (List.mem_of_getElem? at_order)
    rw [← same, first.sized]
    exact Nat.add_le_add_right power _
  have negative : asLong bucket.fSize < o.pool.lastFree := by
    have bottom := inv.wellFormed.bottom
    unfold alignedSize at payload
    rw [asLong, if_neg (Nat.not_lt.mpr large)]
    omega
  have top := inv.wellFormed.top
  refine ⟨_, by
    unfold step PoolAllocator.alloc
    simp only [found, empty, if_pos negative]
    rfl, fun safe => ?_⟩
  have inside := (safe.inside _ List.mem_cons_self rfl).1
  change 0 ≤ o.pool.lastFree - bucket.fSize at inside
  omega

theorem Inv.refresh_inUse (inv : o.Inv) {b : Block} (null : o.pool.fTracker = .null) (mem : b ∈ o.live)
    (pooled : b.mh.pooled = true) : ∃ o', step .refresh o = .ok o' ∧ ¬ o'.Safe := by
  have zero : o.pool.currentlyAllocated = 0 := by
    have counts := inv.counts
    unfold PoolAllocator.currentlyAllocated
    rw [null] at counts ⊢
    generalize o.pool.fPoolTotalExcessTracker = excess at *
    cases counts
    rfl
  refine ⟨_, rfl, fun safe => ?_⟩
  have apart := safe.unopened b mem pooled
  rw [PoolAllocator.refresh, if_pos zero] at apart
  have inside := inv.safe.inside b mem pooled
  have size : 0 < b.mh.extent.size := Nat.add_pos_left (by decide) _
  refine apart b.mh.extent.start ⟨Int.le_refl _, ?_⟩ ⟨inside.1, ?_⟩
  · unfold Extent.stop
    omega
  · have last := inside.2
    unfold Extent.stop at last ⊢
    change b.mh.extent.start < 0 + ((o.pool.fAllocSz : Int).toNat : Int)
    omega

/-- No run hands out memory that is in use exactly when each `Refresh` of a pool without trackers finds
no block of the pool in use, and each size that is asked for fits into a bucket whose own size is a
`long` or into none. -/
theorem safe_iff {poolSize maxPoolBuckets : Nat} {level : Int} (fits : poolSize * 1024 % 2 ^ 64 < 2 ^ 63) (events : List Event) :
    (∀ before, before <+: events → ∀ o, Runs.run step before (new poolSize maxPoolBuckets level) = .ok o → o.Safe) ↔
      Runs.Meets step Allowed events (new poolSize maxPoolBuckets level) := by
  refine Runs.always_good_iff (fun _ inv => Inv.safe inv) (fun _ _ _ inv allowed done => inv.next allowed done) ?_ events (inv_new fits)
  intro event o inv notAllowed
  cases event with
  | alloc allocSize fails =>
    simp only [Allowed, not_forall, Nat.not_lt] at notAllowed
    obtain ⟨bucket, order, found, large⟩ := notAllowed
    exact inv.alloc_outside found large fails
  | free place => exact absurd trivial notAllowed
  | refresh =>
    simp only [Allowed, not_forall, Bool.not_eq_false] at notAllowed
    obtain ⟨null, b, mem, pooled⟩ := notAllowed
    exact inv.refresh_inUse null mem pooled

def smallest : AllocSize := ⟨48, by decide, by decide⟩

theorem safe_iff_tracked : Runs.Meets step Allowed [.alloc smallest false, .refresh, .free 0] (new 1 10 1) ∧
    ∀ before, before <+: [.alloc smallest false, .refresh, .free 0] → ∀ o, Runs.run step before (new 1 10 1) = .ok o → o.Safe := by
  have meets : Runs.Meets step Allowed [.alloc smallest false, .refresh, .free 0] (new 1 10 1) := by
    refine ⟨?_, fun o taken => ?_⟩
    · rintro bucket order found
      obtain ⟨rfl, rfl⟩ := Prod.mk.inj (Option.some.inj found)
      decide
    · obtain rfl := Except.ok.inj taken
      exact ⟨nofun, fun _ _ => ⟨trivial, fun _ _ => trivial⟩⟩
  exact ⟨meets, (safe_iff (by decide) _).mpr meets⟩

/-- The statistic level is 0: the second block lies where the first one still is. -/
theorem refresh_gives_twice :
    ∃ o, Runs.run step [.alloc smallest false, .refresh, .alloc smallest false] (new 1 10 0) = .ok o ∧ ¬ o.Safe := by
  refine ⟨_, rfl, fun safe => ?_⟩
  obtain ⟨apart, -⟩ := List.pairwise_cons.mp safe.apart
  exact apart _ List.mem_cons_self rfl 976 (by decide) (by decide)

end Owner

end Coast.Memory
