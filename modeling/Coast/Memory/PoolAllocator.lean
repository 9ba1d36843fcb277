import Coast.Lib.Extents
import Coast.Lib.Runs

/-!
# The pool allocator

`PoolAllocator` and the owner of its blocks. An address in the pool is an offset from `fPoolMemory`;
every piece of memory that `::calloc` hands out is an object of its own. The list of free blocks that
starts in `fFirstFree` and goes on through `fNextFree` is a list of addresses.
-/

namespace Coast.Memory

/-- `AlignedSize<MemoryHeader>::value`, the 24 bytes of the header with their padding. -/
def alignedSize : Nat := 32

def fgMinPayloadSize : Nat := 16

/-- A `size_t` that is cast to `long`. -/
def asLong (n : Nat) : Int := if n < 2 ^ 63 then n else n - 2 ^ 64

/-- `fState` is `eUsedNotPooled` for a header in an object of its own, and `eUsed` for one in the pool. -/
structure MemoryHeader where
  object : Option Nat
  address : Int
  fUsableSize : Nat
  deriving DecidableEq, Repr

namespace MemoryHeader

def pooled (mh : MemoryHeader) : Bool := mh.object.isNone

def extent (mh : MemoryHeader) : Extent := ⟨mh.address, alignedSize + mh.fUsableSize⟩

end MemoryHeader

/-- The `NullMemTracker` counts nothing. -/
inductive MemTracker where
  | null
  | counting (fAllocated : Int)
  deriving DecidableEq, Repr

namespace MemTracker

def trackAlloc (mh : MemoryHeader) : MemTracker → MemTracker
  | null => null
  | counting fAllocated => counting (fAllocated + mh.fUsableSize)

def trackFree (mh : MemoryHeader) : MemTracker → MemTracker
  | null => null
  | counting fAllocated => counting (fAllocated - mh.fUsableSize)

def currentlyAllocated : MemTracker → Nat
  | null => 0
  | counting fAllocated => (fAllocated % 2 ^ 64).toNat

end MemTracker

structure PoolBucket where
  fSize : Nat
  fUsableSize : Nat
  fFirstFree : List Int
  sized : fSize = fUsableSize + alignedSize
  deriving DecidableEq, Repr

namespace PoolBucket

def withFree (bucket : PoolBucket) (free : List Int) : PoolBucket := { bucket with fFirstFree := free }

def extents (bucket : PoolBucket) : List Extent := bucket.fFirstFree.map fun mh => ⟨mh, bucket.fSize⟩

end PoolBucket

def poolBuckets : Nat → Nat → List PoolBucket
  | 0, _ => []
  | fNumOfPoolBucketSizes + 1, sz => ⟨sz + alignedSize, sz, [], rfl⟩ :: poolBuckets fNumOfPoolBucketSizes (sz * 2 % 2 ^ 64)

/-- `lastFree` is the `fFirstFree` of the entry behind the buckets. -/
structure PoolAllocator where
  fAllocSz : Nat
  fPoolBuckets : List PoolBucket
  lastFree : Int
  fTracker : MemTracker
  fPoolTotalExcessTracker : Option MemTracker
  deriving DecidableEq, Repr

namespace PoolAllocator

/-- `Initialize`. -/
def initializeBuckets (p : PoolAllocator) : PoolAllocator :=
  { p with fPoolBuckets := poolBuckets p.fPoolBuckets.length fgMinPayloadSize, lastFree := p.fAllocSz }

/-- The statistic levels for which the constructor makes trackers. -/
def tracks (level : Int) : Bool := 1 ≤ level && level ≤ 4

/-- The `poolSize` is in kilobytes. -/
def new (poolSize maxPoolBuckets : Nat) (level : Int) : PoolAllocator :=
  { fAllocSz := poolSize * 1024 % 2 ^ 64
    fPoolBuckets := poolBuckets maxPoolBuckets fgMinPayloadSize
    lastFree := (poolSize * 1024 % 2 ^ 64 : Nat)
    fTracker := if tracks level then .counting 0 else .null
    fPoolTotalExcessTracker := if tracks level then some (.counting 0) else none }

variable (p : PoolAllocator)

def findBucketBySize (allocSize : Nat) : Option (PoolBucket × Nat) :=
  p.fPoolBuckets.zipIdx.find? fun entry => allocSize ≤ entry.1.fSize

/-- The loop over the larger buckets. Where all their lists are empty it ends at the entry behind them,
whose `fSize` is 0. -/
def nextAvailable (order : Nat) : Option (PoolBucket × Nat) :=
  p.fPoolBuckets.zipIdx.find? fun entry => order ≤ entry.2 && !entry.1.fFirstFree.isEmpty

def putBucket (order : Nat) (bucket : PoolBucket) : PoolAllocator :=
  { p with fPoolBuckets := p.fPoolBuckets.set order bucket }

def trackAlloc (mh : MemoryHeader) : PoolAllocator :=
  if mh.pooled then { p with fTracker := p.fTracker.trackAlloc mh }
  else { p with fPoolTotalExcessTracker := p.fPoolTotalExcessTracker.map (·.trackAlloc mh) }

def trackFree (mh : MemoryHeader) : PoolAllocator :=
  if mh.pooled then { p with fTracker := p.fTracker.trackFree mh }
  else { p with fPoolTotalExcessTracker := p.fPoolTotalExcessTracker.map (·.trackFree mh) }

def splitBucket (fSize : Nat) : Nat → Int → List Int → List Int
  | 0, _, free => free
  | nbuckets + 1, bucketEnd, free => splitBucket fSize nbuckets (bucketEnd - fSize) ((bucketEnd - fSize) :: free)

/-- A block from `::calloc`, which gives an object or fails. -/
def allocNotPooled (allocSize : Nat) (calloc : Option Nat) : Option MemoryHeader × PoolAllocator :=
  match calloc with
  | some object =>
    let mh : MemoryHeader := ⟨some object, 0, allocSize - alignedSize⟩
    (some mh, p.trackAlloc mh)
  | none => (none, p)

def allocPooled (bucket : PoolBucket) (address : Int) : Option MemoryHeader × PoolAllocator :=
  let mh : MemoryHeader := ⟨none, address, bucket.fUsableSize⟩
  (some mh, p.trackAlloc mh)

/-- `allocSize` includes the size of the header. -/
def alloc (allocSize : Nat) (calloc : Option Nat) : Option MemoryHeader × PoolAllocator :=
  match p.findBucketBySize allocSize with
  | none => p.allocNotPooled allocSize calloc
  | some (bucket, order) =>
    match bucket.fFirstFree with
    | mh :: fNextFree => (p.putBucket order (bucket.withFree fNextFree)).allocPooled bucket mh
    | [] =>
      if asLong bucket.fSize < p.lastFree then
        { p with lastFree := p.lastFree - bucket.fSize }.allocPooled bucket (p.lastFree - bucket.fSize)
      else
        match p.nextAvailable order with
        | none => p.allocNotPooled allocSize calloc
        | some (larger, place) =>
          match larger.fFirstFree with
          | [] => p.allocNotPooled allocSize calloc
          | mh :: fNextFree =>
            let nbuckets := larger.fSize / bucket.fSize
            match splitBucket bucket.fSize nbuckets (mh + bucket.fSize * nbuckets) bucket.fFirstFree with
            | [] => (none, p)
            | first :: rest =>
              ((p.putBucket place (larger.withFree fNextFree)).putBucket order (bucket.withFree rest)).allocPooled bucket first

def free (mh : MemoryHeader) : PoolAllocator :=
  if mh.pooled then
    match p.findBucketBySize (mh.fUsableSize + alignedSize) with
    | some (bucket, order) => (p.trackFree mh).putBucket order (bucket.withFree (mh.address :: bucket.fFirstFree))
    | none => p
  else p.trackFree mh

def currentlyAllocated : Nat :=
  (p.fTracker.currentlyAllocated + (p.fPoolTotalExcessTracker.map (·.currentlyAllocated)).getD 0) % 2 ^ 64

def refresh : PoolAllocator := if p.currentlyAllocated = 0 then p.initializeBuckets else p

end PoolAllocator

/-- What is asked of `Alloc`: a `size_t` that has room for the header. -/
structure AllocSize where
  bytes : Nat
  header : alignedSize ≤ bytes
  word : bytes < 2 ^ 64
  deriving DecidableEq, Repr

structure Block where
  mh : MemoryHeader
  requested : Nat
  deriving DecidableEq, Repr

inductive Event where
  | alloc (allocSize : AllocSize) (callocFails : Bool)
  | free (place : Nat)
  | refresh
  deriving DecidableEq, Repr

structure Owner where
  pool : PoolAllocator
  live : List Block
  fresh : Nat
  deriving DecidableEq, Repr

namespace Owner

def new (poolSize maxPoolBuckets : Nat) (level : Int) : Owner := ⟨.new poolSize maxPoolBuckets level, [], 0⟩

def objectBytes (live : List Block) : Nat :=
  Pool.total (fun b => if b.mh.pooled then 0 else alignedSize + b.mh.fUsableSize) live

/-- `::calloc` may fail, and it fails where the address space has no room. -/
def calloc (o : Owner) (allocSize : Nat) (fails : Bool) : Option Nat :=
  if fails || 2 ^ 64 < objectBytes o.live + o.pool.fAllocSz + allocSize then none else some o.fresh

inductive Misuse where
  | notLive
  deriving DecidableEq, Repr

def step : Event → Owner → Except Misuse Owner
  | .alloc allocSize callocFails, o =>
    match o.pool.alloc allocSize.bytes (o.calloc allocSize.bytes callocFails) with
    | (some mh, pool) => .ok ⟨pool, ⟨mh, allocSize.bytes⟩ :: o.live, o.fresh + 1⟩
    | (none, pool) => .ok { o with pool }
  | .free place, o =>
    match o.live[place]? with
    | some b => .ok { o with pool := o.pool.free b.mh, live := o.live.eraseIdx place }
    | none => .error .notLive
  | .refresh, o => .ok { o with pool := o.pool.refresh }

end Owner

end Coast.Memory
