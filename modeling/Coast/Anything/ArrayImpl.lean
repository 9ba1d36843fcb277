import Coast.Anything.Hash
import Coast.Anything.IndTable
import Coast.Lib.Probing

/-!
# The array implementation

`AnyArrayImpl` keeps its elements in buffers of key/value pairs, the order of the elements in an index
table and the positions of the named elements in a hash table. A computation stops with a `Fault` where
the code would touch memory outside these tables; allocations succeed.
-/

namespace Coast.Anything

open LinearProbing

/-! ### Prime capacities -/

/-- The inner loop of `IFANextPrime`: the first odd `n` that divides `x` or whose square exceeds it. -/
def nextPrimeDivisor (x : Nat) : Nat → Nat → Nat
  | 0, n => n
  | fuel + 1, n => if n * n ≤ x ∧ x % n ≠ 0 then nextPrimeDivisor x fuel (n + 2) else n

def nextPrimeFrom : Nat → Nat → Nat
  | 0, x => x
  | fuel + 1, x =>
    let n := nextPrimeDivisor x x 3
    if n * n > x then x else nextPrimeFrom fuel (x + 2)

def ifaNextPrime (x : Nat) : Nat :=
  if x ≤ 3 then 3
  else
    let x := if x % 2 = 0 then x + 1 else x
    nextPrimeFrom x x

/-! ### Tables -/

structure AnyKeyAssoc (V : Type) where
  fValue : V
  fKey : Bytes
  deriving DecidableEq, Repr

/-- `Key() != 0` compares the text of the key with a null pointer: it holds unless the text is empty. -/
def keyNotNull : Bytes → Bool
  | [] => false
  | c :: _ => c != 0

/-- `AnyKeyAssoc::operator=`. -/
def AnyKeyAssoc.assign {V : Type} (old aka : AnyKeyAssoc V) : AnyKeyAssoc V :=
  { fValue := aka.fValue, fKey := if keyNotNull aka.fKey then aka.fKey else old.fKey }

structure AnyKeyTable where
  fHashTable : List (Cell Nat)
  fThreshold : Nat
  fCapacity : Nat
  deriving DecidableEq, Repr

namespace AnyKeyTable

def cInitCapacity : Nat := 17

def initTable (cap : Nat) : AnyKeyTable :=
  let cap := if cap < cInitCapacity then cInitCapacity else cap
  let capacity := ifaNextPrime cap
  { fHashTable := List.replicate capacity .free, fThreshold := 3 * capacity / 4, fCapacity := capacity }

def clear (t : AnyKeyTable) : AnyKeyTable := { t with fHashTable := List.replicate t.fCapacity .free }

/-- `Update(fromIndex)`, after the removal of a slot. -/
def updateRemoved (t : AnyKeyTable) (fromIndex : Nat) : AnyKeyTable :=
  { t with fHashTable := t.fHashTable.map fun
      | .used lIdx => if lIdx = fromIndex then .deleted else if lIdx > fromIndex then .used (lIdx - 1) else .used lIdx
      | cell => cell }

/-- `Update(fromIndex, size)` with `size >= 0`, after the insertion of slots. -/
def updateInserted (t : AnyKeyTable) (fromIndex size : Nat) : AnyKeyTable :=
  { t with fHashTable := t.fHashTable.map fun
      | .used lIdx => if lIdx ≥ fromIndex then .used (lIdx + size) else .used lIdx
      | cell => cell }

end AnyKeyTable

/-- `fContents` is the concatenation of the `fNumOfBufs` buffers. The default value is the null `Anything`. -/
structure AnyArrayImpl (V : Type) where
  fContents : List (AnyKeyAssoc V)
  fKeys : Option AnyKeyTable
  fInd : AnyIndTable
  fCapacity : Nat
  fSize : Nat
  fNumOfBufs : Nat

def arrayBufSize : Nat := 4

def adjustCapacity (cap : Nat) : Nat := (cap + arrayBufSize - 1) / arrayBufSize * arrayBufSize

namespace AnyArrayImpl

variable {V : Type} [Inhabited V]

/-- A pair as `AnyKeyAssoc()` and `Init` make it. -/
def blank : AnyKeyAssoc V := { fValue := default, fKey := [] }

def new : AnyArrayImpl V :=
  let capacity := adjustCapacity 4
  let bufs := capacity / arrayBufSize
  { fContents := List.replicate (bufs * arrayBufSize) blank
    fKeys := none
    fInd := AnyIndTable.new capacity
    fCapacity := capacity
    fSize := 0
    fNumOfBufs := bufs }

/-- `fContents[IntAtBuf(at)][IntAtSlot(at)]`. -/
def cell (a : AnyArrayImpl V) (pos : Nat) : Exec (AnyKeyAssoc V) :=
  if pos < a.fNumOfBufs * arrayBufSize then .ok (a.fContents.getD pos blank) else .error (.contents pos)

def setCell (a : AnyArrayImpl V) (pos : Nat) (f : AnyKeyAssoc V → AnyKeyAssoc V) : Exec (AnyArrayImpl V) := do
  let old ← a.cell pos
  return { a with fContents := a.fContents.set pos (f old) }

def slotKey (a : AnyArrayImpl V) (lIdx : Nat) : Exec Bytes := do
  let assoc ← a.cell (a.fInd.atSlot lIdx).2
  return assoc.fKey

/-- The comparison loop of `DoHash`: equal lengths and equal bytes. -/
def keyMatches (key : Bytes) (keylen : Int) (other : Bytes) : Bool :=
  keylen == other.length && key.take other.length == other

def hashStops (a : AnyArrayImpl V) (t : AnyKeyTable) (key : Bytes) (keylen : Int) (append : Bool) (i : Nat) :
    Exec Bool :=
  match t.fHashTable.getD i .free with
  | .free => return true
  | .deleted => return append
  | .used lIdx => do
    let other ← a.slotKey lIdx
    return keyMatches key keylen other

/-- The probing loop of `DoHash`; `none` is its `-1`. The loop ends when it is back at `hash`. -/
def doHashLoop (a : AnyArrayImpl V) (t : AnyKeyTable) (key : Bytes) (keylen : Int) (append : Bool) (hash : Nat) :
    Nat → Nat → Exec (Option Nat)
  | 0, _ => return none
  | fuel + 1, i => do
    if ← a.hashStops t key keylen append i then
      return some i
    else
      let next := if i + 1 ≥ t.fCapacity then i + 1 - t.fCapacity else i + 1
      if next = hash then return none else doHashLoop a t key keylen append hash fuel next

/-- A null `key` pointer hashes like an empty key. -/
def doHash (a : AnyArrayImpl V) (t : AnyKeyTable) (key : Bytes) (append : Bool := false) (sizehint : Int := -1)
    (hashhint : Nat := 0) : Exec (Option Nat) :=
  let hashed : Int × Int := if hashhint ≠ 0 then (hashhint, sizehint) else ((ifaHash key).1, (ifaHash key).2)
  let hash := hashed.1.tmod t.fCapacity
  if hash < 0 then .error .hashTable
  else doHashLoop a t key hashed.2 append hash.toNat t.fCapacity hash.toNat

/-- `fHashTable[index] = slot`, where `none` is the index `-1`. -/
def storeHash (t : AnyKeyTable) (index : Option Nat) (slot : Nat) : Exec AnyKeyTable :=
  match index with
  | some i => .ok { t with fHashTable := t.fHashTable.set i (.used slot) }
  | none => .error .hashTable

def rehash (a : AnyArrayImpl V) (t : AnyKeyTable) (newCap : Nat) : Exec AnyKeyTable :=
  t.fHashTable.foldlM (fun table entry =>
    match entry with
    | .used slot => do
      let key ← a.slotKey slot
      let lIdx ← a.doHash table key
      storeHash table lIdx slot
    | _ => return table) (AnyKeyTable.initTable newCap)

def ensureThreshold (a : AnyArrayImpl V) (t : AnyKeyTable) : Exec AnyKeyTable :=
  if a.fSize > t.fThreshold then a.rehash t (t.fCapacity * 2) else return t

/-- `AnyKeyTable::Append`; `none` is a null key. -/
def keyAppend (a : AnyArrayImpl V) (t : AnyKeyTable) (key : Option Bytes) (atIndex : Nat) : Exec AnyKeyTable :=
  match key with
  | none => return t
  | some key => do
    let t ← a.ensureThreshold t
    let lIdx ← a.doHash t key true
    storeHash t lIdx atIndex

/-- `AnyKeyTable::At`; `none` is its `-1`. -/
def keyAt (a : AnyArrayImpl V) (t : AnyKeyTable) (key : Bytes) (sizehint : Int := -1) (hashhint : Nat := 0) :
    Exec (Option Nat) := do
  match ← a.doHash t key false sizehint hashhint with
  | none => return none
  | some i =>
    match t.fHashTable.getD i .free with
    | .used slot => return some slot
    | _ => return none

def findIndex (a : AnyArrayImpl V) (key : Bytes) (sizehint : Int := -1) (hashhint : Nat := 0) : Exec (Option Nat) :=
  match a.fKeys with
  | none => return none
  | some t => a.keyAt t key sizehint hashhint

/-! ### Element access -/

def expand (a : AnyArrayImpl V) (newsize : Nat) : AnyArrayImpl V :=
  let capacity := if newsize > a.fCapacity * 2 then adjustCapacity newsize else adjustCapacity (a.fCapacity * 2)
  let numOfNewBufs := capacity / arrayBufSize
  if numOfNewBufs > a.fNumOfBufs then
    { a with
      fCapacity := capacity
      fNumOfBufs := numOfNewBufs
      fContents := a.fContents ++ List.replicate ((numOfNewBufs - a.fNumOfBufs) * arrayBufSize) blank }
  else { a with fCapacity := capacity }

/-- The logical and the physical expansion in `At(long)`. -/
def resize (a : AnyArrayImpl V) (newsz : Nat) : AnyArrayImpl V :=
  if newsz > a.fSize then
    let a := { a with fSize := newsz }
    if newsz ≥ a.fCapacity then a.expand newsz else a
  else a

/-- `At(long)`: the array and the cell that the returned reference denotes. -/
def atSlot (a : AnyArrayImpl V) (slot : Nat) : Exec (AnyArrayImpl V × Nat) := do
  let a := a.resize (slot + 1)
  let found := a.fInd.atSlot slot
  let a := { a with fInd := found.1 }
  let _ ← a.cell found.2
  return (a, found.2)

/-- `At(const char *)` for a key that has no slot yet. -/
def createKey (a : AnyArrayImpl V) (t : AnyKeyTable) (key : Option Bytes) : Exec (AnyArrayImpl V × Nat) := do
  let t ← a.keyAppend t key a.fSize
  let found := a.fInd.atSlot a.fSize
  let a ← { a with fKeys := some t, fInd := found.1 }.setCell found.2 fun assoc => { assoc with fKey := key.getD [] }
  a.atSlot a.fSize

/-- `At(const char *)`; `none` is a null key. A key that is found yields its external slot, which is
then used as a cell. -/
def atKey (a : AnyArrayImpl V) (key : Option Bytes) : Exec (AnyArrayImpl V × Nat) := do
  let slot ← a.findIndex (key.getD [])
  let t := a.fKeys.getD (AnyKeyTable.initTable AnyKeyTable.cInitCapacity)
  match slot with
  | none => a.createKey t key
  | some slot => do
    let a := { a with fKeys := some t }
    let _ ← a.cell slot
    return (a, slot)

def assign (a : AnyArrayImpl V) (pos : Nat) (v : V) : Exec (AnyArrayImpl V) :=
  a.setCell pos fun assoc => { assoc with fValue := v }

def remove (a : AnyArrayImpl V) (slot : Nat) : Exec (AnyArrayImpl V) :=
  if slot < a.fSize then do
    let found := a.fInd.atSlot slot
    let a ← { a with fInd := found.1 }.setCell found.2 fun assoc => assoc.assign blank
    return { a with
      fInd := a.fInd.remove slot
      fKeys := a.fKeys.map fun t => t.updateRemoved slot
      fSize := a.fSize - 1 }
  else return a

/-- `Anything::Remove(const char *)` on an array. -/
def removeKey (a : AnyArrayImpl V) (key : Bytes) : Exec (AnyArrayImpl V) := do
  match ← a.findIndex key with
  | some slot => a.remove slot
  | none => return a

/-- `Anything::Append` on an array. -/
def append (a : AnyArrayImpl V) (v : V) : Exec (AnyArrayImpl V) := do
  let (a, pos) ← a.atSlot a.fSize
  a.assign pos v

/-- Making room for no slots in an empty array reads the slot `-1`. -/
def insertReserve (a : AnyArrayImpl V) (pos size : Nat) : Exec (AnyArrayImpl V) :=
  if a.fSize + size = 0 then .error .range
  else do
    let (a, _) ← a.atSlot (a.fSize + size - 1)
    let ind ← a.fInd.insertReserve pos size
    return { a with fInd := ind, fKeys := a.fKeys.map fun t => t.updateInserted pos size }

/-! ### Reading -/

def key (a : AnyArrayImpl V) (slot : Nat) : Exec Bytes :=
  if slot < a.fSize then do
    let assoc ← a.cell (a.fInd.atSlot slot).2
    return assoc.fKey
  else return []

/-- `SlotName`; `none` is the null pointer. -/
def slotName (a : AnyArrayImpl V) (slot : Nat) : Exec (Option Bytes) := do
  let k ← a.key slot
  return if k.length > 0 then some k else none

/-- `At(long) const`: the array and the cell that the returned reference denotes; `none` is `std::out_of_range`. `IntAt`
calls the `At(long)` of the index table that is not const, which makes room for the slot; before slot 0 it asserts, and
without the assertion it reads in front of the table. -/
def atLongConst (a : AnyArrayImpl V) (slot : Int) : Exec (AnyArrayImpl V × Option Nat) :=
  if slot < 0 then .error .range
  else do
    let found := a.fInd.atSlot slot.toNat
    let a := { a with fInd := found.1 }
    if (found.2 : Int) ≥ 0 then
      let _ ← a.cell found.2
      return (a, some found.2)
    else return (a, none)

/-- `At(const char *) const`. As in the other overload the slot is used as a cell. -/
def atKeyConst (a : AnyArrayImpl V) (key : Option Bytes) : Exec (AnyArrayImpl V × Option Nat) := do
  match ← a.findIndex (key.getD []) with
  | some slot => do
    let _ ← a.cell slot
    return (a, some slot)
  | none => return (a, none)

/-- The value that `At(long) const` returns. -/
def atSlotConst (a : AnyArrayImpl V) (slot : Nat) : Exec V := do
  let assoc ← a.cell (a.fInd.atSlot slot).2
  return assoc.fValue

/-- `FindIndex(long)`, which calls the `At(long)` of the index table that is const. -/
def findIndexLong (a : AnyArrayImpl V) (lIdx : Int) : Int :=
  if lIdx < 0 then -1
  else match a.fInd.atSlotConst lIdx.toNat with
    | some pos => pos
    | none => -1

/-! ### Sorting -/

/-- `AnyIntCompare::Compare` on two cells. -/
abbrev IntCompare (V : Type) := AnyArrayImpl V → Nat → Nat → Exec Int

def intKey (a : AnyArrayImpl V) (pos : Nat) : Exec Bytes :=
  if pos < a.fCapacity then do
    let assoc ← a.cell pos
    return assoc.fKey
  else return []

def intValue (a : AnyArrayImpl V) (pos : Nat) : Exec V :=
  if pos < a.fCapacity then do
    let assoc ← a.cell pos
    return assoc.fValue
  else .error .range

/-- `String::Compare`. -/
def stringCompare : Bytes → Bytes → Int
  | [], [] => 0
  | [], _ :: _ => -1
  | _ :: _, [] => 1
  | c :: s, d :: t => if c < d then -1 else if d < c then 1 else stringCompare s t

def keyCompare : IntCompare V := fun a left right => do
  let l ← a.intKey left
  let r ← a.intKey right
  return stringCompare l r

def reverseKeyCompare : IntCompare V := fun a left right => do
  let l ← a.intKey left
  let r ← a.intKey right
  return - stringCompare l r

/-- `AnyIntComparerCompare` for an arbitrary `AnyComparer`. -/
def valueCompare (compare : V → V → Int) : IntCompare V := fun a left right => do
  let l ← a.intValue left
  let r ← a.intValue right
  return compare l r

def setIndex (a : AnyArrayImpl V) (slot idx : Nat) : AnyArrayImpl V := { a with fInd := a.fInd.setIndex slot idx }

def intAt (a : AnyArrayImpl V) (slot : Nat) : Nat := (a.fInd.atSlot slot).2

/-- The two loops of `MergeByComparer`: `low` is the part of the copied lower half that is not yet
written back, `count` the number of slots from `j` to `hi`. -/
def mergeLoop (comparer : IntCompare V) (a : AnyArrayImpl V) (i j : Nat) : List Nat → Nat → Exec (AnyArrayImpl V)
  | [], _ => return a
  | l :: low, 0 => mergeLoop comparer (a.setIndex i l) (i + 1) j low 0
  | l :: low, count + 1 => do
    let order ← comparer a l (a.intAt j)
    if order ≤ 0 then mergeLoop comparer (a.setIndex i l) (i + 1) j low (count + 1)
    else mergeLoop comparer (a.setIndex i (a.intAt j)) (i + 1) (j + 1) (l :: low) count
  termination_by low count => low.length + count

def mergeByComparer (a : AnyArrayImpl V) (lo hi m : Nat) (comparer : IntCompare V) : Exec (AnyArrayImpl V) :=
  if hi < m + 1 ∨ lo > m then return a
  else mergeLoop comparer a lo (m + 1) ((List.range' lo (m - lo + 1)).map a.intAt) (hi - m)

def mergeSortByComparer (comparer : IntCompare V) (a : AnyArrayImpl V) (low high : Nat) : Exec (AnyArrayImpl V) :=
  if low ≥ high then return a
  else do
    let middle := (low + high) / 2
    let a ← mergeSortByComparer comparer a low middle
    let a ← mergeSortByComparer comparer a (middle + 1) high
    a.mergeByComparer low high middle comparer
  termination_by high - low

def recreateEntry (a : AnyArrayImpl V) (t : AnyKeyTable) (i : Nat) : Exec AnyKeyTable := do
  match ← a.slotName i with
  | some name => a.keyAppend t (some name) i
  | none => return t

def recreateKeyTable (a : AnyArrayImpl V) : Exec (AnyArrayImpl V) :=
  match a.fKeys with
  | none => return a
  | some t => do
    let t ← (List.range a.fSize).foldlM a.recreateEntry t.clear
    return { a with fKeys := some t }

/-- `MergeSortByComparer(0, GetSize() - 1, comparer)`. -/
def sortIndices (a : AnyArrayImpl V) (comparer : IntCompare V) : Exec (AnyArrayImpl V) :=
  if a.fSize = 0 then return a else mergeSortByComparer comparer a 0 (a.fSize - 1)

def sortBy (a : AnyArrayImpl V) (comparer : IntCompare V) : Exec (AnyArrayImpl V) := do
  let a ← a.sortIndices comparer
  a.recreateKeyTable

def sortByKey (a : AnyArrayImpl V) : Exec (AnyArrayImpl V) := a.sortBy keyCompare

def sortReverseByKey (a : AnyArrayImpl V) : Exec (AnyArrayImpl V) := a.sortBy reverseKeyCompare

def sortByAnyComparer (a : AnyArrayImpl V) (compare : V → V → Int) : Exec (AnyArrayImpl V) :=
  a.sortBy (valueCompare compare)

end AnyArrayImpl

end Coast.Anything
