import Coast.Base.StringEdits
import Coast.Lib.Runs

/-!
# Writing to a string by way of a stream

`StringStreamBuf` puts characters into the buffer of a `String`, in the mode `out`. The put area ends in front
of the byte for the terminator, and the length of the string follows the put position only when it is adjusted.
A `File` is what a stream is for: bytes at positions, a length and a position.
-/

namespace Coast.ITOString

inductive StreamFault where
  /-- An `Assert` that does not hold. -/
  | assertion
  | range
  deriving DecidableEq, Repr

/-- The pointers are offsets from the content of the string; there are none without a buffer. -/
structure StringStreamBuf where
  fStore : Str
  /-- `pptr()` and `epptr()`, behind `pbase()`. -/
  put : Option (Int × Int)
  /-- `eback()`, `gptr()` and `egptr()`. -/
  get : Option (Int × Int × Int)

/-- The parameter of `pbump` is an `int`. -/
def toInt (n : Int) : Int := (n + 2 ^ 31) % 2 ^ 32 - 2 ^ 31

def assert (holds : Prop) [Decidable holds] : Except StreamFault Unit := if holds then .ok () else .error .assertion

namespace StringStreamBuf

variable (b : StringStreamBuf)

/-- `pptr() - pbase()`. -/
def pos : Int := (b.put.map Prod.fst).getD 0

/-- `epptr() - pbase()`. -/
def room : Int := (b.put.map Prod.snd).getD 0

/-- `gptr() - eback()`. -/
def read : Int := (b.get.map fun area => area.2.1 - area.1).getD 0

/-- Without `in` the get area starts where it ends. -/
def setgetpointer (getoffset : Int) : StringStreamBuf :=
  { b with get := b.fStore.map fun s => (s.fLength, getoffset, s.fLength) }

def adjustStringLength : Except StreamFault StringStreamBuf :=
  match b.put, b.fStore with
  | some (newlen, _), some s => do
    assert (0 ≤ newlen)
    assert (newlen < s.fCapacity)
    if s.fLength < newlen then return { b with fStore := some (s.terminate newlen) }.setgetpointer b.read
    return b
  | _, _ => .ok b

def setbufpointers (getoffset putoffset : Int) : Except StreamFault StringStreamBuf :=
  match b.fStore with
  | none => .ok { b with put := none, get := none }
  | some s => do
    let pptr := toInt putoffset
    assert (0 ≤ pptr ∧ pptr < s.fCapacity)
    assert (0 ≤ getoffset ∧ getoffset ≤ s.fLength)
    return { b with put := some (pptr, if 0 < s.fCapacity then s.fCapacity - 1 else 0) }.setgetpointer getoffset

def doreserve (newlength : Int) : Except StreamFault StringStreamBuf := do
  let b ← b.adjustStringLength
  assert (b.pos = length b.fStore)
  assert (b.put.isSome = b.fStore.isSome)
  let putoffset := if 0 < b.pos then b.pos else 0
  let getoffset := if 0 < b.read then b.read else 0
  let b ← setbufpointers { b with fStore := ITOString.reserve b.fStore (newlength - capacity b.fStore + 1) } getoffset putoffset
  assert (b.room = capacity b.fStore - 1)
  return b

def reserve (newlength : Int) : Except StreamFault StringStreamBuf :=
  if capacity b.fStore ≤ newlength then b.doreserve newlength else .ok b

def setp (p : Int) : StringStreamBuf := { b with put := b.fStore.map fun _ => (toInt p, b.room) }

def seekpos (p : Int) : Except StreamFault StringStreamBuf := do
  let b ← b.adjustStringLength
  let b ← if capacity b.fStore ≤ p then b.reserve p else .ok b
  return b.setp p

def store (bytes : Bytes) : StringStreamBuf :=
  { b with
    fStore := b.fStore.map fun s => { s with content := memmove s.content b.pos (buffer bytes).at' bytes.length }
    put := b.put.map fun area => (area.1 + bytes.length, area.2) }

def overflow (c : UInt8) : Except StreamFault StringStreamBuf := do
  assert (0 ≤ b.pos)
  let b ← b.reserve (b.pos + 1)
  assert (b.pos < b.room)
  return b.store [c]

def sputc (c : UInt8) : Except StreamFault StringStreamBuf :=
  if b.pos < b.room then if 0 ≤ b.pos then .ok (b.store [c]) else .error .range else b.overflow c

/-- `std::streambuf::xsputn`: as much as there is room for, then one character by way of `overflow`. -/
def xsputn (s : Bytes) (b : StringStreamBuf) : Except StreamFault StringStreamBuf :=
  if b.pos < 0 ∨ b.room < b.pos then .error .range
  else if more : (b.room - b.pos).toNat < s.length then do
    let b' ← (b.store (s.take (b.room - b.pos).toNat)).overflow s[(b.room - b.pos).toNat]
    xsputn (s.drop ((b.room - b.pos).toNat + 1)) b'
  else .ok (b.store s)
termination_by s.length
decreasing_by
  rw [List.length_drop]
  omega

end StringStreamBuf

inductive Direction where
  | beg
  | cur
  | finish
  deriving DecidableEq, Repr

inductive StreamOp where
  | put (c : UInt8)
  | write (s : Bytes)
  | seekp (p : Int)
  | seekoff (off : Int) (dir : Direction)
  | str
  deriving DecidableEq, Repr

namespace StringStreamBuf

/-- The position that `seekoff` asks for, after the length has been adjusted. -/
def target (b : StringStreamBuf) (off : Int) : Direction → Int
  | .beg => off
  | .cur => off + b.pos
  | .finish => off + length b.fStore

def seekoff (off : Int) (dir : Direction) (b : StringStreamBuf) : Except StreamFault StringStreamBuf := do
  let b ← b.adjustStringLength
  if b.target off dir < 0 then return b
  b.seekpos (b.target off dir)

def apply (op : StreamOp) (b : StringStreamBuf) : Except StreamFault StringStreamBuf :=
  match op with
  | .put c => b.sputc c
  | .write s => b.xsputn s
  | .seekp p => b.seekpos p
  | .seekoff off dir => b.seekoff off dir
  | .str => b.adjustStringLength

def onString (s : Str) : Except StreamFault StringStreamBuf := setbufpointers ⟨s, none, none⟩ 0 0

end StringStreamBuf

/-! ### Files -/

structure File where
  known : Nat → Option UInt8
  length : Nat
  pos : Nat

namespace File

def ofText (text : Bytes) : File := ⟨fun i => text[i]?, text.length, 0⟩

def extent (f : File) : Nat := max f.length f.pos

def adjust (f : File) : File := { f with length := f.extent }

def write (bytes : Bytes) (f : File) : File :=
  { f with
    known := fun i => if f.pos ≤ i ∧ i < f.pos + bytes.length then bytes[i - f.pos]? else f.known i
    pos := f.pos + bytes.length }

def target (f : File) (off : Int) : Direction → Int
  | .beg => off
  | .cur => off + f.pos
  | .finish => off + f.extent

def seek (p : Int) (f : File) : File := { f.adjust with pos := p.toNat }

def apply (op : StreamOp) (f : File) : File :=
  match op with
  | .put c => f.write [c]
  | .write s => f.write s
  | .seekp p => f.seek p
  | .seekoff off dir => f.seek (f.target off dir)
  | .str => f.adjust

structure Shows (f : File) (text : Bytes) : Prop where
  length : text.length = f.extent
  bytes : ∀ i c, f.known i = some c → text[i]? = some c

theorem extent_adjust (f : File) : f.adjust.extent = f.extent := by
  show max (max f.length f.pos) f.pos = max f.length f.pos
  omega

theorem write_pos (bytes : Bytes) (f : File) : (f.write bytes).pos = f.pos + bytes.length := rfl

theorem write_nil (f : File) : f.write [] = f := by
  have none : ∀ i, ¬ (f.pos ≤ i ∧ i < f.pos + ([] : Bytes).length) := by
    intro i
    rw [List.length_nil]
    omega
  rw [write]
  simp only [none, if_false]
  rfl

theorem write_append (first second : Bytes) (f : File) : (f.write first).write second = f.write (first ++ second) := by
  simp only [write, mk.injEq, List.length_append, Nat.add_assoc, and_true]
  funext i
  by_cases later : f.pos + first.length ≤ i ∧ i < f.pos + (first.length + second.length)
  · rw [if_pos later, if_pos (by omega), List.getElem?_append_right (by omega)]
    congr 1
    omega
  · rw [if_neg later]
    by_cases early : f.pos ≤ i ∧ i < f.pos + first.length
    · rw [if_pos early, if_pos (by omega), List.getElem?_append_left (by omega)]
    · rw [if_neg early, if_neg (by omega)]

end File

/-! ### What the pointers say -/

structure Fills (s : StringImpl) (get : Option (Int × Int × Int)) (f : File) : Prop where
  low : 0 ≤ s.fLength
  high : s.fLength < s.fCapacity
  long : s.fCapacity < 2 ^ 63
  below : f.pos < s.fCapacity
  read : (StringStreamBuf.mk (some s) none get).read ≤ 0
  terminated : f.pos ≤ s.fLength → s.content s.fLength = 0
  extent : max s.fLength f.pos = f.extent
  bytes : ∀ i c, f.known i = some c → i < f.extent ∧ s.content i = c

inductive Holds : StringStreamBuf → File → Prop where
  | empty {f : File} (extent : f.extent = 0) (bytes : ∀ i, f.known i = none) : Holds ⟨none, none, none⟩ f
  | filled {s : StringImpl} {get : Option (Int × Int × Int)} {f : File} (fills : Fills s get f) :
    Holds ⟨some s, some (f.pos, s.fCapacity - 1), get⟩ f

namespace Holds

variable {b : StringStreamBuf} {f : File}

theorem pos (holds : Holds b f) : b.pos = f.pos := by
  cases holds with
  | empty extent _ =>
    rw [File.extent] at extent
    have zero : f.pos = 0 := by omega
    rw [zero]
    rfl
  | filled fills => rfl

theorem shows (holds : Holds b f) (length : length b.fStore = f.extent) : f.Shows (text b.fStore) := by
  refine ⟨by rw [length_text, length, Int.toNat_natCast], fun i c known => ?_⟩
  cases holds with
  | empty _ bytes =>
    rw [bytes i] at known
    cases known
  | @filled s get f fills =>
    obtain ⟨inside, same⟩ := fills.bytes i c known
    rw [getElem?_text (by omega), content_some, same]

theorem adjust (holds : Holds b f) : ∃ b', b.adjustStringLength = .ok b' ∧ Holds b' f.adjust ∧ Sound b'.fStore ∧
    length b'.fStore = f.extent ∧ capacity b'.fStore = capacity b.fStore ∧ b'.fStore.isSome = b.fStore.isSome := by
  cases holds with
  | empty extent bytes =>
    exact ⟨_, rfl, .empty (f.extent_adjust.trans extent) bytes, fun s has => (by cases has), by rw [extent]; rfl, rfl, rfl⟩
  | @filled s get f fills =>
    obtain ⟨low, high, long, below, read, terminated, extent, bytes⟩ := fills
    rw [StringStreamBuf.adjustStringLength]
    dsimp only
    rw [assert, if_pos (by omega), assert, if_pos below]
    by_cases longer : s.fLength < f.pos
    · have grown : (f.extent : Int) = f.pos := by omega
      have start : (0 : Int) ≤ (s.terminate f.pos).fLength := Int.natCast_nonneg f.pos
      refine ⟨_, if_pos longer, @Holds.filled (s.terminate f.pos) _ f.adjust ⟨start, below, long, below, ?_, ?_, ?_, ?_⟩,
        StringImpl.terminate_sound (by omega) below long, grown.symm, rfl, rfl⟩
      · show StringStreamBuf.read _ - (f.pos : Int) ≤ 0
        have same : (StringStreamBuf.mk (some s) (some (f.pos, s.fCapacity - 1)) get).read =
          (StringStreamBuf.mk (some s) none get).read := rfl
        omega
      · intro _
        exact s.terminate_content f.pos
      · rw [f.extent_adjust, grown]
        exact max_self _
      · intro i c known
        obtain ⟨inside, same⟩ := bytes i c known
        rw [f.extent_adjust]
        exact ⟨inside, by rw [terminate_other (by omega)]; exact same⟩
    · have kept : (f.extent : Int) = s.fLength := by omega
      refine ⟨_, if_neg longer, @Holds.filled s get f.adjust ⟨low, high, long, below, read, terminated, ?_, ?_⟩, ?_, kept.symm,
        rfl, rfl⟩
      · rw [f.extent_adjust]
        exact extent
      · intro i c known
        rw [f.extent_adjust]
        exact bytes i c known
      · intro own has
        cases has
        exact ⟨low, high, terminated (by omega), long⟩

theorem toInt_small {n : Int} (low : 0 ≤ n) (high : n < 2 ^ 31) : toInt n = n := by
  unfold toInt
  omega

theorem setbufpointers {s : StringImpl} {put : Option (Int × Int)} {get : Option (Int × Int × Int)} (sound : Sound (some s))
    (small : f.pos < 2 ^ 31) (below : f.pos < s.fCapacity) (length : s.fLength = f.extent)
    (bytes : ∀ i c, f.known i = some c → i < f.extent ∧ s.content i = c) :
    ∃ b', StringStreamBuf.setbufpointers ⟨some s, put, get⟩ 0 f.pos = .ok b' ∧ Holds b' f ∧ b'.fStore = some s := by
  obtain ⟨low, high, zero, long⟩ := sound s rfl
  have pptr : toInt f.pos = f.pos := toInt_small (Int.natCast_nonneg f.pos) (by omega)
  have most : f.pos ≤ f.extent := le_max_right _ _
  rw [StringStreamBuf.setbufpointers]
  dsimp only
  rw [pptr, assert, if_pos ⟨by omega, below⟩, assert, if_pos ⟨le_refl 0, low⟩, if_pos (by omega : 0 < s.fCapacity)]
  refine ⟨_, rfl, @Holds.filled s (some (s.fLength, 0, s.fLength)) f ⟨low, high, long, below, ?_, fun _ => zero, by omega, bytes⟩, rfl⟩
  show (0 : Int) - s.fLength ≤ 0
  omega

end Holds

theorem capacity_reserve {s : Str} (sound : Sound s) {n : Int} (positive : 0 < n) (fits : Fits s (length s + n)) :
    capacity (reserve s n) = if capacity s ≤ length s + n then allocCapacity s (length s + n) else capacity s := by
  have low := sound.length_nonneg
  have size : count none n = n := count_of_nonneg positive.le
  rw [reserve, if_pos positive, set_eq, from'_of_nonneg low, size, toLong_small (by omega) (sound.fits_lt fits), expand]
  by_cases grows : capacity s ≤ length s + n
  · have room := allocCapacity_room (by omega) (fits.resolve_left (by omega))
    have fresh : (alloc (allocCapacity s (length s + n))).fCapacity = allocCapacity s (length s + n) := if_neg (by omega)
    rw [if_pos ⟨by omega, grows⟩, if_pos grows]
    cases s with
    | none => exact fresh
    | some old => exact fresh
  · rw [if_neg fun both => grows both.2, if_neg grows]
    cases s <;> rfl

namespace StringStreamBuf

def grown (b : StringStreamBuf) (newlength : Int) : Int :=
  let newLength := b.pos + (newlength - capacity b.fStore + 1)
  if capacity b.fStore ≤ newLength then allocCapacity b.fStore newLength else capacity b.fStore

theorem grown_congr {b b' : StringStreamBuf} (pos : b'.pos = b.pos) (room : capacity b'.fStore = capacity b.fStore)
    (stored : b'.fStore.isSome = b.fStore.isSome) (p : Int) : b'.grown p = b.grown p := by
  have alloc : allocCapacity b'.fStore = allocCapacity b.fStore := by
    funext n
    rw [allocCapacity, allocCapacity, stored]
  rw [grown, grown, alloc, room, pos]

def Reaches (b : StringStreamBuf) (p : Int) : Prop :=
  p < capacity b.fStore ∨ (length b.fStore ≤ b.pos ∧ p < b.grown p)

end StringStreamBuf

namespace Holds

variable {b : StringStreamBuf} {f : File}

theorem extent (holds : Holds b f) : max (length b.fStore) f.pos = (f.extent : Int) := by
  cases holds with
  | empty extent _ =>
    rw [extent]
    rw [File.extent] at extent
    show max (0 : Int) f.pos = 0
    omega
  | filled fills => exact fills.extent

theorem room (holds : Holds b f) {s : StringImpl} (stored : b.fStore = some s) : b.room = s.fCapacity - 1 := by
  cases holds with
  | empty _ _ => cases stored
  | filled fills =>
    cases stored
    rfl

theorem areas (holds : Holds b f) : b.put.isSome = b.fStore.isSome := by
  cases holds <;> rfl

theorem read (holds : Holds b f) : b.read ≤ 0 := by
  cases holds with
  | empty _ _ => exact le_refl 0
  | filled fills => exact fills.read

theorem bytes (holds : Holds b f) {i : Nat} {c : UInt8} (known : f.known i = some c) : i < f.extent ∧ content b.fStore 0 i = c := by
  cases holds with
  | empty _ none =>
    rw [none i] at known
    cases known
  | filled fills =>
    rw [content_some]
    exact fills.bytes i c known

theorem doreserve (holds : Holds b f) (atEnd : length b.fStore ≤ f.pos) (small : f.pos < 2 ^ 31) {newlength : Int}
    (more : capacity b.fStore ≤ newlength) (bound : newlength ≤ 2 ^ 32) (low : 0 ≤ capacity b.fStore) :
    ∃ b', b.doreserve newlength = .ok b' ∧ Holds b' f.adjust ∧ capacity b'.fStore = b.grown newlength ∧
      Sound b'.fStore ∧ length b'.fStore = f.extent ∧ f.pos + (newlength - capacity b.fStore + 1) < capacity b'.fStore := by
  obtain ⟨b₁, adjusted, holds₁, sound, len, cap, stored⟩ := holds.adjust
  have size : (f.extent : Int) = f.pos := by
    rw [← holds.extent]
    exact max_eq_right atEnd
  have pos : b₁.pos = f.pos := holds₁.pos
  have fits : Fits b₁.fStore (length b₁.fStore + max (newlength - capacity b.fStore + 1) 0) := by
    right
    unfold cStrAllocIncrement
    split <;> omega
  have positive : 0 < newlength - capacity b.fStore + 1 := by omega
  have maximal : max (newlength - capacity b.fStore + 1) 0 = newlength - capacity b.fStore + 1 := max_eq_left positive.le
  have counts : count none (if 0 < newlength - capacity b.fStore + 1 then newlength - capacity b.fStore + 1 else 0) =
      newlength - capacity b.fStore + 1 := by
    rw [if_pos positive, count_of_nonneg positive.le]
  have start : from' (length b₁.fStore) = length b₁.fStore := from'_of_nonneg sound.length_nonneg
  have fits' : Fits b₁.fStore (from' (length b₁.fStore) +
      count none (if 0 < newlength - capacity b.fStore + 1 then newlength - capacity b.fStore + 1 else 0)) := by
    rw [counts, start, ← maximal]
    exact fits
  obtain ⟨s', reserved⟩ : ∃ s', ITOString.reserve b₁.fStore (newlength - capacity b.fStore + 1) = some s' :=
    Option.isSome_iff_exists.mp (set_isSome sound fits' (.inr (by rw [counts, start, len]; omega)))
  obtain ⟨kept, enough, -, -⟩ := reserve_spec sound fits reserved
  have sound' : Sound (some s') := by
    rw [← reserved]
    exact reserve_sound sound fits
  have capacity' := capacity_reserve sound positive (by rw [← maximal]; exact fits)
  obtain ⟨b', pointed, holds', stored'⟩ := @setbufpointers f.adjust s' b₁.put b₁.get sound' small
    (by show (f.pos : Int) < _; omega) (by rw [kept, len, f.extent_adjust]) (by
      intro i c known
      obtain ⟨inside, same⟩ := holds₁.bytes known
      rw [f.extent_adjust] at inside ⊢
      refine ⟨inside, ?_⟩
      have old := content_set_old sound fits' (i := (i : Int)) (by omega) (by rw [start, len]; omega) (by rw [len]; omega)
      have moved : content (some s') 0 i = content b₁.fStore 0 i := by
        rw [← reserved]
        exact old
      rw [← content_some, moved]
      exact same)
  refine ⟨b', ?_, holds', ?_, by rw [stored']; exact sound', by rw [stored']; exact kept.trans len, ?_⟩
  · have noread : (if 0 < b₁.read then b₁.read else 0) = 0 := if_neg (by have := holds₁.read; omega)
    have offset : (if 0 < b₁.pos then b₁.pos else 0) = (f.pos : Int) := by
      rw [pos]
      split <;> omega
    have room := holds'.room stored'
    rw [StringStreamBuf.doreserve, adjusted]
    simp only [bind, Except.bind]
    rw [assert, if_pos (by rw [pos, len, size])]
    dsimp only
    rw [assert, if_pos holds₁.areas]
    dsimp only
    rw [noread, offset, cap, reserved]
    have pointed' : StringStreamBuf.setbufpointers ⟨some s', b₁.put, b₁.get⟩ 0 f.pos = .ok b' := pointed
    rw [pointed']
    dsimp only
    rw [assert, if_pos (by rw [room, stored']; rfl)]
    rfl
  · rw [reserved] at capacity'
    have shape : capacity b'.fStore = capacity (some s') := by rw [stored']
    have same : allocCapacity b₁.fStore = allocCapacity b.fStore := by
      funext n
      rw [allocCapacity, allocCapacity, stored]
    rw [shape, capacity', cap, len, size, same, StringStreamBuf.grown, holds.pos]
  · have shape : capacity b'.fStore = s'.fCapacity := by
      rw [stored']
      rfl
    rw [shape]
    omega

theorem capacity_nonneg (holds : Holds b f) : 0 ≤ capacity b.fStore := by
  cases holds with
  | empty _ _ => exact le_refl 0
  | filled fills => exact (fills.low.trans_lt fills.high).le

theorem of_extent (holds : Holds b f) {f' : File} (known : f'.known = f.known) (pos : f'.pos = f.pos)
    (extent : f'.extent = f.extent) : Holds b f' := by
  cases holds with
  | empty zero bytes => exact .empty (extent.trans zero) fun i => by rw [known, bytes]
  | @filled s get f fills =>
    rw [← pos]
    obtain ⟨low, high, long, below, read, terminated, size, bytes⟩ := fills
    rw [← pos] at below terminated size
    rw [← extent] at size bytes
    rw [← known] at bytes
    exact .filled ⟨low, high, long, below, read, terminated, size, bytes⟩

theorem setp (holds : Holds b f) (sound : Sound b.fStore) (len : length b.fStore = f.extent) {p : Int} (low : 0 ≤ p)
    (small : p < 2 ^ 31) (below : p < capacity b.fStore) : Holds (b.setp p) (f.seek p) := by
  cases holds with
  | empty _ _ =>
    have zero : p < 0 := below
    omega
  | @filled s get f fills =>
    obtain ⟨-, high, long, -, read, -, -, bytes⟩ := fills
    obtain ⟨start, -, zero, -⟩ := sound s rfl
    have size : s.fLength = f.extent := len
    have under : p < s.fCapacity := below
    have offset : toInt p = (p.toNat : Int) := by
      rw [toInt_small low small]
      omega
    rw [StringStreamBuf.setp]
    dsimp only [Option.map_some]
    rw [offset]
    refine @filled s get (f.seek p) ⟨start, high, long, ?_, read, fun _ => zero, ?_, ?_⟩
    · show (p.toNat : Int) < _
      omega
    · rw [File.extent, File.seek, File.adjust]
      dsimp only
      omega
    · intro i c known
      obtain ⟨inside, same⟩ := bytes i c known
      refine ⟨?_, same⟩
      rw [File.extent, File.seek, File.adjust]
      dsimp only
      omega

theorem store (holds : Holds b f) {text : Bytes} (fits : f.pos + text.length ≤ b.room) : Holds (b.store text) (f.write text) := by
  cases holds with
  | empty extent bytes =>
    have zero : (f.pos : Int) + text.length ≤ 0 := fits
    have none : text = [] := List.length_eq_zero_iff.mp (by omega)
    rw [none, f.write_nil]
    exact .empty extent bytes
  | @filled s get f fills =>
    obtain ⟨low, high, long, below, read, terminated, extent, bytes⟩ := fills
    have room : (f.pos : Int) + text.length ≤ s.fCapacity - 1 := fits
    have next : (f.pos : Int) + text.length = (f.write text).pos := (Int.natCast_add f.pos text.length).symm
    have size : ((f.write text).extent : Int) = max s.fLength (f.pos + text.length) := by
      rw [File.extent] at extent
      rw [File.extent, File.write]
      dsimp only
      omega
    rw [StringStreamBuf.store]
    dsimp only [Option.map_some]
    rw [next]
    refine @filled { s with content := memmove s.content f.pos (buffer text).at' text.length } get (f.write text)
      ⟨low, high, long, by rw [← next]; show _ < s.fCapacity; omega, read, ?_, by rw [← next, size], ?_⟩
    · intro inside
      rw [← next] at inside
      dsimp only at inside ⊢
      rw [memmove_outside (.inr inside)]
      exact terminated (by omega)
    · intro i c known
      rw [File.write] at known
      dsimp only at known ⊢
      by_cases new : f.pos ≤ i ∧ i < f.pos + text.length
      · rw [if_pos new] at known
        rw [memmove_inside (by omega) (by omega)]
        refine ⟨by omega, ?_⟩
        have index : ((i : Int) - f.pos).toNat = i - f.pos := by omega
        show text.getD ((i : Int) - f.pos).toNat 0 = c
        rw [index, List.getD_eq_getElem?_getD, known]
        rfl
      · rw [if_neg new] at known
        obtain ⟨inside, same⟩ := bytes i c known
        rw [memmove_outside (by omega)]
        exact ⟨by omega, same⟩

theorem overflow (holds : Holds b f) (full : b.room ≤ f.pos) (small : f.pos < 2 ^ 31) (c : UInt8) :
    ∃ b', b.overflow c = .ok b' ∧ Holds b' (f.write [c]) := by
  have fullness : capacity b.fStore ≤ f.pos + 1 ∧ length b.fStore ≤ f.pos := by
    cases holds with
    | empty _ _ => exact ⟨by show (0 : Int) ≤ _; omega, by show (0 : Int) ≤ _; omega⟩
    | @filled s get f fills =>
      have room : s.fCapacity - 1 ≤ f.pos := full
      have high := fills.high
      exact ⟨by show s.fCapacity ≤ _; omega, by show s.fLength ≤ _; omega⟩
  obtain ⟨b₁, reserved, holds₁, -, sound, len, enough⟩ :=
    holds.doreserve fullness.2 small fullness.1 (by omega) holds.capacity_nonneg
  have stored : ∃ s, b₁.fStore = some s := by
    cases shape : b₁.fStore with
    | none =>
      rw [shape] at enough
      have zero : (f.pos : Int) + (f.pos + 1 - capacity b.fStore + 1) < 0 := enough
      omega
    | some s => exact ⟨s, rfl⟩
  obtain ⟨s, stored⟩ := stored
  have room := holds₁.room stored
  have large : f.pos + 1 ≤ b₁.room := by
    rw [stored] at enough
    have more : (f.pos : Int) + (f.pos + 1 - capacity b.fStore + 1) < s.fCapacity := enough
    omega
  have pos₁ : b₁.pos = f.pos := holds₁.pos
  rw [StringStreamBuf.overflow, holds.pos, assert, if_pos (Int.natCast_nonneg _), StringStreamBuf.reserve, if_pos fullness.1, reserved]
  simp only [bind, Except.bind]
  rw [pos₁, assert, if_pos (by omega)]
  refine ⟨_, rfl, (@Holds.store b₁ f.adjust holds₁ [c] large).of_extent rfl rfl ?_⟩
  rw [File.extent, File.write, File.extent, File.write, File.adjust, File.extent]
  dsimp only
  omega

theorem sputc (holds : Holds b f) (c : UInt8) (fits : f.pos + 1 < capacity b.fStore ∨ f.pos + 1 ≤ 2 ^ 31) :
    ∃ b', b.sputc c = .ok b' ∧ Holds b' (f.write [c]) := by
  have pos := holds.pos
  rw [StringStreamBuf.sputc]
  by_cases more : b.pos < b.room
  · rw [if_pos more, if_pos (by omega)]
    exact ⟨_, rfl, @Holds.store b f holds [c] (by rw [List.length_singleton]; omega)⟩
  · rw [if_neg more]
    refine holds.overflow (by omega) ?_ c
    rcases fits with inside | small
    · cases holds with
      | empty _ _ =>
        have zero : (f.pos : Int) + 1 < 0 := inside
        omega
      | @filled s get f fills =>
        have full : ¬ (f.pos : Int) < s.fCapacity - 1 := more
        have under : (f.pos : Int) + 1 < s.fCapacity := inside
        omega
    · omega

theorem seekpos (holds : Holds b f) {p : Int} (low : 0 ≤ p) (small : p < 2 ^ 31) (reaches : b.Reaches p) :
    ∃ b', b.seekpos p = .ok b' ∧ Holds b' (f.seek p) := by
  obtain ⟨b₁, adjusted, holds₁, sound, len, cap, stored⟩ := holds.adjust
  rw [StringStreamBuf.seekpos, adjusted]
  simp only [bind, Except.bind]
  by_cases more : capacity b₁.fStore ≤ p
  · obtain ⟨atEnd, large⟩ := reaches.resolve_left (by omega)
    rw [holds.pos] at atEnd
    have size := holds.extent
    have below : f.pos ≤ p := by
      cases holds with
      | empty extent _ =>
        rw [File.extent] at extent
        omega
      | @filled s get f fills =>
        have under := fills.below
        have full : b₁.fStore.isSome = true := stored
        have same : capacity b₁.fStore = s.fCapacity := cap
        omega
    have grown := StringStreamBuf.grown_congr (holds₁.pos.trans holds.pos.symm) cap stored p
    obtain ⟨b₂, reserved, holds₂, room, sound₂, len₂, -⟩ :=
      holds₁.doreserve (by rw [len]; show (f.extent : Int) ≤ f.pos; omega) (by show f.pos < 2 ^ 31; omega) more (by omega)
        holds₁.capacity_nonneg
    have seeks := holds₂.setp sound₂ (by rw [len₂, f.adjust.extent_adjust]) low small (by rw [room, grown]; exact large)
    rw [if_pos more, StringStreamBuf.reserve, if_pos more, reserved]
    refine ⟨_, rfl, seeks.of_extent rfl rfl ?_⟩
    simp only [File.extent, File.seek, File.adjust]
    omega
  · have seeks := holds₁.setp sound (by rw [len, f.extent_adjust]) low small (by omega)
    rw [if_neg more]
    refine ⟨_, rfl, seeks.of_extent rfl rfl ?_⟩
    simp only [File.extent, File.seek, File.adjust]
    omega

theorem target (holds : Holds b f) (len : length b.fStore = f.extent) (off : Int) (dir : Direction) :
    b.target off dir = f.target off dir := by
  cases dir with
  | beg => rfl
  | cur => rw [StringStreamBuf.target, File.target, holds.pos]
  | finish => rw [StringStreamBuf.target, File.target, len]

theorem within (holds : Holds b f) : f.pos ≤ b.room ∧ capacity b.fStore ≤ b.room + 1 := by
  cases holds with
  | empty extent _ =>
    rw [File.extent] at extent
    exact ⟨by show (f.pos : Int) ≤ 0; omega, by decide⟩
  | @filled s get f fills =>
    have below := fills.below
    exact ⟨by show (f.pos : Int) ≤ s.fCapacity - 1; omega, by show s.fCapacity ≤ s.fCapacity - 1 + 1; omega⟩

theorem store_room (b : StringStreamBuf) (text : Bytes) : (b.store text).room = b.room := by
  obtain ⟨s, put, get⟩ := b
  cases put <;> rfl

/-- The induction is that of `xsputn`: each turn fills the buffer and exchanges it. -/
theorem xsputn {text : Bytes} {b : StringStreamBuf} {f : File} (holds : Holds b f)
    (fits : f.pos + text.length < capacity b.fStore ∨ f.pos + text.length ≤ 2 ^ 31) :
    ∃ b', StringStreamBuf.xsputn text b = .ok b' ∧ Holds b' (f.write text) := by
  induction text, b using StringStreamBuf.xsputn.induct generalizing f with
  | case1 text b outside =>
    have inside := holds.within.1
    rw [holds.pos] at outside
    omega
  | case2 text b inside more ih =>
    obtain ⟨below, full⟩ := holds.within
    have pos := holds.pos
    have amount : (((b.room - b.pos).toNat : Nat) : Int) = b.room - b.pos := by omega
    have taken : (text.take (b.room - b.pos).toNat).length = (b.room - b.pos).toNat := by
      rw [List.length_take]
      omega
    have first := @Holds.store b f holds (text.take (b.room - b.pos).toNat) (by omega)
    have next : (f.write (text.take (b.room - b.pos).toNat)).pos = f.pos + (b.room - b.pos).toNat := by
      rw [File.write_pos, taken]
    have small : f.pos + text.length ≤ 2 ^ 31 := fits.resolve_left (by omega)
    obtain ⟨b₁, overflowed, holds₁⟩ := first.overflow (by rw [store_room, next]; omega) (by omega) text[(b.room - b.pos).toNat]
    obtain ⟨b₂, rest, holds₂⟩ := ih b₁ holds₁ (.inr (by
      rw [File.write_pos, next, List.length_drop, List.length_singleton]
      omega))
    rw [StringStreamBuf.xsputn, if_neg inside, dif_pos more]
    simp only [bind, Except.bind]
    rw [overflowed]
    refine ⟨b₂, rest, ?_⟩
    rw [File.write_append, File.write_append, List.singleton_append, List.getElem_cons_drop,
      List.take_append_drop] at holds₂
    exact holds₂
  | case3 text b inside enough =>
    rw [StringStreamBuf.xsputn, if_neg inside, dif_neg enough]
    exact ⟨_, rfl, holds.store (by have := holds.pos; omega)⟩

end Holds

/-! ### Runs -/

namespace StringStreamBuf

def asked (b : StringStreamBuf) (off : Int) : Direction → Int
  | .beg => off
  | .cur => off + b.pos
  | .finish => off + max (length b.fStore) b.pos

/-- The positions are those of an `int`, and a seek finds its position or can make room for it. -/
def Allowed (op : StreamOp) (b : StringStreamBuf) : Prop :=
  match op with
  | .put _ => b.pos + 1 < capacity b.fStore ∨ b.pos + 1 ≤ 2 ^ 31
  | .write s => b.pos + s.length < capacity b.fStore ∨ b.pos + s.length ≤ 2 ^ 31
  | .seekp p => 0 ≤ p ∧ p < 2 ^ 31 ∧ b.Reaches p
  | .seekoff off dir => 0 ≤ b.asked off dir ∧ b.asked off dir < 2 ^ 31 ∧ b.Reaches (b.asked off dir)
  | .str => True

instance (b : StringStreamBuf) (p : Int) : Decidable (b.Reaches p) := inferInstanceAs (Decidable (_ ∨ _))

instance (op : StreamOp) (b : StringStreamBuf) : Decidable (b.Allowed op) :=
  match op with
  | .put _ => inferInstanceAs (Decidable (_ ∨ _))
  | .write _ => inferInstanceAs (Decidable (_ ∨ _))
  | .seekp _ => inferInstanceAs (Decidable (_ ∧ _ ∧ _))
  | .seekoff _ _ => inferInstanceAs (Decidable (_ ∧ _ ∧ _))
  | .str => inferInstanceAs (Decidable True)

end StringStreamBuf

namespace Holds

variable {b : StringStreamBuf} {f : File}

theorem asked (holds : Holds b f) (off : Int) (dir : Direction) : b.asked off dir = f.target off dir := by
  cases dir with
  | beg => rfl
  | cur => rw [StringStreamBuf.asked, File.target, holds.pos]
  | finish => rw [StringStreamBuf.asked, File.target, holds.pos, holds.extent]

theorem seekoff (holds : Holds b f) {off : Int} {dir : Direction} (allowed : b.Allowed (.seekoff off dir)) :
    ∃ b', StringStreamBuf.seekoff off dir b = .ok b' ∧ Holds b' (f.seek (f.target off dir)) := by
  rw [StringStreamBuf.Allowed, holds.asked] at allowed
  obtain ⟨low, small, reaches⟩ := allowed
  obtain ⟨b₁, adjusted, holds₁, -, len, cap, stored⟩ := holds.adjust
  have target : b₁.target off dir = f.target off dir := by
    rw [holds₁.target (by rw [len, f.extent_adjust])]
    cases dir with
    | finish => rw [File.target, File.target, f.extent_adjust]
    | _ => rfl
  have pos : b₁.pos = b.pos := holds₁.pos.trans holds.pos.symm
  have reaches₁ : b₁.Reaches (f.target off dir) := by
    have size := holds.extent
    rw [StringStreamBuf.Reaches, holds.pos] at reaches
    rw [StringStreamBuf.Reaches, StringStreamBuf.grown_congr pos cap stored, cap, len, pos, holds.pos]
    refine reaches.imp_right fun both => ⟨?_, both.2⟩
    omega
  obtain ⟨b₂, sought, holds₂⟩ := holds₁.seekpos low small reaches₁
  rw [StringStreamBuf.seekoff, adjusted]
  simp only [bind, Except.bind]
  rw [target, if_neg (by omega)]
  refine ⟨b₂, sought, holds₂.of_extent rfl rfl ?_⟩
  simp only [File.extent, File.seek, File.adjust]
  omega

theorem apply {op : StreamOp} (holds : Holds b f) (allowed : b.Allowed op) :
    ∃ b', StringStreamBuf.apply op b = .ok b' ∧ Holds b' (f.apply op) := by
  cases op with
  | put c =>
    rw [StringStreamBuf.Allowed, holds.pos] at allowed
    exact holds.sputc c (by omega)
  | write text =>
    rw [StringStreamBuf.Allowed, holds.pos] at allowed
    exact holds.xsputn (by omega)
  | seekp p =>
    obtain ⟨low, small, reaches⟩ := allowed
    exact holds.seekpos low small reaches
  | seekoff off dir => exact holds.seekoff allowed
  | str =>
    obtain ⟨b', adjusted, holds', -⟩ := holds.adjust
    exact ⟨b', adjusted, holds'⟩

theorem onString {s : Str} (sound : Sound s) : ∃ b, StringStreamBuf.onString s = .ok b ∧ Holds b (.ofText (text s)) := by
  cases s with
  | none => exact ⟨_, rfl, .empty rfl fun _ => rfl⟩
  | some s =>
    have low : (0 : Int) ≤ s.fLength := sound.length_nonneg
    have size : ((File.ofText (text (some s))).extent : Int) = s.fLength := by
      rw [File.extent, File.ofText, length_text]
      show ((max s.fLength.toNat 0 : Nat) : Int) = s.fLength
      omega
    have below := (sound s rfl).2.1
    obtain ⟨b, pointed, holds, -⟩ := @setbufpointers (File.ofText (text (some s))) s none none sound (by show 0 < 2 ^ 31; decide)
      (by show (0 : Int) < s.fCapacity; omega) size.symm (by
        intro i c known
        have inside : i < s.fLength.toNat := by
          have bound := (List.getElem?_eq_some_iff.mp known).1
          rw [length_text] at bound
          exact bound
        have short : (i : Int) < length (some s) := by
          show (i : Int) < s.fLength
          omega
        refine ⟨by omega, ?_⟩
        have shown : (text (some s))[i]? = some c := known
        rw [getElem?_text short, content_some] at shown
        exact Option.some.inj shown)
    exact ⟨b, pointed, holds⟩

end Holds

namespace StringStreamBuf

def strAfter (s : Str) (ops : List StreamOp) : Except StreamFault Bytes := do
  let b ← onString s
  let b ← Runs.run apply ops b
  let b ← b.adjustStringLength
  return text b.fStore

/-- No assertion fails, and the text is that of the file, as long as each seek reaches its position. -/
theorem strAfter_file {s : Str} {b : StringStreamBuf} {ops : List StreamOp} (sound : Sound s) (start : onString s = .ok b)
    (allowed : Runs.Meets apply (fun op b => b.Allowed op) ops b) :
    ∃ shown, strAfter s ops = .ok shown ∧ (ops.foldl (fun f op => f.apply op) (File.ofText (text s))).Shows shown := by
  obtain ⟨b₀, begun, holds₀⟩ := Holds.onString sound
  cases begun.symm.trans start
  have step : ∀ op b f, Holds b f → b.Allowed op → ∃ b', apply op b = .ok b' ∧ Holds b' (f.apply op) :=
    fun op b f holds meets => holds.apply meets
  obtain ⟨b₁, ran, holds₁⟩ := @Runs.run_simulates _ _ _ _ apply _ (fun op f => f.apply op) Holds step ops _ _ holds₀ allowed
  obtain ⟨b₂, adjusted, holds₂, -, len, -⟩ := holds₁.adjust
  have shows := holds₂.shows (by rw [len, File.extent_adjust])
  refine ⟨text b₂.fStore, ?_, ⟨by rw [shows.length, File.extent_adjust], shows.bytes⟩⟩
  rw [strAfter, start]
  simp only [bind, Except.bind]
  rw [ran]
  dsimp only
  rw [adjusted]
  rfl

theorem strAfter_file_overwritten : ∃ shown, strAfter (some (alloc 64)) [.put 104, .put 105, .seekp 0, .put 74] = .ok shown ∧
    (([.put 104, .put 105, .seekp 0, .put 74] : List StreamOp).foldl (fun f op => f.apply op)
      (File.ofText (text (some (alloc 64))))).Shows shown :=
  strAfter_file (alloc_sound (by unfold Exact; decide)) rfl (Runs.meets_of_decide (by decide +kernel))

/-- `Reserve` counts from the length and not from the capacity, so that the buffer does not grow to the position. -/
theorem strAfter_beyond : strAfter (some (alloc 64)) [.seekp 100] = .error .assertion := by
  decide +kernel

end StringStreamBuf

end Coast.ITOString
