import Coast.Base.Bytes

/-!
# The buffer of a string

A `String` has no buffer or one with a capacity, a length and its bytes; everything behind the length is
left over from what the string has been before. The allocator returns zeroed memory of the size it is
asked for, and a sum of two `long` values wraps around.
-/

namespace Coast.ITOString

/-- A conversion to `long`. -/
def toLong (n : Int) : Int := (n + 2 ^ 63) % 2 ^ 64 - 2 ^ 63

abbrev Memory := Int → UInt8

structure StringImpl where
  fCapacity : Int
  fLength : Int
  content : Memory

/-- `fStringImpl`, which may be null. -/
abbrev Str := Option StringImpl

/-- A `const char *` with what `strlen` finds there. -/
structure Chars where
  at' : Memory
  strlen : Nat

def Chars.ofText (text : Bytes) : Chars := ⟨fun i => text.getD i.toNat 0, (text.takeWhile fun c => c != 0).length⟩

def length : Str → Int
  | some b => b.fLength
  | none => 0

def capacity : Str → Int
  | some b => b.fCapacity
  | none => 0

/-- `GetContent() + offset`; without a buffer nothing is ever read there. -/
def content (s : Str) (offset : Int) : Memory := fun i =>
  match s with
  | some b => b.content (offset + i)
  | none => 0

/-! ### Allocation -/

def cStrAllocMinimum : Int := 32
def cStrAllocLimit : Int := 4096
def cStrAllocIncrement : Int := 1024

def alloc (capacity : Int) : StringImpl := ⟨if capacity ≤ 0 then cStrAllocMinimum else capacity, 0, fun _ => 0⟩

def allocCapacity (s : Str) (newLength : Int) : Int :=
  if s.isSome then
    if newLength < cStrAllocLimit then if newLength < cStrAllocMinimum then cStrAllocMinimum else newLength * 2
    else toLong (newLength + cStrAllocIncrement)
  else toLong (newLength + 1)

def memmove (dest : Memory) (start : Int) (src : Memory) (len : Int) : Memory := fun i =>
  if start ≤ i ∧ i < start + len then src (i - start) else dest i

def memset (dest : Memory) (start : Int) (c : UInt8) (len : Int) : Memory := memmove dest start (fun _ => c) len

namespace StringImpl

/-- `SetLength`, and the terminator at the new length. -/
def terminate (b : StringImpl) (len : Int) : StringImpl :=
  { b with fLength := len, content := memset b.content len 0 1 }

end StringImpl

/-! ### Set -/

/-- The buffer that `Set` writes to. -/
def expand (s : Str) (start newLength : Int) : Str :=
  if 0 < newLength ∧ capacity s ≤ newLength then
    let fresh := alloc (allocCapacity s newLength)
    match s with
    | some old =>
      some { fresh with content := memmove fresh.content 0 old.content (if old.fLength < start then old.fLength else start) }
    | none => some fresh
  else s

def set (s : Str) (start : Int) (src : Option Chars) (len : Int) : Str :=
  let start := if start < 0 then 0 else start
  let len := if len < 0 then src.elim 0 fun p => (p.strlen : Int) else len
  let newLength := toLong (start + len)
  (expand s start newLength).map fun b =>
    match src with
    | some p => { b with content := memmove b.content start p.at' len }.terminate newLength
    | none => b.terminate start

def inside (s : Str) (offset : Int) : Chars where
  at' := content s offset
  strlen := ((List.range (capacity s - offset).toNat).takeWhile fun i : Nat => content s offset i != 0).length

/-! ### Constructors -/

inductive Constructor where
  | empty
  | ofCapacity (capacity : Int)
  | ofChars (s : Option Chars) (l : Int)
  | ofBuffer (s : Option Memory) (l : Int)
  | copy (s : Str)

def atMost (s : Chars) (len : Int) : Int := if s.strlen < len then s.strlen else len

def construct : Constructor → Str
  | .empty => none
  | .ofCapacity capacity => some (alloc capacity)
  | .ofChars s l =>
    match s with
    | some p => set none 0 (some p) (atMost p l)
    | none => none
  | .ofBuffer s l =>
    if 0 < l then
      match s with
      | some p => set none 0 (some ⟨p, 0⟩) l
      | none => some (alloc l)
    else none
  | .copy s => if s.isSome then set none 0 (some (inside s 0)) (length s) else none

/-! ### Mutators -/

inductive Mutator where
  | assignChars (s : Option Chars)
  | assign (s : Str)
  | appendChar (c : UInt8)
  | appendChars (s : Option Chars) (len : Int)
  | appendBuffer (s : Option Memory) (len : Int)
  | appendString (s : Str)
  | appendNumber (text : Chars) (len : Int)
  | appendStream (len : Int) (read : Bytes)
  | appendStreamUntil (len : Int) (atDelim : Bool) (read : Bytes)
  | putAt (pos : Int) (c : UInt8)
  | replaceAt (pos : Int) (s : Option Chars) (len : Int)
  | insert (pos : Nat) (n : Int) (v : UInt8)
  | insertRange (pos : Nat) (range : Bytes)
  | erase (pos n : Int)
  | trim (newlen : Int)
  | trimFront (newstart : Int)
  | prependWith (newLength : Int) (fill : UInt8) (behind : Memory)
  | reserve (minreserve : Int)
  | clear
  | index (x : Int) (write : Option UInt8)
  | at' (n : Int) (write : Option UInt8)

section Mutators

variable (s : Str)

def single (c : UInt8) : Chars := ⟨fun _ => c, 1⟩

def buffer (bytes : Bytes) : Chars := .ofText bytes

def writeAt (pos : Int) (src : Memory) (len : Int) : Str := s.map fun b => { b with content := memmove b.content pos src len }

def appendChar (c : UInt8) : Str :=
  if capacity s < length s + 2 then set s (length s) (some (single c)) 1
  else s.map fun b => { b with content := memset b.content b.fLength c 1 }.terminate (b.fLength + 1)

def reserve (minreserve : Int) : Str := set s (length s) none (if 0 < minreserve then minreserve else 0)

def readInto (len : Int) (read : Bytes) : Str :=
  (reserve s len).map fun b =>
    let got : Int := min read.length len
    { b with content := memmove b.content b.fLength (buffer read).at' got }.terminate (b.fLength + got)

def trim (newlen : Int) : Str := if newlen ≤ length s then set s (if 0 < newlen then newlen else 0) none 0 else s

def trimFront (newstart : Int) : Str :=
  if 0 ≤ newstart ∧ newstart < length s then set s 0 (some (inside s newstart)) (length s - newstart)
  else if length s ≤ newstart then s.map fun b => b.terminate 0
  else s

def replaceAt (pos : Int) (src : Option Chars) (len : Int) : Str :=
  if src.isSome ∧ 0 ≤ pos ∧ 0 < len then
    if length s - pos < len then set s pos src len else writeAt s pos (src.elim (fun _ => 0) (·.at')) len
  else s

def erase (pos n : Int) : Str :=
  if 0 ≤ pos ∧ pos ≤ length s then
    if n = -1 then trim s pos
    else
      let remain := length s - pos
      let eraselen := min n remain
      set s pos (some (inside s (pos + eraselen))) (toLong (remain - eraselen))
  else s

def insertBytes (pos n : Int) (src : Memory) : Str :=
  if pos ≤ length s then writeAt (set s (toLong (pos + n)) (some (inside s pos)) (length s - pos)) pos src n else s

/-- What a pointer to the buffer of `tmp` reads; the bytes behind the buffer are not known. -/
def pointer (tmp : Str) (behind : Memory) : Memory := fun i => if i < capacity tmp then content tmp 0 i else behind i

def prependWith (newLength : Int) (fill : UInt8) (behind : Memory) : Str :=
  let oldLength := length s
  let fillTo := toLong (newLength - oldLength)
  if 0 < fillTo then
    let s := reserve s (if oldLength < newLength then newLength else oldLength)
    let moved :=
      if oldLength ≠ 0 then
        if oldLength * 2 ≤ newLength then replaceAt s fillTo (some (inside s 0)) oldLength
        else
          let tmp := construct (.ofChars (some (inside s 0)) (-1))
          replaceAt s fillTo (some ⟨pointer tmp behind, 0⟩) oldLength
      else s.map fun b => { b with fLength := b.fLength + fillTo }
    writeAt moved 0 (fun _ => fill) fillTo
  else s

/-- `operator[]` before the reference is returned. -/
def prepareIndex (n : Int) : Str :=
  if capacity s = 0 then some (alloc n)
  else if length s < n then set s n (some (single 0)) 1
  else s

def writeOne (pos : Int) : Option UInt8 → Str
  | some c => writeAt s pos (fun _ => c) 1
  | none => s

def apply : Mutator → Str
  | .assignChars src => set s 0 src (-1)
  | .assign other =>
    if other.isSome then set s 0 (some (inside other 0)) (length other) else if s.isSome then set s 0 none 0 else s
  | .appendChar c => appendChar s c
  | .appendChars src len =>
    match src with
    | some p => set s (length s) (some p) (atMost p len)
    | none => s
  | .appendBuffer src len =>
    match src with
    | some p => if 0 < len then set s (length s) (some ⟨p, 0⟩) len else s
    | none => s
  | .appendString other => if other.isSome then set s (length s) (some (inside other 0)) (length other) else s
  | .appendNumber text len => set s (length s) (some text) len
  | .appendStream len read => if 0 < len then readInto s len read else s
  | .appendStreamUntil len atDelim read => if 0 < len ∧ atDelim = false then readInto s len read else s
  | .putAt pos c =>
    if 0 ≤ pos then
      if s.isSome ∧ pos < length s then writeAt s pos (fun _ => c) 1 else set s pos (some (single c)) 1
    else s
  | .replaceAt pos src len => replaceAt s pos src len
  | .insert pos n v => insertBytes s pos n (fun _ => v)
  | .insertRange pos range => insertBytes s pos range.length (buffer range).at'
  | .erase pos n => erase s pos n
  | .trim newlen => trim s newlen
  | .trimFront newstart => trimFront s newstart
  | .prependWith newLength fill behind => prependWith s newLength fill behind
  | .reserve minreserve => reserve s minreserve
  | .clear => trim s 0
  | .index x write => writeOne (prepareIndex s (max x 0)) (max x 0) write
  | .at' n write => if 0 ≤ n ∧ n < length s then writeOne s n write else s

def reference : Mutator → Option Int
  | .index x _ => some (max x 0)
  | .at' n _ => if 0 ≤ n ∧ n < length s then some n else none
  | _ => none

end Mutators

/-! ### The representation invariant -/

def Sound (s : Str) : Prop :=
  ∀ b ∈ s, 0 ≤ b.fLength ∧ b.fLength < b.fCapacity ∧ b.content b.fLength = 0 ∧ b.fCapacity < 2 ^ 63

/-- The capacity for a new length is a `long`, or no other buffer is needed. -/
def Fits (s : Str) (newLength : Int) : Prop :=
  newLength < capacity s ∨ newLength + (if s.isSome then cStrAllocIncrement else 1) < 2 ^ 63

def Exact (n : Int) : Prop := toLong n = n

/-- Where `Set` begins to write. -/
def from' (start : Int) : Int := if start < 0 then 0 else start

/-- How many bytes `Set` writes. -/
def count (src : Option Chars) (len : Int) : Int := if len < 0 then src.elim 0 fun p => (p.strlen : Int) else len

theorem toLong_small {n : Int} (low : -2 ^ 63 ≤ n) (high : n < 2 ^ 63) : toLong n = n := by
  unfold toLong
  omega

theorem Exact.low {n : Int} (exact' : Exact n) : -2 ^ 63 ≤ n := by
  unfold Exact toLong at exact'
  omega

theorem Exact.high {n : Int} (exact' : Exact n) : n < 2 ^ 63 := by
  unfold Exact toLong at exact'
  omega

theorem Sound.length_nonneg {s : Str} (sound : Sound s) : 0 ≤ length s := by
  cases s with
  | none => exact Int.le_refl 0
  | some b => exact (sound b rfl).1

theorem Sound.fits_of_le {s : Str} (sound : Sound s) {n : Int} (le : n ≤ length s) : Fits s n := by
  cases s with
  | none =>
    right
    have : n ≤ 0 := le
    show n + 1 < 2 ^ 63
    omega
  | some b =>
    have := sound b rfl
    left
    have : n ≤ b.fLength := le
    show n < b.fCapacity
    omega

theorem Fits.mono {s : Str} {m n : Int} (fits : Fits s n) (le : m ≤ n) : Fits s m := by
  unfold Fits at fits ⊢
  exact fits.imp (fun less => by omega) (fun less => by omega)

theorem Sound.fits_lt {s : Str} (sound : Sound s) {n : Int} (fits : Fits s n) : n < 2 ^ 63 := by
  unfold Fits cStrAllocIncrement at fits
  cases s with
  | none =>
    have : capacity none = 0 := rfl
    omega
  | some b =>
    have := sound b rfl
    have : capacity (some b) = b.fCapacity := rfl
    simp only [Option.isSome_some, if_true] at fits
    omega

theorem StringImpl.terminate_content (b : StringImpl) (len : Int) : (b.terminate len).content len = 0 := by
  show memset b.content len 0 1 len = 0
  rw [memset, memmove, if_pos (by omega)]

theorem StringImpl.terminate_sound {b : StringImpl} {len : Int} (low : 0 ≤ len) (high : len < b.fCapacity)
    (long : b.fCapacity < 2 ^ 63) : Sound (some (b.terminate len)) := by
  intro b' has
  cases has
  exact ⟨low, high, b.terminate_content len, long⟩

/-! ### Set -/

theorem allocCapacity_room {s : Str} {newLength : Int} (pos : 0 < newLength)
    (fits : newLength + (if s.isSome then cStrAllocIncrement else 1) < 2 ^ 63) :
    newLength < allocCapacity s newLength ∧ allocCapacity s newLength < 2 ^ 63 := by
  unfold allocCapacity cStrAllocMinimum cStrAllocLimit
  unfold cStrAllocIncrement at fits ⊢
  split
  · rename_i is
    rw [if_pos is] at fits
    rw [toLong_small (by omega) (by omega)]
    repeat' split
    all_goals omega
  · rename_i is
    rw [if_neg is] at fits
    rw [toLong_small (by omega) (by omega)]
    omega

theorem expand_capacity {s : Str} (sound : Sound s) {start newLength : Int} (low : 0 ≤ newLength) (fits : Fits s newLength)
    {b : StringImpl} (has : b ∈ expand s start newLength) : newLength < b.fCapacity ∧ b.fCapacity < 2 ^ 63 := by
  unfold expand at has
  split at has
  · rename_i grows
    have room := allocCapacity_room grows.1 (fits.resolve_left (by omega))
    have fresh : (alloc (allocCapacity s newLength)).fCapacity = allocCapacity s newLength := by
      show (if allocCapacity s newLength ≤ 0 then _ else _) = _
      rw [if_neg (by omega)]
    cases s with
    | none =>
      cases has
      rw [fresh]
      exact room
    | some old =>
      cases has
      dsimp only
      rw [fresh]
      exact room
  · rename_i keeps
    subst has
    have := sound b rfl
    by_cases zero : newLength = 0
    · omega
    · have enough : ¬ b.fCapacity ≤ newLength := fun less => keeps ⟨by omega, less⟩
      omega

theorem set_eq (s : Str) (start : Int) (src : Option Chars) (len : Int) :
    set s start src len = (expand s (from' start) (toLong (from' start + count src len))).map fun b =>
      match src with
      | some p =>
        { b with content := memmove b.content (from' start) p.at' (count src len) }.terminate (toLong (from' start + count src len))
      | none => b.terminate (from' start) := rfl

theorem from'_nonneg (start : Int) : 0 ≤ from' start := by
  unfold from'
  split <;> omega

theorem count_nonneg (src : Option Chars) (len : Int) : 0 ≤ count src len := by
  unfold count
  split
  · cases src with
    | none => exact Int.le_refl 0
    | some p => exact Int.natCast_nonneg p.strlen
  · omega

theorem from'_of_nonneg {start : Int} (low : 0 ≤ start) : from' start = start := if_neg (by omega)

theorem count_of_nonneg {src : Option Chars} {len : Int} (low : 0 ≤ len) : count src len = len := if_neg (by omega)

section Set

variable {s : Str} {start len : Int} {src : Option Chars} (sound : Sound s) (fits : Fits s (from' start + count src len))

include sound fits

theorem set_spec {b : StringImpl} (has : b ∈ set s start src len) :
    b.fLength = (if src.isSome then from' start + count src len else from' start) ∧
      from' start + count src len < b.fCapacity ∧ b.content b.fLength = 0 ∧ b.fCapacity < 2 ^ 63 := by
  have low := from'_nonneg start
  have more := count_nonneg src len
  rw [set_eq, toLong_small (by omega) (sound.fits_lt fits), Option.mem_def, Option.map_eq_some_iff] at has
  obtain ⟨old, there, rfl⟩ := has
  obtain ⟨room, long⟩ := expand_capacity sound (by omega) fits there
  cases src with
  | none => exact ⟨rfl, room, StringImpl.terminate_content _ _, long⟩
  | some p => exact ⟨rfl, room, StringImpl.terminate_content _ _, long⟩

theorem set_sound : Sound (set s start src len) := by
  intro b has
  have low := from'_nonneg start
  have more := count_nonneg src len
  obtain ⟨length, room, zero, long⟩ := set_spec sound fits has
  refine ⟨?_, ?_, zero, long⟩
  · rw [length]
    split <;> omega
  · rw [length]
    split <;> omega

theorem set_isSome (needs : s.isSome = true ∨ 0 < from' start + count src len) : (set s start src len).isSome = true := by
  have low := from'_nonneg start
  have more := count_nonneg src len
  rw [set_eq, Option.isSome_map, toLong_small (by omega) (sound.fits_lt fits), expand]
  split
  · cases s <;> rfl
  · rename_i keeps
    cases s with
    | some b => rfl
    | none =>
      rcases needs with is | pos
      · cases is
      · exact absurd ⟨pos, by show (0 : Int) ≤ _; omega⟩ keeps

theorem length_set (given : src.isSome = true) : length (set s start src len) = from' start + count src len := by
  have low := from'_nonneg start
  have more := count_nonneg src len
  cases shape : set s start src len with
  | some b =>
    show b.fLength = _
    rw [(set_spec sound fits shape).1, if_pos given]
  | none =>
    show (0 : Int) = _
    have : ¬ 0 < from' start + count src len := fun pos => by
      have is := set_isSome sound fits (.inr pos)
      rw [shape] at is
      cases is
    omega

end Set

/-! ### Each operation -/

def Mutator.operand : Mutator → Option Str
  | .assign other => some other
  | .appendString other => some other
  | _ => none

def demand (s : Str) : Mutator → Int
  | .assignChars src => count src (-1)
  | .assign other => length other
  | .appendChar _ => length s + 1
  | .appendChars src len => length s + src.elim 0 fun p => count src (atMost p len)
  | .appendBuffer src len => length s + if src.isSome then max len 0 else 0
  | .appendString other => length s + length other
  | .appendNumber text len => length s + count (some text) len
  | .appendStream len _ => length s + max len 0
  | .appendStreamUntil len atDelim _ => length s + if atDelim then 0 else max len 0
  | .putAt pos _ => if pos < length s then length s else pos + 1
  | .replaceAt pos src len => if src.isSome ∧ 0 ≤ pos ∧ 0 < len then max (length s) (pos + len) else length s
  | .insert pos n _ => if pos ≤ length s then from' (pos + n) + (length s - pos) else length s
  | .insertRange pos range => if pos ≤ length s then length s + range.length else length s
  | .erase pos n => if 0 ≤ pos ∧ pos ≤ length s then length s - min n (length s - pos) else length s
  | .prependWith newLength _ _ => if length s < newLength then length s + newLength else length s
  | .reserve minreserve => length s + max minreserve 0
  | .index x _ => if s.isSome ∧ length s < x then x + 1 else length s
  | .trim _ | .trimFront _ | .clear | .at' _ _ => length s

def Careful (s : Str) : Mutator → Prop
  -- the one branch that grows the string without a new terminator
  | .prependWith newLength _ _ =>
    Exact (newLength - length s) ∧ (length s = 0 → 0 < newLength → newLength < capacity s → content s 0 newLength = 0)
  | .insert pos n _ => Exact (pos + n)
  -- the first buffer has no room for the index itself
  | .index x write => (s.isSome ∨ x ≤ 0) ∧ (write.isSome → max x 0 < length (prepareIndex s (max x 0)))
  | _ => True

def Safe (s : Str) (m : Mutator) : Prop := Fits s (demand s m) ∧ Careful s m

theorem writeAt_sound {s : Str} (sound : Sound s) {pos len : Int} (src : Memory) (below : pos + len ≤ length s) :
    Sound (writeAt s pos src len) := by
  intro b has
  obtain ⟨old, there, rfl⟩ := Option.map_eq_some_iff.mp has
  subst there
  obtain ⟨low, high, zero, long⟩ := sound old rfl
  refine ⟨low, high, ?_, long⟩
  show memmove old.content pos src len old.fLength = 0
  have : length (some old) = old.fLength := rfl
  rw [memmove, if_neg (by omega), zero]

section Operations

variable {s : Str} (sound : Sound s)

include sound

theorem appendChar_sound (c : UInt8) (fits : Fits s (length s + 1)) : Sound (appendChar s c) := by
  have low := sound.length_nonneg
  unfold appendChar
  split
  · refine set_sound sound ?_
    rwa [from'_of_nonneg low, count_of_nonneg (by omega)]
  · rename_i room
    cases s with
    | none => exact sound
    | some b =>
      obtain ⟨low, -, -, long⟩ := sound b rfl
      have : ¬ b.fCapacity < b.fLength + 2 := room
      exact StringImpl.terminate_sound (by omega) (by show b.fLength + 1 < b.fCapacity; omega) long

theorem reserve_spec {minreserve : Int} (fits : Fits s (length s + max minreserve 0)) {b : StringImpl}
    (has : b ∈ reserve s minreserve) :
    b.fLength = length s ∧ length s + max minreserve 0 < b.fCapacity ∧ b.content b.fLength = 0 ∧ b.fCapacity < 2 ^ 63 := by
  have size : count none (if 0 < minreserve then minreserve else 0) = max minreserve 0 := by
    unfold count
    split <;> split <;> omega
  have start := from'_of_nonneg sound.length_nonneg
  have spec := set_spec sound (by rwa [start, size]) has
  rw [size, start] at spec
  exact spec

theorem reserve_sound {minreserve : Int} (fits : Fits s (length s + max minreserve 0)) : Sound (reserve s minreserve) := by
  intro b has
  obtain ⟨length, room, zero, long⟩ := reserve_spec sound fits has
  have := sound.length_nonneg
  exact ⟨by omega, by omega, zero, long⟩

theorem readInto_sound {len : Int} (fits : Fits s (length s + max len 0)) (some : 0 < len) (read : Bytes) :
    Sound (readInto s len read) := by
  intro b has
  obtain ⟨old, there, rfl⟩ := Option.map_eq_some_iff.mp has
  obtain ⟨length, room, zero, long⟩ := reserve_spec sound fits there
  have := sound.length_nonneg
  exact StringImpl.terminate_sound (by omega) (by show _ < old.fCapacity; omega) (by exact long) _ rfl

theorem trim_sound (newlen : Int) : Sound (trim s newlen) := by
  have := sound.length_nonneg
  unfold trim
  split
  · refine set_sound sound (sound.fits_of_le ?_)
    unfold from' count
    repeat' split
    all_goals omega
  · exact sound

theorem trimFront_sound (newstart : Int) : Sound (trimFront s newstart) := by
  unfold trimFront
  split
  · refine set_sound sound (sound.fits_of_le ?_)
    rw [from'_of_nonneg (by omega), count_of_nonneg (by omega)]
    omega
  · split
    · cases s with
      | none => exact sound
      | some b =>
        obtain ⟨low, room, -, long⟩ := sound b rfl
        exact StringImpl.terminate_sound (Int.le_refl 0) (by omega) long
    · exact sound

theorem replaceAt_sound {pos len : Int} {src : Option Chars} (fits : 0 ≤ pos → 0 < len → Fits s (pos + len)) :
    Sound (replaceAt s pos src len) := by
  unfold replaceAt
  split
  · rename_i sane
    split
    · refine set_sound sound ?_
      rw [from'_of_nonneg sane.2.1, count_of_nonneg (by omega)]
      exact fits sane.2.1 sane.2.2
    · exact writeAt_sound sound _ (by omega)
  · exact sound

theorem erase_sound {pos n : Int} (fits : 0 ≤ pos → pos ≤ length s → Fits s (length s - min n (length s - pos))) :
    Sound (erase s pos n) := by
  unfold erase
  split
  · rename_i inside'
    split
    · exact trim_sound sound pos
    · have fits := fits inside'.1 inside'.2
      have long := sound.fits_lt fits
      dsimp only
      rw [toLong_small (by omega) (by omega)]
      refine set_sound sound ?_
      rw [from'_of_nonneg inside'.1, count_of_nonneg (by omega)]
      rwa [show pos + (length s - pos - min n (length s - pos)) = length s - min n (length s - pos) by omega]
  · exact sound

theorem insertBytes_sound {pos n : Int} (exact' : Exact (pos + n)) (src : Memory)
    (fits : pos ≤ length s → Fits s (from' (pos + n) + (length s - pos))) : Sound (insertBytes s pos n src) := by
  unfold insertBytes
  split
  · rename_i inside'
    have fits := fits inside'
    have size : count (some (inside s pos)) (length s - pos) = length s - pos := count_of_nonneg (by omega)
    rw [exact']
    rw [← size] at fits
    refine writeAt_sound (set_sound sound fits) src ?_
    have low : pos + n ≤ from' (pos + n) := by
      unfold from'
      split <;> omega
    rw [length_set sound fits rfl, size]
    omega
  · exact sound

theorem reserve_empty {newLength : Int} (empty : length s = 0) (pos : 0 < newLength)
    (stale : newLength < capacity s → content s 0 newLength = 0) {b : StringImpl} (has : b ∈ reserve s newLength)
    (long : newLength < 2 ^ 63) : b.content newLength = 0 := by
  have kept : ∀ old : StringImpl, old.content newLength = 0 → (old.terminate 0).content newLength = 0 := by
    intro old zero
    show memset old.content 0 0 1 newLength = 0
    rw [memset, memmove, if_neg (by omega), zero]
  rw [reserve, empty, if_pos pos, set_eq, from'_of_nonneg (Int.le_refl 0), count_of_nonneg (by omega),
    toLong_small (by omega) (by omega), Option.mem_def, Option.map_eq_some_iff] at has
  obtain ⟨old, there, rfl⟩ := has
  refine kept old ?_
  rw [Int.zero_add, expand] at there
  split at there
  · cases s with
    | none =>
      cases there
      rfl
    | some first =>
      have : first.fLength = 0 := empty
      cases there
      show memmove (fun _ => 0) 0 first.content _ newLength = 0
      rw [memmove, if_neg (by split <;> omega)]
  · rename_i keeps
    subst there
    have fresh := stale (Int.not_le.mp fun less => keeps ⟨pos, less⟩)
    rwa [content, Int.zero_add] at fresh

theorem prependWith_sound {newLength : Int} (fill : UInt8) (behind : Memory) (exact' : Exact (newLength - length s))
    (fits : length s < newLength → Fits s (length s + newLength))
    (stale : length s = 0 → 0 < newLength → newLength < capacity s → content s 0 newLength = 0) :
    Sound (prependWith s newLength fill behind) := by
  have low := sound.length_nonneg
  unfold prependWith
  dsimp only
  rw [exact']
  split
  · rename_i grows
    have fits' : Fits s (length s + max newLength 0) := by
      rw [Int.max_eq_left (by omega)]
      exact fits (by omega)
    rw [if_pos (by omega : length s < newLength)]
    have is : (reserve s newLength).isSome = true := by
      refine set_isSome sound ?_ (.inr ?_)
      · rw [from'_of_nonneg low, if_pos (by omega), count_of_nonneg (by omega)]
        exact fits (by omega)
      · rw [from'_of_nonneg low, if_pos (by omega), count_of_nonneg (by omega)]
        omega
    obtain ⟨b, shape⟩ := Option.isSome_iff_exists.mp is
    have sound' := reserve_sound sound fits'
    obtain ⟨same, room, zero, long⟩ := reserve_spec sound fits' shape
    rw [shape] at sound' ⊢
    -- what is moved ends at the new length, whatever bytes are read
    have moved : ∀ src : Chars, Sound (replaceAt (some b) (newLength - length s) (some src) (length s)) ∧
        (length s ≠ 0 → length (replaceAt (some b) (newLength - length s) (some src) (length s)) = newLength) := by
      intro src
      have fits'' : Fits (some b) (newLength - length s + length s) := .inl (by show _ < b.fCapacity; omega)
      refine ⟨replaceAt_sound sound' fun _ _ => fits'', fun some' => ?_⟩
      have far : length (some b) - (newLength - length s) < length s := by
        show b.fLength - _ < _
        omega
      rw [replaceAt, if_pos ⟨rfl, by omega, by omega⟩, if_pos far]
      have start : from' (newLength - length s) = newLength - length s := from'_of_nonneg (by omega)
      have size : count (some src) (length s) = length s := count_of_nonneg low
      rw [length_set sound' (by rwa [start, size]) rfl, start, size]
      omega
    split
    · rename_i some'
      split
      · exact writeAt_sound (moved _).1 _ (by rw [(moved _).2 some']; omega)
      · exact writeAt_sound (moved _).1 _ (by rw [(moved _).2 some']; omega)
    · rename_i empty
      have empty : length s = 0 := by omega
      have last := reserve_empty sound empty (by omega) (stale empty (by omega)) shape (by omega)
      refine writeAt_sound ?_ _ ?_
      · intro b' has
        cases has
        refine ⟨by dsimp only; omega, by dsimp only; omega, ?_, long⟩
        show b.content (b.fLength + _) = 0
        rwa [same, show length s + (newLength - length s) = newLength by omega]
      · show _ ≤ b.fLength + (newLength - length s)
        omega
  · exact sound

theorem prepareIndex_sound {n : Int} (low : 0 ≤ n) (first : s.isSome ∨ n = 0) (fits : s.isSome → length s < n → Fits s (n + 1)) :
    Sound (prepareIndex s n) ∧ n < capacity (prepareIndex s n) := by
  unfold prepareIndex
  cases s with
  | none =>
    have zero : n = 0 := first.resolve_left (by decide)
    rw [if_pos (show capacity none = 0 from rfl), zero]
    refine ⟨?_, by decide⟩
    intro b has
    cases has
    decide
  | some b =>
    obtain ⟨pos, room, zero, long⟩ := sound b rfl
    rw [if_neg (by show b.fCapacity ≠ 0; omega)]
    split
    · rename_i behind
      have start := from'_of_nonneg low
      have size : count (some (single 0)) 1 = 1 := rfl
      have fits := fits rfl behind
      rw [← size, ← start] at fits
      refine ⟨set_sound sound fits, ?_⟩
      obtain ⟨b', shape⟩ := Option.isSome_iff_exists.mp (set_isSome sound fits (.inl rfl))
      rw [shape]
      have := (set_spec sound fits shape).2.1
      rw [start, size] at this
      show n < b'.fCapacity
      omega
    · rename_i within
      have : ¬ b.fLength < n := within
      exact ⟨sound, by show n < b.fCapacity; omega⟩

end Operations

theorem writeOne_sound {s : Str} (sound : Sound s) {pos : Int} {write : Option UInt8} (below : write.isSome → pos < length s) :
    Sound (writeOne s pos write) := by
  cases write with
  | none => exact sound
  | some c => exact writeAt_sound sound _ (below rfl)

theorem capacity_writeOne (s : Str) (pos : Int) (write : Option UInt8) : capacity (writeOne s pos write) = capacity s := by
  cases write with
  | none => rfl
  | some c => cases s <;> rfl

theorem apply_sound {s : Str} (sound : Sound s) {m : Mutator} (operands : ∀ other ∈ m.operand, Sound other) (safe : Safe s m) :
    Sound (apply s m) := by
  obtain ⟨fits, careful⟩ := safe
  have low := sound.length_nonneg
  have start := from'_of_nonneg low
  cases m with
  | assignChars src => exact set_sound sound (by rwa [from'_of_nonneg (Int.le_refl 0), Int.zero_add])
  | assign other =>
    have more := (operands other rfl).length_nonneg
    unfold apply
    dsimp only
    split
    · refine set_sound sound ?_
      rwa [from'_of_nonneg (Int.le_refl 0), Int.zero_add, count_of_nonneg more]
    · split
      · exact set_sound sound (sound.fits_of_le low)
      · exact sound
  | appendChar c => exact appendChar_sound sound c fits
  | appendChars src len =>
    cases src with
    | none => exact sound
    | some p => exact set_sound sound (by rwa [start])
  | appendBuffer src len =>
    cases src with
    | none => exact sound
    | some p =>
      unfold apply
      dsimp only
      split
      · rename_i some'
        have fits : Fits s (length s + max len 0) := fits
        refine set_sound sound ?_
        rwa [start, count_of_nonneg (by omega), ← Int.max_eq_left (a := len) (b := 0) (by omega)]
      · exact sound
  | appendString other =>
    have more := (operands other rfl).length_nonneg
    unfold apply
    dsimp only
    split
    · refine set_sound sound ?_
      rwa [start, count_of_nonneg more]
    · exact sound
  | appendNumber text len => exact set_sound sound (by rwa [start])
  | appendStream len read =>
    unfold apply
    dsimp only
    split
    · rename_i some'
      exact readInto_sound sound fits some' read
    · exact sound
  | appendStreamUntil len atDelim read =>
    unfold apply
    dsimp only
    split
    · rename_i some'
      rw [demand, some'.2] at fits
      exact readInto_sound sound fits some'.1 read
    · exact sound
  | putAt pos c =>
    unfold apply
    dsimp only
    split
    · rename_i first
      split
      · rename_i within
        exact writeAt_sound sound _ (by omega)
      · rename_i behind
        refine set_sound sound ?_
        rw [from'_of_nonneg first, count_of_nonneg (by omega)]
        have far : ¬ pos < length s := by
          intro within
          cases s with
          | none =>
            have : pos < 0 := within
            omega
          | some b => exact behind ⟨rfl, within⟩
        rwa [demand, if_neg far] at fits
    · exact sound
  | replaceAt pos src len =>
    cases src with
    | none => exact sound
    | some p =>
      refine replaceAt_sound sound fun first some' => ?_
      rw [demand, if_pos ⟨rfl, first, some'⟩] at fits
      exact fits.mono (Int.le_max_right _ _)
  | insert pos n v =>
    refine insertBytes_sound sound careful _ fun within => ?_
    rwa [demand, if_pos within] at fits
  | insertRange pos range =>
    by_cases within : (pos : Int) ≤ length s
    · rw [demand, if_pos within] at fits
      have long := sound.fits_lt fits
      refine insertBytes_sound sound (toLong_small (by omega) (by omega)) _ fun _ => ?_
      rwa [from'_of_nonneg (by omega), show (pos : Int) + range.length + (length s - pos) = length s + range.length by omega]
    · show Sound (insertBytes s pos range.length (buffer range).at')
      rwa [insertBytes, if_neg within]
  | erase pos n =>
    refine erase_sound sound fun first within => ?_
    rwa [demand, if_pos ⟨first, within⟩] at fits
  | trim newlen => exact trim_sound sound newlen
  | trimFront newstart => exact trimFront_sound sound newstart
  | prependWith newLength fill behind =>
    refine prependWith_sound sound fill behind careful.1 (fun grows => ?_) careful.2
    rwa [demand, if_pos grows] at fits
  | reserve minreserve => exact reserve_sound sound fits
  | clear => exact trim_sound sound 0
  | index x write =>
    refine writeOne_sound (prepareIndex_sound sound (Int.le_max_right _ _) ?_ ?_).1 careful.2
    · exact careful.1.imp_right fun first => by omega
    · intro is behind
      rw [demand, if_pos ⟨is, by omega⟩] at fits
      rwa [Int.max_eq_left (by omega)]
  | at' n write =>
    unfold apply
    dsimp only
    split
    · rename_i within
      exact writeOne_sound sound fun _ => within.2
    · exact sound

theorem reference_in_buffer {s : Str} (sound : Sound s) {m : Mutator} (safe : Safe s m) {n : Int} (refers : n ∈ reference s m) :
    0 ≤ n ∧ n < capacity (apply s m) := by
  obtain ⟨fits, careful⟩ := safe
  have low := sound.length_nonneg
  cases m with
  | index x write =>
    cases refers
    refine ⟨Int.le_max_right _ _, ?_⟩
    show _ < capacity (writeOne _ _ write)
    rw [capacity_writeOne]
    refine (prepareIndex_sound sound (Int.le_max_right _ _) ?_ ?_).2
    · exact careful.1.imp_right fun first => by omega
    · intro is behind
      rw [demand, if_pos ⟨is, by omega⟩] at fits
      rwa [Int.max_eq_left (by omega)]
  | at' k write =>
    simp only [reference, Option.mem_def, Option.ite_none_right_eq_some, Option.some.injEq] at refers
    obtain ⟨within, rfl⟩ := refers
    refine ⟨within.1, ?_⟩
    show _ < capacity (if 0 ≤ k ∧ k < length s then writeOne s k write else s)
    rw [if_pos within, capacity_writeOne]
    cases s with
    | none =>
      have : k < 0 := within.2
      omega
    | some b =>
      have := sound b rfl
      have : k < b.fLength := within.2
      show k < b.fCapacity
      omega
  | _ => cases refers

/-! ### Whole runs -/

def Constructor.operand : Constructor → Option Str
  | .copy s => some s
  | _ => none

def Constructor.Safe : Constructor → Prop
  | .empty => True
  | .ofCapacity capacity => Exact capacity
  | .ofChars s l => Fits none (s.elim 0 fun p => count s (atMost p l))
  | .ofBuffer s l => if s.isSome then Fits none l else Exact l
  | .copy s => Fits none (length s)

/-- The strings of a program in which every step is safe; what a step copies is such a string too. -/
inductive Reachable : Str → Prop
  | construct (c : Constructor) (operands : ∀ other ∈ c.operand, Reachable other) (safe : c.Safe) : Reachable (construct c)
  | apply {s : Str} (reached : Reachable s) (m : Mutator) (operands : ∀ other ∈ m.operand, Reachable other) (safe : Safe s m) :
    Reachable (apply s m)

theorem alloc_sound {capacity : Int} (exact' : Exact capacity) : Sound (some (alloc capacity)) := by
  have := exact'.high
  intro b has
  cases has
  show (0 : Int) ≤ 0 ∧ 0 < (if capacity ≤ 0 then cStrAllocMinimum else capacity) ∧ (0 : UInt8) = 0 ∧
    (if capacity ≤ 0 then cStrAllocMinimum else capacity) < 2 ^ 63
  unfold cStrAllocMinimum
  refine ⟨by omega, ?_, rfl, ?_⟩ <;> split <;> omega

theorem construct_sound {c : Constructor} (operands : ∀ other ∈ c.operand, Sound other) (safe : c.Safe) : Sound (construct c) := by
  have empty : Sound none := fun b has => by cases has
  cases c with
  | empty => exact empty
  | ofCapacity capacity => exact alloc_sound safe
  | ofChars s l =>
    cases s with
    | none => exact empty
    | some p => exact set_sound empty (by rwa [from'_of_nonneg (Int.le_refl 0), Int.zero_add])
  | ofBuffer s l =>
    unfold construct
    dsimp only
    split
    · rename_i some'
      cases s with
      | none => exact alloc_sound safe
      | some p => exact set_sound empty (by rwa [from'_of_nonneg (Int.le_refl 0), Int.zero_add, count_of_nonneg (by omega)])
    · exact empty
  | copy s =>
    have low := (operands s rfl).length_nonneg
    unfold construct
    dsimp only
    split
    · exact set_sound empty (by rwa [from'_of_nonneg (Int.le_refl 0), Int.zero_add, count_of_nonneg low])
    · exact empty

theorem Reachable.sound {s : Str} (reached : Reachable s) : Sound s := by
  induction reached with
  | construct c operands safe sound => exact construct_sound sound safe
  | apply reached m operands safe sound sounds => exact apply_sound sound sounds safe

/-- Along every safe run the string is shorter than its buffer, terminated, and every reference that is
returned lies in the buffer. -/
theorem reachable_representation {s : Str} (reached : Reachable s) :
    (∀ b ∈ s, b.fLength < b.fCapacity ∧ b.content b.fLength = 0) ∧
      ∀ m, Safe s m → ∀ n ∈ reference s m, 0 ≤ n ∧ n < capacity (apply s m) := by
  refine ⟨fun b has => ?_, fun m safe n refers => reference_in_buffer reached.sound safe refers⟩
  obtain ⟨-, room, zero, -⟩ := reached.sound b has
  exact ⟨room, zero⟩

theorem reachable_representation_appended :
    let s := apply (construct (.ofChars (some (.ofText [104, 105])) (-1))) (.appendChar 33)
    length s = 3 ∧ (∀ b ∈ s, b.fLength < b.fCapacity ∧ b.content b.fLength = 0) ∧
      ∀ m, Safe s m → ∀ n ∈ reference s m, 0 ≤ n ∧ n < capacity (apply s m) := by
  have first : Reachable (construct (.ofChars (some (.ofText [104, 105])) (-1))) :=
    .construct _ (fun _ has => by cases has) (.inr (by decide))
  exact ⟨by decide, reachable_representation (.apply first _ (fun _ has => by cases has) ⟨.inr (by decide), trivial⟩)⟩

/-- The first buffer ends where the reference points to, and a string grown by hand ends in what it has been before. -/
theorem index_and_prependWith_break :
    (reference (construct .empty) (.index 5 none) = some 5 ∧ capacity (apply (construct .empty) (.index 5 none)) = 5) ∧
      let s := apply (apply (construct (.ofChars (some (.ofText [97, 98, 99, 100, 101, 102, 103, 104])) (-1))) (.trim 0))
        (.prependWith 4 120 fun _ => 0)
      length s = 4 ∧ content s 0 (length s) = 101 := by
  decide

end Coast.ITOString
