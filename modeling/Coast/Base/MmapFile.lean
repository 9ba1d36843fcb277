import Coast.Base.MmapStream

/-!
# A mapped file that is written is a file

Each step keeps the window around the put pointer, or the put position is 0. That fails for a write at position 0
while the window is elsewhere, for a seek to the end while the length is not adjusted, and for a seek that is
further from the window than an `int` reaches.
-/

namespace Coast.MmapStream

open ITOString (toInt Direction)

namespace PageSize

variable (ps : PageSize)

theorem roundDown_bounds {pos : Int} (low : 0 ≤ pos) :
    0 ≤ roundtopagesize ps pos false ∧ roundtopagesize ps pos false ≤ pos ∧
      pos < roundtopagesize ps pos false + ps.size := by
  have positive := ps.pos
  have below := Int.ediv_mul_le pos (ne_of_gt positive)
  have next := Int.lt_ediv_add_one_mul_self pos positive
  rw [Int.add_mul, Int.one_mul] at next
  rw [roundtopagesize, if_neg (by decide), Int.tdiv_eq_ediv_of_nonneg low]
  exact ⟨Int.mul_nonneg (Int.ediv_nonneg low positive.le) positive.le, below, next⟩

theorem roundDown_page (pos : Int) : roundtopagesize ps pos false % ps.size = 0 := by
  rw [roundtopagesize, if_neg (by decide)]
  exact Int.mul_emod_left _ _

theorem le_roundUp {pos : Int} (low : 1 ≤ pos) : pos ≤ roundtopagesize ps pos true := by
  have next := Int.lt_ediv_add_one_mul_self (pos - 1) ps.pos
  rw [roundtopagesize, if_pos rfl, Int.tdiv_eq_ediv_of_nonneg (by omega)]
  omega

end PageSize

theorem File.write_zero {f : File} {i : Nat} (behind : f.length ≤ i) : (f.write i 0).bytes = f.bytes := by
  funext j
  by_cases there : j = i
  · rw [File.write, there, f.zero i behind]
    exact if_pos rfl
  · exact if_neg there

theorem toInt_of_lt {n : Int} (low : -2 ^ 31 ≤ n) (high : n < 2 ^ 31) : toInt n = n := by
  unfold toInt
  omega

/-! ### The window -/

namespace MmapStreamBuf

structure Areas (ps : PageSize) (b : MmapStreamBuf) : Prop where
  low : 0 ≤ b.fMapOffset
  page : b.fMapOffset % ps.size = 0
  pbase : b.pbase = 0
  eback : b.eback = 0
  gptr : b.gptr = 0
  known : 0 ≤ b.fFileLength

/-- The window from `fMapOffset` to the end of the file is mapped, and it is the put area. -/
structure Window (ps : PageSize) (b : MmapStreamBuf) : Prop extends Areas ps b where
  mapped : b.mapped = true
  length : b.fLength = b.file.length
  below : b.fMapOffset < b.fLength
  epptr : b.epptr = b.fLength - b.fMapOffset

variable {ps : PageSize} {b : MmapStreamBuf}

theorem Areas.position (areas : Areas ps b) : b.position = b.pptr + b.fMapOffset := by
  rw [MmapStreamBuf.position, areas.pbase]
  omega

def offsetAt (ps : PageSize) (b : MmapStreamBuf) (pos : Int) : Int :=
  if 0 < pos then roundtopagesize ps pos false else b.fMapOffset

theorem Areas.putoffset (areas : Areas ps b) (low : 0 ≤ b.pptr + b.fMapOffset)
    (start : b.mapped = true ∨ b.pptr + b.fMapOffset = 0) : b.putoffset = b.pptr + b.fMapOffset := by
  have bottom := areas.low
  rw [MmapStreamBuf.putoffset, areas.position]
  by_cases remembers : b.Remembers
  · exact if_pos remembers
  · rw [if_neg remembers]
    rcases start with mapped | zero
    · have there : ¬ (b.pbase < b.pptr ∨ 0 < b.fMapOffset) := fun either => remembers ⟨mapped, either⟩
      rw [areas.pbase] at there
      omega
    · exact zero.symm

theorem Areas.known_xinit (areas : Areas ps b) :
    (if b.Remembers ∧ b.fFileLength < b.putoffset then b.putoffset else b.fFileLength) = max b.fFileLength b.putoffset := by
  have known := areas.known
  by_cases remembers : b.Remembers
  · simp only [remembers, true_and]
    split <;> omega
  · have zero : b.putoffset = 0 := if_neg remembers
    rw [if_neg fun both => remembers both.1, zero]
    omega

theorem Areas.offsetAt (areas : Areas ps b) {pos length : Int} (low : 0 ≤ pos) (high : pos < length)
    (below : b.fMapOffset < length) :
    0 < length - b.offsetAt ps pos ∧ 0 ≤ b.offsetAt ps pos ∧ b.offsetAt ps pos % ps.size = 0 := by
  rw [MmapStreamBuf.offsetAt]
  split
  · have down := ps.roundDown_bounds low
    exact ⟨by omega, down.1, ps.roundDown_page pos⟩
  · exact ⟨by omega, areas.low, areas.page⟩

theorem Areas.xinit (areas : Areas ps b) (low : 0 ≤ b.pptr + b.fMapOffset)
    (start : b.mapped = true ∨ b.pptr + b.fMapOffset = 0) (high : b.pptr + b.fMapOffset < b.file.length)
    (below : b.fMapOffset < b.file.length) :
    ∃ b', b.xinit ps = .ok b' ∧ Window ps b' ∧ b'.file = b.file ∧ b'.fMapOffset = b.offsetAt ps (b.pptr + b.fMapOffset) ∧
      b'.fFileLength = max b.fFileLength (b.pptr + b.fMapOffset) ∧
      b'.pptr = toInt (b.pptr + b.fMapOffset - b'.fMapOffset) := by
  obtain ⟨size, bottom, page⟩ := areas.offsetAt low high below
  have positive : (0 : Int) < b.file.length := by omega
  have get : b.getoffset = 0 := by
    rw [getoffset, areas.gptr, areas.eback]
    exact if_neg fun both => absurd both.2 (lt_irrefl 0)
  have offset : (if 0 < b.pptr + b.fMapOffset then roundtopagesize ps (b.pptr + b.fMapOffset) false else b.fMapOffset) =
    b.offsetAt ps (b.pptr + b.fMapOffset) := rfl
  rw [MmapStreamBuf.xinit, areas.known_xinit]
  simp only [areas.putoffset low start, get, positive, true_and, offset]
  rw [assert, if_pos fun _ => areas.pbase, assert, if_pos fun _ => areas.eback, syscall, if_pos fun _ => ⟨size, bottom, page⟩]
  refine ⟨_, rfl, ⟨⟨bottom, page, rfl, rfl, rfl, le_max_of_le_left areas.known⟩, rfl, rfl, ?_, rfl⟩, rfl, rfl, rfl, ?_⟩
  · exact Int.lt_of_sub_pos size
  · exact Int.zero_add _

theorem Areas.reserve (areas : Areas ps b) (length : b.fLength = b.file.length) (epptr : b.epptr = b.fLength - b.fMapOffset)
    (low : 0 ≤ b.pptr + b.fMapOffset) (start : b.mapped = true ∨ b.pptr + b.fMapOffset = 0)
    (inside : b.pptr + b.fMapOffset ≤ b.fLength) (below : b.fMapOffset ≤ b.fLength) {newlength : Int}
    (more : b.fLength < newlength) :
    ∃ b', b.reserve ps newlength = .ok b' ∧ Window ps b' ∧ b'.file.bytes = b.file.bytes ∧ newlength ≤ b'.fLength ∧
      b'.fMapOffset = b.offsetAt ps (b.pptr + b.fMapOffset) ∧
      b'.fFileLength = max b.fFileLength (b.pptr + b.fMapOffset) ∧ b'.pptr = toInt (b.pptr + b.fMapOffset - b'.fMapOffset) := by
  have rounded := ps.le_roundUp (show 1 ≤ newlength by omega)
  have grown : newlength ≤ (b.file.write (roundtopagesize ps newlength true - 1).toNat 0).length := by
    rw [File.write]
    dsimp only
    omega
  obtain ⟨b', mapped, window, file, offset, known, pptr⟩ := Areas.xinit
    (b := { b with file := b.file.write (roundtopagesize ps newlength true - 1).toNat 0 })
    ⟨areas.low, areas.page, areas.pbase, areas.eback, areas.gptr, areas.known⟩ low start
    (by dsimp only; omega) (by dsimp only; omega)
  have size : newlength ≤ b'.fLength := by
    rw [window.length, file]
    exact grown
  have bytes : b'.file.bytes = b.file.bytes := by
    rw [file]
    exact File.write_zero (by omega)
  refine ⟨b', ?_, window, bytes, size, offset, known, pptr⟩
  rw [MmapStreamBuf.reserve, if_pos more, assert, if_pos (by rw [areas.pbase, epptr, Int.sub_zero])]
  exact mapped

end MmapStreamBuf

/-! ### What is stored -/

/-- A stream that has stored a plain file. The put position is in the window unless it is 0. -/
structure Holds (ps : PageSize) (b : MmapStreamBuf) (f : PlainFile) : Prop extends b.Window ps where
  pos : b.pptr + b.fMapOffset = f.pos
  window : 0 ≤ b.pptr ∨ f.pos = 0
  inside : f.pos ≤ b.fLength
  bytes : b.file.bytes = f.file.bytes
  front : b.fMapOffset ≤ b.fFileLength
  reached : b.fFileLength ≤ b.fLength
  extent : max b.fFileLength f.pos = f.file.length

namespace Holds

variable {ps : PageSize} {b : MmapStreamBuf} {f : PlainFile}

theorem position (holds : Holds ps b f) : b.position = f.pos := by
  rw [holds.toAreas.position, holds.pos]

theorem hasPbase (holds : Holds ps b f) : b.HasPbase := .inl holds.mapped

theorem adjust (holds : Holds ps b f) : Holds ps b.adjustFileLength f ∧ b.adjustFileLength.fFileLength = f.file.length ∧
    b.adjustFileLength.fLength = b.fLength ∧ b.adjustFileLength.fMapOffset = b.fMapOffset := by
  have extent := holds.extent
  have front := holds.front
  have inside := holds.inside
  have bottom := holds.low
  rw [MmapStreamBuf.adjustFileLength, holds.position]
  by_cases longer : b.fFileLength < f.pos
  · rw [if_pos ⟨holds.hasPbase, longer⟩]
    refine ⟨?_, by show (f.pos : Int) = f.file.length; omega, rfl, rfl⟩
    exact {
      holds with
      known := Int.natCast_nonneg f.pos
      front := by
        show b.fMapOffset ≤ f.pos
        omega
      reached := inside
      extent := by
        show max (f.pos : Int) f.pos = f.file.length
        omega }
  · rw [if_neg fun both => longer both.2]
    exact ⟨holds, by omega, rfl, rfl⟩

theorem sync (holds : Holds ps b f) : ∃ b', b.sync = .ok b' ∧ Holds ps b' f ∧ b'.fFileLength = f.file.length := by
  obtain ⟨adjusted, known, -⟩ := holds.adjust
  refine ⟨_, ?_, adjusted, known⟩
  rw [MmapStreamBuf.sync, syscall, if_pos ⟨Int.sub_nonneg.mpr adjusted.front, adjusted.reached⟩]
  rfl

theorem store (holds : Holds ps b f) (low : 0 ≤ b.pptr) (high : f.pos < b.fLength) (c : UInt8) :
    ∃ b', b.store c = .ok b' ∧ Holds ps b' (f.put c) ∧ 0 ≤ b'.pptr := by
  have pos := holds.pos
  have length := holds.length
  have extent := holds.extent
  have there : (b.fMapOffset + b.pptr).toNat = f.pos := by omega
  have size : ((b.file.write f.pos c).length : Int) = b.fLength := by
    rw [File.write]
    dsimp only
    omega
  rw [MmapStreamBuf.store, if_pos ⟨holds.mapped, low, by omega⟩, there]
  refine ⟨_, rfl, ?_, by show 0 ≤ b.pptr + 1; omega⟩
  exact {
    holds with
    length := size.symm
    pos := by
      show b.pptr + 1 + b.fMapOffset = ((f.pos + 1 : Nat) : Int)
      omega
    window := .inl (by show 0 ≤ b.pptr + 1; omega)
    inside := by
      show ((f.pos + 1 : Nat) : Int) ≤ b.fLength
      omega
    bytes := by
      show (fun j => if j = f.pos then c else b.file.bytes j) = fun j => if j = f.pos then c else f.file.bytes j
      rw [holds.bytes]
    extent := by
      show max b.fFileLength ((f.pos + 1 : Nat) : Int) = ((max f.file.length (f.pos + 1) : Nat) : Int)
      omega }

theorem overflow (holds : Holds ps b f) (low : 0 ≤ b.pptr) (full : f.pos = b.fLength) (c : UInt8) :
    ∃ b', b.overflow ps c = .ok b' ∧ Holds ps b' (f.put c) ∧ 0 ≤ b'.pptr := by
  have pos := holds.pos
  have below := holds.below
  have front := holds.front
  have reached := holds.reached
  have extent := holds.extent
  have bottom := holds.low
  have size := ps.int
  have down := ps.roundDown_bounds (Int.natCast_nonneg f.pos)
  obtain ⟨b', reserved, window, bytes, length, offset, known, pptr⟩ := holds.toAreas.reserve holds.length holds.epptr (by omega)
    (.inl holds.mapped) (by omega) below.le (show b.fLength < b.position + 1 by rw [holds.position]; omega)
  rw [pos, MmapStreamBuf.offsetAt, if_pos (by omega)] at offset
  rw [pos] at pptr known
  rw [offset, toInt_of_lt (by omega) (by omega)] at pptr
  rw [holds.position] at length
  have moved : Holds ps b' f := {
    window with
    pos := by omega
    window := .inl (by omega)
    inside := by omega
    bytes := bytes.trans holds.bytes
    front := by omega
    reached := by omega
    extent := by omega }
  obtain ⟨b'', stored, next⟩ := moved.store (by omega) (by omega) c
  refine ⟨b'', ?_, next⟩
  have room : b'.pptr < b'.epptr := by
    rw [window.epptr]
    omega
  rw [MmapStreamBuf.overflow, assert, if_pos (by rw [if_pos holds.hasPbase, holds.pbase]; exact low)]
  simp only [bind, Except.bind, reserved]
  rw [assert, if_pos room]
  exact stored

theorem sputc (holds : Holds ps b f) (low : 0 ≤ b.pptr) (c : UInt8) :
    ∃ b', b.sputc ps c = .ok b' ∧ Holds ps b' (f.put c) ∧ 0 ≤ b'.pptr := by
  have pos := holds.pos
  have inside := holds.inside
  have epptr := holds.epptr
  rw [MmapStreamBuf.sputc]
  by_cases room : b.pptr < b.epptr
  · rw [if_pos room]
    exact holds.store low (by omega) c
  · rw [if_neg room]
    exact holds.overflow low (by omega) c

theorem xsputn (holds : Holds ps b f) {s : Bytes} (low : s = [] ∨ 0 ≤ b.pptr) :
    ∃ b', MmapStreamBuf.xsputn ps s b = .ok b' ∧ Holds ps b' (f.write s) := by
  induction s generalizing b f with
  | nil => exact ⟨b, rfl, holds⟩
  | cons c s ih =>
    obtain ⟨b₁, put, holds₁, low₁⟩ := holds.sputc (low.resolve_left (List.cons_ne_nil c s)) c
    obtain ⟨b₂, rest, holds₂⟩ := ih holds₁ (.inr low₁)
    refine ⟨b₂, ?_, holds₂⟩
    rw [MmapStreamBuf.xsputn, put]
    exact rest

end Holds

/-! ### Seeks -/

namespace MmapStreamBuf

variable (ps : PageSize) (b : MmapStreamBuf)

def seekOffset (p : Int) : Int := if b.fLength < p then b.offsetAt ps b.position else b.fMapOffset

/-- The put pointer is not further from the window than an `int` reaches. -/
def Reaches (p : Int) : Prop := toInt (p - b.seekOffset ps p) = p - b.seekOffset ps p

instance (p : Int) : Decidable (b.Reaches ps p) := inferInstanceAs (Decidable (_ = _))

end MmapStreamBuf

namespace Holds

variable {ps : PageSize} {b : MmapStreamBuf} {f : PlainFile}

theorem seated (window : b.Window ps) (bytes : b.file.bytes = f.file.bytes) (known : b.fFileLength = f.file.length)
    (front : b.fMapOffset ≤ b.fFileLength) (reached : b.fFileLength ≤ b.fLength) {p : Nat} (inside : p ≤ b.fLength)
    (low : b.fMapOffset ≤ p ∨ p = 0) (near : b.pptr = p - b.fMapOffset) : Holds ps b (f.seek p) where
  toWindow := window
  pos := by
    show b.pptr + b.fMapOffset = p
    omega
  window := by
    show 0 ≤ b.pptr ∨ p = 0
    omega
  inside := inside
  bytes := bytes
  front := front
  reached := reached
  extent := by
    show max b.fFileLength (p : Int) = ((max f.file.length p : Nat) : Int)
    omega

theorem window_setp (window : b.Window ps) (n : Int) : (b.setp.pbump n).Window ps :=
  { window with pbase := rfl, epptr := rfl }

theorem pptr_setp {n : Int} (near : toInt n = n) : (b.setp.pbump n).pptr = n := by
  rw [MmapStreamBuf.pbump, near]
  exact Int.zero_add n

theorem seekpos_far (holds : Holds ps b f) {p : Nat} (more : b.fLength < p)
    (near : toInt (p - b.offsetAt ps f.pos) = p - b.offsetAt ps f.pos) :
    ∃ b', b.seekpos ps p = .ok b' ∧ Holds ps b' (f.seek p) := by
  have down := ps.roundDown_bounds (Int.natCast_nonneg f.pos)
  obtain ⟨adjusted, known, length, offset⟩ := holds.adjust
  have same : b.adjustFileLength.offsetAt ps f.pos = b.offsetAt ps f.pos := by
    rw [MmapStreamBuf.offsetAt, offset]
    rfl
  rw [MmapStreamBuf.seekpos]
  generalize b.adjustFileLength = b₀ at adjusted known length offset same ⊢
  have pos := adjusted.pos
  have inside := adjusted.inside
  have below := adjusted.below
  have front := adjusted.front
  have reached := adjusted.reached
  have extent := adjusted.extent
  rw [← length] at more
  rw [← same] at near
  obtain ⟨b₁, reserved, window, bytes, long, offset₁, known₁, -⟩ := adjusted.toAreas.reserve adjusted.length adjusted.epptr
    (by omega) (.inl adjusted.mapped) (by omega) below.le more
  rw [pos] at offset₁ known₁
  have before : b₁.fMapOffset ≤ b₁.fFileLength ∧ b₁.fMapOffset ≤ b₀.fLength := by
    rw [offset₁, known₁, MmapStreamBuf.offsetAt]
    split <;> omega
  rw [← offset₁] at near
  simp only [more, if_true, bind, Except.bind, reserved]
  refine ⟨_, if_neg ?_, seated (window_setp window _) (bytes.trans adjusted.bytes) ?_ before.1 ?_ long (.inl ?_)
    (pptr_setp near)⟩
  · show ¬ (0 < b₁.fMapOffset ∧ (p : Int) - b₁.fMapOffset < 0)
    omega
  · show b₁.fFileLength = f.file.length
    omega
  · show b₁.fFileLength ≤ b₁.fLength
    omega
  · show b₁.fMapOffset ≤ p
    omega

theorem seekpos_window (holds : Holds ps b f) {p : Nat} (inside : p ≤ b.fLength) (low : b.fMapOffset ≤ p)
    (near : toInt (p - b.fMapOffset) = p - b.fMapOffset) : ∃ b', b.seekpos ps p = .ok b' ∧ Holds ps b' (f.seek p) := by
  obtain ⟨adjusted, known, length, offset⟩ := holds.adjust
  rw [MmapStreamBuf.seekpos]
  generalize b.adjustFileLength = b₀ at adjusted known length offset ⊢
  rw [← offset] at near low
  rw [← length] at inside
  have there : ¬ b₀.fLength < (p : Int) := not_lt.mpr inside
  simp only [there, if_false, bind, Except.bind]
  refine ⟨_, if_neg ?_, seated (window_setp adjusted.toWindow _) adjusted.bytes known adjusted.front adjusted.reached inside
    (.inl low) (pptr_setp near)⟩
  show ¬ (0 < b₀.fMapOffset ∧ (p : Int) - b₀.fMapOffset < 0)
  omega

theorem seekpos_back (holds : Holds ps b f) {p : Nat} (back : p < b.fMapOffset)
    (near : toInt (p - b.fMapOffset) = p - b.fMapOffset) : ∃ b', b.seekpos ps p = .ok b' ∧ Holds ps b' (f.seek p) := by
  have down := ps.roundDown_bounds (Int.natCast_nonneg p)
  have size := ps.int
  obtain ⟨adjusted, known, length, offset⟩ := holds.adjust
  rw [MmapStreamBuf.seekpos]
  generalize b.adjustFileLength = b₀ at adjusted known length offset ⊢
  have long := adjusted.length
  have below := adjusted.below
  have front := adjusted.front
  have reached := adjusted.reached
  rw [← offset] at near back
  have there : (b₀.setp.pbump (p - b₀.fMapOffset)).pptr + (b₀.setp.pbump (p - b₀.fMapOffset)).fMapOffset = p := by
    rw [pptr_setp near]
    exact Int.sub_add_cancel p b₀.fMapOffset
  obtain ⟨b₁, mapped, window, file, offset₁, known₁, pptr⟩ := (window_setp adjusted.toWindow _).toAreas.xinit
    (there.ge.trans' (Int.natCast_nonneg p)) (.inl adjusted.mapped)
    (there.le.trans_lt (by show (p : Int) < b₀.file.length; omega))
    (by show b₀.fMapOffset < b₀.file.length; omega)
  rw [there] at offset₁ known₁ pptr
  have kept : b₁.fFileLength = f.file.length := by
    rw [known₁]
    show max b₀.fFileLength (p : Int) = f.file.length
    omega
  have same : b₁.fLength = b₀.fLength := by
    rw [window.length, file]
    exact long.symm
  have moved : b₁.fMapOffset = b₀.offsetAt ps p := offset₁
  have placed : b₁.pptr = p - b₁.fMapOffset ∧ (b₁.fMapOffset ≤ p ∨ p = 0) ∧ b₁.fMapOffset ≤ b₁.fFileLength := by
    rw [pptr, moved, MmapStreamBuf.offsetAt]
    split
    · exact ⟨toInt_of_lt (by omega) (by omega), .inl (by omega), by omega⟩
    · exact ⟨near, .inr (by omega), by omega⟩
  have inside : ¬ b₀.fLength < (p : Int) := by omega
  simp only [inside, if_false, bind, Except.bind]
  refine ⟨b₁, (if_pos ?_).trans mapped, seated window ?_ kept placed.2.2 (by omega) (by omega) placed.2.1 placed.1⟩
  · show 0 < b₀.fMapOffset ∧ (p : Int) - b₀.fMapOffset < 0
    omega
  · rw [file]
    exact adjusted.bytes

theorem seekpos (holds : Holds ps b f) {p : Nat} (reaches : b.Reaches ps p) :
    ∃ b', b.seekpos ps p = .ok b' ∧ Holds ps b' (f.seek p) := by
  rw [MmapStreamBuf.Reaches, MmapStreamBuf.seekOffset, holds.position] at reaches
  by_cases more : b.fLength < p
  · rw [if_pos more] at reaches
    exact holds.seekpos_far more reaches
  · rw [if_neg more] at reaches
    by_cases back : p < b.fMapOffset
    · exact holds.seekpos_back back reaches
    · exact holds.seekpos_window (by omega) (by omega) reaches

theorem target (holds : Holds ps b f) (off : Int) {dir : Direction} (adjusted : dir = .finish → b.position ≤ b.fFileLength) :
    b.target off dir = f.target off dir := by
  have pos := holds.pos
  have extent := holds.extent
  have known := holds.known
  rw [holds.position] at adjusted
  cases dir with
  | beg => rfl
  | cur =>
    show off + (b.pptr + b.fMapOffset) = off + f.pos
    rw [pos]
  | finish =>
    have behind := adjusted rfl
    show (if 0 < b.fFileLength then off + b.fFileLength else off) = off + f.file.length
    split <;> omega

theorem close (holds : Holds ps b f) : b.close = .ok f.file := by
  obtain ⟨b', synced, holds', known⟩ := holds.sync
  have length := holds'.length
  simp only [MmapStreamBuf.close, synced, bind, Except.bind, pure, Except.pure, known]
  congr 1
  by_cases longer : (f.file.length : Int) = b'.fLength
  · rw [if_neg (not_not.mpr longer)]
    exact File.ext holds'.bytes (by omega)
  · rw [if_pos longer, Int.toNat_natCast]
    refine File.ext (funext fun i => ?_) rfl
    show (if i < f.file.length then b'.file.bytes i else 0) = f.file.bytes i
    split
    · rw [holds'.bytes]
    · rename_i high
      exact (f.file.zero i (not_lt.mp high)).symm

end Holds

/-! ### Runs -/

theorem openOut_holds (ps : PageSize) : ∃ b, MmapStreamBuf.openOut ps = .ok b ∧ Holds ps b .created := by
  have start : MmapStreamBuf.xinit ps ⟨.empty, false, 0, 0, 0, 0, 0, 0, 0, 0, 0⟩ =
    .ok ⟨.empty, false, 0, 0, 0, 0, 0, 0, 0, 0, 0⟩ := rfl
  have areas : MmapStreamBuf.Areas ps ⟨.empty, false, 0, 0, 0, 0, 0, 0, 0, 0, 0⟩ :=
    ⟨le_refl 0, Int.zero_emod _, rfl, rfl, rfl, le_refl 0⟩
  obtain ⟨b, reserved, window, bytes, length, offset, known, pptr⟩ :=
    areas.reserve rfl rfl (le_refl 0) (.inr rfl) (le_refl 0) (le_refl 0) (show (0 : Int) < 16 by decide)
  have bottom : b.fMapOffset = 0 := offset
  have unknown : b.fFileLength = 0 := known
  have first : b.pptr = 0 := by
    rw [pptr, bottom]
    rfl
  refine ⟨b, ?_, ?_⟩
  · rw [MmapStreamBuf.openOut, start]
    exact reserved
  · exact {
      window with
      pos := by
        rw [first, bottom]
        rfl
      window := .inr rfl
      inside := by
        show (0 : Int) ≤ b.fLength
        omega
      bytes := bytes
      front := by omega
      reached := by omega
      extent := by
        rw [unknown]
        rfl }

/-- A byte is written where the window is; a seek to the end is made when the length is adjusted; and a seek does not
go further from the window than an `int` reaches. No seek goes in front of the file. -/
def Allowed (ps : PageSize) (op : FileOp) (b : MmapStreamBuf) : Prop :=
  match op with
  | .put _ => 0 ≤ b.pptr
  | .write s => s = [] ∨ 0 ≤ b.pptr
  | .flush => True
  | .seekp p => b.Reaches ps p
  | .seekoff off dir => 0 ≤ b.target off dir ∧ (dir = .finish → b.position ≤ b.fFileLength) ∧ b.Reaches ps (b.target off dir)

instance (ps : PageSize) (op : FileOp) (b : MmapStreamBuf) : Decidable (Allowed ps op b) :=
  match op with
  | .put _ => inferInstanceAs (Decidable (_ ≤ _))
  | .write _ => inferInstanceAs (Decidable (_ ∨ _))
  | .flush => inferInstanceAs (Decidable True)
  | .seekp _ => inferInstanceAs (Decidable (_ = _))
  | .seekoff _ _ => inferInstanceAs (Decidable (_ ∧ (_ → _) ∧ _))

theorem Holds.apply {ps : PageSize} {b : MmapStreamBuf} {f : PlainFile} (op : FileOp) (holds : Holds ps b f)
    (allowed : Allowed ps op b) : ∃ b', apply ps op b = .ok b' ∧ Holds ps b' (f.apply op) := by
  cases op with
  | put c =>
    obtain ⟨b', put, holds', -⟩ := holds.sputc allowed c
    exact ⟨b', put, holds'⟩
  | write s => exact holds.xsputn allowed
  | flush =>
    obtain ⟨b', synced, holds', -⟩ := holds.sync
    exact ⟨b', synced, holds'⟩
  | seekp p => exact holds.seekpos allowed
  | seekoff off dir =>
    obtain ⟨low, adjusted, reaches⟩ := allowed
    have asked := holds.target off adjusted
    have there : ((f.target off dir).toNat : Int) = b.target off dir := by omega
    rw [← there] at reaches
    obtain ⟨b', sought, holds'⟩ := holds.seekpos reaches
    refine ⟨b', ?_, holds'⟩
    show b.seekoff ps off dir = .ok b'
    rw [MmapStreamBuf.seekoff, if_neg (not_lt.mpr low), ← there]
    exact sought

def SessionMeets (ps : PageSize) (ops : List FileOp) : Prop :=
  ∀ b, MmapStreamBuf.openOut ps = .ok b → Runs.Meets (apply ps) (Allowed ps) ops b

/-- `SessionMeets` as it can be computed. -/
def sessionCheck (ps : PageSize) (ops : List FileOp) : Bool :=
  match MmapStreamBuf.openOut ps with
  | .ok b => Runs.check (apply ps) (fun op b => decide (Allowed ps op b)) ops b
  | .error _ => true

theorem sessionMeets_of_check {ps : PageSize} {ops : List FileOp} (checked : sessionCheck ps ops = true) :
    SessionMeets ps ops := by
  intro b opened
  rw [sessionCheck, opened] at checked
  exact Runs.meets_of_decide checked

def PageSize.common : PageSize := ⟨4096, by decide, by decide⟩

/-- A mapped file that is written is the plain file: no assertion fails, every byte is stored in the mapping, and what
is left has the bytes and the length of the plain file. -/
theorem session_isFile (ps : PageSize) (ops : List FileOp) (meets : SessionMeets ps ops) : session ps ops = .ok (plain ops) := by
  obtain ⟨b, opened, holds⟩ := openOut_holds ps
  obtain ⟨b', done, holds'⟩ :=
    Runs.run_simulates (fun op s t related allowed => Holds.apply op related allowed) ops holds (meets b opened)
  rw [session, opened]
  simp only [bind, Except.bind, done]
  exact holds'.close

theorem session_isFile_backAndForth :
    session .common [.write (ascii "abc"), .seekp 20000, .put 1, .put 2, .seekp 9000, .put 3,
      .seekoff (-5000) .cur, .write (ascii "de"), .seekp 4, .put 5, .flush, .seekoff 0 .finish, .put 6, .seekp 1, .seekp 0] =
    .ok (plain [.write (ascii "abc"), .seekp 20000, .put 1, .put 2, .seekp 9000, .put 3,
      .seekoff (-5000) .cur, .write (ascii "de"), .seekp 4, .put 5, .flush, .seekoff 0 .finish, .put 6, .seekp 1, .seekp 0]) :=
  session_isFile .common _ (sessionMeets_of_check (by decide +kernel))

/-- At position 0 the put pointer stays in front of a window that is elsewhere. The end is that of the file as it was when
its length was adjusted last. A put pointer that is an `int` too far away is somewhere else. -/
theorem session_losesPosition :
    (session .common [.seekp 4096, .put 120, .seekp 0, .put 121]).map File.length = .error .range ∧
    (session .common [.write (ascii "abc"), .seekoff 0 .finish, .put 100]).map (fun f => (f.length, f.bytes 0)) = .ok (3, 100) ∧
    ((plain [.write (ascii "abc"), .seekoff 0 .finish, .put 100]).length,
      (plain [.write (ascii "abc"), .seekoff 0 .finish, .put 100]).bytes 0) = (4, 97) ∧
    (session .common [.seekp (2 ^ 31), .put 120]).map File.length = .error .range := by
  decide +kernel

end Coast.MmapStream
