import Coast.Base.StringStreamBuf

/-!
# Writing to a file by way of a mapping

`MmapStreamBuf` writes to a file that it has mapped, in the mode `out`. Only the window from `fMapOffset` to the end of
the file is mapped. The window moves when the file grows and when a seek goes behind it. While the file is open it is
as long as its pages, and it is cut when it is closed.
-/

namespace Coast.MmapStream

open ITOString (toInt Direction)

@[ext]
structure File where
  bytes : Nat → UInt8
  length : Nat
  zero : ∀ i, length ≤ i → bytes i = 0

namespace File

def empty : File := ⟨fun _ => 0, 0, fun _ _ => rfl⟩

def write (f : File) (i : Nat) (c : UInt8) : File where
  bytes j := if j = i then c else f.bytes j
  length := max f.length (i + 1)
  zero j high := by
    rw [if_neg (by omega)]
    exact f.zero j (by omega)

def extend (f : File) (n : Nat) : File where
  bytes := f.bytes
  length := max f.length n
  zero j high := f.zero j (by omega)

def ftruncate (f : File) (n : Nat) : File where
  bytes j := if j < n then f.bytes j else 0
  length := n
  zero _ high := if_neg (by omega)

end File

/-- `getpagesize()`. -/
structure PageSize where
  size : Int
  pos : 0 < size
  int : size < 2 ^ 31

def roundtopagesize (ps : PageSize) (pos : Int) (up : Bool) : Int :=
  if up then ((pos - 1).tdiv ps.size + 1) * ps.size else pos.tdiv ps.size * ps.size

inductive MmapFault where
  /-- An `Assert` that does not hold. -/
  | assertion
  | range
  | refused
  | eof
  deriving DecidableEq, Repr

def assert (holds : Prop) [Decidable holds] : Except MmapFault Unit := if holds then .ok () else .error .assertion

def syscall (accepted : Prop) [Decidable accepted] : Except MmapFault Unit := if accepted then .ok () else .error .refused

/-- The pointers are offsets from `fAddr`, which is 0 while nothing is mapped. A mapping is a view of the file, and it is
always the same file. -/
structure MmapStreamBuf where
  file : File
  mapped : Bool
  fLength : Int
  fMapOffset : Int
  fFileLength : Int
  pbase : Int
  pptr : Int
  epptr : Int
  eback : Int
  gptr : Int
  egptr : Int

namespace MmapStreamBuf

variable (ps : PageSize) (b : MmapStreamBuf)

/-- `pptr() - pbase() + fMapOffset`. -/
def position : Int := b.pptr - b.pbase + b.fMapOffset

/-- `pbase() != 0`. -/
def HasPbase : Prop := b.mapped = true ∨ b.pbase ≠ 0

instance : Decidable b.HasPbase := inferInstanceAs (Decidable (_ ∨ _))

def adjustFileLength : MmapStreamBuf :=
  if b.HasPbase ∧ b.fFileLength < b.position then { b with fFileLength := b.position } else b

def setp : MmapStreamBuf := { b with pbase := 0, pptr := 0, epptr := b.fLength - b.fMapOffset }

/-- The parameter is an `int`. -/
def pbump (n : Int) : MmapStreamBuf := { b with pptr := b.pptr + toInt n }

def Remembers : Prop := b.mapped = true ∧ (b.pbase < b.pptr ∨ 0 < b.fMapOffset)

instance : Decidable b.Remembers := inferInstanceAs (Decidable (_ ∧ _))

def putoffset : Int := if b.Remembers then b.position else 0

def getoffset : Int := if b.mapped ∧ b.eback < b.gptr then b.gptr - b.eback else 0

def xinit : Except MmapFault MmapStreamBuf := do
  assert (b.mapped → b.pbase = 0)
  assert (b.mapped → b.eback = 0)
  let fFileLength := if b.Remembers ∧ b.fFileLength < b.putoffset then b.putoffset else b.fFileLength
  let fLength : Int := b.file.length
  let fMapOffset := if 0 < fLength ∧ 0 < b.putoffset then roundtopagesize ps b.putoffset false else b.fMapOffset
  syscall (0 < fLength → 0 < fLength - fMapOffset ∧ 0 ≤ fMapOffset ∧ fMapOffset % ps.size = 0)
  let areas : MmapStreamBuf :=
    { b with
      mapped := decide (0 < fLength)
      fLength, fMapOffset, fFileLength
      eback := 0
      gptr := b.getoffset
      egptr := fFileLength - fMapOffset }
  return areas.setp.pbump (b.putoffset - fMapOffset)

def reserve (newlength : Int) : Except MmapFault MmapStreamBuf :=
  if b.fLength < newlength then do
    assert (b.epptr - b.pbase = b.fLength - b.fMapOffset)
    xinit ps { b with file := b.file.write (roundtopagesize ps newlength true - 1).toNat 0 }
  else .ok b

def store (c : UInt8) : Except MmapFault MmapStreamBuf :=
  if b.mapped ∧ 0 ≤ b.pptr ∧ b.pptr < b.fLength - b.fMapOffset then
    .ok { b with file := b.file.write (b.fMapOffset + b.pptr).toNat c, pptr := b.pptr + 1 }
  else .error .range

def overflow (c : UInt8) : Except MmapFault MmapStreamBuf := do
  assert (if b.HasPbase then b.pbase ≤ b.pptr else b.pbase = b.pptr)
  let b ← b.reserve ps (b.position + 1)
  assert (b.pptr < b.epptr)
  b.store c

def sputc (c : UInt8) : Except MmapFault MmapStreamBuf := if b.pptr < b.epptr then b.store c else b.overflow ps c

/-- `std::streambuf::xsputn`: as if by repeated calls to `sputc`. -/
def xsputn : Bytes → MmapStreamBuf → Except MmapFault MmapStreamBuf
  | [], b => .ok b
  | c :: s, b => do
    let b ← b.sputc ps c
    xsputn s b

def sync : Except MmapFault MmapStreamBuf := do
  let b := b.adjustFileLength
  syscall (0 ≤ b.fFileLength - b.fMapOffset ∧ b.fFileLength ≤ b.fLength)
  return b

def seekpos (p : Int) : Except MmapFault MmapStreamBuf := do
  let b := b.adjustFileLength
  let b ← if b.fLength < p then b.reserve ps p else .ok b
  let b := b.setp.pbump (p - b.fMapOffset)
  if 0 < b.fMapOffset ∧ p - b.fMapOffset < 0 then b.xinit ps else return b

/-- The position that `seekoff` asks for. -/
def target (off : Int) : Direction → Int
  | .beg => off
  | .cur => off + (b.pptr + b.fMapOffset)
  | .finish => if 0 < b.fFileLength then off + b.fFileLength else off

def seekoff (off : Int) (dir : Direction) : Except MmapFault MmapStreamBuf :=
  if b.target off dir < 0 then .error .eof else b.seekpos ps (b.target off dir)

def openOut : Except MmapFault MmapStreamBuf := do
  let b ← xinit ps ⟨.empty, false, 0, 0, 0, 0, 0, 0, 0, 0, 0⟩
  if b.fFileLength = 0 then b.reserve ps 16 else return b

def close : Except MmapFault File := do
  let b ← b.sync
  return if b.fFileLength ≠ b.fLength then b.file.ftruncate b.fFileLength.toNat else b.file

end MmapStreamBuf

inductive FileOp where
  | put (c : UInt8)
  | write (s : Bytes)
  | flush
  | seekp (p : Nat)
  | seekoff (off : Int) (dir : Direction)
  deriving DecidableEq, Repr

def apply (ps : PageSize) (op : FileOp) (b : MmapStreamBuf) : Except MmapFault MmapStreamBuf :=
  match op with
  | .put c => b.sputc ps c
  | .write s => b.xsputn ps s
  | .flush => b.sync
  | .seekp p => b.seekpos ps p
  | .seekoff off dir => b.seekoff ps off dir

def session (ps : PageSize) (ops : List FileOp) : Except MmapFault File := do
  let b ← MmapStreamBuf.openOut ps
  let b ← Runs.run (apply ps) ops b
  b.close

/-! ### The plain file -/

structure PlainFile where
  file : File
  pos : Nat

namespace PlainFile

variable (f : PlainFile)

def created : PlainFile := ⟨.empty, 0⟩

def put (c : UInt8) : PlainFile := ⟨f.file.write f.pos c, f.pos + 1⟩

def write (s : Bytes) : PlainFile := s.foldl put f

def seek (p : Nat) : PlainFile := ⟨f.file.extend p, p⟩

def target (off : Int) : Direction → Int
  | .beg => off
  | .cur => off + f.pos
  | .finish => off + f.file.length

def apply (op : FileOp) : PlainFile :=
  match op with
  | .put c => f.put c
  | .write s => f.write s
  | .flush => f
  | .seekp p => f.seek p
  | .seekoff off dir => f.seek (f.target off dir).toNat

end PlainFile

def plain (ops : List FileOp) : File := (ops.foldl (fun f op => f.apply op) PlainFile.created).file

end Coast.MmapStream
