import Coast.Anything.DeepClone

/-!
# Chunked output

`HTTPChunkedStreamBuf` collects what is written and sends it to the wrapped stream in chunks, when its buffer
is full, when it is flushed, and when it is closed. The decoder is that of a receiver.
-/

namespace Coast.Http

open Anything (hexValue hexValue_toDigits)

def endl : Bytes := [13, 10]

/-- A number greater than 0, after `std::hex`. -/
def hexText (n : Nat) : Bytes := (Nat.toDigits 16 n).map fun c => UInt8.ofNat c.toNat

/-- `put` is what lies between `pbase()` and `pptr()`, with `epptr()` behind `fBufSize` characters. `sent` is the text of
the wrapped stream, and `fOs` whether the pointer to it is still there. -/
structure HTTPChunkedStreamBuf where
  fBufSize : Nat
  put : Bytes
  sent : Bytes
  fOs : Bool
  deriving DecidableEq, Repr

namespace HTTPChunkedStreamBuf

def new (chunklength : Nat) : HTTPChunkedStreamBuf := ⟨chunklength, [], [], true⟩

def chunk (text : Bytes) : Bytes := hexText text.length ++ endl ++ text ++ endl

def sync (b : HTTPChunkedStreamBuf) : HTTPChunkedStreamBuf :=
  if b.fOs then if 0 < b.put.length then { b with sent := b.sent ++ chunk b.put, put := [] } else b else b

/-- `none` is `EOF`. It always returns 0. -/
def overflow (c : Option UInt8) (b : HTTPChunkedStreamBuf) : HTTPChunkedStreamBuf :=
  match c with
  | some c => if b.sync.put.length < b.fBufSize then { b.sync with put := b.sync.put ++ [c] } else b.sync
  | none => b.sync

def sputc (c : UInt8) (b : HTTPChunkedStreamBuf) : HTTPChunkedStreamBuf :=
  if b.put.length < b.fBufSize then { b with put := b.put ++ [c] } else b.overflow (some c)

def room (s : Bytes) (b : HTTPChunkedStreamBuf) : Nat := min (b.fBufSize - b.put.length) s.length

/-- `std::streambuf::xsputn`: as much as there is room for, then one character by way of `overflow`. -/
def xsputn (s : Bytes) (b : HTTPChunkedStreamBuf) : HTTPChunkedStreamBuf :=
  if more : b.room s < s.length then
    xsputn (s.drop (b.room s + 1)) ({ b with put := b.put ++ s.take (b.room s) }.overflow (some s[b.room s]))
  else { b with put := b.put ++ s }
termination_by s.length
decreasing_by
  rw [List.length_drop]
  omega

def close (b : HTTPChunkedStreamBuf) : HTTPChunkedStreamBuf :=
  if b.fOs then { b.sync with sent := b.sync.sent ++ ascii "0" ++ endl ++ endl, fOs := false } else b

end HTTPChunkedStreamBuf

inductive ChunkedWrite where
  | put (c : UInt8)
  | write (s : Bytes)
  | flush
  deriving DecidableEq, Repr

namespace ChunkedWrite

def written : ChunkedWrite → Bytes
  | put c => [c]
  | write s => s
  | flush => []

def apply (b : HTTPChunkedStreamBuf) : ChunkedWrite → HTTPChunkedStreamBuf
  | put c => b.sputc c
  | write s => b.xsputn s
  | flush => b.sync

end ChunkedWrite

/-! ### Decoding -/

def expect (wanted text : Bytes) : Option Bytes := if wanted.isPrefixOf text then some (text.drop wanted.length) else none

/-- The chunks of a body: each one a size that is not 0, the end of the line, that many bytes and the end of the line,
and behind them a size of 0 and the ends of two lines, with nothing after. -/
def decodeChunks : Nat → Bytes → Option (List Bytes)
  | 0, _ => none
  | fuel + 1, text =>
    let size := text.takeWhile isxdigit
    if size = [] then none
    else
      match expect endl (text.dropWhile isxdigit) with
      | none => none
      | some rest =>
        if hexValue size = 0 then if rest = endl then some [] else none
        else if rest.length < hexValue size then none
        else
          match expect endl (rest.drop (hexValue size)) with
          | none => none
          | some more => (decodeChunks fuel more).map fun chunks => rest.take (hexValue size) :: chunks

def decodeChunked (text : Bytes) : Option (List Bytes) := decodeChunks text.length text

theorem expect_append (wanted text : Bytes) : expect wanted (wanted ++ text) = some text := by
  rw [expect, if_pos (List.isPrefixOf_iff_prefix.mpr (List.prefix_append wanted text)), List.drop_left]

theorem isxdigit_hexText (n : Nat) : ∀ c ∈ hexText n, isxdigit c = true := by
  have digit : ∀ d < 16, isxdigit (UInt8.ofNat (Nat.digitChar d).toNat) = true := by decide
  induction n using Nat.strongRecOn with
  | _ n ih =>
    intro c mem
    by_cases small : n < 16
    · rw [hexText, Nat.toDigits_of_lt_base small, List.map_singleton, List.mem_singleton] at mem
      exact mem ▸ digit n small
    · rw [hexText, Nat.toDigits_of_base_le (by decide) (by omega), List.map_append, List.mem_append] at mem
      rcases mem with front | last
      · exact ih (n / 16) (by omega) c front
      · rw [List.map_singleton, List.mem_singleton] at last
        exact last ▸ digit (n % 16) (Nat.mod_lt n (by decide))

theorem hexText_ne_nil (n : Nat) : hexText n ≠ [] := by
  intro none
  have empty := List.map_eq_nil_iff.mp none
  exact absurd empty Nat.toDigits_ne_nil

theorem size_read (n : Nat) (rest : Bytes) : (hexText n ++ (endl ++ rest)).takeWhile isxdigit = hexText n ∧
    (hexText n ++ (endl ++ rest)).dropWhile isxdigit = endl ++ rest := by
  have stop : ¬ isxdigit 13 = true := by decide
  have line : endl ++ rest = 13 :: 10 :: rest := rfl
  rw [List.takeWhile_append_of_pos (isxdigit_hexText n), List.dropWhile_append_of_pos (isxdigit_hexText n), line,
    List.takeWhile_cons_of_neg stop, List.dropWhile_cons_of_neg stop, List.append_nil]
  exact ⟨rfl, rfl⟩

def lastChunk : Bytes := ascii "0" ++ endl ++ endl

theorem decodeChunks_chunks {chunks : List Bytes} (full : ∀ text ∈ chunks, text ≠ []) {fuel : Nat} (enough : chunks.length < fuel) :
    decodeChunks fuel (chunks.flatMap HTTPChunkedStreamBuf.chunk ++ lastChunk) = some chunks := by
  induction chunks generalizing fuel with
  | nil =>
    cases fuel with
    | zero => omega
    | succ fuel => rfl
  | cons text chunks ih =>
    cases fuel with
    | zero => omega
    | succ fuel =>
      have shape : (text :: chunks).flatMap HTTPChunkedStreamBuf.chunk ++ lastChunk =
          hexText text.length ++ (endl ++ (text ++ (endl ++ (chunks.flatMap HTTPChunkedStreamBuf.chunk ++ lastChunk)))) := by
        simp [HTTPChunkedStreamBuf.chunk]
      have value : hexValue (hexText text.length) = text.length := hexValue_toDigits text.length
      have size : text.length ≠ 0 := fun empty => full text List.mem_cons_self (List.length_eq_zero_iff.mp empty)
      obtain ⟨digits, rest⟩ := size_read text.length (text ++ (endl ++ (chunks.flatMap HTTPChunkedStreamBuf.chunk ++ lastChunk)))
      rw [List.length_cons] at enough
      rw [shape, decodeChunks]
      rw [digits, rest, if_neg (hexText_ne_nil _), expect_append]
      dsimp only
      rw [value, if_neg size, if_neg (by simp), List.drop_left, List.take_left, expect_append]
      dsimp only
      rw [ih (fun other mem => full other (List.mem_cons_of_mem _ mem)) (by omega)]
      rfl

theorem length_le_sent (chunks : List Bytes) : chunks.length < (chunks.flatMap HTTPChunkedStreamBuf.chunk ++ lastChunk).length := by
  induction chunks with
  | nil => decide
  | cons text chunks ih =>
    have some : 0 < (HTTPChunkedStreamBuf.chunk text).length := by simp [HTTPChunkedStreamBuf.chunk, endl]
    rw [List.flatMap_cons, List.append_assoc, List.length_append, List.length_cons]
    omega

theorem decodeChunked_chunks {chunks : List Bytes} (full : ∀ text ∈ chunks, text ≠ []) :
    decodeChunked (chunks.flatMap HTTPChunkedStreamBuf.chunk ++ lastChunk) = some chunks :=
  decodeChunks_chunks full (length_le_sent chunks)

/-! ### The stream before and after it is closed -/

namespace HTTPChunkedStreamBuf

structure Sends (chunklength : Nat) (b : HTTPChunkedStreamBuf) (chunks : List Bytes) (text : Bytes) : Prop where
  fOs : b.fOs = true
  fBufSize : b.fBufSize = chunklength
  put : b.put.length ≤ chunklength
  sent : b.sent = chunks.flatMap chunk
  sizes : ∀ c ∈ chunks, c ≠ [] ∧ c.length ≤ chunklength
  text : chunks.flatten ++ b.put = text

variable {chunklength : Nat} {b : HTTPChunkedStreamBuf} {chunks : List Bytes} {text : Bytes}

theorem new_sends (chunklength : Nat) : Sends chunklength (new chunklength) [] [] := ⟨rfl, rfl, Nat.zero_le _, rfl, by simp, rfl⟩

theorem sync_sends (sends : Sends chunklength b chunks text) : ∃ chunks', Sends chunklength b.sync chunks' text ∧ b.sync.put = [] := by
  rw [sync, if_pos sends.fOs]
  by_cases full : 0 < b.put.length
  · rw [if_pos full]
    refine ⟨chunks ++ [b.put], ⟨sends.fOs, sends.fBufSize, Nat.zero_le _, ?_, ?_, ?_⟩, rfl⟩
    · rw [List.flatMap_append, ← sends.sent]
      simp
    · intro c mem
      rcases List.mem_append.mp mem with old | last
      · exact sends.sizes c old
      · rw [List.mem_singleton] at last
        exact last ▸ ⟨List.length_pos_iff.mp full, sends.put⟩
    · rw [List.flatten_append, List.append_nil, ← sends.text]
      simp
  · rw [if_neg full]
    exact ⟨chunks, sends, List.length_eq_zero_iff.mp (by omega)⟩

theorem add_sends (sends : Sends chunklength b chunks text) {s : Bytes} (room : b.put.length + s.length ≤ chunklength) :
    Sends chunklength { b with put := b.put ++ s } chunks (text ++ s) := by
  refine ⟨sends.fOs, sends.fBufSize, ?_, sends.sent, sends.sizes, ?_⟩
  · rw [List.length_append]
    exact room
  · rw [← List.append_assoc, sends.text]

theorem overflow_sends (positive : 0 < chunklength) (sends : Sends chunklength b chunks text) (c : UInt8) :
    ∃ chunks', Sends chunklength (b.overflow (some c)) chunks' (text ++ [c]) := by
  obtain ⟨chunks', flushed, empty⟩ := sync_sends sends
  have size : b.fBufSize = chunklength := sends.fBufSize
  rw [overflow]
  dsimp only
  rw [if_pos (by rw [empty, size]; exact positive)]
  exact ⟨chunks', add_sends flushed (by rw [empty]; exact positive)⟩

theorem sputc_sends (positive : 0 < chunklength) (sends : Sends chunklength b chunks text) (c : UInt8) :
    ∃ chunks', Sends chunklength (b.sputc c) chunks' (text ++ [c]) := by
  rw [sputc]
  split
  · next more =>
    rw [sends.fBufSize] at more
    exact ⟨chunks, @add_sends chunklength b chunks text sends [c] more⟩
  · exact overflow_sends positive sends c

theorem xsputn_sends (positive : 0 < chunklength) (s : Bytes) (sends : Sends chunklength b chunks text) :
    ∃ chunks', Sends chunklength (b.xsputn s) chunks' (text ++ s) := by
  induction s, b using xsputn.induct generalizing chunks text with
  | case1 s b more ih =>
    have size := sends.fBufSize
    have fits : b.put.length + (s.take (b.room s)).length ≤ chunklength := by
      have before := sends.put
      rw [List.length_take, room]
      omega
    obtain ⟨chunks', longer⟩ := overflow_sends positive (add_sends sends fits) s[b.room s]
    have split : text ++ s = text ++ s.take (b.room s) ++ [s[b.room s]] ++ s.drop (b.room s + 1) := by
      rw [List.append_assoc, List.append_assoc, List.singleton_append, ← List.drop_eq_getElem_cons more, List.take_append_drop]
    rw [xsputn, dif_pos more, split]
    exact ih longer
  | case2 s b all =>
    have fits : b.put.length + s.length ≤ chunklength := by
      have before := sends.put
      have size := sends.fBufSize
      rw [room] at all
      omega
    rw [xsputn, dif_neg all]
    exact ⟨chunks, add_sends sends fits⟩

theorem apply_sends (positive : 0 < chunklength) (sends : Sends chunklength b chunks text) (w : ChunkedWrite) :
    ∃ chunks', Sends chunklength (w.apply b) chunks' (text ++ w.written) := by
  cases w with
  | put c => exact sputc_sends positive sends c
  | write s => exact xsputn_sends positive s sends
  | flush =>
    obtain ⟨chunks', flushed, -⟩ := sync_sends sends
    exact ⟨chunks', by rw [ChunkedWrite.written, List.append_nil]; exact flushed⟩

theorem writes_send (positive : 0 < chunklength) (sends : Sends chunklength b chunks text) (writes : List ChunkedWrite) :
    ∃ chunks', Sends chunklength (writes.foldl ChunkedWrite.apply b) chunks' (text ++ writes.flatMap ChunkedWrite.written) := by
  induction writes generalizing b chunks text with
  | nil => exact ⟨chunks, by rw [List.flatMap_nil, List.append_nil]; exact sends⟩
  | cons w writes ih =>
    obtain ⟨next, one⟩ := apply_sends positive sends w
    obtain ⟨chunks', rest⟩ := ih one
    exact ⟨chunks', by rw [List.flatMap_cons, ← List.append_assoc]; exact rest⟩

theorem close_sent (sends : Sends chunklength b chunks text) :
    ∃ chunks' : List Bytes, b.close.sent = chunks'.flatMap chunk ++ lastChunk ∧ (∀ c ∈ chunks', c ≠ [] ∧ c.length ≤ chunklength) ∧
      chunks'.flatten = text ∧ b.close.fOs = false := by
  obtain ⟨chunks', flushed, empty⟩ := sync_sends sends
  have all := flushed.text
  rw [empty, List.append_nil] at all
  rw [close, if_pos sends.fOs]
  refine ⟨chunks', ?_, flushed.sizes, all, rfl⟩
  rw [flushed.sent, lastChunk, List.append_assoc, List.append_assoc, List.append_assoc]

theorem close_again (closed : b.fOs = false) (closes : Nat) : close^[closes] b = b := by
  have same : b.close = b := by
    rw [close, if_neg (by simp [closed])]
  exact Function.iterate_fixed same closes

/-- What has been sent when the stream is closed, once or more often, decodes to chunks of the text, none of them empty
and none longer than the buffer. -/
theorem close_decodes (positive : 0 < chunklength) (writes : List ChunkedWrite) (closes : Nat) :
    ∃ chunks : List Bytes, decodeChunked (close^[closes + 1] (writes.foldl ChunkedWrite.apply (new chunklength))).sent = some chunks ∧
      (∀ c ∈ chunks, c ≠ [] ∧ c.length ≤ chunklength) ∧ chunks.flatten = writes.flatMap ChunkedWrite.written := by
  obtain ⟨before, sends⟩ := writes_send positive (new_sends chunklength) writes
  obtain ⟨chunks, sent, sizes, text, closed⟩ := close_sent sends
  rw [Function.iterate_succ_apply, close_again closed, sent]
  exact ⟨chunks, decodeChunked_chunks fun c mem => (sizes c mem).1, sizes, text⟩

theorem close_decodes_three :
    let writes : List ChunkedWrite := [.write (ascii "abcde"), .flush, .put 102]
    ∃ chunks : List Bytes, decodeChunked (close^[1 + 1] (writes.foldl ChunkedWrite.apply (new 3))).sent = some chunks ∧
      (∀ c ∈ chunks, c ≠ [] ∧ c.length ≤ 3) ∧ chunks.flatten = writes.flatMap ChunkedWrite.written :=
  close_decodes (by decide) _ 1

end HTTPChunkedStreamBuf

end Coast.Http
