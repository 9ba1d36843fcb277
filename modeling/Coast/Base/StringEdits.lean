import Coast.Base.ITOString
import Mathlib.Data.List.TakeWhile

/-!
# Editing a string

What the operations do to the bytes of a string, whatever its buffer holds behind them. A zero is a byte
like any other, except for `PrependWith`, which makes one of its copies through a C string.
-/

namespace Coast.ITOString

def text (s : Str) : Bytes := (List.range (length s).toNat).map fun i : Nat => content s 0 i

@[simp] theorem length_text (s : Str) : (text s).length = (length s).toNat := by simp [text]

theorem getElem?_text {s : Str} {i : Nat} (inside : (i : Int) < length s) : (text s)[i]? = some (content s 0 i) := by
  have short : i < (length s).toNat := by omega
  simp [text, short]

theorem text_eq {s : Str} {bytes : Bytes} (size : length s = bytes.length)
    (same : ∀ i : Nat, (i : Int) < length s → bytes[i]? = some (content s 0 i)) : text s = bytes := by
  refine List.ext_getElem? fun i => ?_
  by_cases inside : (i : Int) < length s
  · rw [getElem?_text inside, same i inside]
  · rw [List.getElem?_eq_none (by rw [length_text]; omega), List.getElem?_eq_none (by omega)]

theorem text_none : text none = [] := rfl

/-! ### The bytes after Set -/

theorem content_some (b : StringImpl) (i : Int) : content (some b) 0 i = b.content i := by
  rw [content, Int.zero_add]

theorem memmove_inside {dest src : Memory} {start len i : Int} (low : start ≤ i) (high : i < start + len) :
    memmove dest start src len i = src (i - start) := if_pos ⟨low, high⟩

theorem memmove_outside {dest src : Memory} {start len i : Int} (out : i < start ∨ start + len ≤ i) :
    memmove dest start src len i = dest i := if_neg (by omega)

theorem terminate_other {b : StringImpl} {len i : Int} (other : i ≠ len) : (b.terminate len).content i = b.content i := by
  show memmove b.content len (fun _ => 0) 1 i = b.content i
  exact memmove_outside (by omega)

theorem expand_content {s : Str} {start newLength i : Int} {b : StringImpl} (has : b ∈ expand s start newLength)
    (low : 0 ≤ i) (before : i < start) (within : i < length s) : b.content i = content s 0 i := by
  cases s with
  | none =>
    have : i < 0 := within
    omega
  | some old =>
    rw [content_some]
    have : i < old.fLength := within
    unfold expand at has
    split at has
    · cases has
      have kept : i < 0 + if old.fLength < start then old.fLength else start := by split <;> omega
      dsimp only
      rw [memmove_inside low kept, Int.sub_zero]
    · cases has
      rfl

section Set

variable {s : Str} {start len : Int} (sound : Sound s)

include sound

theorem content_set_old {src : Option Chars} (fits : Fits s (from' start + count src len)) {i : Int} (low : 0 ≤ i)
    (before : i < from' start) (within : i < length s) : content (set s start src len) 0 i = content s 0 i := by
  have first := from'_nonneg start
  have more := count_nonneg src len
  have is : s.isSome = true := by
    cases s with
    | some b => rfl
    | none =>
      have : i < 0 := within
      omega
  obtain ⟨b, shape⟩ := Option.isSome_iff_exists.mp (set_isSome sound fits (.inl is))
  rw [shape, content_some]
  rw [set_eq, toLong_small (by omega) (sound.fits_lt fits), Option.map_eq_some_iff] at shape
  obtain ⟨old, there, rfl⟩ := shape
  have kept := expand_content there low before within
  cases src with
  | none => exact (terminate_other (by omega)).trans kept
  | some p =>
    refine (terminate_other (by omega)).trans ?_
    exact (memmove_outside (.inl before)).trans kept

theorem content_set_new {p : Chars} (fits : Fits s (from' start + count (some p) len)) {i : Int}
    (behind : from' start ≤ i) (within : i < from' start + count (some p) len) :
    content (set s start (some p) len) 0 i = p.at' (i - from' start) := by
  have first := from'_nonneg start
  obtain ⟨b, shape⟩ := Option.isSome_iff_exists.mp (set_isSome sound fits (.inr (by omega)))
  rw [shape, content_some]
  rw [set_eq, toLong_small (by omega) (sound.fits_lt fits), Option.map_eq_some_iff] at shape
  obtain ⟨old, there, rfl⟩ := shape
  refine (terminate_other (by omega)).trans ?_
  exact memmove_inside behind within

end Set

/-! ### Bytes in memory -/

def bytesAt (memory : Memory) (n : Int) : Bytes := (List.range n.toNat).map fun i : Nat => memory i

@[simp] theorem length_bytesAt (memory : Memory) (n : Int) : (bytesAt memory n).length = n.toNat := by simp [bytesAt]

theorem getElem?_bytesAt (memory : Memory) {n : Int} {i : Nat} (inside : (i : Int) < n) :
    (bytesAt memory n)[i]? = some (memory i) := by
  have short : i < n.toNat := by omega
  simp [bytesAt, short]

theorem text_eq_bytesAt (s : Str) : text s = bytesAt (content s 0) (length s) := rfl

theorem bytesAt_const (c : UInt8) (n : Int) : bytesAt (fun _ => c) n = List.replicate n.toNat c := by
  rw [bytesAt, List.map_const', List.length_range]

theorem bytesAt_buffer (bytes : Bytes) : bytesAt (buffer bytes).at' bytes.length = bytes := by
  refine List.ext_getElem (by simp) fun i _ inside => ?_
  simp [bytesAt, buffer, Chars.ofText, inside]

theorem content_content (s : Str) (offset i : Int) : content s offset i = content s 0 (offset + i) := by
  cases s <;> simp [content]

theorem bytesAt_content (s : Str) {offset n : Int} (low : 0 ≤ offset) (within : offset + n ≤ length s) :
    bytesAt (content s offset) n = ((text s).drop offset.toNat).take n.toNat := by
  refine List.ext_getElem? fun i => ?_
  by_cases inside : (i : Int) < n
  · have here : ((offset.toNat + i : Nat) : Int) = offset + i := by omega
    rw [getElem?_bytesAt _ inside, List.getElem?_take, if_pos (by omega), List.getElem?_drop, getElem?_text (by omega), here,
      content_content]
  · rw [List.getElem?_eq_none (by rw [length_bytesAt]; omega), List.getElem?_eq_none]
    simp only [List.length_take]
    omega

/-! ### Each operation -/

section Operations

variable {s : Str} (sound : Sound s)

theorem length_writeAt (s : Str) (pos : Int) (src : Memory) (n : Int) : length (writeAt s pos src n) = length s := by
  cases s <;> rfl

theorem content_writeAt (s : Str) {pos n i : Int} (src : Memory) (low : 0 ≤ pos) (within : i < length s) :
    content (writeAt s pos src n) 0 i = if pos ≤ i ∧ i < pos + n then src (i - pos) else content s 0 i := by
  cases s with
  | none =>
    have : i < 0 := within
    rw [if_neg (by omega)]
    rfl
  | some b =>
    have moved : content (writeAt (some b) pos src n) 0 i = memmove b.content pos src n i := content_some _ i
    rw [moved, content_some]
    rfl

include sound

theorem text_set {start len : Int} (p : Chars) (first : 0 ≤ start) (inside' : start ≤ length s) (more : 0 ≤ len)
    (fits : Fits s (start + len)) : text (set s start (some p) len) = (text s).take start.toNat ++ bytesAt p.at' len := by
  have begins := from'_of_nonneg first
  have counts : count (some p) len = len := count_of_nonneg more
  rw [← begins, ← counts] at fits
  have size := length_set sound fits rfl
  rw [begins, counts] at size
  refine text_eq ?_ fun i inside => ?_
  · simp only [List.length_append, List.length_take, length_text, length_bytesAt]
    omega
  · rw [List.getElem?_append, List.length_take, length_text]
    split
    · rw [List.getElem?_take, if_pos (by omega), getElem?_text (by omega),
        content_set_old sound fits (by omega) (by omega) (by omega)]
    · have here : ((i - min start.toNat (length s).toNat : Nat) : Int) = i - start := by omega
      rw [getElem?_bytesAt _ (by omega), content_set_new sound fits (by omega) (by omega), begins, here]

omit sound in
theorem length_cut {start : Int} (sound : Sound s) (first : 0 ≤ start) (inside' : start ≤ length s) :
    length (set s start none 0) = start := by
  cases s with
  | none =>
    have : start ≤ 0 := inside'
    rw [show start = 0 by omega]
    rfl
  | some old =>
    have fits : Fits (some old) (from' start + count none 0) := by
      rw [from'_of_nonneg first]
      exact sound.fits_of_le (by show start + 0 ≤ _; omega)
    obtain ⟨b, shape⟩ := Option.isSome_iff_exists.mp (set_isSome sound fits (.inl rfl))
    have spec := (set_spec sound fits shape).1
    rw [shape]
    rw [from'_of_nonneg first] at spec
    exact spec

theorem text_cut {start : Int} (first : 0 ≤ start) (inside' : start ≤ length s) :
    text (set s start none 0) = (text s).take start.toNat := by
  have begins := from'_of_nonneg first
  have fits : Fits s (from' start + count none 0) := by
    rw [begins]
    exact sound.fits_of_le (by show start + 0 ≤ _; omega)
  have size := length_cut sound first inside'
  refine text_eq ?_ fun i inside => ?_
  · simp only [List.length_take, length_text]
    omega
  · rw [List.getElem?_take, if_pos (by omega), getElem?_text (by omega),
      content_set_old sound fits (by omega) (by omega) (by omega)]

omit sound in
theorem text_writeAt {pos n : Int} (src : Memory) (low : 0 ≤ pos) (more : 0 ≤ n) (within : pos + n ≤ length s) :
    text (writeAt s pos src n) = (text s).take pos.toNat ++ bytesAt src n ++ (text s).drop (pos + n).toNat := by
  refine text_eq ?_ fun i inside => ?_
  · simp only [length_writeAt, List.length_append, List.length_take, List.length_drop, length_text, length_bytesAt]
    omega
  · rw [length_writeAt] at inside
    rw [content_writeAt s src low inside, List.append_assoc, List.getElem?_append, List.length_take, length_text]
    split
    · rw [List.getElem?_take, if_pos (by omega), getElem?_text (by omega), if_neg (by omega)]
    · rw [List.getElem?_append, length_bytesAt]
      split
      · have here : ((i - min pos.toNat (length s).toNat : Nat) : Int) = i - pos := by omega
        rw [getElem?_bytesAt _ (by omega), if_pos (by omega), here]
      · have here : (pos + n).toNat + (i - min pos.toNat (length s).toNat - n.toNat) = i := by omega
        rw [List.getElem?_drop, here, getElem?_text (by omega), if_neg (by omega)]

theorem text_appendString {other : Str} (sound' : Sound other) (fits : Fits s (length s + length other)) :
    text (apply s (.appendString other)) = text s ++ text other := by
  have low := sound.length_nonneg
  have more := sound'.length_nonneg
  cases other with
  | none => rw [text_none, List.append_nil]; rfl
  | some b =>
    have whole := text_set sound (inside (some b) 0) low (Int.le_refl _) more fits
    rw [List.take_of_length_le (Nat.le_of_eq (length_text s))] at whole
    exact whole

theorem text_insertBytes {pos n : Int} (src : Memory) (first : 0 ≤ pos) (inside' : pos ≤ length s) (more : 0 ≤ n)
    (fits : Fits s (length s + n)) :
    text (insertBytes s pos n src) = (text s).take pos.toNat ++ bytesAt src n ++ (text s).drop pos.toNat := by
  have long := sound.fits_lt fits
  have begins : from' (pos + n) = pos + n := from'_of_nonneg (by omega)
  have counts : count (some (inside s pos)) (length s - pos) = length s - pos := count_of_nonneg (by omega)
  have fits' : Fits s (from' (pos + n) + count (some (inside s pos)) (length s - pos)) := by
    rw [begins, counts]
    exact fits.mono (by omega)
  have size := length_set sound fits' rfl
  rw [begins, counts] at size
  have moved : insertBytes s pos n src = writeAt (set s (pos + n) (some (inside s pos)) (length s - pos)) pos src n := by
    rw [insertBytes, if_pos inside', toLong_small (by omega) (by omega)]
  rw [moved]
  refine text_eq ?_ fun i within => ?_
  · simp only [length_writeAt, List.length_append, List.length_take, List.length_drop, length_text, length_bytesAt]
    omega
  · rw [length_writeAt] at within
    rw [content_writeAt _ src first within, List.append_assoc, List.getElem?_append, List.length_take, length_text]
    split
    · rw [List.getElem?_take, if_pos (by omega), getElem?_text (by omega), if_neg (by omega),
        content_set_old sound fits' (by omega) (by omega) (by omega)]
    · rw [List.getElem?_append, length_bytesAt]
      split
      · have here : ((i - min pos.toNat (length s).toNat : Nat) : Int) = i - pos := by omega
        rw [getElem?_bytesAt _ (by omega), if_pos (by omega), here]
      · have here : ((pos.toNat + (i - min pos.toNat (length s).toNat - n.toNat) : Nat) : Int) = pos + (i - (pos + n)) := by
          omega
        rw [List.getElem?_drop, getElem?_text (by omega), if_neg (by omega), content_set_new sound fits' (by omega) (by omega),
          begins, here]
        exact congrArg some (content_content s pos _).symm

theorem text_trim {n : Int} (first : 0 ≤ n) (inside' : n ≤ length s) : text (trim s n) = (text s).take n.toNat := by
  have start : (if 0 < n then n else 0) = n := by split <;> omega
  rw [trim, if_pos inside', start, text_cut sound first inside']

theorem text_trimFront {n : Int} (first : 0 ≤ n) (inside' : n ≤ length s) : text (trimFront s n) = (text s).drop n.toNat := by
  by_cases all : n = length s
  · have emptied : length (trimFront s n) = 0 := by
      rw [trimFront, if_neg (by omega), if_pos (by omega)]
      cases s <;> rfl
    rw [List.drop_eq_nil_of_le (by rw [length_text]; omega)]
    refine List.eq_nil_of_length_eq_zero ?_
    rw [length_text, emptied]
    rfl
  · have moved := text_set sound (inside s n) (Int.le_refl 0) (by omega) (by omega : 0 ≤ length s - n)
      (sound.fits_of_le (by omega))
    have source : bytesAt (inside s n).at' (length s - n) = (text s).drop n.toNat := by
      refine (bytesAt_content s first (by omega)).trans (List.take_of_length_le ?_)
      rw [List.length_drop, length_text]
      omega
    rw [trimFront, if_pos ⟨first, by omega⟩, moved, source]
    rfl

theorem text_erase {pos n : Int} (first : 0 ≤ pos) (inside' : pos ≤ length s) (more : 0 ≤ n) :
    text (erase s pos n) = (text s).take pos.toNat ++ (text s).drop (pos + n).toNat := by
  have long := sound.fits_lt (sound.fits_of_le (Int.le_refl _))
  have low := sound.length_nonneg
  have room : toLong (length s - pos - min n (length s - pos)) = length s - pos - min n (length s - pos) :=
    toLong_small (by omega) (by omega)
  have moved := text_set sound (inside s (pos + min n (length s - pos))) first inside'
    (by omega : 0 ≤ length s - pos - min n (length s - pos)) (sound.fits_of_le (by omega))
  have source : bytesAt (inside s (pos + min n (length s - pos))).at' (length s - pos - min n (length s - pos)) =
      (text s).drop (pos + n).toNat := by
    refine (bytesAt_content s (by omega) (by omega)).trans ?_
    by_cases part : n ≤ length s - pos
    · rw [Int.min_eq_left part]
      refine List.take_of_length_le ?_
      rw [List.length_drop, length_text]
      omega
    · rw [List.drop_eq_nil_of_le (by rw [length_text]; omega), List.drop_eq_nil_of_le (by rw [length_text]; omega), List.take_nil]
  rw [erase, if_pos ⟨first, inside'⟩, if_neg (by omega)]
  dsimp only
  rw [room, moved, source]

theorem text_putAt {i : Int} (c : UInt8) (first : 0 ≤ i) (inside' : i < length s) :
    text (apply s (.putAt i c)) = (text s).set i.toNat c := by
  have is : s.isSome = true := by
    cases s with
    | some b => rfl
    | none =>
      have : i < 0 := inside'
      omega
  have put : apply s (.putAt i c) = writeAt s i (fun _ => c) 1 := by
    rw [apply]
    simp only [first, is, inside', and_self, if_true]
  have next : (i + 1).toNat = i.toNat + 1 := by omega
  rw [put, text_writeAt _ first (by omega) (by omega), bytesAt_const, next,
    List.set_eq_take_append_cons_drop, if_pos (by rw [length_text]; omega), List.append_assoc]
  rfl

omit sound in
theorem text_replaceAt {pos len : Int} (p : Chars) (first : 0 ≤ pos) (more : 0 ≤ len) (inside' : pos + len ≤ length s) :
    text (replaceAt s pos (some p) len) =
      (text s).take pos.toNat ++ bytesAt p.at' len ++ (text s).drop (pos + len).toNat := by
  by_cases none : len = 0
  · subst none
    rw [replaceAt, if_neg (by omega), Int.add_zero]
    simp [bytesAt]
  · rw [replaceAt, if_pos ⟨rfl, first, by omega⟩, if_neg (by omega)]
    exact text_writeAt _ first more inside'

end Operations

/-! ### PrependWith -/

theorem strlen_spec (memory : Memory) (capacity : Nat) :
    let strlen := ((List.range capacity).takeWhile fun i : Nat => memory i != 0).length
    (∀ i < strlen, memory (i : Nat) ≠ 0) ∧ (strlen < capacity → memory (strlen : Nat) = 0) := by
  intro strlen
  have parts := List.takeWhile_append_dropWhile (p := fun i : Nat => memory i != 0) (l := List.range capacity)
  constructor
  · intro i less
    have here : ((List.range capacity).takeWhile fun i : Nat => memory i != 0)[i]? = some i := by
      have within : i < capacity := by
        have total := (List.takeWhile_sublist (fun i : Nat => memory i != 0) (l := List.range capacity)).length_le
        rw [List.length_range] at total
        omega
      have whole : (List.range capacity)[i]? = some i := by simp [within]
      rwa [← parts, List.getElem?_append_left less] at whole
    simpa using List.mem_takeWhile_imp (List.mem_of_getElem? here)
  · intro less
    have here : ((List.range capacity).dropWhile fun i : Nat => memory i != 0).head? = some strlen := by
      have whole : (List.range capacity)[strlen]? = some strlen := by simp [less]
      rwa [← parts, List.getElem?_append_right (Nat.le_refl _), Nat.sub_self, ← List.head?_eq_getElem?] at whole
    have head := List.head?_dropWhile_not (fun i : Nat => memory i != 0) (List.range capacity)
    rw [here] at head
    simpa using head

section Prepend

variable {s : Str} (sound : Sound s) {newLength : Int} (grows : length s < newLength) (fits : Fits s (length s + newLength))

include sound grows fits

theorem text_reserve : text (reserve s newLength) = text s ∧ length (reserve s newLength) = length s ∧
    length s + newLength < capacity (reserve s newLength) ∧ Sound (reserve s newLength) := by
  have low := sound.length_nonneg
  have begins := from'_of_nonneg low
  have start : (if 0 < newLength then newLength else 0) = newLength := if_pos (by omega)
  have counts : count none newLength = newLength := count_of_nonneg (by omega)
  have fits' : Fits s (from' (length s) + count none newLength) := by rwa [begins, counts]
  have fits'' : Fits s (length s + max newLength 0) := by rwa [Int.max_eq_left (by omega)]
  have is : (reserve s newLength).isSome = true := by
    rw [reserve, start]
    exact set_isSome sound fits' (.inr (by omega))
  obtain ⟨b, shape⟩ := Option.isSome_iff_exists.mp is
  obtain ⟨size, room, -, -⟩ := reserve_spec sound fits'' shape
  rw [Int.max_eq_left (by omega)] at room
  have same : length (reserve s newLength) = length s := by rw [shape]; exact size
  refine ⟨text_eq ?_ fun i inside => ?_, same, by rw [shape]; exact room, reserve_sound sound fits''⟩
  · rw [length_text, same]
    omega
  · rw [same] at inside
    rw [getElem?_text inside, reserve, start, content_set_old sound fits' (by omega) (by omega) inside]

theorem text_moved (fill : UInt8) (p : Chars) (nonempty : 0 < length s) :
    text (writeAt (replaceAt (reserve s newLength) (newLength - length s) (some p) (length s)) 0 (fun _ => fill)
      (newLength - length s)) = List.replicate (newLength - length s).toNat fill ++ bytesAt p.at' (length s) := by
  obtain ⟨-, same, room, sound'⟩ := text_reserve sound grows fits
  have begins : from' (newLength - length s) = newLength - length s := from'_of_nonneg (by omega)
  have counts : count (some p) (length s) = length s := count_of_nonneg (by omega)
  have fits' : Fits (reserve s newLength) (from' (newLength - length s) + count (some p) (length s)) := by
    rw [begins, counts]
    exact .inl (by omega)
  have size := length_set sound' fits' rfl
  rw [begins, counts] at size
  rw [replaceAt, if_pos ⟨rfl, by omega, nonempty⟩, if_pos (by omega)]
  refine text_eq ?_ fun i inside => ?_
  · simp only [length_writeAt, List.length_append, List.length_replicate, length_bytesAt]
    omega
  · rw [length_writeAt] at inside
    rw [content_writeAt _ _ (Int.le_refl 0) inside, List.getElem?_append, List.length_replicate]
    split
    · rw [List.getElem?_replicate, if_pos (by omega), if_pos (by omega)]
    · have here : ((i - (newLength - length s).toNat : Nat) : Int) = i - (newLength - length s) := by omega
      rw [getElem?_bytesAt _ (by omega), if_neg (by omega), content_set_new sound' fits' (by omega) (by omega), begins, here]

end Prepend

theorem empty_sound : Sound none := fun b has => by cases has

theorem strlen_le {s : Str} (sound : Sound s) : ((inside s 0).strlen : Int) ≤ length s := by
  obtain ⟨nonzero, -⟩ := strlen_spec (content s 0) (capacity s - 0).toNat
  have low := sound.length_nonneg
  by_contra longer
  have last := nonzero (length s).toNat (by change _ < (inside s 0).strlen; omega)
  have here : (((length s).toNat : Nat) : Int) = length s := by omega
  rw [here] at last
  cases s with
  | none => exact last rfl
  | some b =>
    rw [content_some] at last
    exact last (sound b rfl).2.2.1

theorem capacity_alloc {n : Int} (some' : 0 < n) : (alloc n).fCapacity = n := if_neg (by omega)

theorem capacity_ofChars {p : Chars} (some' : 0 < p.strlen) (long : (p.strlen : Int) + 1 < 2 ^ 63) :
    capacity (set none 0 (some p) (-1)) = p.strlen + 1 := by
  have counts : count (some p) (-1) = p.strlen := rfl
  have room : allocCapacity none p.strlen = p.strlen + 1 := by
    rw [allocCapacity, if_neg (by simp), toLong_small (by omega) long]
  have fresh : expand none 0 p.strlen = some (alloc (p.strlen + 1)) := by
    have grows : 0 < (p.strlen : Int) ∧ capacity none ≤ p.strlen := ⟨by omega, Int.natCast_nonneg _⟩
    rw [← room]
    exact if_pos grows
  rw [set_eq, counts, from'_of_nonneg (Int.le_refl 0), Int.zero_add, toLong_small (by omega) (by omega), fresh, Option.map_some]
  exact capacity_alloc (n := p.strlen + 1) (by omega)

theorem construct_tmp (s : Str) : construct (.ofChars (some (inside s 0)) (-1)) = set none 0 (some (inside s 0)) (-1) := by
  show set none 0 (some (inside s 0)) (atMost (inside s 0) (-1)) = _
  rw [atMost, if_neg (by omega)]

/-- The temporary string of `PrependWith`, byte by byte: what is in front of the first zero, that zero, and
what is not known. -/
theorem pointer_tmp {s : Str} (sound : Sound s) (behind : Memory) (some' : 0 < (inside s 0).strlen) (i : Nat) :
    pointer (construct (.ofChars (some (inside s 0)) (-1))) behind i =
      if i < (inside s 0).strlen then content s 0 i else if i = (inside s 0).strlen then 0 else behind i := by
  have short := strlen_le sound
  have long : ((inside s 0).strlen : Int) + 1 < 2 ^ 63 := by
    cases s with
    | none =>
      have : ((inside none 0).strlen : Int) ≤ 0 := short
      omega
    | some b =>
      obtain ⟨-, room, -, small⟩ := sound b rfl
      have : ((inside (some b) 0).strlen : Int) ≤ b.fLength := short
      omega
  have size := capacity_ofChars some' long
  have counts : count (some (inside s 0)) (-1) = (inside s 0).strlen := rfl
  have start : from' 0 = 0 := rfl
  have fits : Fits none (from' 0 + count (some (inside s 0)) (-1)) := by
    rw [start, counts, Int.zero_add]
    exact .inr long
  obtain ⟨b, shape⟩ := Option.isSome_iff_exists.mp (set_isSome empty_sound fits (.inr (by rw [start, counts]; omega)))
  obtain ⟨last, -, zero, -⟩ := set_spec empty_sound fits shape
  rw [construct_tmp, pointer, size]
  by_cases before : i < (inside s 0).strlen
  · have copied := content_set_new empty_sound fits (i := i) (by rw [start]; omega) (by rw [start, counts]; omega)
    rw [if_pos (by omega), if_pos before, copied, start, Int.sub_zero]
    rfl
  · rw [if_neg before]
    by_cases at' : i = (inside s 0).strlen
    · have here : b.fLength = i := by
        rw [last, at', Option.isSome_some, if_pos rfl, start, counts, Int.zero_add]
      rw [if_pos (by omega), if_pos at', shape, content_some, ← here, zero]
    · rw [if_neg (by omega), if_neg at']

theorem pointer_tmp_behind {s : Str} (sound : Sound s) (behind : Memory) {i : Nat} (later : (inside s 0).strlen < i) :
    pointer (construct (.ofChars (some (inside s 0)) (-1))) behind i = behind i := by
  by_cases some' : 0 < (inside s 0).strlen
  · rw [pointer_tmp sound behind some', if_neg (by omega), if_neg (by omega)]
  · have counts : count (some (inside s 0)) (-1) = 0 := by
      show ((inside s 0).strlen : Int) = 0
      omega
    have empty : set none 0 (some (inside s 0)) (-1) = none := by
      rw [set_eq, counts]
      rfl
    have outside : ¬ (i : Int) < capacity none := by
      show ¬ (i : Int) < 0
      omega
    rw [construct_tmp, empty, pointer, if_neg outside]

theorem pointer_tmp_exact {s : Str} (sound : Sound s) (long : 2 ≤ length s) :
    (∀ behind, bytesAt (pointer (construct (.ofChars (some (inside s 0)) (-1))) behind) (length s) = text s) ↔
      (0 : UInt8) ∉ (text s).dropLast := by
  obtain ⟨nonzero, zero⟩ := strlen_spec (content s 0) (capacity s - 0).toNat
  change ∀ i < (inside s 0).strlen, _ at nonzero
  change (inside s 0).strlen < _ → content s 0 (inside s 0).strlen = 0 at zero
  have short := strlen_le sound
  have room : length s < capacity s := by
    cases s with
    | none =>
      have : (2 : Int) ≤ 0 := long
      omega
    | some b => exact (sound b rfl).2.1
  constructor
  · intro copies mem
    obtain ⟨i, at', isZero⟩ := List.mem_iff_getElem.mp mem
    rw [List.length_dropLast, length_text] at at'
    rw [List.getElem_dropLast] at isZero
    have here : content s 0 i = 0 := by
      have found := getElem?_text (s := s) (i := i) (by omega)
      rw [List.getElem?_eq_getElem (by rw [length_text]; omega), isZero] at found
      exact (Option.some.inj found).symm
    have early : (inside s 0).strlen ≤ i := by
      by_contra later
      exact nonzero i (by omega) here
    -- the byte behind the first zero can be anything
    have next : (((inside s 0).strlen + 1 : Nat) : Int) < length s := by omega
    have copied := copies fun _ => content s 0 ((inside s 0).strlen + 1 : Nat) + 1
    have there := getElem?_bytesAt (pointer (construct (.ofChars (some (inside s 0)) (-1)))
      fun _ => content s 0 ((inside s 0).strlen + 1 : Nat) + 1) next
    rw [copied, getElem?_text next, pointer_tmp_behind sound _ (Nat.lt_succ_self _)] at there
    simpa using Option.some.inj there
  · intro free behind
    have long' : length s - 1 ≤ (inside s 0).strlen := by
      by_contra early
      refine free (List.mem_iff_getElem.mpr ⟨(inside s 0).strlen, by rw [List.length_dropLast, length_text]; omega, ?_⟩)
      have found := getElem?_text (s := s) (i := (inside s 0).strlen) (by omega)
      rw [List.getElem?_eq_getElem (by rw [length_text]; omega), zero (by omega)] at found
      rw [List.getElem_dropLast]
      exact Option.some.inj found
    refine (text_eq (by rw [length_bytesAt]; omega) fun i within => ?_).symm
    rw [getElem?_bytesAt _ within, pointer_tmp sound behind (by omega)]
    split
    · rfl
    · have last : i = (inside s 0).strlen := by omega
      rw [if_pos last, last, zero (by omega)]

theorem text_prependWith {s : Str} (sound : Sound s) {newLength : Int} (grows : length s < newLength)
    (fits : Fits s (length s + newLength)) (fill : UInt8) (behind : Memory) :
    text (prependWith s newLength fill behind) = List.replicate (newLength - length s).toNat fill ++
      if length s * 2 ≤ newLength then text s
      else bytesAt (pointer (construct (.ofChars (some (inside (reserve s newLength) 0)) (-1))) behind) (length s) := by
  have low := sound.length_nonneg
  have long := sound.fits_lt fits
  obtain ⟨same, size, room, sound'⟩ := text_reserve sound grows fits
  rw [prependWith, toLong_small (by omega) (by omega)]
  dsimp only
  rw [if_pos (by omega : 0 < newLength - length s), if_pos grows]
  by_cases empty : length s = 0
  · have none : text s = [] := List.eq_nil_of_length_eq_zero (by rw [length_text, empty]; rfl)
    rw [if_neg (not_not.mpr empty), if_pos (by omega), none, List.append_nil]
    have grown : length ((reserve s newLength).map fun b => { b with fLength := b.fLength + (newLength - length s) }) =
        newLength - length s := by
      cases shape : reserve s newLength with
      | none =>
        rw [shape] at room
        have : length s + newLength < 0 := room
        omega
      | some b =>
        rw [shape] at size
        have : b.fLength = length s := size
        show b.fLength + (newLength - length s) = _
        omega
    refine text_eq ?_ fun i inside => ?_
    · rw [length_writeAt, grown, List.length_replicate]
      omega
    · rw [length_writeAt] at inside
      rw [content_writeAt _ _ (Int.le_refl 0) inside, if_pos (by omega), List.getElem?_replicate, if_pos (by omega)]
  · rw [if_pos empty]
    split
    · rw [text_moved sound grows fits fill _ (by omega)]
      have source : bytesAt (inside (reserve s newLength) 0).at' (length s) = text s := by
        rw [← same, text_eq_bytesAt, size]
        rfl
      rw [source]
    · rw [text_moved sound grows fits fill _ (by omega)]

/-! ### Editing refines lists -/

def edited (bytes : Bytes) : Mutator → Option Bytes
  | .appendString other => some (bytes ++ text other)
  | .insert pos n v =>
    if pos ≤ bytes.length ∧ 0 ≤ n then some (bytes.take pos ++ List.replicate n.toNat v ++ bytes.drop pos) else none
  | .insertRange pos range => if pos ≤ bytes.length then some (bytes.take pos ++ range ++ bytes.drop pos) else none
  | .erase pos n =>
    -- `npos` is the rest of the string
    if 0 ≤ pos ∧ pos ≤ bytes.length ∧ (0 ≤ n ∨ n = -1) then
      some (bytes.take pos.toNat ++ if n = -1 then [] else bytes.drop (pos + n).toNat)
    else none
  | .trim newlen => if 0 ≤ newlen ∧ newlen ≤ bytes.length then some (bytes.take newlen.toNat) else none
  | .trimFront newstart => if 0 ≤ newstart ∧ newstart ≤ bytes.length then some (bytes.drop newstart.toNat) else none
  | .putAt pos c => if 0 ≤ pos ∧ pos < bytes.length then some (bytes.set pos.toNat c) else none
  | .replaceAt pos (some src) len =>
    if 0 ≤ pos ∧ 0 ≤ len ∧ pos + len ≤ bytes.length then
      some (bytes.take pos.toNat ++ bytesAt src.at' len ++ bytes.drop (pos + len).toNat)
    else none
  | .prependWith newLength fill _ =>
    if toLong (newLength - bytes.length) = newLength - bytes.length then
      some (List.replicate (newLength - bytes.length).toNat fill ++ bytes)
    else none
  | _ => none

def Mutator.over (m : Mutator) (behind : Memory) : Mutator :=
  match m with
  | .prependWith newLength fill _ => .prependWith newLength fill behind
  | m => m

/-- `PrependWith` copies through a C string and the bytes have a zero that is not the last one. -/
def Truncates (bytes : Bytes) : Mutator → Prop
  | .prependWith newLength _ _ => bytes.length < newLength ∧ newLength < 2 * bytes.length ∧ (0 : UInt8) ∈ bytes.dropLast
  | _ => False

theorem edited_eq {s : Str} (sound : Sound s) {m : Mutator} (operands : ∀ other ∈ m.operand, Sound other)
    (fits : Fits s (demand s m)) {result : Bytes} (edit : edited (text s) m = some result)
    (noPrepend : ∀ newLength fill behind, m ≠ .prependWith newLength fill behind) : text (apply s m) = result := by
  have low := sound.length_nonneg
  have size : ((text s).length : Int) = length s := by rw [length_text]; omega
  cases m with
  | appendString other =>
    cases edit
    exact text_appendString sound (operands other rfl) fits
  | insert pos n v =>
    simp only [edited, Option.ite_none_right_eq_some, Option.some.injEq] at edit
    obtain ⟨⟨inside', more⟩, rfl⟩ := edit
    have within : (pos : Int) ≤ length s := by omega
    rw [demand, if_pos within, from'_of_nonneg (by omega)] at fits
    have inserted := text_insertBytes sound (fun _ => v) (Int.natCast_nonneg pos) within more (fits.mono (by omega))
    rw [bytesAt_const, Int.toNat_natCast] at inserted
    exact inserted
  | insertRange pos range =>
    simp only [edited, Option.ite_none_right_eq_some, Option.some.injEq] at edit
    obtain ⟨inside', rfl⟩ := edit
    have within : (pos : Int) ≤ length s := by omega
    rw [demand, if_pos within] at fits
    have inserted := text_insertBytes sound (buffer range).at' (Int.natCast_nonneg pos) within (Int.natCast_nonneg _) fits
    rw [bytesAt_buffer, Int.toNat_natCast] at inserted
    exact inserted
  | erase pos n =>
    simp only [edited, Option.ite_none_right_eq_some, Option.some.injEq] at edit
    obtain ⟨⟨first, inside', more⟩, rfl⟩ := edit
    by_cases npos : n = -1
    · subst npos
      show text (erase s pos (-1)) = _
      rw [erase, if_pos ⟨first, by omega⟩, if_pos rfl, if_pos rfl, List.append_nil]
      exact text_trim sound first (by omega)
    · rw [if_neg npos]
      exact text_erase sound first (by omega) (by omega)
  | trim newlen =>
    simp only [edited, Option.ite_none_right_eq_some, Option.some.injEq] at edit
    obtain ⟨⟨first, inside'⟩, rfl⟩ := edit
    exact text_trim sound first (by omega)
  | trimFront newstart =>
    simp only [edited, Option.ite_none_right_eq_some, Option.some.injEq] at edit
    obtain ⟨⟨first, inside'⟩, rfl⟩ := edit
    exact text_trimFront sound first (by omega)
  | putAt pos c =>
    simp only [edited, Option.ite_none_right_eq_some, Option.some.injEq] at edit
    obtain ⟨⟨first, inside'⟩, rfl⟩ := edit
    exact text_putAt sound c first (by omega)
  | replaceAt pos src len =>
    cases src with
    | none => cases edit
    | some p =>
      simp only [edited, Option.ite_none_right_eq_some, Option.some.injEq] at edit
      obtain ⟨⟨first, more, inside'⟩, rfl⟩ := edit
      exact text_replaceAt p first more (by omega)
  | prependWith newLength fill behind => exact absurd rfl (noPrepend newLength fill behind)
  | _ => cases edit

theorem over_eq {m : Mutator} (noPrepend : ∀ newLength fill behind, m ≠ .prependWith newLength fill behind)
    (behind : Memory) : m.over behind = m := by
  cases m with
  | prependWith newLength fill behind => exact absurd rfl (noPrepend newLength fill behind)
  | _ => rfl

theorem not_truncates {m : Mutator} (noPrepend : ∀ newLength fill behind, m ≠ .prependWith newLength fill behind)
    (bytes : Bytes) : ¬ Truncates bytes m := by
  cases m with
  | prependWith newLength fill behind => exact absurd rfl (noPrepend newLength fill behind)
  | _ => exact id

theorem prepended_iff {s : Str} (sound : Sound s) {newLength : Int} (exact' : toLong (newLength - length s) = newLength - length s)
    (fits : Fits s (demand s (.prependWith newLength 0 fun _ => 0))) (fill : UInt8) :
    (∀ behind, text (prependWith s newLength fill behind) =
      List.replicate (newLength - length s).toNat fill ++ text s) ↔
        ¬ (length s < newLength ∧ newLength < 2 * length s ∧ (0 : UInt8) ∈ (text s).dropLast) := by
  by_cases grows : length s < newLength
  · rw [demand, if_pos grows] at fits
    obtain ⟨same, size, -, sound'⟩ := text_reserve sound grows fits
    simp only [text_prependWith sound grows fits, List.append_right_inj]
    split
    · exact iff_of_true (fun _ => rfl) fun both => by omega
    · have copied := pointer_tmp_exact sound' (by omega)
      rw [same, size] at copied
      rw [copied]
      exact not_congr ⟨fun mem => ⟨grows, by omega, mem⟩, fun both => both.2.2⟩
  · have unchanged : ∀ behind, prependWith s newLength fill behind = s := by
      intro behind
      rw [prependWith, exact']
      exact if_neg (by omega)
    have nothing : (newLength - length s).toNat = 0 := by omega
    refine iff_of_true (fun behind => ?_) fun both => grows both.1
    rw [unchanged, nothing, List.replicate_zero, List.nil_append]

/-- The operations do to the bytes what the same operations do to lists, unless `PrependWith` copies a zero
that is not the last byte through a C string. -/
theorem edits_refine_lists {s : Str} (sound : Sound s) {m : Mutator} (operands : ∀ other ∈ m.operand, Sound other)
    (fits : Fits s (demand s m)) {result : Bytes} (edit : edited (text s) m = some result) :
    (∀ behind, text (apply s (m.over behind)) = result) ↔ ¬ Truncates (text s) m := by
  have low := sound.length_nonneg
  have size : ((text s).length : Int) = length s := by rw [length_text]; omega
  by_cases prepend : ∃ newLength fill behind, m = .prependWith newLength fill behind
  · obtain ⟨newLength, fill, behind, rfl⟩ := prepend
    simp only [edited, Option.ite_none_right_eq_some, Option.some.injEq, size] at edit
    obtain ⟨exact', rfl⟩ := edit
    rw [Truncates, size]
    exact prepended_iff sound exact' fits fill
  · have noPrepend : ∀ newLength fill behind, m ≠ .prependWith newLength fill behind :=
      fun newLength fill behind eq => prepend ⟨newLength, fill, behind, eq⟩
    simp only [over_eq noPrepend, forall_const]
    exact iff_of_true (edited_eq sound operands fits edit noPrepend) (not_truncates noPrepend _)

theorem edits_refine_lists_inserted :
    (∀ behind, text (apply (construct (.ofBuffer (some (buffer [97, 0, 98]).at') 3))
      ((Mutator.insert 1 2 0).over behind)) = [97, 0, 0, 0, 98]) ↔
        ¬ Truncates (text (construct (.ofBuffer (some (buffer [97, 0, 98]).at') 3))) (.insert 1 2 0) := by
  refine edits_refine_lists (s := construct (.ofBuffer (some (buffer [97, 0, 98]).at') 3)) (m := .insert 1 2 0) ?_ ?_ ?_ ?_
  · exact construct_sound (fun _ has => by cases has) (.inr (by decide))
  · exact fun _ has => by cases has
  · exact .inr (by decide)
  · decide

/-- The byte behind the zero is read from behind the copy. -/
theorem prependWith_truncates :
    edited (text (construct (.ofBuffer (some (buffer [97, 0, 98]).at') 3))) (.prependWith 4 120 fun _ => 0) =
        some [120, 97, 0, 98] ∧
      text (apply (construct (.ofBuffer (some (buffer [97, 0, 98]).at') 3)) (.prependWith 4 120 fun _ => 0)) ≠
        [120, 97, 0, 98] := by
  decide

end Coast.ITOString
