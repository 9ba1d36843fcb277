import Coast.Anything.ArrayRefinement

/-!
# Looking up a path

`LookupPath` walks from an `Anything` along names and indices. It never extracts a segment of the path:
it passes the length and the hash of the segment to the key table, where a hash of 0 stands for a hash
that is not given, and it accumulates an index in a `long`.
-/

namespace Coast

open LinearProbing

/-- A value with simple values in `S`; arrays are those of the implementation. -/
inductive Anything (S : Type) where
  | null
  | simple (s : S)
  | array (impl : Anything.AnyArrayImpl (Anything S))

namespace Anything

open AnyArrayImpl

variable {S : Type}

instance : Inhabited (Anything S) := ⟨.null⟩

def isNull : Anything S → Bool
  | .null => true
  | _ => false

def getSize : Anything S → Nat
  | .null => 0
  | .simple _ => 1
  | .array impl => impl.fSize

def findIndex (c : Anything S) (k : Bytes) (sizehint : Int := -1) (hashhint : Nat := 0) : Exec (Option Nat) :=
  match c with
  | .array impl => impl.findIndex k sizehint hashhint
  | _ => return none

/-- `DoGetAt(long)`, also what `operator[]` yields: the slots of an array, and the value itself otherwise.
A negative index is taken as 0. -/
def doGetAt (c : Anything S) (i : Int) : Exec (Anything S) :=
  match c with
  | .array impl => do
    let (a, pos) ← impl.atSlot i.toNat
    let assoc ← a.cell pos
    return assoc.fValue
  | c => return c

/-! ### The code -/

def isDelim (delimSlot delimIdx c : UInt8) : Bool := c == delimSlot || c == delimIdx

def atDelim (delimSlot delimIdx : UInt8) : Bytes → Bool
  | [] => true
  | c :: _ => isDelim delimSlot delimIdx c

def decimalStep (lIdx : Nat) (c : UInt8) : Nat := (lIdx * 10 + (c.toNat - 48)) % 2 ^ 64

/-- Reads the index behind an index delimiter: the `long` it has accumulated and the text that follows. -/
def scanIndex (delimSlot delimIdx : UInt8) (tok : Bytes) : Option (Int × Bytes) :=
  if atDelim delimSlot delimIdx tok then none
  else
    let tail := tok.dropWhile isdigit
    if atDelim delimSlot delimIdx tail then some (asLong ((tok.takeWhile isdigit).foldl decimalStep 0), tail)
    else none

def scanName (delimSlot delimIdx : UInt8) (tok : Bytes) : Option Bytes :=
  match tok with
  | [] => none
  | c :: rest =>
    if c = delimSlot then
      if atDelim delimSlot delimIdx rest then none else some rest
    else some tok

def lookupIndex (c : Anything S) (lIdx : Int) (tail : Bytes) : Exec (Option (Anything S × Bytes)) := do
  if lIdx ≥ c.getSize then return none
  else
    let child ← c.doGetAt lIdx
    if child.isNull then return none else return some (child, tail)

def lookupName (c : Anything S) (key : Bytes) (hashed : Int × Nat) : Exec (Option (Anything S × Bytes)) := do
  match ← c.findIndex key hashed.2 hashed.1.toNat with
  | none => return none
  | some lIdx => do
    let child ← c.doGetAt lIdx
    return some (child, key.drop hashed.2)

/-- One iteration of the loop: the child and the rest of the path, or `none` for `return false`. -/
def lookupStep (delimSlot delimIdx : UInt8) (c : Anything S) (tok : Bytes) : Exec (Option (Anything S × Bytes)) :=
  if tok.head? = some delimIdx then
    match scanIndex delimSlot delimIdx tok.tail with
    | none => return none
    | some (lIdx, tail) => c.lookupIndex lIdx tail
  else
    match scanName delimSlot delimIdx tok with
    | none => return none
    | some key => c.lookupName key (ifaHash key delimSlot delimIdx)

def lookupLoop (delimSlot delimIdx : UInt8) : Nat → Anything S → Bytes → Exec (Option (Anything S))
  | 0, _, _ => return none
  | fuel + 1, c, tok => do
    match ← lookupStep delimSlot delimIdx c tok with
    | none => return none
    | some (child, tail) =>
      if tail.isEmpty then return some child else lookupLoop delimSlot delimIdx fuel child tail

/-- `LookupPath`; `none` is a failure that leaves the result unchanged. -/
def lookupPath (c : Anything S) (path : Bytes) (delimSlot delimIdx : UInt8) : Exec (Option (Anything S)) :=
  if delimSlot = 0 ∨ delimIdx = 0 ∨ path.any (isDelim delimSlot delimIdx) = false then do
    match ← c.findIndex path with
    | none => return none
    | some lIdx => do
      let child ← c.doGetAt lIdx
      return some child
  else if path.head? = some delimSlot then return none
  else lookupLoop delimSlot delimIdx path.length c path

/-! ### What a path means -/

structure Segment where
  delim : UInt8
  byIndex : Bool
  text : Bytes
  deriving DecidableEq, Repr

def splitDelims (delimSlot delimIdx : UInt8) : Bytes → Bytes × List (UInt8 × Bytes)
  | [] => ([], [])
  | c :: cs =>
    let (head, rest) := splitDelims delimSlot delimIdx cs
    if isDelim delimSlot delimIdx c then ([], (c, head) :: rest) else (c :: head, rest)

def delimited (delimIdx : UInt8) (chunks : List (UInt8 × Bytes)) : List Segment :=
  chunks.map fun chunk => ⟨chunk.1, chunk.1 == delimIdx, chunk.2⟩

def segments (delimSlot delimIdx : UInt8) (path : Bytes) : List Segment :=
  let (head, rest) := splitDelims delimSlot delimIdx path
  if head = [] then delimited delimIdx rest else ⟨delimSlot, false, head⟩ :: delimited delimIdx rest

def decimal (digits : Bytes) : Nat := digits.foldl (fun n c => n * 10 + (c.toNat - 48)) 0

def children : Anything S → List (Option Bytes × Anything S)
  | .null => []
  | .simple s => [(none, .simple s)]
  | .array impl =>
    match impl.observe with
    | .ok slots => slots
    | .error _ => []

def childOf (c : Anything S) (segment : Segment) : Option (Anything S) :=
  if segment.byIndex then
    if segment.text.all isdigit then
      match c.children[decimal segment.text]? with
      | some (_, child) => if child.isNull then none else some child
      | none => none
    else none
  else (c.children.find? fun slot => slot.1 == some segment.text).map Prod.snd

def pathValue (c : Anything S) (path : Bytes) (delimSlot delimIdx : UInt8) : Option (Anything S) :=
  let segs := segments delimSlot delimIdx path
  if path.head? = some delimSlot ∨ segs = [] ∨ segs.any (fun s => s.text.isEmpty) then none
  else segs.foldlM childOf c

/-! ### Segments -/

section Scan

variable {delimSlot delimIdx : UInt8}

theorem splitDelims_eq (path : Bytes) : splitDelims delimSlot delimIdx path =
    (path.takeWhile fun c => !isDelim delimSlot delimIdx c,
      (splitDelims delimSlot delimIdx (path.dropWhile fun c => !isDelim delimSlot delimIdx c)).2) := by
  induction path with
  | nil => rfl
  | cons c cs ih =>
    cases h : isDelim delimSlot delimIdx c with
    | true => simp [splitDelims, h]
    | false =>
      rw [splitDelims, ih]
      simp [h]

theorem splitDelims_cons {c : UInt8} (delim : isDelim delimSlot delimIdx c = true) (cs : Bytes) :
    (splitDelims delimSlot delimIdx (c :: cs)).2 =
      (c, cs.takeWhile fun c => !isDelim delimSlot delimIdx c) ::
        (splitDelims delimSlot delimIdx (cs.dropWhile fun c => !isDelim delimSlot delimIdx c)).2 := by
  rw [splitDelims, splitDelims_eq cs]
  simp [delim]

theorem atDelim_dropWhile (cs : Bytes) :
    atDelim delimSlot delimIdx (cs.dropWhile fun c => !isDelim delimSlot delimIdx c) = true := by
  induction cs with
  | nil => rfl
  | cons c cs ih =>
    cases h : isDelim delimSlot delimIdx c with
    | true => simp [h, atDelim]
    | false => simpa [h] using ih

theorem ifaHashReads_of_not_delim {c : UInt8} (text : c ≠ 0) (other : isDelim delimSlot delimIdx c = false) :
    ifaHashReads delimSlot delimIdx c = true := by
  have differ : ∀ stop : UInt8, c ≠ stop → (c.toNat : Int) ≠ charInt stop := by
    intro stop other same
    unfold charInt at same
    split at same
    · exact other (UInt8.toNat.inj (by omega))
    · have := stop.toNat_lt
      omega
  simp only [isDelim, Bool.or_eq_false_iff, beq_eq_false_iff_ne] at other
  simp [ifaHashReads, text, differ _ other.1, differ _ other.2]

theorem ifaHashReads_delim {c : UInt8} (delim : isDelim delimSlot delimIdx c = true) (small : c.toNat < 128) :
    ifaHashReads delimSlot delimIdx c = false := by
  have own : (c.toNat : Int) = charInt c := by rw [charInt, if_pos small]
  simp only [isDelim, Bool.or_eq_true, beq_iff_eq] at delim
  rcases delim with rfl | rfl
  · simp [ifaHashReads, ← own]
  · simp [ifaHashReads, ← own]

theorem ifaHash_segment {text tail : Bytes} (plain : 0 ∉ text)
    (inside : ∀ c ∈ text, isDelim delimSlot delimIdx c = false) (stop : atDelim delimSlot delimIdx tail = true)
    (small : ∀ c ∈ tail.head?, c.toNat < 128) : ifaHash (text ++ tail) delimSlot delimIdx = ifaHash text := by
  have reads : ∀ c ∈ text, ifaHashReads delimSlot delimIdx c = true := fun c member =>
    ifaHashReads_of_not_delim (fun zero => plain (zero ▸ member)) (inside c member)
  have part : (text ++ tail).takeWhile (ifaHashReads delimSlot delimIdx) = text := by
    rw [List.takeWhile_append_of_pos reads]
    cases tail with
    | nil => simp
    | cons c cs => simp [ifaHashReads_delim stop (small c rfl)]
  have whole : text.takeWhile (ifaHashReads 0 0) = text := by
    rw [List.takeWhile_eq_self_iff]
    intro c member
    refine ifaHashReads_of_not_delim (fun zero => plain (zero ▸ member)) ?_
    have nonzero : c ≠ 0 := fun zero => plain (zero ▸ member)
    simp [isDelim, nonzero]
  rw [ifaHash, ifaHash, part, whole]

end Scan

/-! ### Lookups with a hash hint -/

theorem keyMatches_take {key seg : Bytes} {keylen : Nat} (own : seg = key.take keylen) (other : Bytes) :
    keyMatches key keylen other = keyMatches seg keylen other := by
  unfold keyMatches
  by_cases same : keylen = other.length
  · rw [own, ← same, List.take_take, Nat.min_self]
  · have differ : ((keylen : Int) == (other.length : Int)) = false := by
      rw [beq_eq_false_iff_ne]
      omega
    rw [differ, Bool.false_and, Bool.false_and]

theorem doHashLoop_take {V : Type} [Inhabited V] (a : AnyArrayImpl V) (t : AnyKeyTable) {key seg : Bytes} {keylen : Nat}
    (own : seg = key.take keylen) (hash fuel i : Nat) :
    a.doHashLoop t key keylen false hash fuel i = a.doHashLoop t seg keylen false hash fuel i := by
  have stops : ∀ i, a.hashStops t key keylen false i = a.hashStops t seg keylen false i := by
    intro i
    unfold hashStops
    simp only [keyMatches_take own]
  induction fuel generalizing i with
  | zero => rfl
  | succ fuel ih => simp only [doHashLoop, stops, ih]

theorem findIndex_hint {V : Type} [Inhabited V] (a : AnyArrayImpl V) {key seg : Bytes} {hashed : Int × Nat}
    (hash : hashed = ifaHash seg) (own : seg = key.take hashed.2) (given : hashed.1 ≠ 0) :
    a.findIndex key hashed.2 hashed.1.toNat = a.findIndex seg := by
  have nonneg := ifaHash_nonneg seg 0 0
  rw [← hash] at nonneg
  have nonzero : hashed.1.toNat ≠ 0 := by omega
  have back : ((hashed.1.toNat : Nat) : Int) = hashed.1 := Int.toNat_of_nonneg nonneg
  unfold AnyArrayImpl.findIndex
  cases a.fKeys with
  | none => rfl
  | some t =>
    simp only [keyAt, doHash, if_pos nonzero, ne_eq, not_true_eq_false, if_false, back, ← hash, doHashLoop_take a t own]

theorem findIndex_noHint {V : Type} [Inhabited V] (a : AnyArrayImpl V) (key : Bytes) (keylen : Int) :
    a.findIndex key keylen 0 = a.findIndex key := rfl

/-! ### Values whose arrays are consistent -/

inductive Consistent : Anything S → Prop
  | null : Consistent .null
  | simple (s : S) : Consistent (.simple s)
  | array {impl : AnyArrayImpl (Anything S)} {es : Entries (Anything S)} (agrees : impl.Agrees es)
      (inner : ∀ e ∈ es, Consistent e.2) : Consistent (.array impl)

variable {c : Anything S}

theorem children_array {impl : AnyArrayImpl (Anything S)} {es : Entries (Anything S)} (agrees : impl.Agrees es) :
    (Anything.array impl).children = es.map fun e => (e.1.map Key.text, e.2) := by
  rw [children, agrees.observe_eq]

theorem doGetAt_array {impl : AnyArrayImpl (Anything S)} {es : Entries (Anything S)} (agrees : impl.Agrees es) {i : Nat}
    {e : Option Key × Anything S} (has : es[i]? = some e) : (Anything.array impl).doGetAt i = .ok e.2 := by
  have inside : i < impl.fSize := by
    rw [← agrees.length]
    exact (List.getElem?_eq_some_iff.mp has).1
  obtain ⟨a, reached, shape, same, size, _⟩ := atSlot_spec agrees.toShape i
  have cell : a.cellOf i < a.fCapacity := shape.cellOf_lt (by omega)
  have value : a.assocAt (impl.cellOf i) = impl.assocOf i := by rw [same.assocAt]; rfl
  rw [same.cellOf] at cell
  simp only [doGetAt, Int.toNat_natCast, reached, bind, Except.bind, shape.cell_ok cell, value, agrees.entry i e has]
  rfl

theorem find_name (es : Entries (Anything S)) (k : Key) :
    ((es.map fun e => (e.1.map Key.text, e.2)).find? fun slot => slot.1 == some k.text).map Prod.snd =
      (es.position k).bind fun i => es[i]?.map Prod.snd := by
  induction es with
  | nil => rfl
  | cons e es ih =>
    rw [List.map_cons, List.find?_cons, Entries.position, List.findIdx?_cons]
    have same : (e.1.map Key.text == some k.text) = (e.1 == some k) := by
      cases h : e.1 with
      | none => rfl
      | some l =>
        rw [Bool.eq_iff_iff, beq_iff_eq, beq_iff_eq]
        constructor
        · intro text
          rw [Key.text_injective (Option.some.inj text)]
        · intro key
          rw [Option.some.inj key]
          rfl
    rw [same]
    cases e.1 == some k with
    | true => rfl
    | false =>
      simp only [Bool.false_eq_true, if_false]
      rw [ih, Entries.position]
      cases List.findIdx? (fun e => e.1 == some k) es <;> rfl

/-! ### The code follows the segments -/

theorem lookupName_eq (consistent : c.Consistent) {text tail : Bytes} (some : text ≠ []) (plain : 0 ∉ text)
    (given : tail ≠ [] → (ifaHash text).1 ≠ 0) (d : UInt8) :
    c.lookupName (text ++ tail) (ifaHash text) = .ok ((c.childOf ⟨d, false, text⟩).map fun child => (child, tail)) := by
  have length := ifaHash_length plain
  cases consistent with
  | null => rfl
  | simple s => rfl
  | @array impl es agrees inner =>
    obtain ⟨k, rfl⟩ : ∃ k : Key, k.text = text := ⟨⟨text, some, plain⟩, rfl⟩
    have found : impl.findIndex (k.text ++ tail) (ifaHash k.text).2 (ifaHash k.text).1.toNat = .ok (es.position k) := by
      rw [← agrees.toNamed.findIndex_eq k]
      by_cases last : tail = []
      · rw [last, List.append_nil]
        by_cases zero : (ifaHash k.text).1 = 0
        · rw [zero]
          exact findIndex_noHint impl k.text _
        · exact findIndex_hint impl rfl (by rw [length, List.take_length]) zero
      · exact findIndex_hint impl rfl (by rw [length, List.take_left]) (given last)
    unfold lookupName findIndex childOf
    rw [children_array agrees]
    simp only [found, bind, Except.bind, Bool.false_eq_true, if_false, find_name]
    cases h : es.position k with
    | none => rfl
    | some i =>
      have inside : i < es.length := by
        rw [agrees.length]
        exact agrees.toNamed.lt_of_name ((agrees.toNamed.position_iff k i).mp h)
      have has : es[i]? = Option.some es[i] := List.getElem?_eq_getElem inside
      simp only [doGetAt_array agrees has, length, List.drop_left, Option.bind_some, has, Option.map_some]
      rfl

theorem lookupIndex_eq (consistent : c.Consistent) {text : Bytes} (digits : text.all isdigit = true) (tail : Bytes)
    (d : UInt8) :
    c.lookupIndex (decimal text) tail = .ok ((c.childOf ⟨d, true, text⟩).map fun child => (child, tail)) := by
  unfold lookupIndex childOf
  rw [if_pos digits]
  cases consistent with
  | null => rfl
  | simple s =>
    cases h : decimal text with
    | zero => rfl
    | succ n =>
      rw [if_pos (by show ((n + 1 : Nat) : Int) ≥ 1; omega)]
      rfl
  | @array impl es agrees inner =>
    rw [children_array agrees]
    have size : (Anything.array impl).getSize = es.length := agrees.length.symm
    rw [size, List.getElem?_map]
    by_cases inside : decimal text < es.length
    · have has : es[decimal text]? = some es[decimal text] := List.getElem?_eq_getElem inside
      rw [if_neg (by omega), doGetAt_array agrees has, has]
      simp only [bind, Except.bind, if_true, Option.map_some]
      split <;> rfl
    · rw [if_pos (by omega), List.getElem?_eq_none (show es.length ≤ decimal text by omega)]
      rfl

theorem childOf_consistent (consistent : c.Consistent) {segment : Segment} {child : Anything S}
    (found : c.childOf segment = some child) : child.Consistent := by
  have inner : ∀ slot ∈ c.children, slot.2.Consistent := by
    intro slot member
    cases consistent with
    | null => cases member
    | simple s =>
      rw [List.mem_singleton.mp member]
      exact .simple s
    | @array impl es agrees inner =>
      rw [children_array agrees] at member
      obtain ⟨e, own, rfl⟩ := List.mem_map.mp member
      exact inner e own
  unfold childOf at found
  split at found
  · split at found
    · split at found
      · rename_i name value has
        split at found
        · cases found
        · cases found
          exact inner _ (List.mem_of_getElem? has)
      · cases found
    · cases found
  · obtain ⟨slot, has, rfl⟩ := Option.map_eq_some_iff.mp found
    exact inner slot (List.mem_of_find?_eq_some has)

/-- The code reads a segment as it stands: an index fits a `long` and is not followed by a delimiter that
is a digit; a name that is followed by a delimiter has a hash other than 0, and the delimiter is ASCII. -/
def Segment.Readable (s : Segment) (next : Option Segment) : Prop :=
  if s.byIndex then
    s.text.all isdigit = true → decimal s.text < 2 ^ 63 ∧ ∀ n ∈ next, isdigit n.delim = false
  else ∀ n ∈ next, (ifaHash s.text).1 ≠ 0 ∧ n.delim.toNat < 128

def AllReadable : List Segment → Prop
  | [] => True
  | s :: ss => s.text ≠ [] → s.Readable ss.head? ∧ AllReadable ss

def walk (c : Anything S) (segs : List Segment) : Option (Anything S) :=
  if segs.any (fun s => s.text.isEmpty) then none else segs.foldlM childOf c

theorem walk_cons (c : Anything S) (s : Segment) (ss : List Segment) :
    c.walk (s :: ss) = if s.text = [] then none else (c.childOf s).bind fun child => child.walk ss := by
  unfold walk
  rw [List.any_cons, List.foldlM_cons]
  by_cases empty : s.text = []
  · simp [empty]
  · have some : s.text.isEmpty = false := by simpa using empty
    rw [some, Bool.false_or, if_neg empty]
    cases h : c.childOf s with
    | none => simp
    | some child => rfl

section Walk

variable {delimSlot delimIdx : UInt8}

theorem decimalStep_foldl (digits : Bytes) (n : Nat) :
    digits.foldl decimalStep (n % 2 ^ 64) =
      digits.foldl (fun n c => n * 10 + (c.toNat - 48)) n % 2 ^ 64 := by
  induction digits generalizing n with
  | nil => rfl
  | cons c digits ih =>
    rw [List.foldl_cons, List.foldl_cons, ← ih]
    congr 1
    unfold decimalStep
    omega

theorem asLong_decimal {digits : Bytes} (fits : decimal digits < 2 ^ 63) :
    asLong (digits.foldl decimalStep 0) = decimal digits := by
  have value := decimalStep_foldl digits 0
  rw [Nat.zero_mod] at value
  rw [value, ← decimal, Nat.mod_eq_of_lt (by omega), asLong, if_pos fits]

theorem not_delim_of_mem_takeWhile {cs : Bytes} {c : UInt8}
    (member : c ∈ cs.takeWhile fun c => !isDelim delimSlot delimIdx c) : isDelim delimSlot delimIdx c = false := by
  simpa using List.mem_takeWhile_imp member

theorem scanIndex_eq {text tail : Bytes} (some : text ≠ [])
    (inside : ∀ c ∈ text, isDelim delimSlot delimIdx c = false) (stop : atDelim delimSlot delimIdx tail = true)
    (readable : text.all isdigit = true → decimal text < 2 ^ 63 ∧ ∀ c ∈ tail.head?, isdigit c = false) :
    scanIndex delimSlot delimIdx (text ++ tail) =
      if text.all isdigit then Option.some ((decimal text : Int), tail) else none := by
  have start : atDelim delimSlot delimIdx (text ++ tail) = false := by
    cases text with
    | nil => exact (some rfl).elim
    | cons c cs => exact inside c List.mem_cons_self
  unfold scanIndex
  rw [start]
  simp only [Bool.false_eq_true, if_false]
  cases digits : text.all isdigit with
  | true =>
    obtain ⟨fits, next⟩ := readable digits
    rw [List.all_eq_true] at digits
    have taken : (text ++ tail).takeWhile isdigit = text := by
      rw [List.takeWhile_append_of_pos digits]
      cases tail with
      | nil => simp
      | cons c cs => simp [next c rfl]
    have dropped : (text ++ tail).dropWhile isdigit = tail := by
      rw [List.dropWhile_append_of_pos digits]
      cases tail with
      | nil => simp
      | cons c cs => simp [next c rfl]
    rw [taken, dropped, stop, asLong_decimal fits]
  | false =>
    have rest : text.dropWhile isdigit ≠ [] := by
      intro nothing
      rw [List.dropWhile_eq_nil_iff, ← List.all_eq_true] at nothing
      rw [nothing] at digits
      cases digits
    obtain ⟨c, cs, split⟩ := List.exists_cons_of_ne_nil rest
    have member : c ∈ text := (List.dropWhile_sublist isdigit).subset (by rw [split]; exact List.mem_cons_self)
    have dropped : (text ++ tail).dropWhile isdigit = c :: (cs ++ tail) := by
      rw [List.dropWhile_append, split]
      rfl
    rw [dropped, show atDelim delimSlot delimIdx (c :: (cs ++ tail)) = false from inside c member]
    simp

theorem next_segment {tail : Bytes} (stop : atDelim delimSlot delimIdx tail = true) {c : UInt8} (next : c ∈ tail.head?) :
    ∃ n ∈ (delimited delimIdx (splitDelims delimSlot delimIdx tail).2).head?, n.delim = c := by
  cases tail with
  | nil => cases next
  | cons d cs =>
    cases next
    rw [splitDelims_cons stop]
    exact ⟨_, rfl, rfl⟩

theorem lookupName_segment (consistent : c.Consistent) {text tail : Bytes} (some : text ≠ []) (plain : 0 ∉ text)
    (inside : ∀ c ∈ text, isDelim delimSlot delimIdx c = false) (stop : atDelim delimSlot delimIdx tail = true) {d : UInt8}
    (readable : Segment.Readable ⟨d, false, text⟩ (delimited delimIdx (splitDelims delimSlot delimIdx tail).2).head?) :
    c.lookupName (text ++ tail) (ifaHash (text ++ tail) delimSlot delimIdx) =
      .ok ((c.childOf ⟨d, false, text⟩).map fun child => (child, tail)) := by
  have next : ∀ c ∈ tail.head?, (ifaHash text).1 ≠ 0 ∧ c.toNat < 128 := by
    intro c member
    obtain ⟨n, has, rfl⟩ := next_segment stop member
    exact readable n has
  rw [ifaHash_segment plain inside stop fun c member => (next c member).2]
  refine lookupName_eq consistent some plain ?_ d
  intro more
  obtain ⟨c, cs, rfl⟩ := List.exists_cons_of_ne_nil more
  exact (next c rfl).1

theorem lookupStep_eq (consistent : c.Consistent) {d : UInt8} (delim : isDelim delimSlot delimIdx d = true)
    {text tail : Bytes} (plain : 0 ∉ text) (inside : ∀ c ∈ text, isDelim delimSlot delimIdx c = false)
    (stop : atDelim delimSlot delimIdx tail = true)
    (readable : text ≠ [] → Segment.Readable ⟨d, d == delimIdx, text⟩
      (delimited delimIdx (splitDelims delimSlot delimIdx tail).2).head?) :
    lookupStep delimSlot delimIdx c (d :: (text ++ tail)) =
      .ok (if text = [] then none else (c.childOf ⟨d, d == delimIdx, text⟩).map fun child => (child, tail)) := by
  have start : text ≠ [] → atDelim delimSlot delimIdx (text ++ tail) = false := by
    intro some
    obtain ⟨c, cs, rfl⟩ := List.exists_cons_of_ne_nil some
    exact inside c List.mem_cons_self
  by_cases empty : text = []
  · subst empty
    rw [if_pos rfl, List.nil_append]
    unfold lookupStep
    by_cases index : d = delimIdx
    · rw [List.head?_cons, if_pos (congrArg some index), List.tail_cons, scanIndex, if_pos stop]
      rfl
    · have slot : d = delimSlot := by simpa [isDelim, index] using delim
      rw [List.head?_cons, if_neg (fun same => index (Option.some.inj same)), scanName, if_pos slot, if_pos stop]
      rfl
  · rw [if_neg empty]
    have read := readable empty
    unfold lookupStep
    by_cases index : d = delimIdx
    · have byIndex : (d == delimIdx) = true := beq_iff_eq.mpr index
      rw [byIndex] at read ⊢
      have next : text.all isdigit = true → decimal text < 2 ^ 63 ∧ ∀ c ∈ tail.head?, isdigit c = false := by
        intro digits
        refine ⟨(read digits).1, fun c member => ?_⟩
        obtain ⟨n, has, rfl⟩ := next_segment stop member
        exact (read digits).2 n has
      rw [List.head?_cons, if_pos (congrArg some index), List.tail_cons, scanIndex_eq empty inside stop next]
      cases digits : text.all isdigit with
      | true => exact lookupIndex_eq consistent digits tail d
      | false => simp [childOf, digits]; rfl
    · have byName : (d == delimIdx) = false := by simpa using index
      have slot : d = delimSlot := by simpa [isDelim, index] using delim
      rw [byName] at read ⊢
      rw [List.head?_cons, if_neg (fun same => index (Option.some.inj same)), scanName, if_pos slot, start empty]
      exact lookupName_segment consistent empty plain inside stop read

theorem lookupLoop_eq (fuel : Nat) (consistent : c.Consistent) {tok : Bytes} (some : tok ≠ [])
    (stop : atDelim delimSlot delimIdx tok = true) (plain : 0 ∉ tok) (enough : tok.length ≤ fuel)
    (readable : AllReadable (delimited delimIdx (splitDelims delimSlot delimIdx tok).2)) :
    lookupLoop delimSlot delimIdx fuel c tok =
      .ok (c.walk (delimited delimIdx (splitDelims delimSlot delimIdx tok).2)) := by
  induction fuel generalizing c tok with
  | zero => exact (some (List.length_eq_zero_iff.mp (by omega))).elim
  | succ fuel ih =>
    obtain ⟨d, cs, rfl⟩ := List.exists_cons_of_ne_nil some
    obtain ⟨text, own⟩ : ∃ text, text = cs.takeWhile fun c => !isDelim delimSlot delimIdx c := ⟨_, rfl⟩
    obtain ⟨tail, rest⟩ : ∃ tail, tail = cs.dropWhile fun c => !isDelim delimSlot delimIdx c := ⟨_, rfl⟩
    have whole : cs = text ++ tail := by rw [own, rest, List.takeWhile_append_dropWhile]
    have segs : delimited delimIdx (splitDelims delimSlot delimIdx (d :: cs)).2 =
        ⟨d, d == delimIdx, text⟩ :: delimited delimIdx (splitDelims delimSlot delimIdx tail).2 := by
      rw [splitDelims_cons stop, ← own, ← rest]
      rfl
    have stop' : atDelim delimSlot delimIdx tail = true := by rw [rest]; exact atDelim_dropWhile cs
    have plain' : 0 ∉ text ++ tail := by
      rw [← whole]
      exact fun member => plain (List.mem_cons_of_mem _ member)
    rw [segs] at readable ⊢
    rw [lookupLoop, whole, lookupStep_eq consistent stop (fun member => plain' (List.mem_append_left _ member))
      (fun c member => not_delim_of_mem_takeWhile (own ▸ member)) stop' fun more => (readable more).1, walk_cons]
    by_cases empty : text = []
    · rw [if_pos empty, if_pos empty]
      rfl
    · rw [if_neg empty, if_neg empty]
      cases child : c.childOf ⟨d, d == delimIdx, text⟩ with
      | none => rfl
      | some next =>
        simp only [Option.map_some, bind, Except.bind, Option.bind_some]
        by_cases last : tail = []
        · subst last
          rfl
        · rw [if_neg (by simpa using last)]
          refine ih (childOf_consistent consistent child) last stop' (fun member => plain' (List.mem_append_right _ member))
            ?_ (readable empty).2
          rw [whole, List.length_cons, List.length_append] at enough
          omega

theorem findIndex_whole (consistent : c.Consistent) {path : Bytes} (plain : 0 ∉ path) :
    c.findIndex path = c.findIndex path (ifaHash path).2 (ifaHash path).1.toNat := by
  cases consistent with
  | null => rfl
  | simple s => rfl
  | @array impl es agrees inner =>
    by_cases zero : (ifaHash path).1 = 0
    · rw [zero]
      exact (findIndex_noHint impl path _).symm
    · exact (findIndex_hint impl rfl (by rw [ifaHash_length plain, List.take_length]) zero).symm

theorem findIndex_nil (consistent : c.Consistent) : c.findIndex [] = .ok none := by
  cases consistent with
  | null => rfl
  | simple s => rfl
  | @array impl es agrees inner =>
    show impl.findIndex [] = _
    rcases findIndex_ok agrees.toWf [] with absent | ⟨i, _, present⟩
    · exact absent
    · cases keys : impl.fKeys with
      | none =>
        rw [AnyArrayImpl.findIndex, keys]
        rfl
      | some t =>
        rw [AnyArrayImpl.findIndex, keys] at present
        obtain ⟨member, own⟩ := (keyAt_iff agrees.toShape (agrees.keys t keys) (agrees.indexed t keys) (by simp) i).mp present
        have table : impl.stored = contents t.fHashTable := by rw [AnyArrayImpl.stored, keys]
        rw [← table] at member
        obtain ⟨k, has⟩ := (agrees.stored i).mp member
        rw [agrees.key i k has] at own
        exact (k.nonempty own).elim

theorem splitDelims_of_none {path : Bytes} (none : path.any (isDelim delimSlot delimIdx) = false) :
    splitDelims delimSlot delimIdx path = (path, []) := by
  induction path with
  | nil => rfl
  | cons c cs ih =>
    rw [List.any_cons, Bool.or_eq_false_iff] at none
    rw [splitDelims, ih none.2]
    simp [none.1]

theorem pathValue_eq_walk {path : Bytes} (start : path.head? ≠ some delimSlot)
    (more : segments delimSlot delimIdx path ≠ []) :
    c.pathValue path delimSlot delimIdx = c.walk (segments delimSlot delimIdx path) := by
  simp only [pathValue, start, more, false_or, walk]

theorem lookupPath_name (consistent : c.Consistent) {path : Bytes} (plain : 0 ∉ path)
    (none : path.any (isDelim delimSlot delimIdx) = false) :
    c.lookupPath path delimSlot delimIdx = .ok (c.pathValue path delimSlot delimIdx) := by
  have whole := splitDelims_of_none none
  rw [lookupPath, if_pos (.inr (.inr none))]
  by_cases empty : path = []
  · subst empty
    rw [findIndex_nil consistent]
    rfl
  · have segs : segments delimSlot delimIdx path = [⟨delimSlot, false, path⟩] := by
      rw [segments, whole]
      exact if_neg empty
    have start : path.head? ≠ some delimSlot := by
      intro same
      rw [List.any_eq_false] at none
      exact none delimSlot (List.mem_of_mem_head? same) (by simp [isDelim])
    have one := lookupName_eq consistent empty plain (fun more : ([] : Bytes) ≠ [] => (more rfl).elim) delimSlot
    rw [pathValue_eq_walk start (by rw [segs]; exact List.cons_ne_nil _ _), segs, walk_cons, if_neg empty,
      findIndex_whole consistent plain]
    rw [List.append_nil, lookupName] at one
    cases found : c.findIndex path (ifaHash path).2 (ifaHash path).1.toNat with
    | error e =>
      rw [found] at one
      cases one
    | ok index =>
      rw [found] at one
      simp only [bind, Except.bind] at one ⊢
      cases index with
      | none =>
        cases child : c.childOf ⟨delimSlot, false, path⟩ with
        | none => rfl
        | some v =>
          rw [child] at one
          cases one
      | some i =>
        dsimp only at one ⊢
        cases got : c.doGetAt i with
        | error e =>
          rw [got] at one
          cases one
        | ok v =>
          rw [got] at one
          cases child : c.childOf ⟨delimSlot, false, path⟩ with
          | none =>
            rw [child] at one
            cases one
          | some w =>
            rw [child] at one
            have same := congrArg Prod.fst (Option.some.inj (Except.ok.inj one))
            exact congrArg (fun v => Except.ok (Option.some v)) same

end Walk

end Anything

end Coast
