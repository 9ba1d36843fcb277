import Coast.Anything.LookupPath

/-!
# The read-only lookup

`ROAnything::LookupPath` repeats the body of `Anything::LookupPath` with its own access to a slot. Both
are instances of `lookupPathBy`. The path alone decides into which steps it is cut, so a lookup is a
walk along these steps.
-/

namespace Coast

open LinearProbing

namespace Anything

open AnyArrayImpl

variable {S : Type}

/-- `ROAnything::At(long)`. -/
def roAt (c : Anything S) (i : Int) : Exec (Anything S) :=
  if 0 ≤ i ∧ i < c.getSize then
    match c with
    | .array impl => impl.atSlotConst i.toNat
    | .simple s => return .simple s
    | .null => return .null
  else return .null

section Body

variable (access : Anything S → Int → Exec (Anything S)) (delimSlot delimIdx : UInt8)

def lookupIndexBy (c : Anything S) (lIdx : Int) (tail : Bytes) : Exec (Option (Anything S × Bytes)) := do
  if lIdx ≥ c.getSize then return none
  else
    let child ← access c lIdx
    if child.isNull then return none else return some (child, tail)

def lookupNameBy (c : Anything S) (key : Bytes) (hashed : Int × Nat) : Exec (Option (Anything S × Bytes)) := do
  match ← c.findIndex key hashed.2 hashed.1.toNat with
  | none => return none
  | some lIdx => do
    let child ← access c lIdx
    return some (child, key.drop hashed.2)

def lookupStepBy (c : Anything S) (tok : Bytes) : Exec (Option (Anything S × Bytes)) :=
  if tok.head? = some delimIdx then
    match scanIndex delimSlot delimIdx tok.tail with
    | none => return none
    | some (lIdx, tail) => lookupIndexBy access c lIdx tail
  else
    match scanName delimSlot delimIdx tok with
    | none => return none
    | some key => lookupNameBy access c key (ifaHash key delimSlot delimIdx)

def lookupLoopBy : Nat → Anything S → Bytes → Exec (Option (Anything S))
  | 0, _, _ => return none
  | fuel + 1, c, tok => do
    match ← lookupStepBy access delimSlot delimIdx c tok with
    | none => return none
    | some (child, tail) => if tail.isEmpty then return some child else lookupLoopBy fuel child tail

def lookupPathBy (c : Anything S) (path : Bytes) : Exec (Option (Anything S)) :=
  if delimSlot = 0 ∨ delimIdx = 0 ∨ path.any (isDelim delimSlot delimIdx) = false then do
    match ← c.findIndex path with
    | none => return none
    | some lIdx => do
      let child ← access c lIdx
      return some child
  else if path.head? = some delimSlot then return none
  else lookupLoopBy access delimSlot delimIdx path.length c path

end Body

/-- `ROAnything::LookupPath`. -/
def roLookupPath (c : Anything S) (path : Bytes) (delimSlot delimIdx : UInt8) : Exec (Option (Anything S)) :=
  lookupPathBy roAt delimSlot delimIdx c path

theorem lookupLoop_eq_by (delimSlot delimIdx : UInt8) (fuel : Nat) (c : Anything S) (tok : Bytes) :
    lookupLoop delimSlot delimIdx fuel c tok = lookupLoopBy doGetAt delimSlot delimIdx fuel c tok := by
  induction fuel generalizing c tok with
  | zero => rfl
  | succ fuel ih => simp only [lookupLoop, lookupLoopBy, ← ih]; rfl

theorem lookupPath_eq_by (c : Anything S) (path : Bytes) (delimSlot delimIdx : UInt8) :
    c.lookupPath path delimSlot delimIdx = lookupPathBy doGetAt delimSlot delimIdx c path := by
  rw [lookupPath, lookupPathBy, lookupLoop_eq_by] <;> rfl

/-! ### The steps of a path -/

inductive Step where
  | index (i : Int)
  | name (key : Bytes) (sizehint : Int) (hashhint : Nat)

/-- An index that the `long` accumulator has turned negative. -/
def Step.negative : Step → Bool
  | .index i => decide (i < 0)
  | .name .. => false

def scanStep (delimSlot delimIdx : UInt8) (tok : Bytes) : Option (Step × Bytes) :=
  if tok.head? = some delimIdx then
    (scanIndex delimSlot delimIdx tok.tail).map fun (lIdx, tail) => (.index lIdx, tail)
  else
    (scanName delimSlot delimIdx tok).map fun key =>
      let hashed := ifaHash key delimSlot delimIdx
      (.name key hashed.2 hashed.1.toNat, key.drop hashed.2)

def scanSteps (delimSlot delimIdx : UInt8) : Nat → Bytes → Option (List Step)
  | 0, _ => none
  | fuel + 1, tok =>
    match scanStep delimSlot delimIdx tok with
    | none => none
    | some (s, tail) => if tail.isEmpty then some [s] else (scanSteps delimSlot delimIdx fuel tail).map (s :: ·)

/-- The steps of a path; `none` if it is malformed. -/
def scanPath (delimSlot delimIdx : UInt8) (path : Bytes) : Option (List Step) :=
  if delimSlot = 0 ∨ delimIdx = 0 ∨ path.any (isDelim delimSlot delimIdx) = false then some [.name path (-1) 0]
  else if path.head? = some delimSlot then none
  else scanSteps delimSlot delimIdx path.length path

def slotValue (c : Anything S) (i : Nat) : Anything S :=
  match c with
  | .array impl => (impl.assocOf i).fValue
  | c => c

def Step.child (c : Anything S) : Step → Option (Anything S)
  | .index i => if i < c.getSize ∧ (c.slotValue i.toNat).isNull = false then some (c.slotValue i.toNat) else none
  | .name key sizehint hashhint =>
    match c.findIndex key sizehint hashhint with
    | .ok (some i) => some (c.slotValue i)
    | _ => none

def Step.childInRange (c : Anything S) (s : Step) : Option (Anything S) := if s.negative then none else s.child c

/-! ### One step -/

/-- The arrays are well formed, at every depth. -/
inductive Sound : Anything S → Prop
  | null : Sound .null
  | simple (s : S) : Sound (.simple s)
  | array {impl : AnyArrayImpl (Anything S)} (wf : impl.Wf) (inner : ∀ pos, Sound (impl.assocAt pos).fValue) :
      Sound (.array impl)

variable {c : Anything S}

theorem Sound.slotValue (sound : c.Sound) (i : Nat) : (c.slotValue i).Sound := by
  cases sound with
  | null => exact .null
  | simple s => exact .simple s
  | @array impl wf inner => exact inner (impl.cellOf i)

theorem Sound.child (sound : c.Sound) {s : Step} {d : Anything S} (has : s.child c = some d) : d.Sound := by
  cases s with
  | index i =>
    rw [Step.child] at has
    split at has
    · cases has
      exact sound.slotValue _
    · cases has
  | name key sizehint hashhint =>
    rw [Step.child] at has
    split at has
    · cases has
      exact sound.slotValue _
    · cases has

theorem findIndex_hint_ok {V : Type} [Inhabited V] {a : AnyArrayImpl V} (wf : a.Wf) (key : Bytes) (sizehint : Int)
    (hashhint : Nat) : ∃ r, a.findIndex key sizehint hashhint = .ok r ∧ ∀ i ∈ r, i < a.fSize := by
  cases keys : a.fKeys with
  | none =>
    refine ⟨none, ?_, fun i member => by cases member⟩
    rw [AnyArrayImpl.findIndex, keys]
    rfl
  | some t =>
    have twf := wf.keys t keys
    have pos : 0 < t.fCapacity := Nat.lt_of_lt_of_le (by decide) twf.capacity
    have ends : ∃ r, a.doHash t key false sizehint hashhint = .ok r := by
      by_cases given : hashhint = 0
      · subst given
        exact ⟨_, doHash_eq wf.toShape twf.length pos twf.bound key false⟩
      · have cap : (0 : Int) < t.fCapacity := by omega
        have nonneg := Int.tmod_nonneg (t.fCapacity : Int) (show (0 : Int) ≤ hashhint by omega)
        have below := Int.tmod_lt_of_pos (hashhint : Int) cap
        have start : ((hashhint : Int).tmod t.fCapacity).toNat < t.fCapacity := by omega
        have loop := doHashLoop_eq wf.toShape twf.bound key sizehint false start t.fCapacity 0 (by omega) pos
        rw [Nat.add_zero, Nat.mod_eq_of_lt start] at loop
        refine ⟨_, Eq.trans ?_ loop⟩
        simp only [doHash, ne_eq, given, not_false_eq_true, if_true]
        rw [if_neg (by omega)]
    obtain ⟨r, hashed⟩ := ends
    rw [AnyArrayImpl.findIndex, keys]
    cases r with
    | none =>
      refine ⟨none, ?_, fun i member => by cases member⟩
      simp only [keyAt, hashed, bind, Except.bind]
      rfl
    | some p =>
      cases cell : t.fHashTable.getD p .free with
      | used slot =>
        refine ⟨some slot, ?_, ?_⟩
        · simp only [keyAt, hashed, bind, Except.bind, cell]
          rfl
        · intro i member
          cases member
          exact twf.bound _ (mem_contents.mpr ⟨p, getElem?_of_getD_used cell⟩)
      | free =>
        refine ⟨none, ?_, fun i member => by cases member⟩
        simp only [keyAt, hashed, bind, Except.bind, cell]
        rfl
      | deleted =>
        refine ⟨none, ?_, fun i member => by cases member⟩
        simp only [keyAt, hashed, bind, Except.bind, cell]
        rfl

theorem doGetAt_eq (sound : c.Sound) (i : Int) : c.doGetAt i = .ok (c.slotValue i.toNat) := by
  cases sound with
  | null => rfl
  | simple s => rfl
  | @array impl wf inner =>
    obtain ⟨a, reached, shape, same, size, _⟩ := atSlot_spec wf.toShape i.toNat
    have cell : impl.cellOf i.toNat < a.fCapacity := by
      rw [← same.cellOf]
      exact shape.cellOf_lt (by omega)
    simp only [doGetAt, reached, bind, Except.bind, shape.cell_ok cell, same.assocAt]
    rfl

theorem roAt_eq (sound : c.Sound) {i : Int} (nonneg : 0 ≤ i) (inside : i < c.getSize) :
    c.roAt i = .ok (c.slotValue i.toNat) := by
  unfold roAt
  rw [if_pos ⟨nonneg, inside⟩]
  cases sound with
  | null => rfl
  | simple s => rfl
  | @array impl wf inner =>
    have below : i.toNat < impl.fSize := by
      have : i < impl.fSize := inside
      omega
    rw [show (Anything.array impl).slotValue i.toNat = (impl.assocOf i.toNat).fValue from rfl, ← atSlotConst_ok wf.toShape below]

theorem roAt_negative {i : Int} (negative : i < 0) : c.roAt i = .ok .null := by
  unfold roAt
  rw [if_neg (by omega)]
  rfl

structure Follows (access : Anything S → Int → Exec (Anything S)) (child : Anything S → Step → Option (Anything S)) :
    Prop where
  slot : ∀ c : Anything S, c.Sound → ∀ i : Nat, i < c.getSize → access c i = .ok (c.slotValue i)
  index : ∀ c : Anything S, c.Sound → ∀ (lIdx : Int) (tail : Bytes), lookupIndexBy access c lIdx tail =
    .ok ((child c (.index lIdx)).map fun d => (d, tail))
  name : ∀ (c : Anything S) (key : Bytes) (sizehint : Int) (hashhint : Nat),
    child c (.name key sizehint hashhint) = Step.child c (.name key sizehint hashhint)
  sound : ∀ c : Anything S, c.Sound → ∀ (s : Step) (d : Anything S), child c s = some d → d.Sound

theorem follows_doGetAt : Follows (S := S) doGetAt Step.child := by
  refine ⟨fun c sound i _ => doGetAt_eq sound i, ?_, fun _ _ _ _ => rfl, fun c sound s d has => sound.child has⟩
  intro c sound lIdx tail
  rw [lookupIndexBy, Step.child, doGetAt_eq sound]
  by_cases inside : lIdx < c.getSize
  · rw [if_neg (by omega)]
    cases null : (c.slotValue lIdx.toNat).isNull with
    | true => simp [null, bind, Except.bind]; rfl
    | false => simp [null, bind, Except.bind, inside]; rfl
  · rw [if_pos (by omega), if_neg (fun both => inside both.1)]
    rfl

theorem follows_roAt : Follows (S := S) roAt Step.childInRange := by
  refine ⟨fun c sound i inside => ?_, ?_, fun _ _ _ _ => rfl, ?_⟩
  · exact roAt_eq sound (by omega) (by omega)
  · intro c sound lIdx tail
    rw [Step.childInRange, Step.negative]
    by_cases negative : lIdx < 0
    · rw [lookupIndexBy, if_neg (by omega), roAt_negative negative, if_pos (by simpa using negative)]
      rfl
    · rw [if_neg (by simpa using negative), ← follows_doGetAt.index c sound]
      by_cases inside : lIdx < c.getSize
      · rw [lookupIndexBy, lookupIndexBy, roAt_eq sound (by omega) inside, doGetAt_eq sound]
      · rw [lookupIndexBy, lookupIndexBy, if_pos (by omega), if_pos (by omega)]
  · intro c sound s d has
    rw [Step.childInRange] at has
    split at has
    · cases has
    · exact sound.child has

/-! ### Whole paths -/

section Walk

variable {access : Anything S → Int → Exec (Anything S)} {child : Anything S → Step → Option (Anything S)}
  {delimSlot delimIdx : UInt8}

theorem findIndex_sound (sound : c.Sound) (key : Bytes) (sizehint : Int) (hashhint : Nat) :
    ∃ r, c.findIndex key sizehint hashhint = .ok r ∧ ∀ i ∈ r, i < c.getSize := by
  cases sound with
  | null => exact ⟨none, rfl, fun i member => by cases member⟩
  | simple s => exact ⟨none, rfl, fun i member => by cases member⟩
  | @array impl wf inner => exact findIndex_hint_ok wf key sizehint hashhint

theorem lookupStepBy_eq (follows : Follows access child) (sound : c.Sound) (tok : Bytes) :
    lookupStepBy access delimSlot delimIdx c tok =
      .ok ((scanStep delimSlot delimIdx tok).bind fun s => (child c s.1).map fun d => (d, s.2)) := by
  unfold lookupStepBy scanStep
  split
  · cases scanIndex delimSlot delimIdx tok.tail with
    | none => rfl
    | some read => exact follows.index c sound read.1 read.2
  · cases scanName delimSlot delimIdx tok with
    | none => rfl
    | some key =>
      simp only [Option.map_some, Option.bind_some, follows.name, Step.child, lookupNameBy]
      obtain ⟨r, found, inside⟩ := findIndex_sound sound key (ifaHash key delimSlot delimIdx).2
        (ifaHash key delimSlot delimIdx).1.toNat
      rw [found]
      cases r with
      | none => rfl
      | some i =>
        simp only [bind, Except.bind, follows.slot c sound i (inside i rfl)]
        rfl

theorem lookupLoopBy_eq (follows : Follows access child) (fuel : Nat) (sound : c.Sound) (tok : Bytes) :
    lookupLoopBy access delimSlot delimIdx fuel c tok =
      .ok ((scanSteps delimSlot delimIdx fuel tok).bind fun steps => steps.foldlM child c) := by
  induction fuel generalizing c tok with
  | zero => rfl
  | succ fuel ih =>
    rw [lookupLoopBy, lookupStepBy_eq follows sound, scanSteps]
    cases scanStep delimSlot delimIdx tok with
    | none => rfl
    | some read =>
      obtain ⟨s, tail⟩ := read
      simp only [Option.bind_some, bind, Except.bind]
      cases has : child c s with
      | none =>
        simp only [Option.map_none]
        split
        · simp [has]
          rfl
        · cases scanSteps delimSlot delimIdx fuel tail with
          | none => rfl
          | some steps => simp [has]; rfl
      | some d =>
        simp only [Option.map_some]
        split
        · simp [has]
          rfl
        · rw [ih (follows.sound c sound s d has)]
          cases scanSteps delimSlot delimIdx fuel tail with
          | none => rfl
          | some steps => simp [has]

theorem lookupPathBy_eq (follows : Follows access child) (sound : c.Sound) (path : Bytes) :
    lookupPathBy access delimSlot delimIdx c path =
      .ok ((scanPath delimSlot delimIdx path).bind fun steps => steps.foldlM child c) := by
  unfold lookupPathBy scanPath
  split
  · obtain ⟨r, found, inside⟩ := findIndex_sound sound path (-1) 0
    simp only [found, bind, Except.bind, Option.bind_some, List.foldlM_cons, List.foldlM_nil, follows.name, Step.child]
    cases r with
    | none => rfl
    | some i =>
      simp only [follows.slot c sound i (inside i rfl)]
      rfl
  · split
    · rfl
    · exact lookupLoopBy_eq follows path.length sound path

theorem foldlM_childInRange (steps : List Step) (c : Anything S) :
    steps.foldlM Step.childInRange c = if steps.any Step.negative then none else steps.foldlM Step.child c := by
  induction steps generalizing c with
  | nil => rfl
  | cons s steps ih =>
    rw [List.foldlM_cons, List.foldlM_cons, List.any_cons, Step.childInRange]
    cases s.negative with
    | true => rfl
    | false =>
      simp only [Bool.false_eq_true, if_false, Bool.false_or]
      cases s.child c with
      | none => simp
      | some d => exact ih d

end Walk

/-- The two lookups agree exactly when the path has no negative index, or reading it as 0 leads nowhere. -/
theorem roLookupPath_agrees_iff (sound : c.Sound) (path : Bytes) (delimSlot delimIdx : UInt8) :
    (∃ r, c.lookupPath path delimSlot delimIdx = .ok r ∧ c.roLookupPath path delimSlot delimIdx = .ok r) ↔
      ∀ steps, scanPath delimSlot delimIdx path = some steps → steps.any Step.negative = true →
        steps.foldlM Step.child c = none := by
  rw [lookupPath_eq_by, roLookupPath, lookupPathBy_eq follows_doGetAt sound, lookupPathBy_eq follows_roAt sound]
  cases scanPath delimSlot delimIdx path with
  | none => simp
  | some steps =>
    simp only [Option.bind_some, foldlM_childInRange, Except.ok.injEq, Option.some.injEq, forall_eq', existsAndEq,
      true_and]
    cases steps.any Step.negative with
    | true => simp [eq_comm]
    | false => simp

theorem roLookupPath_agrees_index :
    ∃ impl : AnyArrayImpl (Anything Nat),
      Runs.run Action.apply [.edit (.append (.simple 7))] new = .ok impl ∧ (Anything.array impl).Sound ∧
        ((∃ r, (Anything.array impl).lookupPath (ascii ":0") 46 58 = .ok r ∧
            (Anything.array impl).roLookupPath (ascii ":0") 46 58 = .ok r) ↔
          ∀ steps, scanPath 46 58 (ascii ":0") = some steps → steps.any Step.negative = true →
            steps.foldlM Step.child (Anything.array impl) = none) := by
  obtain ⟨impl, done, wf⟩ := Edit.apply_ok (wf_new (V := Anything Nat))
    (show (Edit.append (.simple 7)).InContract new from trivial) trivial
  have contents : impl.fContents = [⟨.simple 7, []⟩, blank, blank, blank] := by
    rw [← Except.ok.inj (Eq.trans rfl done)]
    rfl
  have sound : (Anything.array impl).Sound := by
    refine .array wf fun pos => ?_
    rw [assocAt, contents]
    obtain _ | _ | _ | _ | pos := pos
    · exact .simple 7
    all_goals exact .null
  refine ⟨impl, ?_, sound, roLookupPath_agrees_iff sound _ _ _⟩
  rw [Runs.run, Action.apply, done]
  rfl

/-- The index 2^63 is read as a negative number, which is the slot 0 for one lookup and no slot for the other. -/
theorem roLookupPath_overflow :
    ∃ impl : AnyArrayImpl (Anything Nat),
      Runs.run Action.apply [.edit (.append (.simple 7))] new = .ok impl ∧
        (Anything.array impl).lookupPath (ascii ":9223372036854775808") 46 58 = .ok (some (.simple 7)) ∧
        (Anything.array impl).roLookupPath (ascii ":9223372036854775808") 46 58 = .ok none :=
  ⟨_, rfl, rfl, rfl⟩

end Anything

end Coast
