import Coast.Graph.Cut
import Coast.Text.Reference

/-!
# Import

The parser makes a node for every place of the text, and an array of names and indices in the place of
a reference. `ParserXrefHandler::Patch` then replaces these by the nodes that they lead to.
-/

namespace Coast

open Anything (Key Entries)
open AnythingToken AnythingParser
open Graphs

variable {D α β : Type}

/-! ### The nodes of a value -/

namespace AnyTree

def find : AnyTree D → List Nat → Option (AnyTree D)
  | v, [] => some v
  | .array slots, i :: place => slots[i]?.bind fun e => find e.2 place
  | _, _ :: _ => none

def handle (place : List Nat) : AnyTree D → Option (List Nat)
  | .null => none
  | _ => some place

def cell (place : List Nat) : AnyTree D → Cell (Scalar D) (Option Key) (List Nat)
  | .null => .branch []
  | .long n => .leaf (.long n)
  | .double d => .leaf (.double d)
  | .string s => .leaf (.string s)
  | .vbuf b => .leaf (.vbuf b)
  | .object p => .leaf (.object p)
  | .array slots => .branch (slots.mapIdx fun i e => (e.1, e.2.handle (place ++ [i])))

/-- The heap in which the address of a node is its place in the value. -/
def heap (v : AnyTree D) : AnyHeap D (List Nat) := fun place => ((v.find place).getD .null).cell place

end AnyTree

/-! ### Patching -/

def resolveToAnyLevel (heap : AnyHeap D β) (result : Option β) (level : Option Level) : Option β := do
  let a ← result
  let lIdx ← (← level).findIndex (heap a).slots
  let slot ← (heap a).slots[lIdx]?
  slot.2

/-- The entries of a level, as they stand in an `Anything`. -/
def levelsOf (heap : AnyHeap D β) : Option β → List (Option Level)
  | none => []
  | some a =>
    match heap a with
    | .leaf s => [s.level]
    | .branch slots => slots.map fun e => e.2.bind fun b =>
      match heap b with
      | .leaf s => s.level
      | .branch _ => none

/-- `operator[]`, which makes the slot if there is none, and an assignment to the slot. -/
def atLevel (slots : Entries (Option β)) (l : Level) (value : Option (Option β)) : Entries (Option β) :=
  match l with
  | .key k => Entries.apply ((Key.ofText k).elim (.atSlot slots.length value) (.atKey · value)) slots
  | .index i => Entries.apply (.atSlot i.toInt.toNat value) slots

def getLevel (slots : Entries (Option β)) (l : Level) : Option β :=
  (l.findIndex slots).bind fun i => slots[i]?.bind Prod.snd

/-- One iteration of `ParserXrefHandler::Patch`. If the slot is not in an array, the assignment is to
an array of its own. -/
def patch [DecidableEq β] (any : Option β) (heap : AnyHeap D β) (xref : Patch) : AnyHeap D β :=
  match (xref.level.map some).foldl (resolveToAnyLevel heap) any with
  | none => heap
  | some preslot =>
    match heap preslot with
    | .leaf _ => heap
    | .branch slots =>
      let slots := atLevel slots xref.slot none
      match (levelsOf heap (getLevel slots xref.slot)).foldl (resolveToAnyLevel heap) any with
      | none => Function.update heap preslot (.branch slots)
      | some ref => Function.update heap preslot (.branch (atLevel slots xref.slot (some (some ref))))

/-- `DoParse`: whether all was well, the heap, and the handle of the value. -/
def importAny (env : Environment D) (st : ParserState) : Option (Bool × AnyHeap D (List Nat) × Option (List Nat)) := do
  let (ok, v, st) ← doParse env st
  return (ok, st.xrefs.foldl (patch (v.handle [])) v.heap, v.handle [])

/-! ### Reading the text of a tree -/

namespace CutTree

mutual

def placed : CutTree D α → AnyTree D
  | .null => .null
  | .ref first => Level.toAny (first.map Prod.snd)
  | .leaf _ s => s.toTree
  | .array _ slots => .array (placedSlots slots)

def placedSlots : List (Option Key × CutTree D α) → Slots D
  | [] => []
  | (key, t) :: slots => (key, placed t) :: placedSlots slots

end

mutual

/-- The patches for what stands in slot `l` of the array at a level. -/
def patches (level : List Level) (l : Level) : CutTree D α → List Patch
  | .ref _ => [⟨level, l⟩]
  | .array _ slots => patchesFrom (level ++ [l]) 0 slots
  | _ => []

def patchesFrom (level : List Level) (i : Nat) : List (Option Key × CutTree D α) → List Patch
  | [] => []
  | (key, t) :: slots => patches level (.ofSlot key i) t ++ patchesFrom level (i + 1) slots

end

def Plain (erange : Bool) : CutTree D α → Prop
  | .null => True
  | .ref first => first ≠ [] ∧ ∀ s ∈ first, s.2.Safe
  | .leaf _ s => s.isDouble = false ∧ (erange = false ∨ s.isNumber = false)
  | .array _ slots => (slots.filterMap Prod.fst).Nodup

def Readable (erange : Bool) (t : CutTree D α) : Prop := ∀ place u, t.find place = some u → u.Plain erange

theorem Readable.slot {erange : Bool} {id : α} {slots : List (Option Key × CutTree D α)}
    (readable : Readable erange (.array id slots)) : ∀ e ∈ slots, Readable erange e.2 := by
  rintro ⟨key, t⟩ mem place u found
  obtain ⟨i, here⟩ := List.getElem?_of_mem mem
  refine readable ((i, .ofSlot key i) :: place) u ?_
  rw [find, here]
  simpa using found

end CutTree

theorem Scalar.printable {s : Scalar D} (single : s.isDouble = false) : Printable s.toTree := by
  cases s with
  | long n => exact .long n
  | double d => cases single
  | string s => exact .string s
  | vbuf b => exact .vbuf b
  | object p => exact .object p

theorem Scalar.simple (s : Scalar D) (slots : Slots D) : s.toTree ≠ .array slots := by
  cases s <;> nofun

theorem Scalar.asRead_eq {s : Scalar D} {erange : Bool} (kept : erange = false ∨ s.isNumber = false) :
    asRead erange s.toTree = (s.toTree, erange) := by
  rcases kept with rfl | other
  · exact asRead_false _
  · cases s with
    | long n => cases other
    | object p => cases other
    | _ => rfl

theorem slotLevel_eq (key : Option Key) (any : Slots D) : slotLevel key any = .ofSlot key any.length := by
  cases key <;> rfl

theorem follows_newline (text : Bytes) (v : AnyTree D) : Follows (newline true ++ text) v := by
  have delimited : Delimited (newline true ++ text) := delimited_cons (by decide) (by decide) _
  cases v with
  | long n => exact delimited
  | object p => exact (delimiter_ends delimited.1).1
  | _ => trivial

theorem doParseSequence_ref (env : Environment D) (level : Nat) {key : Option Key} {any : Slots D} (ok : Bool)
    {st : ParserState} (fuel : Nat) {first : List Step} (some : first ≠ []) (safe : ∀ s ∈ first, s.2.Safe) {rest : Bytes}
    (fresh : ∀ k ∈ key, k ∉ any.filterMap Prod.fst)
    (here : st.context = ⟨tab true level ++ (printName key ++ (printReference (first.map Prod.snd) ++ rest)), true⟩) :
    doParseSequence env (fuel + 1) st.next.1 any ok st.next.2 =
      loop (doParseSequence env fuel) (any ++ [(key, Level.toAny (first.map Prod.snd))]) ok
        { st with context := ⟨rest, true⟩, xrefs := st.xrefs ++ [⟨st.level, .ofSlot key any.length⟩] } := by
  have safe' : ∀ l ∈ first.map Prod.snd, Level.Safe l := by
    intro l mem
    obtain ⟨s, step, rfl⟩ := List.mem_map.mp mem
    exact safe s step
  have path := Level.ofPath_pathText safe' st.erange
  have scanned : { st with context := ⟨printReference (first.map Prod.snd) ++ rest, true⟩ }.next =
      (⟨.ref, Level.pathText (first.map Prod.snd)⟩, { st with context := ⟨rest, true⟩ }) := by
    refine ParserState.next_eq ?_
    rw [printReference, List.append_assoc, List.singleton_append]
    exact next_reference safe' (by simpa using some) rest
  rw [ParserState.next_spaces (tab_spaces true level) here, doParseSequence]
  rcases key with _ | k
  · rw [printName, List.nil_append, scanned]
    simp only [parseToken, path]
    rfl
  · rw [printName, parseToken_name, scanned]
    simp only [parseKeyed, path, assignKey_new (fresh k rfl)]
    rfl

def ReadsCut (env : Environment D) (erange : Bool) (slots : List (Option Key × CutTree D α)) : Prop :=
  ∀ (level close : Nat) (any : Slots D) (ok : Bool) (st : ParserState) (fuel : Nat) (rest : Bytes),
    (any.filterMap Prod.fst ++ slots.filterMap Prod.fst).Nodup → st.erange = erange →
    st.context = ⟨CutTree.printAll env level slots ++ (tab true close ++ '}'.toUInt8 :: rest), true⟩ →
    (CutTree.printAll env level slots).length < fuel →
    doParseSequence env fuel st.next.1 any ok st.next.2 =
      some (ok, any ++ CutTree.placedSlots slots,
        { st with context := ⟨rest, true⟩, xrefs := st.xrefs ++ CutTree.patchesFrom st.level any.length slots })

theorem doParseSequence_cut (env : Environment D) (level : Nat) {key : Option Key} {t : CutTree D α} {st : ParserState}
    (readable : t.Readable st.erange) (inner : ∀ id slots, t = .array id slots → ReadsCut env st.erange slots)
    {any : Slots D} (ok : Bool) (fuel : Nat) {text : Bytes} (fresh : ∀ k ∈ key, k ∉ any.filterMap Prod.fst)
    (here : st.context = ⟨tab true level ++ (printName key ++ (t.print env level ++ (newline true ++ text))), true⟩)
    (enough : (t.print env level).length ≤ fuel + 1) :
    doParseSequence env (fuel + 1) st.next.1 any ok st.next.2 =
      loop (doParseSequence env fuel) (any ++ [(key, t.placed)]) ok
        { st with
          context := ⟨newline true ++ text, true⟩
          xrefs := st.xrefs ++ CutTree.patches st.level (.ofSlot key any.length) t } := by
  have plain := readable [] t rfl
  have simple : ∀ v : AnyTree D, Printable v → (∀ slots, v ≠ .array slots) → asRead st.erange v = (v, st.erange) →
      t.print env level = printAny env true level v → t.placed = v → CutTree.patches st.level (.ofSlot key any.length) t = [] →
      doParseSequence env (fuel + 1) st.next.1 any ok st.next.2 =
        loop (doParseSequence env fuel) (any ++ [(key, t.placed)]) ok
          { st with
            context := ⟨newline true ++ text, true⟩
            xrefs := st.xrefs ++ CutTree.patches st.level (.ofSlot key any.length) t } := by
    intro v printable simple kept text' placed none
    rw [text'] at here
    obtain ⟨tok, context, scanned, left, kind, value⟩ :=
      next_simple env true level printable simple (follows_newline text v)
    rw [left (by simp [newline])] at scanned
    have next : { st with context := ⟨printAny env true level v ++ (newline true ++ text), true⟩ }.next =
        (tok, { st with context := ⟨newline true ++ text, true⟩ }) := ParserState.next_eq scanned
    have read : parseValue env (doParseSequence env fuel) (key.map Key.text)
        { st with context := ⟨printAny env true level v ++ (newline true ++ text), true⟩ }.next.1 any ok
        { st with context := ⟨printAny env true level v ++ (newline true ++ text), true⟩ }.next.2 = _ :=
      parseValue_simple env _ ok fresh scanned kind (value st.erange)
    rw [doParseSequence_slot env true level key _ any ok fuel here (by rw [next]; exact Or.inl kind), read, kept,
      placed, none, List.append_nil]
  cases t with
  | null =>
    refine simple .null .null ?_ rfl rfl rfl rfl
    rintro _ ⟨⟩
  | leaf id s => exact simple s.toTree (Scalar.printable plain.1) s.simple (Scalar.asRead_eq plain.2) rfl rfl rfl
  | ref first => exact doParseSequence_ref env level ok fuel plain.1 plain.2 fresh here
  | array id slots =>
    have opened : (CutTree.array id slots).print env level ++ (newline true ++ text) =
        '{'.toUInt8 :: (newline true ++ (CutTree.printAll env (level + 1) slots ++
          (tab true level ++ '}'.toUInt8 :: (newline true ++ text)))) := by
      simp only [CutTree.print, printBraces, List.append_assoc, List.cons_append, List.nil_append]
    rw [opened] at here
    have brace : { st with context := ⟨'{'.toUInt8 :: (newline true ++ (CutTree.printAll env (level + 1) slots ++
        (tab true level ++ '}'.toUInt8 :: (newline true ++ text)))), true⟩ }.next =
        (⟨.lbrace, ['{'.toUInt8]⟩, { st with context := ⟨newline true ++ (CutTree.printAll env (level + 1) slots ++
          (tab true level ++ '}'.toUInt8 :: (newline true ++ text))), true⟩ }) := ParserState.next_eq rfl
    have shorter : (CutTree.printAll env (level + 1) slots).length < fuel := by
      simp only [CutTree.print, printBraces, List.length_append, List.length_cons] at enough
      omega
    rw [doParseSequence_slot env true level key _ any ok fuel here (by rw [brace]; exact Or.inr rfl), brace, parseValue,
      if_pos rfl]
    refine parseNested_inside ok fresh ?_
    rw [ParserState.next_spaces (newline_spaces true) rfl]
    have read := inner id slots rfl (level + 1) level [] true
      { st.push (.ofSlot key any.length) with context := ⟨CutTree.printAll env (level + 1) slots ++
        (tab true level ++ '}'.toUInt8 :: (newline true ++ text)), true⟩ } fuel (newline true ++ text) plain rfl rfl shorter
    rw [slotLevel_eq]
    exact read

theorem print_ne_nil (env : Environment D) (level : Nat) {erange : Bool} {t : CutTree D α} (plain : t.Plain erange) :
    0 < (t.print env level).length := by
  cases t with
  | leaf id s => exact printAny_ne_nil env true level (Scalar.printable plain.1)
  | null => simp [CutTree.print]
  | ref first => simp [CutTree.print, printReference]
  | array id slots => simp [CutTree.print, printBraces]

theorem readsCut_slots (env : Environment D) {erange : Bool} {slots : List (Option Key × CutTree D α)}
    (readable : ∀ e ∈ slots, e.2.Readable erange)
    (inner : ∀ e ∈ slots, ∀ id inner, e.2 = .array id inner → ReadsCut env erange inner) : ReadsCut env erange slots := by
  induction slots with
  | nil =>
    intro level close any ok st fuel rest _ _ here enough
    obtain ⟨fuel, rfl⟩ := Nat.exists_eq_succ_of_ne_zero (Nat.ne_of_gt enough)
    rw [ParserState.next_spaces (tab_spaces true close) here, CutTree.placedSlots, CutTree.patchesFrom, List.append_nil,
      List.append_nil]
    rfl
  | cons e slots ih =>
    obtain ⟨key, t⟩ := e
    rintro level close any ok st fuel rest distinct rfl here enough
    obtain ⟨fuel, rfl⟩ := Nat.exists_eq_succ_of_ne_zero (Nat.ne_of_gt (Nat.lt_of_le_of_lt (Nat.zero_le _) enough))
    have own : t.Readable st.erange := readable (key, t) (List.mem_cons_self ..)
    have nonempty := print_ne_nil env level (own [] t rfl)
    simp only [CutTree.printAll, printSlot, List.length_append] at enough
    simp only [CutTree.printAll, printSlot, List.append_assoc] at here
    have fresh : ∀ k ∈ key, k ∉ any.filterMap Prod.fst := by
      rintro k rfl mem
      exact List.disjoint_of_nodup_append distinct mem (by simp)
    have names : (any ++ [(key, t.placed)]).filterMap Prod.fst ++ slots.filterMap Prod.fst =
        any.filterMap Prod.fst ++ ((key, t) :: slots).filterMap Prod.fst := by
      cases key <;> simp [List.filterMap_append]
    have continued := ih (fun e mem => readable e (List.mem_cons_of_mem _ mem))
      (fun e mem => inner e (List.mem_cons_of_mem _ mem)) level close (any ++ [(key, t.placed)]) ok
      { st with
        context := ⟨CutTree.printAll env level slots ++ (tab true close ++ '}'.toUInt8 :: rest), true⟩
        xrefs := st.xrefs ++ CutTree.patches st.level (.ofSlot key any.length) t } fuel rest
      (by rw [names]; exact distinct) rfl rfl (by omega)
    rw [doParseSequence_cut env level own (inner (key, t) (List.mem_cons_self ..)) ok fuel fresh here (by omega),
      loop_spaces _ _ _ (newline_spaces true) rfl, continued]
    simp only [CutTree.placedSlots, CutTree.patchesFrom, List.append_assoc, List.singleton_append, List.length_append,
      List.length_singleton]

theorem readsCut (env : Environment D) {erange : Bool} (t : CutTree D α) :
    t.Readable erange → ∀ id slots, t = .array id slots → ReadsCut env erange slots := by
  induction t using CutTree.induct with
  | simple t simple =>
    intro _ id slots same
    exact absurd same (simple id slots)
  | array id slots ih =>
    rintro readable _ _ ⟨⟩
    exact readsCut_slots env readable.slot fun e mem => ih e mem (readable.slot e mem)

def CutTree.allPatches : CutTree D α → List Patch
  | .array _ slots => patchesFrom [] 0 slots
  | _ => []

theorem doParse_cut (env : Environment D) (level : Nat) {erange : Bool} {t : CutTree D α} (readable : t.Readable erange)
    (node : ∀ first, t ≠ .ref first) :
    ∃ st, doParse env { context := ⟨t.print env level, true⟩, erange := erange } = some (true, t.placed, st) ∧
      st.xrefs = t.allPatches := by
  have plain := readable [] t rfl
  have simple : ∀ v : AnyTree D, Printable v → (∀ slots, v ≠ .array slots) → asRead erange v = (v, erange) →
      t.print env level = printAny env true level v → t.placed = v → t.allPatches = [] →
      ∃ st, doParse env { context := ⟨t.print env level, true⟩, erange := erange } = some (true, t.placed, st) ∧
        st.xrefs = t.allPatches := by
    intro v printable simple kept text placed none
    obtain ⟨tok, context, scanned, -, kind, value⟩ := next_simple env true level printable simple (follows_nil v)
    rw [List.append_nil, ← text] at scanned
    have notBrace : tok.fToken ≠ .lbrace := by
      intro brace
      rw [brace] at kind
      cases kind
    refine ⟨{ context := context, erange := erange }, ?_, none.symm⟩
    rw [doParse, ParserState.next_eq scanned]
    simp only [if_neg notBrace, value, kept, placed]
  cases t with
  | null =>
    refine simple .null .null ?_ rfl rfl rfl rfl
    rintro _ ⟨⟩
  | leaf id s => exact simple s.toTree (Scalar.printable plain.1) s.simple (Scalar.asRead_eq plain.2) rfl rfl rfl
  | ref first => exact absurd rfl (node first)
  | array id slots =>
    have opened : (CutTree.array id slots).print env level = '{'.toUInt8 :: (newline true ++
        (CutTree.printAll env (level + 1) slots ++ (tab true level ++ '}'.toUInt8 :: []))) := by
      simp only [CutTree.print, printBraces, List.append_assoc, List.cons_append]
    have brace : ParserState.next { context := ⟨(CutTree.array id slots).print env level, true⟩, erange := erange } =
        (⟨.lbrace, ['{'.toUInt8]⟩, { context := ⟨newline true ++ (CutTree.printAll env (level + 1) slots ++
          (tab true level ++ '}'.toUInt8 :: [])), true⟩, erange := erange }) :=
      ParserState.next_eq (by rw [opened]; rfl)
    have read := readsCut env _ readable id slots rfl (level + 1) level [] true
      { context := ⟨CutTree.printAll env (level + 1) slots ++ (tab true level ++ '}'.toUInt8 :: []), true⟩, erange := erange }
      (((CutTree.array id slots).print env level).length + 1) [] plain rfl rfl (by
        simp only [CutTree.print, printBraces, List.length_append, List.length_cons]
        omega)
    refine ⟨{ context := ⟨[], true⟩, erange := erange, xrefs := CutTree.patchesFrom [] 0 slots }, ?_, rfl⟩
    rw [doParse, brace]
    simp only [if_true]
    rw [ParserState.next_spaces (newline_spaces true) rfl, read]
    rfl

end Coast
