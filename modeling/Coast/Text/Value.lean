import Coast.Regex.Program
import Coast.Text.RoundTrip

/-!
# Reading and writing a value

An `Anything` as the code that uses it sees it, through its conversions and its slots.
-/

namespace Coast.Value

open Anything (Key Entries)
open AnythingParser (assignKey)
open Regex (cstr)

variable {D : Type}

/-- `AsCharPtr`, with the empty text where there is none. -/
def asCharPtr (env : Environment D) : AnyTree D → Bytes
  | .null => []
  | .long n => longText n.toInt
  | .double d => env.doubleText d
  | .string s => cstr s
  | .vbuf b => cstr b.bytes
  | .object _ => ascii "IFAObject"
  | .array _ => ascii "AnyArrayImpl"

def slotsOf : AnyTree D → Slots D
  | .null => []
  | .array slots => slots
  | v => [(none, v)]

/-- A value to which nothing was assigned is null. -/
def ofSlots (slots : Slots D) : AnyTree D := if slots.isEmpty then .null else .array slots

theorem ofSlots_array {slots : Slots D} (some : slots ≠ []) : ofSlots slots = .array slots :=
  if_neg (mt List.isEmpty_iff.mp some)

theorem slotsOf_ofSlots (slots : Slots D) : slotsOf (ofSlots slots) = slots := by
  unfold ofSlots
  split
  · rename_i empty
    exact (List.isEmpty_iff.mp empty).symm
  · rfl

/-- `operator[]` for a name that is defined; `IsDefined` tells whether there is one. -/
def lookup (slots : Slots D) (k : Bytes) : Option (AnyTree D) :=
  (Key.ofText k).bind fun key => (slots.find? fun e => e.1 == some key).map Prod.snd

def contains (env : Environment D) (k : Bytes) : AnyTree D → Bool
  | .array slots => slots.any fun e => asCharPtr env e.2 == k
  | .string s => cstr s == k
  | _ => false

/-- `any[k] = v` for a name, or for a null pointer or an empty name, which appends. -/
def assign (any : Slots D) (e : Option Key × AnyTree D) : Slots D :=
  match e.1 with
  | some k => assignKey any k.text e.2
  | none => any ++ [(none, e.2)]

def append (any v : AnyTree D) : AnyTree D := .array (slotsOf any ++ [(none, v)])

/-- `AsString`, with the empty text where there is none. -/
def asString (env : Environment D) : AnyTree D → Bytes
  | .string s => s
  | .vbuf b => b.bytes
  | v => asCharPtr env v

/-! ### Slots with distinct names -/

def names (slots : Slots D) : List Key := slots.filterMap Prod.fst

def Distinct (slots : Slots D) : Prop := (names slots).Nodup

theorem names_append (slots more : Slots D) : names (slots ++ more) = names slots ++ names more := List.filterMap_append ..

theorem names_cons_some (k : Key) (v : AnyTree D) (slots : Slots D) : names ((some k, v) :: slots) = k :: names slots := rfl

theorem names_cons_none (v : AnyTree D) (slots : Slots D) : names ((none, v) :: slots) = names slots := rfl

theorem assign_some (any : Slots D) (k : Key) (v : AnyTree D) : assign any (some k, v) = assignKey any k.text v := rfl

theorem mem_names {slots : Slots D} {k : Key} : k ∈ names slots ↔ ∃ v, (some k, v) ∈ slots := by
  rw [names, List.mem_filterMap]
  constructor
  · rintro ⟨⟨-, v⟩, mem, rfl⟩
    exact ⟨v, mem⟩
  · rintro ⟨v, mem⟩
    exact ⟨_, mem, rfl⟩

theorem names_put (slots : Slots D) (i : Nat) (v : Option (AnyTree D)) : names (Entries.put slots i v) = names slots := by
  unfold names Entries.put
  induction slots generalizing i with
  | nil => cases i <;> rfl
  | cons e slots ih =>
    cases i with
    | zero => rfl
    | succ i => rw [List.modify_succ_cons, List.filterMap_cons, List.filterMap_cons, ih]

theorem assignKey_cases (any : Slots D) (k : Key) (v : AnyTree D) :
    (k ∉ names any ∧ assignKey any k.text v = any ++ [(some k, v)]) ∨
      (k ∈ names any ∧ ∃ i, Entries.name any i = some k ∧ assignKey any k.text v = Entries.put any i (some v)) := by
  by_cases old : k ∈ names any
  · refine .inr ⟨old, ?_⟩
    obtain ⟨w, mem⟩ := mem_names.mp old
    have found : (Entries.position any k).isSome = true := by
      rw [Entries.position, List.findIdx?_isSome, List.any_eq_true]
      exact ⟨_, mem, beq_self_eq_true _⟩
    obtain ⟨i, position⟩ := Option.isSome_iff_exists.mp found
    refine ⟨i, ?_, ?_⟩
    · obtain ⟨inside, named, -⟩ := List.findIdx?_eq_some_iff_getElem.mp position
      rw [Entries.name, List.getElem?_eq_getElem inside]
      exact eq_of_beq named
    · rw [assignKey, ofText_text]
      simp only [Entries.apply, position]
  · exact .inl ⟨old, assignKey_new old v⟩

theorem assignKey_ofText (any : Slots D) (text : Bytes) (v : AnyTree D) :
    assignKey any text v = assign any (Key.ofText text, v) := by
  cases named : Key.ofText text with
  | none =>
    rw [assignKey, named]
    rfl
  | some k =>
    unfold assign assignKey
    simp only [named, ofText_text]

theorem distinct_assign {any : Slots D} (distinct : Distinct any) (e : Option Key × AnyTree D) : Distinct (assign any e) := by
  unfold Distinct at *
  obtain ⟨name, v⟩ := e
  cases name with
  | none =>
    rw [assign, names_append, names_cons_none]
    exact (List.append_nil _).symm ▸ distinct
  | some k =>
    rw [assign_some]
    obtain ⟨fresh, new⟩ | ⟨-, i, -, old⟩ := assignKey_cases any k v
    · rw [new, names_append, names_cons_some]
      refine List.nodup_append.mpr ⟨distinct, List.nodup_singleton k, fun a mem b last => ?_⟩
      rw [List.mem_singleton.mp last]
      rintro rfl
      exact fresh mem
    · rw [old, names_put]
      exact distinct

theorem distinct_assignAll {any : Slots D} (distinct : Distinct any) (slots : Slots D) : Distinct (slots.foldl assign any) := by
  induction slots generalizing any with
  | nil => exact distinct
  | cons e slots ih => exact ih (distinct_assign distinct e)

theorem assignAll_distinct {any slots : Slots D} (distinct : Distinct (any ++ slots)) : slots.foldl assign any = any ++ slots := by
  induction slots generalizing any with
  | nil => exact (List.append_nil any).symm
  | cons e slots ih =>
    have regrouped : any ++ e :: slots = (any ++ [e]) ++ slots := (List.append_cons any e slots)
    have added : assign any e = any ++ [e] := by
      obtain ⟨name, v⟩ := e
      cases name with
      | none => rfl
      | some k =>
        refine assignKey_new ?_ v
        unfold Distinct at distinct
        rw [names_append, names_cons_some] at distinct
        exact fun mem => (List.nodup_append.mp distinct).2.2 k mem k List.mem_cons_self rfl
    rw [List.foldl_cons, added, ih (regrouped ▸ distinct), ← regrouped]

theorem mem_assign {any : Slots D} {e f : Option Key × AnyTree D} (mem : f ∈ assign any e) :
    (∃ g ∈ any, g.1 = f.1 ∧ (g.2 = f.2 ∨ e.2 = f.2)) ∨ f = e := by
  obtain ⟨name, v⟩ := e
  have appended : f ∈ any ++ [(name, v)] → (∃ g ∈ any, g.1 = f.1 ∧ (g.2 = f.2 ∨ v = f.2)) ∨ f = (name, v) := by
    intro mem
    obtain mem | last := List.mem_append.mp mem
    · exact .inl ⟨f, mem, rfl, .inl rfl⟩
    · exact .inr (List.mem_singleton.mp last)
  cases name with
  | none => exact appended mem
  | some k =>
    rw [assign_some] at mem
    obtain ⟨-, new⟩ | ⟨-, i, -, old⟩ := assignKey_cases any k v
    · rw [new] at mem
      exact appended mem
    · rw [old] at mem
      obtain ⟨j, at_j⟩ := List.mem_iff_getElem?.mp mem
      rw [Entries.getElem?_put] at at_j
      split at at_j
      · obtain ⟨g, at_g, rfl⟩ := Option.map_eq_some_iff.mp at_j
        exact .inl ⟨g, List.mem_of_getElem? at_g, rfl, .inr rfl⟩
      · exact .inl ⟨f, List.mem_of_getElem? at_j, rfl, .inl rfl⟩

theorem mem_assignAll {slots any : Slots D} {f : Option Key × AnyTree D} (mem : f ∈ slots.foldl assign any) :
    (∃ g ∈ any ++ slots, g.1 = f.1) ∧ ∃ g ∈ any ++ slots, g.2 = f.2 := by
  induction slots generalizing any with
  | nil =>
    rw [List.append_nil]
    exact ⟨⟨f, mem, rfl⟩, f, mem, rfl⟩
  | cons e slots ih =>
    obtain ⟨⟨g, gMem, name⟩, h, hMem, value⟩ := ih mem
    have back : ∀ g ∈ assign any e ++ slots, (∃ g' ∈ any ++ e :: slots, g'.1 = g.1) ∧ ∃ g' ∈ any ++ e :: slots, g'.2 = g.2 := by
      intro g gMem
      obtain first | later := List.mem_append.mp gMem
      · obtain ⟨g', mem', name, value⟩ | rfl := mem_assign first
        · refine ⟨⟨g', List.mem_append_left _ mem', name⟩, ?_⟩
          obtain own | other := value
          · exact ⟨g', List.mem_append_left _ mem', own⟩
          · exact ⟨e, List.mem_append_right _ List.mem_cons_self, other⟩
        · exact ⟨⟨g, List.mem_append_right _ List.mem_cons_self, rfl⟩, g, List.mem_append_right _ List.mem_cons_self, rfl⟩
      · exact ⟨⟨g, List.mem_append_right _ (List.mem_cons_of_mem _ later), rfl⟩, g,
          List.mem_append_right _ (List.mem_cons_of_mem _ later), rfl⟩
    obtain ⟨⟨g', mem', name'⟩, -⟩ := back g gMem
    obtain ⟨-, h', memH, value'⟩ := back h hMem
    exact ⟨⟨g', mem', name'.trans name⟩, h', memH, value'.trans value⟩

theorem lookup_text {slots : Slots D} (distinct : Distinct slots) (k : Key) (v : AnyTree D) :
    lookup slots k.text = some v ↔ (some k, v) ∈ slots := by
  rw [lookup, ofText_text, Option.bind_some]
  induction slots with
  | nil => simp
  | cons e slots ih =>
    have rest : Distinct slots := by
      unfold Distinct at *
      obtain ⟨_ | l, w⟩ := e
      · exact distinct
      · exact (List.nodup_cons.mp distinct).2
    rw [List.find?_cons, List.mem_cons]
    by_cases here : e.1 = some k
    · rw [here, beq_self_eq_true]
      unfold Distinct names at distinct
      rw [List.filterMap_cons_some here] at distinct
      have fresh := (List.nodup_cons.mp distinct).1
      constructor
      · rintro same
        obtain rfl := Option.some.inj same
        exact .inl (Prod.ext here.symm rfl)
      · rintro (rfl | mem)
        · rfl
        · exact absurd (mem_names.mpr ⟨v, mem⟩) fresh
    · rw [beq_false_of_ne here]
      refine (ih rest).trans ⟨.inr, fun mem => mem.resolve_left ?_⟩
      rintro rfl
      exact here rfl

end Coast.Value
