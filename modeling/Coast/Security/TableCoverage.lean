import Coast.Security.TableLossless
import Mathlib.Data.Set.List

/-!
# What the tables cover

An `Expand` entry gives its place to the names of a section, which go on over the places of the entries behind it, and a
nested part of a section shares its places with the part after it. The names that stay in the first places get short keys.
-/

namespace Coast.Security

open Anything (Key Entries)
open AnythingParser (assignKey)
open Regex (cstr cstr_of_plain)
open Value

variable {D : Type}

/-! ### Sections -/

mutual

def sectionNames : AnyTree D → List Bytes
  | .array slots => slotsNames slots
  | .string s => [cstr s]
  | _ => []

def slotsNames : Slots D → List Bytes
  | [] => []
  | (some slotname, part) :: rest => slotname.text :: (sectionNames part ++ slotsNames rest)
  | (none, part) :: rest => sectionNames part ++ slotsNames rest

end

mutual

def laid : AnyTree D → List Bytes
  | .array slots => laidSlots slots
  | .string s => [cstr s]
  | _ => []

def laidSlots : Slots D → List Bytes
  | [] => []
  | (some slotname, part) :: rest => slotname.text :: (laidSlots rest ++ (laid part).drop (laidSlots rest).length)
  | (none, .string s) :: rest => cstr s :: laidSlots rest
  | (none, _) :: rest => laidSlots rest

end

mutual

/-- The names of a section that are not installed, or overwritten by later ones of it. -/
def buried : AnyTree D → List Bytes
  | .array slots => buriedSlots slots
  | _ => []

def buriedSlots : Slots D → List Bytes
  | [] => []
  | (some _, part) :: rest => buried part ++ (laid part).take (laidSlots rest).length ++ buriedSlots rest
  | (none, .string _) :: rest => buriedSlots rest
  | (none, part) :: rest => sectionNames part ++ buriedSlots rest

end

mutual

theorem mem_sectionNames (name : Bytes) : ∀ part : AnyTree D, name ∈ sectionNames part ↔ name ∈ laid part ∨ name ∈ buried part
  | .array slots => by
    rw [sectionNames, laid, buried]
    exact mem_slotsNames name slots
  | .string s => by simp [sectionNames, laid, buried]
  | .null | .long _ | .double _ | .vbuf _ | .object _ => by simp [sectionNames, laid, buried]

theorem mem_slotsNames (name : Bytes) : ∀ slots : Slots D, name ∈ slotsNames slots ↔ name ∈ laidSlots slots ∨ name ∈ buriedSlots slots
  | [] => by simp [slotsNames, laidSlots, buriedSlots]
  | (some slotname, part) :: rest => by
    have here := mem_sectionNames name part
    have later := mem_slotsNames name rest
    have split : name ∈ laid part ↔ name ∈ (laid part).take (laidSlots rest).length ∨ name ∈ (laid part).drop (laidSlots rest).length := by
      rw [← List.mem_append, List.take_append_drop]
    simp only [slotsNames, laidSlots, buriedSlots, List.mem_cons, List.mem_append, here, later, split]
    tauto
  | (none, .string s) :: rest => by
    have later := mem_slotsNames name rest
    simp only [slotsNames, sectionNames, laidSlots, buriedSlots, List.mem_cons, List.mem_append, List.not_mem_nil, or_false, later]
    tauto
  | (none, .array slots) :: rest | (none, .null) :: rest | (none, .long _) :: rest | (none, .double _) :: rest | (none, .vbuf _) :: rest
  | (none, .object _) :: rest => by
    have later := mem_slotsNames name rest
    simp only [slotsNames, laidSlots, buriedSlots, List.mem_append, later]
    tauto

end

/-! ### Places -/

def vals (state : Slots D) : List (AnyTree D) := state.map Prod.snd

theorem put_append (front tail : Slots D) (e : Option Key × AnyTree D) (v : Option (AnyTree D)) :
    Entries.put (front ++ e :: tail) front.length v = front ++ (e.1, v.getD e.2) :: tail := by
  induction front with
  | nil => rfl
  | cons f front ih => exact congrArg (f :: ·) ih

theorem atIndex_append (front tail : Slots D) (text : Bytes) :
    ∃ name, atIndex (front ++ tail) front.length text = front ++ (name, .string text) :: tail.drop 1 := by
  cases tail with
  | nil =>
    have one : front.length + 1 - front.length = 1 := by omega
    simp only [atIndex, Entries.apply, List.append_nil, one, List.replicate_one, put_append]
    exact ⟨none, rfl⟩
  | cons e tail =>
    have none : front.length + 1 - (front ++ e :: tail).length = 0 := by
      rw [List.length_append, List.length_cons]
      omega
    simp only [atIndex, Entries.apply, none, List.replicate_zero, List.append_nil, put_append]
    exact ⟨e.1, rfl⟩

def Installed (state front tail : Slots D) (names : List Bytes) : Prop :=
  ∃ rest, state = front ++ rest ∧ vals rest = names.map AnyTree.string ++ (vals tail).drop names.length

theorem installed_nil (front tail : Slots D) : Installed (front ++ tail) front tail [] := ⟨tail, rfl, rfl⟩

mutual

theorem installed_config (front tail : Slots D) : ∀ part : AnyTree D,
    Installed (installConfig front.length (front ++ tail) part) front tail (laid part)
  | .array slots => by
    rw [installConfig, laid]
    exact installed_slots front tail slots
  | .string s => by
    obtain ⟨name, placed⟩ := atIndex_append front tail (cstr s)
    rw [installConfig, laid, placed]
    exact ⟨_, rfl, by simp [vals]⟩
  | .null | .long _ | .double _ | .vbuf _ | .object _ => by
    simp only [installConfig, laid]
    exact installed_nil front tail

theorem installed_slots (front tail : Slots D) : ∀ slots : Slots D,
    Installed (installSlots front.length (front ++ tail) slots) front tail (laidSlots slots)
  | [] => installed_nil front tail
  | (some slotname, part) :: rest => by
    obtain ⟨name, placed⟩ := atIndex_append front tail slotname.text
    obtain ⟨first, placed', vals'⟩ := installed_config (front ++ [(name, .string slotname.text)]) (tail.drop 1) part
    obtain ⟨second, placed'', vals''⟩ := installed_slots (front ++ [(name, .string slotname.text)]) first rest
    rw [List.length_append, List.length_singleton] at placed' placed''
    rw [installSlots, placed, List.append_cons, placed', placed'']
    refine ⟨(name, .string slotname.text) :: second, by rw [List.append_assoc, List.singleton_append], ?_⟩
    have dropped : vals (tail.drop 1) = (vals tail).drop 1 := List.map_drop
    rw [vals, List.map_cons, ← vals, vals'', vals', laidSlots, dropped]
    simp only [List.drop_append, List.drop_drop, List.length_map, List.map_cons, List.map_append, List.map_drop, List.length_cons,
      List.length_append, List.length_drop, List.cons_append, List.append_assoc]
    congr 4
    omega
  | (none, .string s) :: rest => by
    obtain ⟨name, placed⟩ := atIndex_append front tail (cstr s)
    obtain ⟨second, placed', vals'⟩ := installed_slots (front ++ [(name, .string (cstr s))]) (tail.drop 1) rest
    rw [List.length_append, List.length_singleton] at placed'
    rw [installSlots, placed, List.append_cons, placed']
    refine ⟨(name, .string (cstr s)) :: second, by rw [List.append_assoc, List.singleton_append], ?_⟩
    have dropped : vals (tail.drop 1) = (vals tail).drop 1 := List.map_drop
    rw [vals, List.map_cons, ← vals, vals', laidSlots, dropped]
    simp only [List.drop_drop, List.map_cons, List.length_cons, List.cons_append, Nat.add_comm]
  | (none, .array slots) :: rest | (none, .null) :: rest | (none, .long _) :: rest | (none, .double _) :: rest | (none, .vbuf _) :: rest
  | (none, .object _) :: rest => by
    simp only [installSlots, laidSlots]
    exact installed_slots front tail rest

end

/-! ### Names -/

mutual

theorem sectionNames_plain : ∀ part : AnyTree D, ∀ name ∈ sectionNames part, 0 ∉ name
  | .array slots => by
    rw [sectionNames]
    exact slotsNames_plain slots
  | .string s => by
    rw [sectionNames]
    intro name mem
    rw [List.mem_singleton.mp mem]
    exact cstr_plain s
  | .null | .long _ | .double _ | .vbuf _ | .object _ => by simp [sectionNames]

theorem slotsNames_plain : ∀ slots : Slots D, ∀ name ∈ slotsNames slots, 0 ∉ name
  | [] => by simp [slotsNames]
  | (some slotname, part) :: rest => by
    rw [slotsNames]
    intro name mem
    rcases List.mem_cons.mp mem with rfl | mem
    · exact slotname.plain
    · rcases List.mem_append.mp mem with mem | mem
      · exact sectionNames_plain part name mem
      · exact slotsNames_plain rest name mem
  | (none, part) :: rest => by
    rw [slotsNames]
    intro name mem
    rcases List.mem_append.mp mem with mem | mem
    · exact sectionNames_plain part name mem
    · exact slotsNames_plain rest name mem

end

def stringNames (vs : List (AnyTree D)) : List Bytes := vs.filterMap fun | .string s => some (cstr s) | _ => none

theorem stringNames_append (vs ws : List (AnyTree D)) : stringNames (vs ++ ws) = stringNames vs ++ stringNames ws := List.filterMap_append ..

theorem stringNames_plain {vs : List (AnyTree D)} : ∀ name ∈ stringNames vs, 0 ∉ name := by
  intro name mem
  obtain ⟨v, -, is⟩ := List.mem_filterMap.mp mem
  cases v with
  | string s => exact Option.some.inj is ▸ cstr_plain s
  | _ => cases is

theorem stringNames_laid (part : AnyTree D) : stringNames ((laid part).map AnyTree.string : List (AnyTree D)) = laid part := by
  have same : ∀ name ∈ laid part, cstr name = name := fun name mem =>
    cstr_of_plain (sectionNames_plain part name ((mem_sectionNames name part).mpr (.inl mem)))
  rw [stringNames, List.filterMap_map]
  exact (List.filterMap_congr fun name mem => congrArg some (same name mem)).trans List.filterMap_some

/-! ### The base table -/

section Tables

variable (env : Environment D) (lookupPath : AnyTree D → Bytes → Option (AnyTree D)) (config : AnyTree D)

def pulled : AnyTree D → Option (AnyTree D)
  | .array ((some tag, v) :: _) => if tag.text = ascii "Expand" then lookupPath config (asCharPtr env v) else none
  | _ => none

def listed : Slots D → List Bytes
  | [] => []
  | (_, v) :: rest => (pulled env lookupPath config v).elim (stringNames [v]) sectionNames ++ listed rest

def settled : Slots D → List (AnyTree D)
  | [] => []
  | (_, v) :: rest =>
    match pulled env lookupPath config v with
    | some part => (laid part).map AnyTree.string ++ (settled rest).drop (laid part).length
    | none => v :: settled rest

def overwritten : Slots D → List Bytes
  | [] => []
  | (_, v) :: rest =>
    match pulled env lookupPath config v with
    | some part => buried part ++ stringNames ((settled env lookupPath config rest).take (laid part).length) ++ overwritten rest
    | none => overwritten rest

def kept (base : Slots D) : List Bytes := stringNames ((settled env lookupPath config base).take base.length)

/-- The names that are overwritten, or end up behind the places of the base table. -/
def lost (base : Slots D) : List Bytes :=
  overwritten env lookupPath config base ++ stringNames ((settled env lookupPath config base).drop base.length)

theorem mem_listed (name : Bytes) (base : Slots D) : name ∈ listed env lookupPath config base ↔
    name ∈ kept env lookupPath config base ∨ name ∈ lost env lookupPath config base := by
  have all : name ∈ listed env lookupPath config base ↔
      name ∈ stringNames (settled env lookupPath config base) ∨ name ∈ overwritten env lookupPath config base := by
    induction base with
    | nil => simp [listed, settled, overwritten, stringNames]
    | cons e rest ih =>
      obtain ⟨slotname, v⟩ := e
      rw [listed, settled, overwritten, List.mem_append, ih]
      cases here : pulled env lookupPath config v with
      | none =>
        rw [Option.elim_none, show v :: settled env lookupPath config rest = [v] ++ settled env lookupPath config rest from rfl,
          stringNames_append, List.mem_append, or_assoc]
      | some part =>
        have split : name ∈ stringNames (settled env lookupPath config rest) ↔
            name ∈ stringNames ((settled env lookupPath config rest).take (laid part).length) ∨
            name ∈ stringNames ((settled env lookupPath config rest).drop (laid part).length) := by
          rw [← List.mem_append, ← stringNames_append, List.take_append_drop]
        rw [Option.elim_some, mem_sectionNames, split]
        simp only [stringNames_append, stringNames_laid, List.mem_append]
        tauto
  have split : name ∈ stringNames (settled env lookupPath config base) ↔
      name ∈ kept env lookupPath config base ∨ name ∈ stringNames ((settled env lookupPath config base).drop base.length) := by
    rw [kept, ← List.mem_append, ← stringNames_append, List.take_append_drop]
  rw [all, split, lost, List.mem_append]
  tauto

theorem expandConfig_append (front tail : Slots D) (e : Option Key × AnyTree D) :
    expandConfig env lookupPath config front.length (front ++ e :: tail) =
      (pulled env lookupPath config e.2).elim (front ++ e :: tail) (installConfig front.length (front ++ tail)) := by
  have here : (front ++ e :: tail)[front.length]? = some e := by
    rw [List.getElem?_append_right le_rfl, Nat.sub_self]
    rfl
  have removed : Entries.apply (.remove front.length) (front ++ e :: tail) = front ++ tail := by
    rw [Entries.apply, List.eraseIdx_append_of_length_le le_rfl, Nat.sub_self, List.eraseIdx_cons_zero]
  obtain ⟨slotname, v⟩ := e
  rw [expandConfig, here, removed]
  cases v with
  | array slots =>
    rcases slots with _ | ⟨⟨name, v⟩, slots⟩
    · rfl
    · cases name with
      | none => rfl
      | some tag =>
        dsimp only [pulled]
        split
        · cases lookupPath config (asCharPtr env v) <;> rfl
        · rfl
  | _ => rfl

theorem vals_expandSlots {base : Slots D} {i : Nat} (inside : i ≤ base.length) {tail : Slots D}
    (done : vals tail = settled env lookupPath config (base.drop i)) :
    vals (expandSlots env lookupPath config i (base.take i ++ tail)) = settled env lookupPath config base := by
  induction i generalizing tail with
  | zero => exact done
  | succ i ih =>
    have places : (base.take i).length = i := List.length_take_of_le (by omega)
    have next : base.drop i = base[i] :: base.drop (i + 1) := List.drop_eq_getElem_cons (by omega)
    have grouped : base.take (i + 1) ++ tail = base.take i ++ base[i] :: tail := by
      rw [← List.take_append_getElem (by omega), List.append_assoc, List.singleton_append]
    have expanded := expandConfig_append env lookupPath config (base.take i) tail base[i]
    rw [places] at expanded
    rw [expandSlots, grouped, expanded]
    cases here : pulled env lookupPath config base[i].2 with
    | none =>
      apply ih (by omega)
      rw [next, settled, here, vals, List.map_cons, ← vals, done]
    | some part =>
      obtain ⟨rest, placed, laidVals⟩ := installed_config (base.take i) tail part
      rw [places] at placed
      rw [Option.elim_some, placed]
      apply ih (by omega)
      rw [next, settled, here, laidVals, done]

/-! ### The table -/

theorem mem_names_assignKey {map : Slots D} {text : Bytes} (plain : 0 ∉ text) {v : AnyTree D} {k : Key} :
    k ∈ names (assignKey map text v) ↔ k ∈ names map ∨ text = k.text := by
  rw [assignKey_ofText, ← ofText_iff plain]
  cases named : Key.ofText text with
  | none => simp [assign, names]
  | some l =>
    rw [assign_some]
    obtain ⟨-, new⟩ | ⟨old, i, -, puts⟩ := assignKey_cases map l v
    · rw [new, names_append, List.mem_append, names_cons_some, Option.some.injEq]
      simp [names, eq_comm]
    · rw [puts, names_put, Option.some.injEq]
      constructor
      · exact .inl
      · rintro (mem | rfl)
        · exact mem
        · exact old

theorem vals_expanded (base : Slots D) :
    vals (expandSlots env lookupPath config base.length base) = settled env lookupPath config base := by
  have done : vals ([] : Slots D) = settled env lookupPath config (base.drop base.length) := by
    rw [List.drop_length]
    rfl
  have whole := vals_expandSlots env lookupPath config le_rfl done
  rwa [List.take_length, List.append_nil] at whole

theorem addKey_cases (state map : Slots D) (n : Nat) :
    (addKey state map n = map ∧ stringNames ((vals state).take (n + 1)) = stringNames ((vals state).take n)) ∨
    ∃ name, 0 ∉ name ∧ addKey state map n = assignKey map name (.string (calcKey n)) ∧
      stringNames ((vals state).take (n + 1)) = stringNames ((vals state).take n) ++ [name] := by
  rw [List.take_add_one, stringNames_append, vals, List.getElem?_map, addKey]
  cases state[n]? with
  | none => exact .inl ⟨rfl, List.append_nil _⟩
  | some e =>
    obtain ⟨slotname, v⟩ := e
    cases v with
    | string s => exact .inr ⟨cstr s, cstr_plain s, rfl, rfl⟩
    | _ => exact .inl ⟨rfl, List.append_nil _⟩

theorem mem_names_makeTable {baseState : AnyTree D} {k : Key} :
    k ∈ names (makeTable env lookupPath baseState config) ↔ k.text ∈ kept env lookupPath config (slotsOf baseState) := by
  have loop : ∀ (state : Slots D) (n : Nat),
      k ∈ names ((List.range n).foldl (addKey state) []) ↔ k.text ∈ stringNames ((vals state).take n) := by
    intro state n
    induction n with
    | zero => simp [names, stringNames]
    | succ n ih =>
      rw [List.range_succ, List.foldl_append, List.foldl_cons, List.foldl_nil]
      rcases addKey_cases state ((List.range n).foldl (addKey state) []) n with ⟨same, none⟩ | ⟨name, plain, added, more⟩
      · rw [same, none]
        exact ih
      · rw [added, more, mem_names_assignKey plain, ih, List.mem_append, List.mem_singleton, eq_comm (a := name)]
  rw [makeTable, kept, ← vals_expanded]
  exact loop _ _

theorem named_makeTable {baseState : AnyTree D} (named : [] ∉ kept env lookupPath config (slotsOf baseState)) :
    ∀ e ∈ makeTable env lookupPath baseState config, ∃ k, e.1 = some k := by
  have loop : ∀ (state : Slots D) (n : Nat), [] ∉ stringNames ((vals state).take n) →
      ∀ e ∈ (List.range n).foldl (addKey state) [], ∃ k, e.1 = some k := by
    intro state n named
    induction n with
    | zero => simp
    | succ n ih =>
      rw [List.range_succ, List.foldl_append, List.foldl_cons, List.foldl_nil]
      rcases addKey_cases state ((List.range n).foldl (addKey state) []) n with ⟨same, none⟩ | ⟨name, plain, added, more⟩
      · rw [none] at named
        rw [same]
        exact ih named
      · rw [more, List.mem_append, List.mem_singleton] at named
        rw [added, assignKey_ofText, (ofText_iff plain (k := ⟨name, fun empty => named (.inr empty.symm), plain⟩)).mpr rfl]
        intro e mem
        obtain ⟨f, before, name', -⟩ | rfl := mem_assign mem
        · exact name' ▸ ih (fun empty => named (.inl empty)) f before
        · exact ⟨_, rfl⟩
  rw [kept, ← vals_expanded] at named
  exact loop _ _ named

def slotOf (p : Key × Key) : Option Key × AnyTree D := (some p.1, .string p.2.text)

theorem names_slotOf (pairs : List (Key × Key)) : names (pairs.map slotOf : Slots D) = pairs.map Prod.fst := by
  rw [names, List.filterMap_map]
  change pairs.filterMap (some ∘ Prod.fst) = _
  rw [List.filterMap_eq_map]

theorem reversed_slotOf (p : Key × Key) : reversed env (slotOf p) = slotOf p.swap := by
  rw [reversed, slotOf, asCharPtr_string, cstr_text, ofText_text]
  rfl

/-- The table is of names with short keys, both without repetition, the reverse table is the same the other way round, and the names
are all there. -/
def Complete (listed : List Bytes) (table rev : Slots D) : Prop :=
  ∃ pairs : List (Key × Key), table = pairs.map slotOf ∧ rev = (pairs.map Prod.swap).map slotOf ∧
    (∀ p ∈ pairs, ∃ i, p.2.text = calcKey i) ∧ (pairs.map Prod.fst).Nodup ∧ (pairs.map Prod.snd).Nodup ∧
    ∀ name ∈ listed, ∃ p ∈ pairs, p.1.text = name

/-- The names of the base table and of the sections it pulls in all get their own short keys, and come back from them, exactly when no
name is empty, and each name that is overwritten or ends up behind the places of the base table is kept in another place. -/
theorem makeTable_complete_iff (baseState : AnyTree D) :
    Complete (listed env lookupPath config (slotsOf baseState)) (makeTable env lookupPath baseState config)
        (makeReverseTable env (makeTable env lookupPath baseState config)) ↔
      [] ∉ listed env lookupPath config (slotsOf baseState) ∧
        ∀ name ∈ lost env lookupPath config (slotsOf baseState), name ∈ kept env lookupPath config (slotsOf baseState) := by
  obtain ⟨n, keyed⟩ := keyed_makeTable env lookupPath baseState config
  have mem := fun name => mem_listed env lookupPath config name (slotsOf baseState)
  constructor
  · rintro ⟨pairs, table, -, -, -, -, covers⟩
    refine ⟨fun empty => ?_, fun name gone => ?_⟩
    · obtain ⟨p, -, none⟩ := covers [] empty
      exact p.1.nonempty none
    · obtain ⟨p, paired, rfl⟩ := covers name ((mem name).mpr (.inr gone))
      rw [← mem_names_makeTable, table, mem_names]
      exact ⟨_, List.mem_map_of_mem paired⟩
  · rintro ⟨nonempty, back⟩
    have named := named_makeTable env lookupPath config fun empty => nonempty ((mem []).mpr (.inl empty))
    have each : makeTable env lookupPath baseState config ∈ Set.range (List.map slotOf) := by
      rw [Set.range_list_map]
      intro e listed
      obtain ⟨k, name⟩ := named e listed
      obtain ⟨i, -, value⟩ := keyed.short e listed
      exact ⟨(k, shortKey i), Prod.ext name.symm value.symm⟩
    obtain ⟨pairs, table⟩ := each
    obtain ⟨reverse, distinct⟩ := makeReverseTable_eq env keyed
    have swapped : (makeTable env lookupPath baseState config).map (reversed env) = (pairs.map Prod.swap).map slotOf := by
      rw [← table, List.map_map, List.map_map]
      exact List.map_congr_left fun p _ => reversed_slotOf env p
    refine ⟨pairs, table.symm, reverse.trans swapped, fun p paired => ?_, ?_, ?_, fun name isListed => ?_⟩
    · obtain ⟨i, -, value⟩ := keyed.short (slotOf p) (table ▸ List.mem_map_of_mem paired)
      exact ⟨i, AnyTree.string.inj value⟩
    · have own := keyed.distinct
      rwa [← table, Distinct, names_slotOf] at own
    · rwa [swapped, Distinct, names_slotOf, List.map_map] at distinct
    · have isKept : name ∈ kept env lookupPath config (slotsOf baseState) := ((mem name).mp isListed).elim id (back name)
      have nonempty' : name ≠ [] := fun empty => nonempty (empty ▸ isListed)
      obtain ⟨v, slot⟩ := mem_names.mp ((mem_names_makeTable env lookupPath config (k := ⟨name, nonempty', stringNames_plain name isKept⟩)).mpr isKept)
      rw [← table] at slot
      obtain ⟨p, paired, is⟩ := List.mem_map.mp slot
      exact ⟨p, paired, congrArg Key.text (Option.some.inj (Prod.mk.inj is).1)⟩

end Tables

def topLookup (config : AnyTree Unit) (path : Bytes) : Option (AnyTree Unit) := lookup (slotsOf config) path

/-- The sections of roles, pages and actions that the documentation of the class expands one after the other. -/
def sectionsConfig : AnyTree Unit :=
  .array [TableCompressor.slotNamed "Roles" (.array [(none, .string (ascii "Guest"))]),
    TableCompressor.slotNamed "Pages" (.array [(none, .string (ascii "Home"))]),
    TableCompressor.slotNamed "Actions" (.array [(none, .string (ascii "Logout"))])]

def sectionsBase : AnyTree Unit :=
  .array [(none, .array [TableCompressor.slotNamed "Expand" (.string (ascii "Roles"))]),
    (none, .array [TableCompressor.slotNamed "Expand" (.string (ascii "Pages"))]),
    (none, .array [TableCompressor.slotNamed "Expand" (.string (ascii "Actions"))])]

/-- Only the role gets a short key: each section overwrites the one behind it. -/
theorem makeTable_sections :
    listed bareEnvironment topLookup sectionsConfig (slotsOf sectionsBase) = [ascii "Guest", ascii "Home", ascii "Logout"] ∧
    lookup (makeTable bareEnvironment topLookup sectionsBase sectionsConfig) (ascii "Guest") = some (.string (ascii "a")) ∧
    lookup (makeTable bareEnvironment topLookup sectionsBase sectionsConfig) (ascii "Home") = none ∧
    lookup (makeTable bareEnvironment topLookup sectionsBase sectionsConfig) (ascii "Logout") = none := by
  exact ⟨rfl, rfl, rfl, rfl⟩

end Coast.Security
