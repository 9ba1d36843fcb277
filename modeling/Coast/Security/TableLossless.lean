import Coast.Security.TableCompressor

/-!
# What compression keeps

Short keys and the names that are not in the table share one space of names. As long as they do not
meet, each slot of the data has its own slot in the compressed form, and is read back by itself.
-/

namespace Coast.Security

open Anything (Key Entries)
open AnythingParser (assignKey)
open Regex (cstr cstr_of_plain)
open Value

variable {D : Type}

/-! ### Short keys -/

theorem keyAt_injective {i j : Nat} (below : i < 52) (below' : j < 52) (same : keyAt i = keyAt j) : i = j := by
  have distinct : ∀ i < 52, ∀ j < 52, keyAt i = keyAt j → i = j := by decide
  exact distinct i below j below' same

theorem keyAt_ne_zero (i : Nat) : keyAt (i % 52) ≠ 0 := by
  have letters : ∀ i < 52, keyAt i ≠ 0 := by decide
  exact letters (i % 52) (Nat.mod_lt i (by decide))

theorem calcKeyLoop_eq (i : Nat) : ∀ {fuel : Nat}, i < fuel → calcKeyLoop fuel i = calcKey i := by
  induction i using Nat.strongRecOn with
  | ind i ih =>
    intro fuel enough
    obtain ⟨fuel, rfl⟩ := Nat.exists_eq_succ_of_ne_zero (Nat.ne_of_gt (Nat.zero_lt_of_lt enough))
    rw [calcKey, calcKeyLoop, calcKeyLoop]
    split
    · rw [ih (i / 52 - 1) (by omega) (by omega), ih (i / 52 - 1) (by omega) (by omega)]
    · rfl

theorem calcKey_eq (i : Nat) : calcKey i = (if i / 52 > 0 then calcKey (i / 52 - 1) else []) ++ [keyAt (i % 52)] := by
  conv_lhs => rw [calcKey, calcKeyLoop]
  split
  · rw [calcKeyLoop_eq (i / 52 - 1) (by omega)]
  · rfl

theorem calcKey_ne_nil (i : Nat) : calcKey i ≠ [] := by
  rw [calcKey_eq]
  exact List.append_ne_nil_of_right_ne_nil _ (List.cons_ne_nil _ _)

theorem calcKey_injective {i j : Nat} (same : calcKey i = calcKey j) : i = j := by
  induction i using Nat.strongRecOn generalizing j with
  | ind i ih =>
    rw [calcKey_eq i, calcKey_eq j] at same
    obtain ⟨front, last⟩ := List.append_inj' same rfl
    have digit := keyAt_injective (Nat.mod_lt i (by decide)) (Nat.mod_lt j (by decide)) (List.cons.inj last).1
    split at front
    · split at front
      · have shorter := ih (i / 52 - 1) (by omega) front
        omega
      · exact absurd front (calcKey_ne_nil _)
    · split at front
      · exact absurd front.symm (calcKey_ne_nil _)
      · omega

theorem calcKey_plain (i : Nat) : 0 ∉ calcKey i := by
  induction i using Nat.strongRecOn with
  | ind i ih =>
    rw [calcKey_eq, List.mem_append, List.mem_singleton]
    rintro (front | last)
    · split at front
      · exact ih (i / 52 - 1) (by omega) front
      · cases front
    · exact keyAt_ne_zero i last.symm

def shortKey (i : Nat) : Key := ⟨calcKey i, calcKey_ne_nil i, calcKey_plain i⟩

/-! ### Tables -/

structure Keyed (n : Nat) (map : Slots D) : Prop where
  distinct : Distinct map
  short : ∀ e ∈ map, ∃ i < n, e.2 = .string (calcKey i)
  own : map.Pairwise fun a b => a.2 ≠ b.2

theorem pairwise_put {map : Slots D} {v : AnyTree D} (own : map.Pairwise fun a b => a.2 ≠ b.2) (new : ∀ e ∈ map, e.2 ≠ v) (i : Nat) :
    (Entries.put map i (some v)).Pairwise fun a b => a.2 ≠ b.2 := by
  unfold Entries.put
  induction map generalizing i with
  | nil => cases i <;> exact List.Pairwise.nil
  | cons e map ih =>
    obtain ⟨first, rest⟩ := List.pairwise_cons.mp own
    have later : ∀ e ∈ map, e.2 ≠ v := fun e mem => new e (List.mem_cons_of_mem _ mem)
    cases i with
    | zero => exact List.pairwise_cons.mpr ⟨fun b mem => (later b mem).symm, rest⟩
    | succ i =>
      rw [List.modify_succ_cons]
      refine List.pairwise_cons.mpr ⟨fun b mem => ?_, ih rest later i⟩
      obtain ⟨j, at_j⟩ := List.mem_iff_getElem?.mp mem
      rw [List.getElem?_modify] at at_j
      obtain ⟨c, at_c, rfl⟩ := Option.map_eq_some_iff.mp at_j
      split
      · exact new e List.mem_cons_self
      · exact first c (List.mem_of_getElem? at_c)

theorem keyed_assign {n : Nat} {map : Slots D} (keyed : Keyed n map) (text : Bytes) :
    Keyed (n + 1) (assignKey map text (.string (calcKey n))) := by
  have new : ∀ e ∈ map, e.2 ≠ .string (calcKey n) := by
    intro e mem same
    obtain ⟨i, below, value⟩ := keyed.short e mem
    rw [value] at same
    exact Nat.ne_of_lt below (calcKey_injective (AnyTree.string.inj same))
  rw [assignKey_ofText]
  refine ⟨distinct_assign keyed.distinct _, fun e mem => ?_, ?_⟩
  · obtain ⟨g, gMem, -, own | last⟩ | rfl := mem_assign mem
    · obtain ⟨i, below, value⟩ := keyed.short g gMem
      exact ⟨i, Nat.lt_succ_of_lt below, own ▸ value⟩
    · exact ⟨n, Nat.lt_succ_self n, last.symm⟩
    · exact ⟨n, Nat.lt_succ_self n, rfl⟩
  · have appended : ∀ name,
        (map ++ [(name, AnyTree.string (calcKey n))]).Pairwise fun a b : Option Key × AnyTree D => a.2 ≠ b.2 := fun name =>
      List.pairwise_append.mpr ⟨keyed.own, List.pairwise_singleton _ _, fun a mem b last => by
        rw [List.mem_singleton.mp last]
        exact new a mem⟩
    cases Key.ofText text with
    | none => exact appended none
    | some k =>
      rw [assign_some]
      obtain ⟨-, appends⟩ | ⟨-, i, -, puts⟩ := assignKey_cases map k (.string (calcKey n))
      · rw [appends]
        exact appended (some k)
      · rw [puts]
        exact pairwise_put keyed.own new i

theorem keyed_makeTable (env : Environment D) (lookupPath : AnyTree D → Bytes → Option (AnyTree D)) (baseState config : AnyTree D) :
    ∃ n, Keyed n (makeTable env lookupPath baseState config) := by
  have loop : ∀ (state : Slots D) (n : Nat), Keyed n ((List.range n).foldl (addKey state) []) := by
    intro state n
    induction n with
    | zero => exact ⟨List.nodup_nil, nofun, List.Pairwise.nil⟩
    | succ n ih =>
      rw [List.range_succ, List.foldl_append, List.foldl_cons, List.foldl_nil]
      unfold addKey
      split
      · exact keyed_assign ih _
      · exact ⟨ih.distinct, fun e mem => by
          obtain ⟨i, below, value⟩ := ih.short e mem
          exact ⟨i, Nat.lt_succ_of_lt below, value⟩, ih.own⟩
  exact ⟨_, loop _ _⟩

def reversed (env : Environment D) (e : Option Key × AnyTree D) : Option Key × AnyTree D :=
  (Key.ofText (asCharPtr env e.2), .string (e.1.elim [] Key.text))

theorem asCharPtr_calcKey (env : Environment D) (i : Nat) : asCharPtr env (.string (calcKey i)) = (shortKey i).text :=
  cstr_of_plain (calcKey_plain i)

theorem makeReverseTable_eq (env : Environment D) {n : Nat} {map : Slots D} (keyed : Keyed n map) :
    makeReverseTable env map = map.map (reversed env) ∧ Distinct (map.map (reversed env)) := by
  have distinct : Distinct (map.map (reversed env)) := by
    unfold Distinct names
    rw [List.filterMap_map]
    refine List.pairwise_filterMap.mpr (keyed.own.imp_of_mem ?_)
    intro a b memA memB differ k isK l isL
    obtain ⟨i, -, valueA⟩ := keyed.short a memA
    obtain ⟨j, -, valueB⟩ := keyed.short b memB
    simp only [Function.comp_apply, reversed, valueA, valueB, asCharPtr_calcKey, ofText_text, Option.some.injEq] at isK isL
    rintro rfl
    rw [valueA, valueB] at differ
    exact differ (congrArg AnyTree.string (congrArg Key.text (isK.trans isL.symm)))
  refine ⟨?_, distinct⟩
  have assigned : ∀ rev : Slots D, map.foldl (fun revKeyTable e =>
      assignKey revKeyTable (asCharPtr env e.2) (.string (e.1.elim [] Key.text))) rev = (map.map (reversed env)).foldl assign rev := by
    intro rev
    rw [List.foldl_map]
    congr 1
    funext any e
    exact assignKey_ofText any _ _
  exact (assigned []).trans (assignAll_distinct distinct)

/-- The reverse table takes short keys back to their names; what else it has goes back to no name. -/
structure Inverse (env : Environment D) (table rev : Slots D) : Prop where
  forward : ∀ (k : Key) v, lookup table k.text = some v →
    ∃ short : Key, v = .string short.text ∧ lookup rev short.text = some (.string k.text)
  backward : ∀ (short : Key) v, lookup rev short.text = some v →
    v = .string [] ∨ ∃ k : Key, v = .string k.text ∧ lookup table k.text = some (.string short.text)

theorem inverse_of_keyed (env : Environment D) {n : Nat} {map : Slots D} (keyed : Keyed n map) :
    Inverse env map (makeReverseTable env map) := by
  obtain ⟨same, distinct⟩ := makeReverseTable_eq env keyed
  rw [same]
  refine ⟨fun k v found => ?_, fun short v found => ?_⟩
  · have mem := (lookup_text keyed.distinct k v).mp found
    obtain ⟨i, -, rfl⟩ := keyed.short _ mem
    refine ⟨shortKey i, rfl, (lookup_text distinct (shortKey i) _).mpr (List.mem_map.mpr ⟨_, mem, ?_⟩)⟩
    rw [reversed, asCharPtr_calcKey, ofText_text]
    rfl
  · have mem := (lookup_text distinct short v).mp found
    obtain ⟨⟨name, w⟩, wMem, is⟩ := List.mem_map.mp mem
    obtain ⟨i, -, rfl⟩ := keyed.short _ wMem
    rw [reversed, asCharPtr_calcKey, ofText_text, Prod.mk.injEq, Option.some.injEq] at is
    obtain ⟨rfl, rfl⟩ := is
    cases name with
    | none => exact .inl rfl
    | some k => exact .inr ⟨k, rfl, (lookup_text keyed.distinct k _).mpr wMem⟩

/-- What `Init` makes of a configuration. -/
structure Made (env : Environment D) (t : TableCompressor D) : Prop where
  keys : Inverse env t.key2UriMap t.uri2KeyMap
  vals : Inverse env t.val2UriMap t.uri2ValMap

theorem made_of_init (env : Environment D) {lookupPath : AnyTree D → Bytes → Option (AnyTree D)} {config : AnyTree D}
    {t : TableCompressor D} (built : init env lookupPath config = some t) : Made env t := by
  unfold init at built
  obtain ⟨tableCompressorConfig, -, rfl⟩ := Option.map_eq_some_iff.mp built
  obtain ⟨n, keys⟩ := keyed_makeTable env lookupPath ((lookup (slotsOf tableCompressorConfig) (ascii "Key2UriMap")).getD .null) config
  obtain ⟨m, vals⟩ := keyed_makeTable env lookupPath ((lookup (slotsOf tableCompressorConfig) (ascii "Val2UriMap")).getD .null) config
  exact ⟨inverse_of_keyed env keys, inverse_of_keyed env vals⟩

/-! ### Slot by slot -/

theorem cstr_plain (s : Bytes) : 0 ∉ cstr s := fun zero => absurd (List.mem_takeWhile_imp zero) (by decide)

theorem cstr_eq_self_iff {s : Bytes} : cstr s = s ↔ 0 ∉ s := ⟨fun same => same ▸ cstr_plain s, cstr_of_plain⟩

theorem asCharPtr_string (env : Environment D) (s : Bytes) : asCharPtr env (.string s) = cstr s := rfl

theorem cstr_text (k : Key) : cstr k.text = k.text := cstr_of_plain k.plain

theorem lookup_cstr {s : Bytes} (some : cstr s ≠ []) (slots : Slots D) :
    ∃ k : Key, k.text = cstr s ∧ lookup slots (cstr s) = lookup slots k.text :=
  ⟨⟨cstr s, some, cstr_plain s⟩, rfl, rfl⟩

namespace TableCompressor

variable (env : Environment D) (t : TableCompressor D)

/-- The slot that a slot of the data has in the compressed form; none if it is dropped. -/
def short : Option Key × AnyTree D → Option (Option Key × AnyTree D)
  | (some slotname, v) =>
    match lookup t.key2UriMap slotname.text with
    | some extSlotname =>
      if (asCharPtr env v).length > 0 then
        some (Key.ofText (asCharPtr env extSlotname),
          if contains env slotname.text t.valMapTags then
            (lookup t.val2UriMap (asCharPtr env v)).elim v fun extVal => .string (asCharPtr env extVal)
          else v)
      else none
    | none => some (some slotname, v)
  | (none, v) => some (none, v)

def long : Option Key × AnyTree D → Option Key × AnyTree D
  | (some slotname, v) =>
    match lookup t.uri2KeyMap slotname.text with
    | some intSlotname =>
      (Key.ofText (asCharPtr env intSlotname),
        if contains env (asCharPtr env intSlotname) t.valMapTags then
          (lookup t.uri2ValMap (asCharPtr env v)).elim v fun intVal => .string (asCharPtr env intVal)
        else v)
    | none => (some slotname, v)
  | (none, v) => (none, v)

theorem compressSlot_eq (dataOut : Slots D) (e : Option Key × AnyTree D) :
    t.compressSlot env dataOut e = (t.short env e).elim dataOut (assign dataOut) := by
  obtain ⟨_ | slotname, v⟩ := e
  · rfl
  · unfold compressSlot short
    dsimp only
    cases lookup t.key2UriMap slotname.text with
    | some extSlotname =>
      dsimp only
      split
      · rw [Option.elim_some, ← assignKey_ofText]
        split
        · split
          · rename_i known
            rw [known, Option.elim_some]
          · rename_i unknown
            rw [unknown, Option.elim_none]
        · rfl
      · rfl
    | none => rfl

theorem expandSlot_eq (dataOut : Slots D) (e : Option Key × AnyTree D) :
    t.expandSlot env dataOut e = assign dataOut (t.long env e) := by
  obtain ⟨_ | slotname, v⟩ := e
  · rfl
  · unfold expandSlot long
    dsimp only
    cases lookup t.uri2KeyMap slotname.text with
    | some intSlotname =>
      dsimp only
      rw [← assignKey_ofText]
      split
      · split
        · rename_i known
          rw [known, Option.elim_some]
        · rename_i unknown
          rw [unknown, Option.elim_none]
      · rfl
    | none => rfl

theorem compress_eq (dataIn : Slots D) :
    dataIn.foldl (t.compressSlot env) [] = (dataIn.filterMap (t.short env)).foldl assign [] := by
  have loop : ∀ dataOut : Slots D, dataIn.foldl (t.compressSlot env) dataOut = (dataIn.filterMap (t.short env)).foldl assign dataOut := by
    induction dataIn with
    | nil => exact fun _ => rfl
    | cons e dataIn ih =>
      intro dataOut
      rw [List.foldl_cons, compressSlot_eq, ih, List.filterMap_cons]
      cases t.short env e <;> rfl
  exact loop []

theorem expand_eq (dataIn : Slots D) :
    dataIn.foldl (t.expandSlot env) [] = (dataIn.map (t.long env)).foldl assign [] := by
  rw [List.foldl_map]
  congr 1
  funext dataOut e
  exact t.expandSlot_eq env dataOut e

def Clean (e : Option Key × Bytes) : Prop :=
  ∀ slotname, e.1 = some slotname → lookup t.key2UriMap slotname.text = none → lookup t.uri2KeyMap slotname.text = none

def ValueKept (e : Option Key × Bytes) : Prop :=
  ∀ slotname, e.1 = some slotname → lookup t.key2UriMap slotname.text ≠ none →
    cstr e.2 ≠ [] ∧ (contains env slotname.text t.valMapTags = true →
      (lookup t.val2UriMap (cstr e.2) ≠ none → 0 ∉ e.2) ∧ (lookup t.val2UriMap (cstr e.2) = none → lookup t.uri2ValMap (cstr e.2) = none))

variable {env t}

theorem long_short_name (made : Made env t) {e : Option Key × Bytes} (clean : t.Clean e) {c : Option Key × AnyTree D}
    (is : t.short env (e.1, .string e.2) = some c) : (t.long env c).1 = e.1 := by
  obtain ⟨_ | slotname, s⟩ := e
  · obtain rfl := Option.some.inj is
    rfl
  · unfold short at is
    dsimp only at is
    split at is
    · rename_i extSlotname found
      obtain ⟨short, rfl, back⟩ := made.keys.forward slotname _ found
      split at is
      · obtain rfl := Option.some.inj is
        rw [asCharPtr, cstr_text, ofText_text]
        unfold long
        simp only [back]
        rw [asCharPtr, cstr_text, ofText_text]
      · cases is
    · rename_i unmapped
      obtain rfl := Option.some.inj is
      unfold long
      simp only [clean slotname rfl unmapped]

theorem long_short_value (made : Made env t) {slotname : Key} {s : Bytes} {extSlotname : AnyTree D}
    (found : lookup t.key2UriMap slotname.text = some extSlotname) :
    (t.short env (some slotname, .string s)).map (t.long env) = some (some slotname, .string s) ↔ t.ValueKept env (some slotname, s) := by
  obtain ⟨key, rfl, back⟩ := made.keys.forward slotname _ found
  have mapped : lookup t.key2UriMap slotname.text ≠ none := by rw [found]; nofun
  have kept : t.ValueKept env (some slotname, s) ↔ cstr s ≠ [] ∧ (contains env slotname.text t.valMapTags = true →
      (lookup t.val2UriMap (cstr s) ≠ none → 0 ∉ s) ∧ (lookup t.val2UriMap (cstr s) = none → lookup t.uri2ValMap (cstr s) = none)) :=
    ⟨fun kept => kept slotname rfl mapped, fun all k is _ => by obtain rfl := Option.some.inj is; exact all⟩
  rw [kept]
  unfold short
  simp only [found]
  rw [asCharPtr_string, asCharPtr_string, cstr_text, ofText_text]
  by_cases empty : cstr s = []
  · simp [empty]
  · rw [if_pos (List.length_pos_of_ne_nil empty), Option.map_some, Option.some.injEq]
    unfold long
    simp only [back]
    rw [asCharPtr_string, cstr_text, ofText_text, Prod.mk.injEq]
    by_cases tagged : contains env slotname.text t.valMapTags = true
    · simp only [true_and, tagged, if_true, forall_const, ne_eq, empty, not_false_eq_true]
      obtain ⟨k, text, same⟩ := lookup_cstr empty t.val2UriMap
      cases known : lookup t.val2UriMap (cstr s) with
      | some extVal =>
        rw [same] at known
        obtain ⟨short, rfl, backVal⟩ := made.vals.forward k _ known
        rw [Option.elim_some, asCharPtr_string, asCharPtr_string, cstr_text, cstr_text, backVal, Option.elim_some, asCharPtr_string,
          cstr_text, text]
        simp [cstr_eq_self_iff]
      | none =>
        simp only [Option.elim_none, asCharPtr_string, not_true_eq_false, false_implies, forall_const, true_and]
        obtain ⟨l, textL, sameL⟩ := lookup_cstr empty t.uri2ValMap
        cases read : lookup t.uri2ValMap (cstr s) with
        | none => simp
        | some intVal =>
          rw [Option.elim_some]
          refine ⟨fun same => ?_, nofun⟩
          rw [sameL] at read
          obtain rfl | ⟨m, rfl, mapsTo⟩ := made.vals.backward l _ read
          · exact absurd (AnyTree.string.inj same ▸ rfl) empty
          · rw [asCharPtr_string, cstr_text] at same
            obtain rfl := AnyTree.string.inj same
            rw [cstr_text, mapsTo] at known
            cases known
    · simp [tagged, empty]

theorem long_short_iff (made : Made env t) {e : Option Key × Bytes} (clean : t.Clean e) :
    (t.short env (e.1, .string e.2)).map (t.long env) = some (e.1, .string e.2) ↔ t.ValueKept env e := by
  obtain ⟨_ | slotname, s⟩ := e
  · exact ⟨fun _ _ => nofun, fun _ => rfl⟩
  · cases found : lookup t.key2UriMap slotname.text with
    | some extSlotname => exact long_short_value made found
    | none =>
      have kept : t.ValueKept env (some slotname, s) := by
        intro k is mapped
        obtain rfl := Option.some.inj is
        exact absurd found mapped
      refine ⟨fun _ => kept, fun _ => ?_⟩
      unfold short long
      simp only [found, Option.map_some, clean slotname rfl found]

theorem not_mem_expand (made : Made env t) {slotname : Key} (unmapped : lookup t.key2UriMap slotname.text = none)
    (taken : lookup t.uri2KeyMap slotname.text ≠ none) (dataIn : Slots D) :
    slotname ∉ names (dataIn.foldl (t.expandSlot env) []) := by
  rw [expand_eq, mem_names]
  rintro ⟨v, mem⟩
  obtain ⟨⟨g, gMem, name⟩, -⟩ := mem_assignAll mem
  rw [List.nil_append] at gMem
  obtain ⟨⟨_ | short, w⟩, -, rfl⟩ := List.mem_map.mp gMem
  · cases name
  · unfold long at name
    dsimp only at name
    split at name
    · rename_i intSlotname found
      obtain rfl | ⟨k, rfl, mapped⟩ := made.keys.backward short _ found
      · cases name
      · rw [asCharPtr_string, cstr_text, ofText_text] at name
        obtain rfl := Option.some.inj name
        rw [unmapped] at mapped
        cases mapped
    · rename_i none
      obtain rfl := Option.some.inj name
      exact taken none

theorem distinct_map_long (made : Made env t) {slots : List (Option Key × Bytes)} (distinct : (slots.filterMap Prod.fst).Nodup)
    (clean : ∀ e ∈ slots, t.Clean e) :
    Distinct ((slots.filterMap fun e => t.short env (e.1, .string e.2)).map (t.long env)) := by
  have apart := List.pairwise_filterMap.mp distinct
  unfold Distinct names
  rw [List.filterMap_map]
  refine List.pairwise_filterMap.mpr (List.pairwise_filterMap.mpr (apart.imp_of_mem ?_))
  intro a b memA memB differ c isC d isD k isK l isL
  rw [Function.comp_apply, long_short_name made (clean a memA) isC] at isK
  rw [Function.comp_apply, long_short_name made (clean b memB) isD] at isL
  exact differ k isK l isL

theorem distinct_short (made : Made env t) {slots : List (Option Key × Bytes)} (distinct : (slots.filterMap Prod.fst).Nodup)
    (clean : ∀ e ∈ slots, t.Clean e) : Distinct (slots.filterMap fun e => t.short env (e.1, .string e.2)) := by
  have apart := List.pairwise_filterMap.mp distinct
  unfold Distinct names
  refine List.pairwise_filterMap.mpr (List.pairwise_filterMap.mpr (apart.imp_of_mem ?_))
  intro a b memA memB differ c isC d isD k isK l isL
  rintro rfl
  have same : (t.long env c).1 = (t.long env d).1 := by
    obtain ⟨name, v⟩ := c
    obtain ⟨name', w⟩ := d
    dsimp only at isK isL
    rw [isK, isL]
    unfold long
    dsimp only
    split <;> rfl
  rw [long_short_name made (clean a memA) isC, long_short_name made (clean b memB) isD] at same
  cases name : a.1 with
  | some n => exact differ n name n (same.symm.trans name) rfl
  | none =>
    rw [name] at isC
    obtain rfl := Option.some.inj isC
    cases isK

theorem anyNumber_strings {slots : Slots D} (strings : ∀ e ∈ slots, ∃ s, e.2 = .string s) : anyNumber slots = false := by
  induction slots with
  | nil => rfl
  | cons e slots ih =>
    obtain ⟨name, v⟩ := e
    obtain ⟨s, rfl⟩ : ∃ s, v = .string s := strings (name, v) List.mem_cons_self
    exact ih fun e mem => strings e (List.mem_cons_of_mem _ mem)

theorem doExpand_print (erange : Bool) {slots : Slots D} (distinct : Distinct slots) (strings : ∀ e ∈ slots, ∃ s, e.2 = .string s) :
    t.doExpand env erange (printOn env (ofSlots slots) false) = some (slots.foldl (t.expandSlot env) []) := by
  have printable : Printable (ofSlots slots) ∧ Separated (ofSlots slots) ∧ hasNumber (ofSlots slots) = false := by
    unfold ofSlots
    split
    · exact ⟨.null, .leaf nofun, rfl⟩
    · refine ⟨.array distinct fun e mem => ?_, .array ?_ fun e mem => ?_, ?_⟩
      · obtain ⟨s, value⟩ := strings e mem
        exact value ▸ .string s
      · refine (List.pairwise_of_forall_mem_list fun a memA b _ => ?_).isChain
        obtain ⟨s, value⟩ := strings a memA
        rw [value]
        rfl
      · obtain ⟨s, value⟩ := strings e mem
        exact value ▸ .leaf nofun
      · exact anyNumber_strings strings
  obtain ⟨printable, separated, noNumber⟩ := printable
  obtain ⟨context, read⟩ := doParse_print env printable (.inr separated : false = true ∨ _) erange
  rw [(asRead_eq_iff erange _).mpr (.inr noNumber)] at read
  unfold doExpand
  rw [read]
  simp only [if_true, slotsOf_ofSlots]

theorem short_string {e : Option Key × Bytes} {c : Option Key × AnyTree D} (is : t.short env (e.1, .string e.2) = some c) :
    ∃ s, c.2 = .string s := by
  obtain ⟨_ | slotname, s⟩ := e
  · obtain rfl := Option.some.inj is
    exact ⟨s, rfl⟩
  · unfold short at is
    dsimp only at is
    split at is
    · split at is
      · obtain rfl := Option.some.inj is
        dsimp only
        split
        · cases lookup t.val2UriMap (asCharPtr env (.string s)) with
          | none => exact ⟨s, rfl⟩
          | some extVal => exact ⟨_, rfl⟩
        · exact ⟨s, rfl⟩
      · cases is
    · obtain rfl := Option.some.inj is
      exact ⟨s, rfl⟩

theorem filterMap_eq_map_iff {α β : Type} (f : α → Option β) (g : α → β) (xs : List α) :
    xs.filterMap f = xs.map g ↔ ∀ x ∈ xs, f x = some (g x) := by
  constructor
  · intro same
    have all : ∀ x ∈ xs, (f x).isSome = true := by
      have length := congrArg List.length same
      rw [List.length_map] at length
      exact List.filterMap_length_eq_length.mp length
    induction xs with
    | nil => nofun
    | cons x xs ih =>
      obtain ⟨y, is⟩ := Option.isSome_iff_exists.mp (all x List.mem_cons_self)
      rw [List.filterMap_cons_some is, List.map_cons, List.cons.injEq] at same
      obtain ⟨rfl, rest⟩ := same
      intro z mem
      obtain rfl | mem := List.mem_cons.mp mem
      · exact is
      · exact ih rest (fun x mem => all x (List.mem_cons_of_mem _ mem)) z mem
  · intro each
    rw [← List.filterMap_eq_map]
    exact List.filterMap_congr each

def strings (slots : List (Option Key × Bytes)) : Slots D := slots.map fun e => (e.1, .string e.2)

/-- Data comes back from its compressed text if and only if no name that is not in the table is a short
key, no value under a name in the table is empty as a C string, and under a name in `ValMapTags` the
values in the table are C strings and the others are no short keys. -/
theorem expand_compress_iff {lookupPath : AnyTree D → Bytes → Option (AnyTree D)} {config : AnyTree D}
    (built : init env lookupPath config = some t) (erange : Bool) {slots : List (Option Key × Bytes)}
    (distinct : (slots.filterMap Prod.fst).Nodup) :
    t.doExpand env erange (t.doCompress env (strings slots)) = some (strings slots) ↔
      ∀ e ∈ slots, t.Clean e ∧ t.ValueKept env e := by
  have made := made_of_init env built
  have shorts : (strings slots).filterMap (t.short env) = slots.filterMap fun e => t.short env (e.1, .string e.2) := by
    rw [strings, List.filterMap_map]
    rfl
  have expanded : t.doExpand env erange (t.doCompress env (strings slots)) =
      some (((slots.filterMap fun e => t.short env (e.1, .string e.2)).foldl assign []).foldl (t.expandSlot env) []) := by
    unfold doCompress
    rw [compress_eq, shorts]
    have none : Distinct ([] : Slots D) := List.nodup_nil
    refine doExpand_print erange (distinct_assignAll none _) fun e mem => ?_
    obtain ⟨-, c, cMem, value⟩ := mem_assignAll mem
    rw [List.nil_append] at cMem
    obtain ⟨a, -, is⟩ := List.mem_filterMap.mp cMem
    obtain ⟨s, string⟩ := short_string is
    exact ⟨s, value ▸ string⟩
  rw [expanded, Option.some.injEq]
  by_cases clean : ∀ e ∈ slots, t.Clean e
  · have each := distinct_map_long made distinct clean
    rw [assignAll_distinct (distinct_short made distinct clean), List.nil_append, expand_eq, assignAll_distinct each, List.nil_append,
      List.map_filterMap, strings, filterMap_eq_map_iff]
    exact forall₂_congr fun e mem => (long_short_iff made (clean e mem)).trans (by rw [and_iff_right (clean e mem)])
  · refine iff_of_false (fun same => ?_) fun all => clean fun e mem => (all e mem).1
    simp only [not_forall] at clean
    obtain ⟨e, mem, unclean⟩ := clean
    simp only [Clean, not_forall] at unclean
    obtain ⟨slotname, name, unmapped, taken⟩ := unclean
    refine not_mem_expand made unmapped taken
      ((slots.filterMap fun e => t.short env (e.1, .string e.2)).foldl assign []) ?_
    rw [same]
    exact mem_names.mpr ⟨.string e.2, List.mem_map.mpr ⟨e, mem, by rw [name]⟩⟩

def sampleLookup (v : AnyTree Unit) (path : Bytes) : Option (AnyTree Unit) :=
  if path = ascii "SecurityModule.TableCompressor" then
    (lookup (slotsOf v) (ascii "SecurityModule")).bind fun m => lookup (slotsOf m) (ascii "TableCompressor")
  else none

def slotNamed (s : String) (v : AnyTree Unit) : Option Key × AnyTree Unit := (Key.ofText (ascii s), v)

/-- The short key of `Page` is `a`, and that of `Main` is `a` as well. -/
def sampleConfig : AnyTree Unit :=
  .array [slotNamed "SecurityModule" (.array [slotNamed "TableCompressor" (.array
    [slotNamed "Key2UriMap" (.array [(none, .string (ascii "Page"))]),
      slotNamed "Val2UriMap" (.array [(none, .string (ascii "Main"))]),
      slotNamed "ValMapTags" (.array [(none, .string (ascii "Page"))])])])]

theorem expand_compress_page :
    ∃ t, init bareEnvironment sampleLookup sampleConfig = some t ∧
      (t.doExpand bareEnvironment false (t.doCompress bareEnvironment (strings [(Key.ofText (ascii "Page"), ascii "Main")])) =
          some (strings [(Key.ofText (ascii "Page"), ascii "Main")]) ↔
        ∀ e ∈ [(Key.ofText (ascii "Page"), ascii "Main")], t.Clean e ∧ t.ValueKept bareEnvironment e) :=
  ⟨_, rfl, @expand_compress_iff _ _ _ sampleLookup sampleConfig rfl false _ (by decide)⟩

/-- An empty value is dropped, and the slot named `a` comes back as `Page`. -/
theorem compress_loses :
    ∃ t, init bareEnvironment sampleLookup sampleConfig = some t ∧
      t.doExpand bareEnvironment false (t.doCompress bareEnvironment (strings [(Key.ofText (ascii "Page"), [])])) = some [] ∧
      strings [(Key.ofText (ascii "Page"), [])] ≠ ([] : Slots Unit) ∧
      t.doExpand bareEnvironment false (t.doCompress bareEnvironment (strings [(Key.ofText (ascii "a"), ascii "x")])) =
        some (strings [(Key.ofText (ascii "Page"), ascii "x")]) ∧
      Key.ofText (ascii "a") ≠ Key.ofText (ascii "Page") :=
  ⟨_, rfl, rfl, nofun, rfl, by decide⟩

end TableCompressor

end Coast.Security
