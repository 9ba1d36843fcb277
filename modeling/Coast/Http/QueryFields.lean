import Coast.Http.Escapes
import Coast.Http.Fields
import Coast.Lib.Grouping

/-!
# The fields of a query

A query is a text of fields `key=value` with ampersands between them. `Split` and `DecodeAll` make an `Anything` of it in
which the values are grouped by their keys.
-/

namespace Coast.Http

open AnythingParser (assignKey)
open Anything (Key Entries)
open Regex (cstr cstr_of_plain)
open Grouping (groups)
open Value

variable {D : Type}

/-! ### Texts of values -/

inductive Writes : Bytes → Bytes → Prop where
  | nil : Writes [] []
  | plain {c : UInt8} {value text : Bytes} (alnum : isalnum c = true) (rest : Writes value text) : Writes (c :: value) (c :: text)
  | escape {high low : UInt8} {value text : Bytes} (isHigh : isxdigit high = true) (isLow : isxdigit low = true)
    (special : isalnum (twoHexAsChar high low) = false) (rest : Writes value text) :
    Writes (twoHexAsChar high low :: value) ('%'.toUInt8 :: high :: low :: text)

namespace Writes

variable {value text : Bytes}

theorem isalnum_of_isxdigit {c : UInt8} (digit : isxdigit c = true) : isalnum c = true := by
  simp only [isxdigit, isalnum, isdigit, isupper, islower, Bool.or_eq_true, Bool.and_eq_true, decide_eq_true_eq,
    UInt8.le_iff_toNat_le] at digit ⊢
  revert digit
  generalize c.toNat = n
  intro digit
  have bounds : (48 : UInt8).toNat = 48 ∧ (57 : UInt8).toNat = 57 ∧ (65 : UInt8).toNat = 65 ∧ (70 : UInt8).toNat = 70 ∧
      (97 : UInt8).toNat = 97 ∧ (102 : UInt8).toNat = 102 ∧ (90 : UInt8).toNat = 90 ∧ (122 : UInt8).toNat = 122 := by decide
  omega

theorem chars (writes : Writes value text) : ∀ c ∈ text, isalnum c = true ∨ c = '%'.toUInt8 := by
  induction writes with
  | nil => simp
  | plain alnum _ ih => exact List.forall_mem_cons.mpr ⟨.inl alnum, ih⟩
  | escape isHigh isLow _ _ ih =>
    exact List.forall_mem_cons.mpr ⟨.inr rfl, List.forall_mem_cons.mpr ⟨.inl (isalnum_of_isxdigit isHigh),
      List.forall_mem_cons.mpr ⟨.inl (isalnum_of_isxdigit isLow), ih⟩⟩⟩

theorem notMem (writes : Writes value text) {d : UInt8} (other : isalnum d = false) (percent : d ≠ '%'.toUInt8) : d ∉ text := by
  intro mem
  obtain alnum | same := writes.chars d mem
  · rw [alnum] at other
    cases other
  · exact percent same

theorem urlDecodeFrom (writes : Writes value text) : (urlDecodeFrom 0 text).1 = value := by
  induction writes with
  | nil => rfl
  | @plain c _ _ alnum _ ih =>
    have other : c ≠ '%'.toUInt8 := by
      rintro rfl
      exact absurd alnum (by decide)
    rw [urlDecodeFrom_plain other, ih]
  | escape isHigh isLow _ _ ih =>
    rw [urlDecodeFrom_percent, decodeEscape_hex isHigh isLow]
    exact congrArg _ ih

theorem urlDecodePlus (writes : Writes value text) : Http.urlDecodePlus (cstr text) = value := by
  have whole : cstr text = text := cstr_of_plain (writes.notMem (by decide) (by decide))
  have noPlus : convert text = text := convert_eq_self.mpr (writes.notMem (by decide) (by decide))
  have shape : Http.urlDecodePlus text = (urlDecode (convert text)).1 := rfl
  rw [whole, shape, noPlus, urlDecode_eq_with, urlDecodeWith_eq, if_neg Bool.false_ne_true, writes.urlDecodeFrom]

end Writes

/-! ### Fields -/

structure QueryField where
  key : Bytes
  value : Bytes
  text : Bytes
  letters : ∀ c ∈ key, isalnum c = true ∨ c = '_'.toUInt8
  plain : 0 ∉ value
  writes : Writes value text

namespace QueryField

variable (f : QueryField)

def token : Bytes := f.key ++ '='.toUInt8 :: f.text

theorem notMem_key {d : UInt8} (other : isalnum d = false) (underscore : d ≠ '_'.toUInt8) : d ∉ f.key := by
  intro mem
  obtain alnum | same := f.letters d mem
  · rw [alnum] at other
    cases other
  · exact underscore same

theorem notMem_token {d : UInt8} (other : isalnum d = false) (underscore : d ≠ '_'.toUInt8) (equals : d ≠ '='.toUInt8)
    (percent : d ≠ '%'.toUInt8) : d ∉ f.token := by
  rw [token, List.mem_append, List.mem_cons]
  rintro (mem | same | mem)
  · exact f.notMem_key other underscore mem
  · exact equals same
  · exact f.writes.notMem other percent mem

theorem unquote_text : unquote f.text = f.text := by
  refine if_neg ?_
  rintro (quote | quote)
  · exact f.writes.notMem (by decide) (by decide) (List.mem_of_mem_head? quote)
  · exact f.writes.notMem (by decide) (by decide) (List.mem_of_mem_head? quote)

theorem trimBlanks_token : trimBlanks f.token = f.token := by
  refine List.dropWhile_eq_self_iff.mpr fun some blank => ?_
  rw [beq_iff_eq] at blank
  have mem : ' '.toUInt8 ∈ f.token := blank ▸ List.getElem_mem some
  exact f.notMem_token (by decide) (by decide) (by decide) (by decide) mem

theorem pair_token (any : AnyTree D) : pair (trimBlanks f.token) '='.toUInt8 any .eUntouched = appendValueTo any f.key f.text := by
  rw [f.trimBlanks_token, token, pair_key (f.notMem_key (by decide) (by decide)), f.unquote_text]
  rfl

end QueryField

def queryText (fields : List QueryField) : Bytes := ['&'.toUInt8].intercalate (fields.map QueryField.token)

def valueOf (read : QueryField → Bytes) (fields : List QueryField) : AnyTree D :=
  match fields with
  | [f] => .string (read f)
  | fields => .array (fields.map fun f => (none, .string (read f)))

def named {β : Type} (gs : List (Bytes × β)) (h : Bytes × β → AnyTree D) : Slots D := gs.map fun g => (Key.ofText g.1, h g)

def slotsFor (read : QueryField → Bytes) (fields : List QueryField) : Slots D :=
  named (groups QueryField.key fields) fun g => valueOf read g.2

theorem queryText_cons (f g : QueryField) (fields : List QueryField) :
    queryText (f :: g :: fields) = f.token ++ '&'.toUInt8 :: queryText (g :: fields) := by
  simp [queryText, List.intercalate]

theorem zero_notMem_queryText (fields : List QueryField) : 0 ∉ queryText fields := by
  have zero : ∀ f : QueryField, 0 ∉ f.token := fun f => f.notMem_token (by decide) (by decide) (by decide) (by decide)
  induction fields with
  | nil => exact nofun
  | cons f fields ih =>
    cases fields with
    | nil =>
      have single : queryText [f] = f.token := by simp [queryText, List.intercalate]
      rw [single]
      exact zero f
    | cons g fields =>
      rw [queryText_cons, List.mem_append, List.mem_cons]
      rintro (mem | ampersand | mem)
      · exact zero f mem
      · exact absurd ampersand (by decide)
      · exact ih mem

theorem tokens_queryText (fields : List QueryField) : tokens (queryText fields) '&'.toUInt8 = fields.map QueryField.token := by
  cases fields with
  | nil => rfl
  | cons f fields =>
    have whole : cstr (queryText (f :: fields)) = queryText (f :: fields) := cstr_of_plain (zero_notMem_queryText _)
    have some : ¬(queryText (f :: fields)).isEmpty = true := by
      rw [List.isEmpty_iff]
      intro none
      have equals : '='.toUInt8 ∈ queryText (f :: fields) := by
        cases fields with
        | nil => simp [queryText, List.intercalate, QueryField.token]
        | cons g fields => simp [queryText_cons, QueryField.token]
      rw [none] at equals
      cases equals
    have free : ∀ token ∈ (f :: fields).map QueryField.token, '&'.toUInt8 ∉ token := by
      intro token mem
      obtain ⟨g, -, rfl⟩ := List.mem_map.mp mem
      exact g.notMem_token (by decide) (by decide) (by decide) (by decide)
    rw [tokens, whole, if_neg some, queryText]
    exact List.splitOn_intercalate _ free (List.cons_ne_nil _ _)

theorem split_queryText (fields : List QueryField) (out : AnyTree D) : split (queryText fields) '&'.toUInt8 out '='.toUInt8 .eUntouched =
    fields.foldl (fun out f => appendValueTo out f.key f.text) out := by
  rw [split, tokens_queryText, List.foldl_map]
  simp only [QueryField.pair_token]

/-! ### Slots with the names of groups -/

section Named

variable {β : Type} {gs : List (Bytes × β)} {h : Bytes × β → AnyTree D} {k : Key}

theorem mem_names_named (plain : ∀ g ∈ gs, 0 ∉ g.1) : k ∈ names (named gs h) ↔ k.text ∈ gs.map Prod.fst := by
  rw [mem_names, List.mem_map]
  constructor
  · rintro ⟨v, mem⟩
    obtain ⟨g, inside, same⟩ := List.mem_map.mp mem
    exact ⟨g, inside, (ofText_iff (plain g inside)).mp (congrArg Prod.fst same)⟩
  · rintro ⟨g, inside, is⟩
    exact ⟨h g, List.mem_map.mpr ⟨g, inside, by rw [(ofText_iff (plain g inside)).mpr is]⟩⟩

theorem lookup_named_none (plain : ∀ g ∈ gs, 0 ∉ g.1) (fresh : k.text ∉ gs.map Prod.fst) : lookup (named gs h) k.text = none := by
  rw [lookup, ofText_text, Option.bind_some, Option.map_eq_none_iff, List.find?_eq_none]
  intro e mem same
  rw [beq_iff_eq] at same
  refine fresh ((mem_names_named (h := h) plain).mp (mem_names.mpr ⟨e.2, ?_⟩))
  rw [← same]
  exact mem

theorem lookup_named (plain : ∀ g ∈ gs, 0 ∉ g.1) (nodup : (gs.map Prod.fst).Nodup) {g : Bytes × β} (mem : g ∈ gs) (is : g.1 = k.text) :
    lookup (named gs h) k.text = some (h g) := by
  rw [lookup, ofText_text, Option.bind_some]
  cases found : (named gs h).find? fun e => e.1 == some k with
  | none =>
    have other := List.find?_eq_none.mp found _ (List.mem_map_of_mem mem)
    rw [beq_iff_eq, ofText_iff (plain g mem)] at other
    exact absurd is other
  | some e =>
    obtain ⟨g', mem', rfl⟩ := List.mem_map.mp (List.mem_of_find?_eq_some found)
    have is' := List.find?_some found
    rw [beq_iff_eq, ofText_iff (plain g' mem')] at is'
    rw [List.inj_on_of_nodup_map nodup mem' mem (is'.trans is.symm)]
    rfl

theorem assignKey_named (plain : ∀ g ∈ gs, 0 ∉ g.1) (nodup : (gs.map Prod.fst).Nodup) (old : k.text ∈ gs.map Prod.fst) (v : AnyTree D) :
    assignKey (named gs h) k.text v = named gs fun g => if g.1 = k.text then v else h g := by
  obtain ⟨fresh, -⟩ | ⟨-, i, isName, assigned⟩ := assignKey_cases (named gs h) k v
  · exact absurd ((mem_names_named plain).mpr old) fresh
  · have here : ∃ g, gs[i]? = some g ∧ g.1 = k.text := by
      rw [Entries.name, named, List.getElem?_map] at isName
      cases there : gs[i]? with
      | none =>
        rw [there] at isName
        cases isName
      | some g =>
        rw [there] at isName
        exact ⟨g, rfl, (ofText_iff (plain g (List.mem_of_getElem? there))).mp isName⟩
    obtain ⟨g, there, is⟩ := here
    rw [assigned]
    refine List.ext_getElem? fun j => ?_
    rw [Entries.getElem?_put, named, named, List.getElem?_map, List.getElem?_map]
    by_cases same : j = i
    · rw [if_pos same, same, there]
      simp only [Option.map_some, if_pos is, Option.getD_some]
    · rw [if_neg same]
      cases there' : gs[j]? with
      | none => rfl
      | some g' =>
        have other : g'.1 ≠ k.text := by
          intro is'
          have first : (gs.map Prod.fst)[j]? = (gs.map Prod.fst)[i]? := by
            rw [List.getElem?_map, List.getElem?_map, there, there', Option.map_some, Option.map_some, is, is']
          obtain ⟨inside, -⟩ := List.getElem?_eq_some_iff.mp there'
          exact same ((List.getElem?_inj (by rw [List.length_map]; exact inside) nodup).mp first)
        simp only [Option.map_some, if_neg other]

end Named

/-! ### Grouping -/

theorem valueOf_concat (read : QueryField → Bytes) {fields : List QueryField} (some : fields ≠ []) (f : QueryField) :
    append (valueOf read fields : AnyTree D) (.string (read f)) = valueOf read (fields ++ [f]) := by
  match fields, some with
  | [g], _ => rfl
  | g :: g' :: fields, _ => simp [valueOf, append, slotsOf]

theorem plain_groups (fields : List QueryField) : ∀ g ∈ groups QueryField.key fields, 0 ∉ g.1 := by
  intro g mem
  obtain ⟨some, each⟩ := Grouping.group_some mem
  obtain ⟨f, within⟩ := List.exists_mem_of_ne_nil _ some
  rw [← (each f within).2]
  exact f.notMem_key (by decide) (by decide)

theorem slotsFor_old (fields : List QueryField) {f : QueryField} {g : Bytes × List QueryField}
    (mem : g ∈ groups QueryField.key fields) (is : g.1 = f.key) :
    (named (groups QueryField.key fields) fun g' => if g'.1 = f.key then append (valueOf QueryField.text g.2) (.string f.text)
      else valueOf QueryField.text g'.2) = (slotsFor QueryField.text (fields ++ [f]) : Slots D) := by
  have old : f.key ∈ fields.map QueryField.key := is ▸ Grouping.mem_keys.mp (List.mem_map_of_mem mem)
  rw [slotsFor, Grouping.groups_old old, named, named, List.map_map]
  refine List.map_congr_left fun g' mem' => ?_
  rw [Function.comp_apply]
  by_cases same : g'.1 = f.key
  · obtain rfl : g' = g := List.inj_on_of_nodup_map (Grouping.nodup_keys _ _) mem' mem (same.trans is.symm)
    rw [if_pos same, if_pos same, valueOf_concat _ (Grouping.group_some mem).1]
  · rw [if_neg same, if_neg same]

theorem slotsFor_new {fields : List QueryField} {f : QueryField} (fresh : f.key ∉ fields.map QueryField.key) :
    (slotsFor QueryField.text (fields ++ [f]) : Slots D) =
      slotsFor QueryField.text fields ++ [(Key.ofText f.key, .string f.text)] := by
  rw [slotsFor, Grouping.groups_new fresh, named, List.map_append]
  rfl

theorem slotsFor_concat (read : QueryField → Bytes) (fields : List QueryField) (f : QueryField) :
    (slotsFor read (fields ++ [f]) : Slots D) ≠ [] := by
  have mem : f.key ∈ (groups QueryField.key (fields ++ [f])).map Prod.fst :=
    Grouping.mem_keys.mpr (List.mem_map_of_mem (List.mem_append_right _ (List.mem_singleton_self f)))
  intro none
  rw [slotsFor, named, List.map_eq_nil_iff] at none
  rw [none] at mem
  cases mem

theorem appendValueTo_slotsFor (fields : List QueryField) {f : QueryField} (nonempty : f.key ≠ []) :
    appendValueTo (ofSlots (slotsFor QueryField.text fields)) f.key f.text =
      (ofSlots (slotsFor QueryField.text (fields ++ [f])) : AnyTree D) := by
  obtain ⟨k, isKey⟩ : ∃ k : Key, f.key = k.text := ⟨⟨f.key, nonempty, f.notMem_key (by decide) (by decide)⟩, rfl⟩
  have whole : cstr f.text = f.text := cstr_of_plain (f.writes.notMem (by decide) (by decide))
  have plain := plain_groups fields
  have nodup := Grouping.nodup_keys QueryField.key fields
  have some : ¬f.key.isEmpty = true := by rwa [List.isEmpty_iff]
  rw [appendValueTo, if_neg some, slotsOf_ofSlots, whole]
  by_cases old : f.key ∈ fields.map QueryField.key
  · obtain ⟨g, mem, is⟩ := List.mem_map.mp (Grouping.mem_keys.mpr old)
    have keyed : k.text ∈ (groups QueryField.key fields).map Prod.fst := isKey ▸ Grouping.mem_keys.mpr old
    have found := lookup_named (h := fun g => (valueOf QueryField.text g.2 : AnyTree D)) plain nodup mem (is.trans isKey)
    have assigned := assignKey_named (h := fun g => (valueOf QueryField.text g.2 : AnyTree D)) plain nodup keyed
      (append (valueOf QueryField.text g.2) (.string f.text))
    rw [← isKey] at found assigned
    rw [slotsFor_old fields mem is] at assigned
    rw [← slotsFor] at found assigned
    rw [found]
    dsimp only
    rw [assigned, ofSlots_array (slotsFor_concat _ fields f)]
  · have missing := lookup_named_none (h := fun g => (valueOf QueryField.text g.2 : AnyTree D)) plain
      (k := k) (by rw [← isKey]; exact fun mem => old (Grouping.mem_keys.mp mem))
    rw [← isKey, ← slotsFor] at missing
    have new : k ∉ names (slotsFor QueryField.text fields : Slots D) := by
      rw [slotsFor, mem_names_named plain, ← isKey]
      exact fun mem => old (Grouping.mem_keys.mp mem)
    rw [missing]
    dsimp only
    rw [isKey, assignKey_new new, ofSlots_array (slotsFor_concat _ fields f), slotsFor_new old, isKey, ofText_text]

theorem foldl_appendValueTo (before fields : List QueryField) (nonempty : ∀ f ∈ fields, f.key ≠ []) :
    fields.foldl (fun out f => appendValueTo out f.key f.text) (ofSlots (slotsFor QueryField.text before)) =
      (ofSlots (slotsFor QueryField.text (before ++ fields)) : AnyTree D) := by
  induction fields generalizing before with
  | nil => rw [List.append_nil, List.foldl_nil]
  | cons f fields ih =>
    obtain ⟨first, rest⟩ := List.forall_mem_cons.mp nonempty
    rw [List.foldl_cons, appendValueTo_slotsFor before first, ih (before ++ [f]) rest, List.append_assoc, List.singleton_append]

/-! ### Decoding -/

theorem decodeAll_valueOf (fields : List QueryField) :
    decodeAll (valueOf QueryField.text fields : AnyTree D) = valueOf QueryField.value fields := by
  have strings : decodeSlots (fields.map fun f => (none, (.string f.text : AnyTree D))) =
      fields.map fun f => (none, .string f.value) := by
    induction fields with
    | nil => rfl
    | cons f fields ih => rw [List.map_cons, decodeSlots, decodeAll, f.writes.urlDecodePlus, ih, List.map_cons]
  match fields with
  | [] => rfl
  | [f] => rw [valueOf, decodeAll, f.writes.urlDecodePlus, valueOf]
  | f :: g :: fields => rw [valueOf, decodeAll, strings, valueOf] <;> exact nofun

theorem decodeSlots_slotsFor (fields : List QueryField) :
    decodeSlots (slotsFor QueryField.text fields : Slots D) = slotsFor QueryField.value fields := by
  rw [slotsFor, slotsFor, named, named]
  induction groups QueryField.key fields with
  | nil => rfl
  | cons g gs ih => rw [List.map_cons, decodeSlots, decodeAll_valueOf, ih, List.map_cons]

theorem decodeAll_ofSlots (slots : Slots D) : decodeAll (ofSlots slots) = ofSlots (decodeSlots slots) := by
  cases slots with
  | nil => rfl
  | cons e slots => rfl

/-- What is read from a query is its values by their keys. -/
theorem decodeAll_split_queryText (fields : List QueryField) (nonempty : ∀ f ∈ fields, f.key ≠ []) :
    decodeAll (split (queryText fields) '&'.toUInt8 (.null : AnyTree D) '='.toUInt8 .eUntouched) =
      ofSlots (slotsFor QueryField.value fields) := by
  have start : (.null : AnyTree D) = ofSlots (slotsFor QueryField.text []) := rfl
  rw [split_queryText, start, foldl_appendValueTo [] fields nonempty, decodeAll_ofSlots, decodeSlots_slotsFor, List.nil_append]

def QueryField.ofChar (key : Bytes) (letters : ∀ c ∈ key, isalnum c = true ∨ c = '_'.toUInt8) (c : UInt8) (alnum : isalnum c = true) :
    QueryField where
  key := key
  value := [c]
  text := [c]
  letters := letters
  plain := by
    rw [List.mem_singleton]
    rintro rfl
    exact absurd alnum (by decide)
  writes := .plain alnum .nil

/-- `a=&b=%26&a=1`. -/
def someFields : List QueryField :=
  [⟨['a'.toUInt8], [], [], List.forall_mem_singleton.mpr (.inl (by decide)), by decide, .nil⟩,
   ⟨['b'.toUInt8], [twoHexAsChar '2'.toUInt8 '6'.toUInt8], ['%'.toUInt8, '2'.toUInt8, '6'.toUInt8],
    List.forall_mem_singleton.mpr (.inl (by decide)), by decide, .escape (by decide) (by decide) (by decide) .nil⟩,
   .ofChar ['a'.toUInt8] (List.forall_mem_singleton.mpr (.inl (by decide))) '1'.toUInt8 (by decide)]

theorem decodeAll_split_queryText_some :
    decodeAll (split (queryText someFields) '&'.toUInt8 (.null : AnyTree Unit) '='.toUInt8 .eUntouched) =
      ofSlots (slotsFor QueryField.value someFields) :=
  decodeAll_split_queryText someFields (by decide)

/-- Values without a name are not put together. -/
theorem decodeAll_split_nameless : ¬∀ fields : List QueryField,
    decodeAll (split (queryText fields) '&'.toUInt8 (.null : AnyTree Unit) '='.toUInt8 .eUntouched) =
      ofSlots (slotsFor QueryField.value fields) := by
  intro same
  have both := same [.ofChar [] (by simp) 'a'.toUInt8 (by decide), .ofChar [] (by simp) 'b'.toUInt8 (by decide)]
  rw [split_queryText] at both
  have sizes := congrArg (fun any => (slotsOf any).length) both
  exact absurd sizes (by decide)

end Coast.Http
