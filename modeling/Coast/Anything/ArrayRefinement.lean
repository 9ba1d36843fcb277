import Coast.Anything.ArrayRuns

/-!
# The array as a list of entries

What an array is for: a list of values with optional keys. `Named` relates the array to such a list as
far as lookups by key go; `Agrees` also relates the keys and values that a reader sees.
-/

namespace Coast.Anything

open LinearProbing AnyArrayImpl

/-- A key as it reaches the array: a C string that is not empty. -/
structure Key where
  text : Bytes
  nonempty : text ≠ []
  plain : 0 ∉ text
  deriving DecidableEq

theorem Key.text_injective {k l : Key} (same : k.text = l.text) : k = l := by
  cases k
  cases l
  cases same
  rfl

abbrev Entries (V : Type) := List (Option Key × V)

namespace Entries

variable {V : Type}

def position (es : Entries V) (k : Key) : Option Nat := es.findIdx? fun e => e.1 == some k

def put (es : Entries V) (i : Nat) (v : Option V) : Entries V := es.modify i fun e => (e.1, v.getD e.2)

def name (es : Entries V) (i : Nat) : Option Key := es[i]?.bind Prod.fst

theorem getElem?_put (es : Entries V) (i : Nat) (v : Option V) (j : Nat) :
    (put es i v)[j]? = if j = i then es[j]?.map fun e => (e.1, v.getD e.2) else es[j]? := by
  rw [put, List.getElem?_modify]
  by_cases same : j = i
  · subst same
    simp
  · simp [same, Ne.symm same]

theorem name_put (es : Entries V) (i : Nat) (v : Option V) (j : Nat) : name (put es i v) j = name es j := by
  rw [name, name, getElem?_put]
  split
  · cases es[j]? <;> rfl
  · rfl

theorem name_none_of_ge {es : Entries V} {i : Nat} (outside : es.length ≤ i) : name es i = none := by
  rw [name, List.getElem?_eq_none outside]
  rfl

theorem put_last (es : Entries V) (e : Option Key × V) (v : Option V) :
    put (es ++ [e]) es.length v = es ++ [(e.1, v.getD e.2)] := by
  induction es with
  | nil => rfl
  | cons d es ih => exact congrArg (d :: ·) ih

theorem length_put (es : Entries V) (i : Nat) (v : Option V) : (put es i v).length = es.length := List.length_modify ..

theorem name_eraseIdx (es : Entries V) (slot b : Nat) (k : Key) :
    name (es.eraseIdx slot) b = some k ↔
      ∃ l, (if l = slot then none else if l > slot then some (l - 1) else some l) = some b ∧ es.name l = some k := by
  unfold name
  rw [List.getElem?_eraseIdx]
  constructor
  · intro has
    split at has
    · exact ⟨b, by rw [if_neg (by omega), if_neg (by omega)], has⟩
    · exact ⟨b + 1, by rw [if_neg (by omega), if_pos (by omega)]; rfl, has⟩
  · rintro ⟨l, new, has⟩
    split at new
    · cases new
    · split at new
      · have := Option.some.inj new
        rw [if_neg (by omega), show b + 1 = l by omega]
        exact has
      · have := Option.some.inj new
        rw [if_pos (by omega), ← this]
        exact has

variable [Inhabited V]

def apply : Edit Key V → Entries V → Entries V
  | .atSlot slot v, es => put (es ++ List.replicate (slot + 1 - es.length) (none, default)) slot v
  | .append v, es => es ++ [(none, v)]
  | .atKey k v, es =>
    match position es k with
    | some i => put es i v
    | none => es ++ [(some k, v.getD default)]
  | .remove slot, es => es.eraseIdx slot
  | .removeKey k, es =>
    match position es k with
    | some i => es.eraseIdx i
    | none => es
  | .insertReserve pos size, es => es.take pos ++ List.replicate size (none, default) ++ es.drop pos

theorem name_pad (es : Entries V) (n j : Nat) : name (es ++ List.replicate n (none, default)) j = name es j := by
  rw [name, name, List.getElem?_append]
  split
  · rfl
  · rename_i outside
    rw [List.getElem?_eq_none (by omega : es.length ≤ j), List.getElem?_replicate]
    split <;> rfl

theorem name_insert (es : Entries V) {pos : Nat} (inside : pos ≤ es.length) (size b : Nat) (k : Key) :
    name (es.take pos ++ List.replicate size (none, default) ++ es.drop pos) b = some k ↔
      ∃ l, (if l ≥ pos then some (l + size) else some l) = some b ∧ es.name l = some k := by
  unfold name
  rw [List.append_assoc, List.getElem?_append, List.length_take, Nat.min_eq_left inside, List.getElem?_append,
    List.length_replicate]
  constructor
  · intro has
    split at has
    · rw [List.getElem?_take_of_lt (by omega)] at has
      exact ⟨b, by rw [if_neg (by omega)], has⟩
    · split at has
      · rw [List.getElem?_replicate_of_lt (by omega)] at has
        cases has
      · rw [List.getElem?_drop] at has
        refine ⟨pos + (b - pos - size), ?_, has⟩
        rw [if_pos (by omega)]
        congr 1
        omega
  · rintro ⟨l, new, has⟩
    split at new
    · have := Option.some.inj new
      rw [if_neg (by omega), if_neg (by omega), List.getElem?_drop, show pos + (b - pos - size) = l by omega]
      exact has
    · have := Option.some.inj new
      rw [if_pos (by omega), List.getElem?_take_of_lt (by omega), ← this]
      exact has

theorem apply_append (es : Entries V) (v : V) : apply (.append v) es = apply (.atSlot es.length (some v)) es := by
  rw [apply, apply, show es.length + 1 - es.length = 1 by omega, List.replicate_one, put_last]
  rfl

end Entries

namespace AnyArrayImpl

variable {V : Type} [Inhabited V]

def stored (a : AnyArrayImpl V) : List Nat :=
  match a.fKeys with
  | none => []
  | some t => contents t.fHashTable

structure Named (a : AnyArrayImpl V) (es : Entries V) : Prop extends Wf a where
  length : es.length = a.fSize
  stored : ∀ i, i ∈ a.stored ↔ ∃ k, es.name i = some k
  key : ∀ i k, es.name i = some k → (a.assocOf i).fKey = k.text
  indexed : ∀ t ∈ a.fKeys, t.Indexed fun l => (a.assocOf l).fKey

variable {a a' : AnyArrayImpl V} {es es' : Entries V}

theorem named_new : (new : AnyArrayImpl V).Named [] := by
  refine ⟨wf_new, rfl, ?_, ?_, ?_⟩
  · intro i
    constructor
    · intro member
      cases member
    · rintro ⟨k, named⟩
      cases named
  · intro i k named
    cases named
  · intro t ht
    cases ht

theorem Named.lt_of_name (named : a.Named es) {i : Nat} {k : Key} (has : es.name i = some k) : i < a.fSize := by
  rw [← named.length]
  by_contra outside
  rw [Entries.name_none_of_ge (by omega)] at has
  cases has

theorem Named.name_injective (named : a.Named es) {i j : Nat} {k : Key} (hi : es.name i = some k)
    (hj : es.name j = some k) : i = j := by
  have mi := (named.stored i).mpr ⟨k, hi⟩
  have mj := (named.stored j).mpr ⟨k, hj⟩
  have same : (a.assocOf i).fKey = (a.assocOf j).fKey := by rw [named.key i k hi, named.key j k hj]
  unfold AnyArrayImpl.stored at mi mj
  cases keys : a.fKeys with
  | none =>
    rw [keys] at mi
    cases mi
  | some t =>
    rw [keys] at mi mj
    exact (named.indexed t keys).apart i mi j mj same

theorem Named.position_iff (named : a.Named es) (k : Key) (i : Nat) : es.position k = some i ↔ es.name i = some k := by
  rw [Entries.position, List.findIdx?_eq_some_iff_getElem]
  constructor
  · rintro ⟨inside, hit, _⟩
    rw [Entries.name, List.getElem?_eq_getElem inside]
    exact beq_iff_eq.mp hit
  · intro has
    have inside : i < es.length := by rw [named.length]; exact named.lt_of_name has
    have own : es[i].1 = some k := by
      rw [Entries.name, List.getElem?_eq_getElem inside] at has
      exact has
    refine ⟨inside, by rw [own]; exact beq_self_eq_true _, ?_⟩
    intro j before hit
    have same : es.name j = some k := by
      rw [Entries.name, List.getElem?_eq_getElem (by omega)]
      exact beq_iff_eq.mp hit
    have := named.name_injective same has
    omega

theorem Named.findIndex_eq (named : a.Named es) (k : Key) : a.findIndex k.text = .ok (es.position k) := by
  have found : ∀ i, a.findIndex k.text = .ok (some i) ↔ es.position k = some i := by
    intro i
    rw [named.position_iff]
    cases keys : a.fKeys with
    | none =>
      have empty : a.stored = [] := by rw [AnyArrayImpl.stored, keys]
      constructor
      · intro found
        rw [findIndex, keys] at found
        cases found
      · intro has
        have member := (named.stored i).mpr ⟨k, has⟩
        rw [empty] at member
        cases member
    | some t =>
      have table : a.stored = contents t.fHashTable := by rw [AnyArrayImpl.stored, keys]
      rw [findIndex, keys]
      refine (keyAt_iff named.toShape (named.keys t keys) (named.indexed t keys) k.plain i).trans ?_
      rw [← table]
      constructor
      · rintro ⟨member, own⟩
        obtain ⟨l, has⟩ := (named.stored i).mp member
        rw [named.key i l has] at own
        rw [has, Key.text_injective own]
      · intro has
        exact ⟨(named.stored i).mpr ⟨k, has⟩, named.key i k has⟩
  rcases findIndex_ok named.toWf k.text with absent | ⟨i, _, present⟩
  · cases h : es.position k with
    | none => exact absent
    | some i =>
      rw [(found i).mpr h] at absent
      cases absent
  · rw [present, (found i).mp present]

/-! ### The edits keep the names -/

theorem Named.keep (named : a.Named es) (wf : a'.Wf) (length : es'.length = a'.fSize) (keys : a'.fKeys = a.fKeys)
    (names : ∀ i, es'.name i = es.name i)
    (same : ∀ i < a.fSize, (a'.assocOf i).fKey = (a.assocOf i).fKey) : a'.Named es' := by
  have table : a'.stored = a.stored := by rw [AnyArrayImpl.stored, keys]; rfl
  refine ⟨wf, length, ?_, ?_, ?_⟩
  · intro i
    rw [table, names, named.stored]
  · intro i k has
    rw [names] at has
    rw [same i (named.lt_of_name has), named.key i k has]
  · intro t ht
    rw [keys] at ht
    exact (named.indexed t ht).congr fun l member => same l ((named.keys t ht).bound l member)

theorem Named.renumber {g : Nat → Option Nat} {f : AnyKeyTable → AnyKeyTable} (named : a.Named es) (wf : a'.Wf)
    (length : es'.length = a'.fSize) (keys : a'.fKeys = a.fKeys.map f)
    (table : ∀ t, (f t).fCapacity = t.fCapacity ∧ (f t).fHashTable = t.fHashTable.map (LinearProbing.renumber g))
    (names : ∀ b k, es'.name b = some k ↔ ∃ l, g l = some b ∧ es.name l = some k)
    (same : ∀ l < a.fSize, ∀ b, g l = some b → (a'.assocOf b).fKey = (a.assocOf l).fKey) : a'.Named es' := by
  have now : a'.stored = a.stored.filterMap g := by
    rw [AnyArrayImpl.stored, AnyArrayImpl.stored, keys]
    cases a.fKeys with
    | none => rfl
    | some t =>
      show contents (f t).fHashTable = _
      rw [(table t).2, contents_renumber]
  refine ⟨wf, length, ?_, ?_, ?_⟩
  · intro b
    rw [now, List.mem_filterMap]
    constructor
    · rintro ⟨l, member, new⟩
      obtain ⟨k, has⟩ := (named.stored l).mp member
      exact ⟨k, (names b k).mpr ⟨l, new, has⟩⟩
    · rintro ⟨k, has⟩
      obtain ⟨l, new, old⟩ := (names b k).mp has
      exact ⟨l, (named.stored l).mpr ⟨k, old⟩, new⟩
  · intro b k has
    obtain ⟨l, new, old⟩ := (names b k).mp has
    rw [same l (named.lt_of_name old) b new, named.key l k old]
  · intro t ht
    rw [keys] at ht
    obtain ⟨u, hu, rfl⟩ := Option.map_eq_some_iff.mp ht
    exact (named.indexed u hu).renumber (table u).1 (table u).2 fun l member b new =>
      same l ((named.keys u hu).bound l member) b new

theorem Named.remove (named : a.Named es) {slot : Nat} (inside : slot < a.fSize) :
    ∃ a', a.remove slot = .ok a' ∧ a'.Named (es.eraseIdx slot) := by
  obtain ⟨a', removed, wf', size, keys, assocs⟩ := remove_effect named.toWf inside
  refine ⟨a', removed, named.renumber wf' ?_ keys (fun t => ⟨rfl, t.updateRemoved_eq slot⟩) (Entries.name_eraseIdx es slot) ?_⟩
  · rw [List.length_eraseIdx_of_lt (by rw [named.length]; exact inside), named.length, size]
  · intro l below b new
    rw [assocs]
    split at new
    · cases new
    · have before : ¬ b + 1 = a.fSize := by
        split at new
        · have := Option.some.inj new
          omega
        · have := Option.some.inj new
          omega
      rw [if_neg before]
      unfold removedAt
      split at new
      · have := Option.some.inj new
        rw [if_neg (by omega), if_pos (by omega), show b + 1 = l by omega]
      · have := Option.some.inj new
        rw [if_pos (by omega), this]

theorem Named.insertReserve (named : a.Named es) {pos size : Nat} (inside : pos ≤ a.fSize) (some : 0 < a.fSize + size) :
    ∃ a', a.insertReserve pos size = .ok a' ∧
      a'.Named (es.take pos ++ List.replicate size (none, default) ++ es.drop pos) := by
  obtain ⟨a', reserved, wf', asize, keys, assocs⟩ := insertReserve_effect named.toWf inside some
  have length := named.length
  refine ⟨a', reserved, named.renumber wf' ?_ keys (fun t => ⟨rfl, t.updateInserted_eq pos size⟩)
    (Entries.name_insert es (by omega) size) ?_⟩
  · simp only [List.length_append, List.length_take, List.length_replicate, List.length_drop]
    omega
  · intro l below b new
    rw [assocs]
    unfold insertedAt
    split at new
    · have := Option.some.inj new
      rw [if_neg (by omega), if_neg (by omega), if_pos (by omega), show b - size = l by omega]
    · have := Option.some.inj new
      rw [if_pos (by omega), this]

def Key.asText (k : Key) : Option Bytes := .some k.text

theorem Named.atKey_new (named : a.Named es) {k : Key} (absent : es.position k = none) (room : a.fSize < a.fCapacity)
    (v : Option V) :
    ∃ a', (Edit.atKey k v).apply Key.asText a = .ok a' ∧ a'.Named (es ++ [(some k, v.getD default)]) := by
  have missing : a.findIndex ((Key.asText k).getD []) = .ok none := by
    rw [← absent]
    exact named.findIndex_eq k
  obtain ⟨a', t', done, wf', size, assocs, appended, keys, -⟩ := atKey_new_effect named.toWf missing room v
  obtain ⟨t, ht⟩ : ∃ t, t = a.fKeys.getD (AnyKeyTable.initTable AnyKeyTable.cInitCapacity) := ⟨_, rfl⟩
  have twf : t.Wf a.fSize := by rw [ht]; exact keysTable_wf named.toWf
  rw [← ht] at appended
  have table : contents t.fHashTable = a.stored := by
    rw [ht, AnyArrayImpl.stored]
    cases a.fKeys with
    | none => simp [AnyKeyTable.initTable, contents]
    | some u => rfl
  have old : ∀ l ∈ contents t.fHashTable, (a'.assocOf l).fKey = (a.assocOf l).fKey := by
    intro l member
    rw [assocs, if_neg (by have := twf.bound l member; omega)]
  have own : (a'.assocOf a.fSize).fKey = k.text := by
    rw [assocs, if_pos rfl]
    rfl
  have indexed : t.Indexed fun l => (a'.assocOf l).fKey := by
    refine AnyKeyTable.Indexed.congr ?_ old
    rw [ht]
    cases keys : a.fKeys with
    | none => exact AnyKeyTable.indexed_initTable _ _
    | some u => exact named.indexed u keys
  have differ : ∀ l ∈ contents t.fHashTable, (a'.assocOf l).fKey ≠ k.text := by
    intro l member same
    rw [table] at member
    obtain ⟨m, has⟩ := (named.stored l).mp member
    rw [old l (by rw [table]; exact member), named.key l m has] at same
    rw [Key.text_injective same, ← named.position_iff, absent] at has
    cases has
  obtain ⟨u, appended', _, strong⟩ := keyAppend_spec named.toShape twf (Nat.le_refl _) k.text
  have same : u = t' := Except.ok.inj (appended'.symm.trans appended)
  subst same
  obtain ⟨indexed', perm⟩ := strong (fun l => (a'.assocOf l).fKey) indexed (fun l member => (old l member).symm) own
    k.plain differ
  have names : ∀ i, Entries.name (es ++ [(some k, v.getD default)]) i =
      if i = a.fSize then some k else es.name i := by
    intro i
    unfold Entries.name
    rw [List.getElem?_append]
    split
    · rw [if_neg (by have := named.length; omega)]
    · rename_i outside
      have := named.length
      by_cases last : i = a.fSize
      · rw [if_pos last, show i - es.length = 0 by omega]
        rfl
      · rw [if_neg last, List.getElem?_eq_none (show es.length ≤ i by omega),
          List.getElem?_eq_none (show [_].length ≤ i - es.length by simp; omega)]
  refine ⟨a', done, wf', ?_, ?_, ?_, ?_⟩
  · rw [List.length_append, named.length, size]
    rfl
  · intro i
    have now : a'.stored = contents u.fHashTable := by rw [AnyArrayImpl.stored, keys]
    rw [now, perm.mem_iff, List.mem_cons, table, names, named.stored]
    by_cases last : i = a.fSize
    · simp [last]
    · simp [last]
  · intro i l has
    rw [names] at has
    by_cases last : i = a.fSize
    · rw [if_pos last] at has
      rw [last, own, Option.some.inj has]
    · rw [if_neg last] at has
      rw [assocs, if_neg last, named.key i l has]
  · intro w hw
    rw [keys] at hw
    cases hw
    exact indexed'

theorem key_put (shape : a.Shape) {pos : Nat} (inside : pos < a.fCapacity) (v : Option V) (j : Nat) :
    ((a.modifyCell pos (AnyKeyAssoc.put v)).assocOf j).fKey = (a.assocOf j).fKey := by
  have changed := shape.assocAt_modifyCell inside (AnyKeyAssoc.put v) (a.cellOf j)
  refine (congrArg AnyKeyAssoc.fKey changed).trans ?_
  split
  · rename_i here
    rw [← here]
    rfl
  · rfl

theorem Named.apply (named : a.Named es) {e : Edit Key V} (contract : e.InContract a) (room : e.HasRoom Key.asText a) :
    ∃ a', e.apply Key.asText a = .ok a' ∧ a'.Named (Entries.apply e es) := by
  have atSlot : ∀ slot v, ∃ a', (Edit.atSlot slot v).apply Key.asText a = .ok a' ∧
      a'.Named (Entries.apply (.atSlot slot v) es) := by
    intro slot v
    obtain ⟨a', done, wf', size, keys, assocs, -⟩ := atSlot_effect Key.asText named.toWf slot v
    refine ⟨a', done, named.keep wf' ?_ keys ?_ ?_⟩
    · rw [Entries.apply, Entries.length_put, List.length_append, List.length_replicate, named.length, size]
      omega
    · intro i
      rw [Entries.apply, Entries.name_put, Entries.name_pad]
    · intro i _
      rw [assocs]
      split <;> rfl
  cases e with
  | atSlot slot v => exact atSlot slot v
  | append v =>
    rw [append_eq_atSlot, Entries.apply_append, named.length]
    exact atSlot a.fSize (some v)
  | atKey k v =>
    have found := named.findIndex_eq k
    cases h : es.position k with
    | none =>
      rw [h] at found
      rw [show Entries.apply (.atKey k v) es = es ++ [(some k, v.getD default)] by simp only [Entries.apply, h]]
      exact named.atKey_new h (room found) v
    | some i =>
      rw [h] at found
      rw [show Entries.apply (.atKey k v) es = es.put i v by simp only [Entries.apply, h]]
      obtain ⟨done, inside⟩ := atKey_old_effect named.toWf (show a.findIndex ((Key.asText k).getD []) = _ from found) v
      refine ⟨_, done, named.keep (named.toWf.modifyCell _ _) ?_ rfl ?_ ?_⟩
      · exact (Entries.length_put es i v).trans named.length
      · exact Entries.name_put es i v
      · intro j _
        exact key_put named.toShape (Nat.lt_of_lt_of_le inside named.toShape.size_le) v j
  | remove slot =>
    by_cases inside : slot < a.fSize
    · exact named.remove inside
    · refine ⟨a, remove_of_ge inside, ?_⟩
      rw [Entries.apply, List.eraseIdx_of_length_le (by rw [named.length]; omega)]
      exact named
  | removeKey k =>
    have found := named.findIndex_eq k
    rcases removeKey_eq named.toWf k.text with ⟨absent, same⟩ | ⟨slot, inside, present, removal⟩
    · rw [absent] at found
      simp only [Entries.apply, ← Except.ok.inj found]
      exact ⟨a, same, named⟩
    · rw [present] at found
      simp only [Entries.apply, ← Except.ok.inj found]
      obtain ⟨a', removed, named'⟩ := named.remove inside
      exact ⟨a', removal.trans removed, named'⟩
  | insertReserve pos size => exact named.insertReserve contract.1 contract.2

/-- An edit that adds a key only while there is room, within the contract of insertions. -/
def Admissible (e : Edit Key V) (a : AnyArrayImpl V) : Prop := e.InContract a ∧ e.HasRoom Key.asText a

/-- In every state that such edits reach, a lookup finds the position of the key in the list of
entries, and there is a place for one more key. -/
theorem run_lookup (edits : List (Edit Key V)) (admissible : Runs.Meets (Edit.apply Key.asText) Admissible edits new) :
    ∃ a, Runs.run (Edit.apply Key.asText) edits new = .ok a ∧
      (∀ k : Key, a.findIndex k.text = .ok (Entries.position (edits.foldl (fun es e => Entries.apply e es) []) k)) ∧
      ∀ t ∈ a.fKeys, ∀ k : Key,
        a.keyAt t k.text = .ok (Entries.position (edits.foldl (fun es e => Entries.apply e es) []) k) ∧
        ∃ i, a.doHash t k.text true = .ok (some i) := by
  obtain ⟨a, done, named⟩ := Runs.run_simulates (fun e a es (named : a.Named es) holds => named.apply holds.1 holds.2)
    edits named_new admissible
  refine ⟨a, done, named.findIndex_eq, ?_⟩
  intro t ht k
  have wf := named.keys t ht
  have pos : 0 < t.fCapacity := Nat.lt_of_lt_of_le (by decide) wf.capacity
  constructor
  · have found := named.findIndex_eq k
    rw [findIndex, Option.mem_def.mp ht] at found
    exact found
  · rw [doHash_eq named.toShape wf.length pos wf.bound]
    obtain ⟨i, found⟩ := search_reuse (fun l => keyMatches k.text (ifaHash k.text).2 (a.assocOf l).fKey)
      (show home t.fCapacity k.text < t.fHashTable.length by rw [wf.length]; exact home_lt pos _)
      (by rw [wf.length]; exact wf.room)
    exact ⟨i, congrArg _ found⟩

theorem run_lookup_key :
    let a : Key := ⟨ascii "a", by decide, by decide⟩
    let edits : List (Edit Key Nat) := [.atKey a none, .append 1, .atSlot 3 none, .remove 0]
    Runs.Meets (Edit.apply Key.asText) Admissible edits new ∧ ∃ a, Runs.run (Edit.apply Key.asText) edits new = .ok a ∧
      (∀ k : Key, a.findIndex k.text = .ok (Entries.position (edits.foldl (fun es e => Entries.apply e es) []) k)) ∧
      ∀ t ∈ a.fKeys, ∀ k : Key,
        a.keyAt t k.text = .ok (Entries.position (edits.foldl (fun es e => Entries.apply e es) []) k) ∧
        ∃ i, a.doHash t k.text true = .ok (some i) := by
  intro a edits
  have admissible : Runs.Meets (Edit.apply Key.asText) Admissible edits new :=
    ⟨⟨trivial, fun _ => by decide⟩, fun _ _ => ⟨⟨trivial, trivial⟩, fun _ _ => ⟨⟨trivial, trivial⟩, fun _ _ =>
      ⟨⟨trivial, trivial⟩, fun _ _ => trivial⟩⟩⟩⟩
  exact ⟨admissible, run_lookup edits admissible⟩

/-- The key that comes after twelve slots is never stored: there is no array to look it up in. -/
theorem lookup_after_overrun :
    let x : Key := ⟨ascii "x", by decide, by decide⟩
    Runs.run (Edit.apply Key.asText) [.atSlot 11 none, .atKey x none] (new : AnyArrayImpl Nat) =
      .error (.contents 12) ∧
    Entries.position ([.atSlot 11 none, .atKey x none].foldl (fun es e => Entries.apply e es) ([] : Entries Nat)) x =
      some 12 :=
  ⟨rfl, rfl⟩

/-! ### Keys and values -/

def keyText : Option Key → Bytes
  | none => []
  | some k => k.text

def observe (a : AnyArrayImpl V) : Exec (List (Option Bytes × V)) :=
  (List.range a.fSize).mapM fun i => do
    let name ← a.slotName i
    let value ← a.atSlotConst i
    return (name, value)

/-- The pairs of the slots are the entries; the cells that are not in use hold null. -/
structure Agrees (a : AnyArrayImpl V) (es : Entries V) : Prop extends Named a es where
  entry : ∀ i e, es[i]? = some e → a.assocOf i = ⟨e.2, keyText e.1⟩
  spare : ∀ i, a.fSize ≤ i → (a.assocOf i).fValue = default

/-- The cells that a slot without a key takes carry no key, an assignment through an existing key finds
its slot in the cell of the same number, and a new key is added while there is room. -/
def Clean : Edit Key V → AnyArrayImpl V → Prop
  | .atSlot slot _, a => ∀ i, a.fSize ≤ i → i ≤ slot → (a.assocOf i).fKey = []
  | .append _, a => (a.assocOf a.fSize).fKey = []
  | .atKey k v, a => (a.findIndex k.text = .ok none → a.fSize < a.fCapacity) ∧
      ∀ i, a.findIndex k.text = .ok (some i) → v = none ∨ a.cellOf i = i
  | .insertReserve pos size, a => pos ≤ a.fSize ∧ 0 < a.fSize + size ∧
      ∀ i, a.fSize ≤ i → i < a.fSize + size → (a.assocOf i).fKey = []
  | .remove _, _ => True
  | .removeKey _, _ => True

theorem Clean.admissible {e : Edit Key V} (clean : Clean e a) : Admissible e a := by
  cases e with
  | atSlot slot v => exact ⟨trivial, trivial⟩
  | append v => exact ⟨trivial, trivial⟩
  | atKey k v => exact ⟨trivial, clean.1⟩
  | remove slot => exact ⟨trivial, trivial⟩
  | removeKey k => exact ⟨trivial, trivial⟩
  | insertReserve pos size => exact ⟨⟨clean.1, clean.2.1⟩, trivial⟩

theorem agrees_new : (new : AnyArrayImpl V).Agrees [] := by
  refine ⟨named_new, ?_, ?_⟩
  · intro i e has
    cases has
  · intro i _
    show ((List.replicate 4 AnyArrayImpl.blank).getD _ AnyArrayImpl.blank).fValue = default
    rw [List.getD_eq_getElem?_getD, List.getElem?_replicate]
    split <;> rfl

theorem Agrees.blank (agrees : a.Agrees es) {i : Nat} (outside : a.fSize ≤ i) (clean : (a.assocOf i).fKey = []) :
    a.assocOf i = ⟨default, []⟩ := by
  have value := agrees.spare i outside
  cases h : a.assocOf i
  rw [h] at clean value
  cases clean
  cases value
  rfl

theorem entry_put {slot : Nat} {v : Option V} (entry : ∀ i e, es[i]? = some e → a.assocOf i = ⟨e.2, keyText e.1⟩)
    (assocs : ∀ i, a'.assocOf i = if i = slot then (a.assocOf i).put v else a.assocOf i) :
    ∀ i e, (es.put slot v)[i]? = some e → a'.assocOf i = ⟨e.2, keyText e.1⟩ := by
  intro i e has
  rw [Entries.getElem?_put] at has
  rw [assocs]
  split at has
  · rename_i here
    obtain ⟨d, old, rfl⟩ := Option.map_eq_some_iff.mp has
    rw [if_pos here, entry i d old]
    rfl
  · rename_i other
    rw [if_neg other, entry i e has]

theorem Agrees.atSlot (agrees : a.Agrees es) {slot : Nat} (v : Option V)
    (clean : ∀ i, a.fSize ≤ i → i ≤ slot → (a.assocOf i).fKey = []) :
    ∃ a', (Edit.atSlot slot v).apply Key.asText a = .ok a' ∧ a'.Agrees (Entries.apply (.atSlot slot v) es) := by
  have length := agrees.length
  obtain ⟨a', done, named⟩ := agrees.toNamed.apply (e := .atSlot slot v) trivial trivial
  obtain ⟨b, done', _, size, _, assocs, -⟩ := atSlot_effect Key.asText agrees.toWf slot v
  have same : b = a' := Except.ok.inj (done'.symm.trans done)
  subst same
  refine ⟨b, done, named, entry_put ?_ assocs, ?_⟩
  · intro i e has
    rw [List.getElem?_append] at has
    split at has
    · exact agrees.entry i e has
    · rw [List.getElem?_replicate] at has
      split at has
      · cases has
        exact agrees.blank (by omega) (clean i (by omega) (by omega))
      · cases has
  · intro i outside
    rw [assocs, if_neg (by omega)]
    exact agrees.spare i (by omega)

theorem Agrees.remove (agrees : a.Agrees es) {slot : Nat} (inside : slot < a.fSize) :
    ∃ a', a.remove slot = .ok a' ∧ a'.Agrees (es.eraseIdx slot) := by
  have length := agrees.length
  obtain ⟨a', done, named⟩ := agrees.toNamed.remove inside
  obtain ⟨b, done', _, size, _, assocs⟩ := remove_effect agrees.toWf inside
  have same : b = a' := Except.ok.inj (done'.symm.trans done)
  subst same
  refine ⟨b, done, named, ?_, ?_⟩
  · intro i e has
    have below : i + 1 < a.fSize := by
      have := (List.getElem?_eq_some_iff.mp has).1
      rw [List.length_eraseIdx_of_lt (by omega)] at this
      omega
    rw [assocs, if_neg (by omega)]
    rw [List.getElem?_eraseIdx] at has
    unfold removedAt
    split at has
    · rename_i before
      rw [if_pos before]
      exact agrees.entry i e has
    · rename_i after
      rw [if_neg after, if_pos below]
      exact agrees.entry (i + 1) e has
  · intro i outside
    rw [assocs]
    split
    · rfl
    · unfold removedAt
      rw [if_neg (by omega), if_neg (by omega), if_neg (by omega)]
      exact agrees.spare i (by omega)

theorem Agrees.insertReserve (agrees : a.Agrees es) {pos size : Nat} (inside : pos ≤ a.fSize)
    (some : 0 < a.fSize + size) (clean : ∀ i, a.fSize ≤ i → i < a.fSize + size → (a.assocOf i).fKey = []) :
    ∃ a', a.insertReserve pos size = .ok a' ∧
      a'.Agrees (es.take pos ++ List.replicate size (none, default) ++ es.drop pos) := by
  have length := agrees.length
  obtain ⟨a', done, named⟩ := agrees.toNamed.insertReserve inside some
  obtain ⟨b, done', _, bsize, _, assocs⟩ := insertReserve_effect agrees.toWf inside some
  have same : b = a' := Except.ok.inj (done'.symm.trans done)
  subst same
  refine ⟨b, done, named, ?_, ?_⟩
  · intro i e has
    rw [List.append_assoc, List.getElem?_append, List.length_take, Nat.min_eq_left (by omega), List.getElem?_append,
      List.length_replicate] at has
    rw [assocs]
    unfold insertedAt
    split at has
    · rename_i before
      rw [List.getElem?_take_of_lt before] at has
      rw [if_pos before]
      exact agrees.entry i e has
    · split at has
      · rw [List.getElem?_replicate_of_lt (by omega)] at has
        cases has
        rw [if_neg (by omega), if_pos (by omega)]
        exact agrees.blank (by omega) (clean _ (by omega) (by omega))
      · rw [List.getElem?_drop] at has
        have below := (List.getElem?_eq_some_iff.mp has).1
        rw [if_neg (by omega), if_neg (by omega), if_pos (by omega), show i - size = pos + (i - pos - size) by omega]
        exact agrees.entry _ e has
  · intro i outside
    rw [assocs]
    unfold insertedAt
    rw [if_neg (by omega), if_neg (by omega), if_neg (by omega)]
    exact agrees.spare i (by omega)

theorem Agrees.atKey (agrees : a.Agrees es) {k : Key} {v : Option V} (clean : Clean (.atKey k v) a) :
    ∃ a', (Edit.atKey k v).apply Key.asText a = .ok a' ∧ a'.Agrees (Entries.apply (.atKey k v) es) := by
  have length := agrees.length
  have found := agrees.toNamed.findIndex_eq k
  obtain ⟨a', done, named⟩ := agrees.toNamed.apply (e := .atKey k v) trivial clean.1
  cases h : es.position k with
  | none =>
    rw [h] at found
    obtain ⟨b, _, done', _, size, assocs, _⟩ := atKey_new_effect agrees.toWf
      (show a.findIndex ((Key.asText k).getD []) = _ from found) (clean.1 found) v
    have same : b = a' := Except.ok.inj (done'.symm.trans done)
    subst same
    refine ⟨b, done, named, ?_, ?_⟩
    · intro i e has
      simp only [Entries.apply, h, List.getElem?_append] at has
      rw [assocs]
      split at has
      · rw [if_neg (by omega)]
        exact agrees.entry i e has
      · have last := (List.getElem?_eq_some_iff.mp has).1
        simp only [List.length_singleton] at last
        rw [show i - es.length = 0 by omega] at has
        cases has
        rw [if_pos (by omega), agrees.spare i (by omega)]
        rfl
    · intro i outside
      rw [assocs, if_neg (by omega)]
      exact agrees.spare i (by omega)
  | some i =>
    rw [h] at found
    obtain ⟨done', inside⟩ := atKey_old_effect agrees.toWf (show a.findIndex ((Key.asText k).getD []) = _ from found) v
    have same := Except.ok.inj (done'.symm.trans done)
    have below := Nat.lt_of_lt_of_le inside agrees.toShape.size_le
    -- The assignment changes the pair of slot `i`: its cell is the right one, or nothing is assigned.
    have assocs : ∀ j, a'.assocOf j = if j = i then (a.assocOf j).put v else a.assocOf j := by
      intro j
      rw [← same]
      rcases clean.2 i found with rfl | own
      · have changed := agrees.toShape.assocAt_modifyCell below (AnyKeyAssoc.put none) (a.cellOf j)
        refine Eq.trans changed ?_
        split
        · rename_i here
          rw [← here]
          split <;> rfl
        · split <;> rfl
      · have inside : a.cellOf i < a.fCapacity := by rw [own]; exact below
        have changed := assocOf_modifyCell agrees.toShape inside (AnyKeyAssoc.put v) j
        rwa [own] at changed
    refine ⟨a', done, named, ?_, ?_⟩
    · simp only [Entries.apply, h]
      exact entry_put agrees.entry assocs
    · intro j outside
      have size : a'.fSize = a.fSize := by rw [← same]; rfl
      rw [assocs, if_neg (by omega)]
      exact agrees.spare j (by omega)

theorem Agrees.apply (agrees : a.Agrees es) {e : Edit Key V} (clean : Clean e a) :
    ∃ a', e.apply Key.asText a = .ok a' ∧ a'.Agrees (Entries.apply e es) := by
  cases e with
  | atSlot slot v => exact agrees.atSlot v clean
  | append v =>
    rw [append_eq_atSlot, Entries.apply_append, agrees.length]
    refine agrees.atSlot (some v) ?_
    intro i ge le
    rw [show i = a.fSize by omega]
    exact clean
  | atKey k v => exact agrees.atKey clean
  | remove slot =>
    by_cases inside : slot < a.fSize
    · exact agrees.remove inside
    · refine ⟨a, remove_of_ge inside, ?_⟩
      rw [Entries.apply, List.eraseIdx_of_length_le (by rw [agrees.length]; omega)]
      exact agrees
  | removeKey k =>
    have found := agrees.toNamed.findIndex_eq k
    rcases removeKey_eq agrees.toWf k.text with ⟨absent, same⟩ | ⟨slot, inside, present, removal⟩
    · rw [absent] at found
      simp only [Entries.apply, ← Except.ok.inj found]
      exact ⟨a, same, agrees⟩
    · rw [present] at found
      simp only [Entries.apply, ← Except.ok.inj found]
      obtain ⟨a', removed, agrees'⟩ := agrees.remove inside
      exact ⟨a', removal.trans removed, agrees'⟩
  | insertReserve pos size => exact agrees.insertReserve clean.1 clean.2.1 clean.2.2

theorem mapM_ok {α β : Type} {f : α → Exec β} {g : α → β} (xs : List α) (each : ∀ x ∈ xs, f x = .ok (g x)) :
    xs.mapM f = .ok (xs.map g) := by
  induction xs with
  | nil => rfl
  | cons x xs ih =>
    rw [List.mapM_cons, each x List.mem_cons_self, ih fun y member => each y (List.mem_cons_of_mem _ member)]
    rfl

theorem atSlotConst_ok (shape : a.Shape) {i : Nat} (inside : i < a.fSize) :
    a.atSlotConst i = .ok (a.assocOf i).fValue := by
  rw [atSlotConst, shape.intAt_eq, shape.cell_ok (shape.cellOf_lt inside)]
  rfl

theorem Agrees.observe_eq (agrees : a.Agrees es) : a.observe = .ok (es.map fun e => (e.1.map Key.text, e.2)) := by
  have length := agrees.length
  have each : ∀ i ∈ List.range a.fSize, (do
      let name ← a.slotName i
      let value ← a.atSlotConst i
      return (name, value)) = (.ok ((if (a.assocOf i).fKey.length > 0 then some (a.assocOf i).fKey else none),
        (a.assocOf i).fValue) : Exec (Option Bytes × V)) := by
    intro i member
    have inside := List.mem_range.mp member
    rw [slotName_ok agrees.toShape inside, atSlotConst_ok agrees.toShape inside]
    rfl
  rw [observe, mapM_ok _ each]
  congr 1
  refine List.ext_getElem (by simp [length]) ?_
  intro i h _
  have inside : i < es.length := by simpa [length] using h
  have entry := agrees.entry i es[i] (List.getElem?_eq_getElem inside)
  simp only [List.getElem_map, List.getElem_range, entry]
  cases own : es[i].1 with
  | none => rfl
  | some k => simp [keyText, List.length_pos_iff, k.nonempty]

/-- Runs of clean edits show exactly the list of entries. -/
theorem run_observe (edits : List (Edit Key V)) (clean : Runs.Meets (Edit.apply Key.asText) Clean edits new) :
    ∃ a, Runs.run (Edit.apply Key.asText) edits new = .ok a ∧
      a.observe = .ok ((edits.foldl (fun es e => Entries.apply e es) []).map fun e => (e.1.map Key.text, e.2)) := by
  obtain ⟨a, done, agrees⟩ := Runs.run_simulates (fun e a es (agrees : a.Agrees es) holds => agrees.apply holds)
    edits agrees_new clean
  exact ⟨a, done, agrees.observe_eq⟩

theorem run_observe_key :
    let a : Key := ⟨ascii "a", by decide, by decide⟩
    let edits : List (Edit Key Nat) := [.atKey a (some 2), .remove 1, .removeKey a]
    Runs.Meets (Edit.apply Key.asText) Clean edits new ∧ ∃ a, Runs.run (Edit.apply Key.asText) edits new = .ok a ∧
      a.observe = .ok ((edits.foldl (fun es e => Entries.apply e es) []).map fun e => (e.1.map Key.text, e.2)) := by
  intro a edits
  have clean : Runs.Meets (Edit.apply Key.asText) Clean edits new :=
    ⟨⟨fun _ => by decide, fun i found => by cases found⟩, fun _ _ => ⟨trivial, fun _ _ => ⟨trivial, fun _ _ => trivial⟩⟩⟩
  exact ⟨clean, run_observe edits clean⟩

/-- The cell of a removed key is used again with its key. -/
theorem recycled_slot_keeps_key :
    let a : Key := ⟨ascii "a", by decide, by decide⟩
    let edits : List (Edit Key Nat) := [.atKey a none, .remove 0, .append 7]
    (Runs.run (Edit.apply Key.asText) edits new).bind observe = .ok [(some (ascii "a"), 7)] ∧
      edits.foldl (fun es e => Entries.apply e es) [] = [(none, 7)] :=
  ⟨rfl, rfl⟩

end AnyArrayImpl

end Coast.Anything
