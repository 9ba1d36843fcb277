import Coast.Anything.ArrayInvariant
import Mathlib.Data.List.TakeWhile
import Mathlib.Data.List.Perm.Subperm

/-!
# The hash table of the named slots

`Append` and `Rehash` keep the table well-formed for any keys, also when keys repeat. As long as the
keys differ, `Indexed` holds: the table finds each stored slot under its key.
-/

namespace Coast.Anything

open LinearProbing

/-! ### Keys -/

theorem ifaHash_length {key : Bytes} (plain : 0 ∉ key) : (ifaHash key).2 = key.length := by
  have whole : key.takeWhile (ifaHashReads 0 0) = key := by
    rw [List.takeWhile_eq_self_iff]
    intro c member
    have nonzero : c ≠ 0 := fun zero => plain (zero ▸ member)
    have value : c.toNat ≠ 0 := fun zero => nonzero (UInt8.toNat.inj zero)
    simpa [ifaHashReads, nonzero, charInt] using value
  simp only [ifaHash, whole]

theorem keyMatches_iff {key : Bytes} (plain : 0 ∉ key) (other : Bytes) :
    AnyArrayImpl.keyMatches key (ifaHash key).2 other = true ↔ other = key := by
  rw [ifaHash_length plain, AnyArrayImpl.keyMatches, Bool.and_eq_true, beq_iff_eq, beq_iff_eq]
  constructor
  · rintro ⟨length, same⟩
    rw [← same, List.take_of_length_le (by omega)]
  · rintro rfl
    exact ⟨rfl, List.take_length⟩

structure AnyKeyTable.Indexed (t : AnyKeyTable) (keyOf : Nat → Bytes) : Prop where
  located : Located t.fHashTable fun l => AnyArrayImpl.home t.fCapacity (keyOf l)
  plain : ∀ l ∈ contents t.fHashTable, 0 ∉ keyOf l
  apart : ∀ l ∈ contents t.fHashTable, ∀ m ∈ contents t.fHashTable, keyOf l = keyOf m → l = m

theorem AnyKeyTable.Indexed.congr {t : AnyKeyTable} {keyOf keyOf' : Nat → Bytes} (indexed : t.Indexed keyOf)
    (same : ∀ l ∈ contents t.fHashTable, keyOf' l = keyOf l) : t.Indexed keyOf' := by
  refine ⟨?_, ?_, ?_⟩
  · intro i l cell
    have reach := indexed.located i l cell
    dsimp only at reach ⊢
    rwa [same l (mem_contents.mpr ⟨i, cell⟩)]
  · intro l member
    rw [same l member]
    exact indexed.plain l member
  · intro l hl m hm
    rw [same l hl, same m hm]
    exact indexed.apart l hl m hm

theorem AnyKeyTable.indexed_initTable (cap : Nat) (keyOf : Nat → Bytes) :
    (AnyKeyTable.initTable cap).Indexed keyOf := by
  have none : contents (AnyKeyTable.initTable cap).fHashTable = [] := by simp [AnyKeyTable.initTable, contents]
  refine ⟨located_replicate_free _ _, ?_, ?_⟩
  · rw [none]
    intro l member
    cases member
  · rw [none]
    intro l member
    cases member

theorem AnyKeyTable.wf_initTable (cap : Nat) : (AnyKeyTable.initTable cap).Wf 0 := by
  have le := le_ifaNextPrime (if cap < cInitCapacity then cInitCapacity else cap)
  have large : cInitCapacity ≤ ifaNextPrime (if cap < cInitCapacity then cInitCapacity else cap) := by
    refine Nat.le_trans ?_ le
    split <;> omega
  have none : contents (AnyKeyTable.initTable cap).fHashTable = [] := by simp [AnyKeyTable.initTable, contents]
  refine ⟨List.length_replicate, large, rfl, ?_, ?_, ?_⟩
  · rw [none]
    exact List.nodup_nil
  · rw [none]
    intro l member
    cases member
  · rw [none]
    exact Nat.lt_of_lt_of_le (by decide) large

theorem AnyKeyTable.Wf.clear {t : AnyKeyTable} {n : Nat} (wf : t.Wf n) : t.clear.Wf 0 := by
  have none : contents t.clear.fHashTable = [] := by simp [AnyKeyTable.clear, contents]
  refine ⟨List.length_replicate, wf.capacity, wf.threshold, ?_, ?_, ?_⟩
  · rw [none]
    exact List.nodup_nil
  · rw [none]
    intro l member
    cases member
  · rw [none]
    exact Nat.lt_of_lt_of_le (by decide) wf.capacity

theorem AnyKeyTable.Wf.mono {t : AnyKeyTable} {n m : Nat} (wf : t.Wf n) (le : n ≤ m) : t.Wf m :=
  { wf with bound := fun l member => Nat.lt_of_lt_of_le (wf.bound l member) le }

theorem AnyKeyTable.Wf.count_le {t : AnyKeyTable} {n : Nat} (wf : t.Wf n) : (contents t.fHashTable).length ≤ n := by
  have sub : contents t.fHashTable ⊆ List.range n := fun l member => List.mem_range.mpr (wf.bound l member)
  have := (wf.nodup.subperm sub).length_le
  rwa [List.length_range] at this

namespace AnyArrayImpl

variable {V : Type} [Inhabited V] {a : AnyArrayImpl V} {t : AnyKeyTable} {n : Nat}

/-! ### Storing -/

theorem store_spec {p slot : Nat} (length : t.fHashTable.length = t.fCapacity) (inside : p < t.fHashTable.length)
    (nodup : (contents t.fHashTable).Nodup) (fresh : slot ∉ contents t.fHashTable) :
    ∃ t', storeHash t (some p) slot = .ok t' ∧ t'.fCapacity = t.fCapacity ∧ t'.fThreshold = t.fThreshold ∧
      t'.fHashTable = t.fHashTable.set p (.used slot) ∧ t'.fHashTable.length = t'.fCapacity ∧
      (contents t'.fHashTable).Nodup ∧ (∀ l ∈ contents t'.fHashTable, l = slot ∨ l ∈ contents t.fHashTable) ∧
      (contents t'.fHashTable).length ≤ (contents t.fHashTable).length + 1 := by
  obtain ⟨rest, sub, perm, _⟩ := contents_set slot inside
  refine ⟨_, rfl, rfl, rfl, rfl, by simpa using length, ?_, ?_, ?_⟩
  · rw [perm.nodup_iff, List.nodup_cons]
    exact ⟨fun member => fresh (sub.subset member), nodup.sublist sub⟩
  · intro l member
    rcases List.mem_cons.mp (perm.mem_iff.mp member) with same | old
    · exact .inl same
    · exact .inr (sub.subset old)
  · rw [perm.length_eq, List.length_cons]
    have := sub.length_le
    omega

theorem indexed_store {t' : AnyKeyTable} {keyOf : Nat → Bytes} {slot p : Nat} {hit : Nat → Bool} {reuse : Bool}
    (indexed : t.Indexed keyOf) (cap : t'.fCapacity = t.fCapacity)
    (table : t'.fHashTable = t.fHashTable.set p (.used slot)) (plain : 0 ∉ keyOf slot)
    (fresh : ∀ l ∈ contents t.fHashTable, keyOf l ≠ keyOf slot)
    (absent : ∀ l ∈ contents t.fHashTable, hit l = false)
    (found : search t.fHashTable hit reuse (home t.fCapacity (keyOf slot)) = some p) :
    t'.Indexed keyOf ∧ (contents t'.fHashTable).Perm (slot :: contents t.fHashTable) := by
  have unused := search_not_used (fun j b cell => absent b (mem_contents.mpr ⟨j, cell⟩)) found
  obtain ⟨rest, _, perm, whole⟩ := contents_set slot (search_lt found)
  rw [whole unused, ← table] at perm
  refine ⟨⟨?_, ?_, ?_⟩, perm⟩
  · rw [table, cap]
    exact located_set indexed.located (search_reaches found)
  · intro l member
    rcases List.mem_cons.mp (perm.mem_iff.mp member) with rfl | old
    · exact plain
    · exact indexed.plain l old
  · intro l hl m hm same
    rcases List.mem_cons.mp (perm.mem_iff.mp hl) with rfl | old <;>
      rcases List.mem_cons.mp (perm.mem_iff.mp hm) with rfl | old'
    · rfl
    · exact (fresh m old' same.symm).elim
    · exact (fresh l old same).elim
    · exact indexed.apart l old m old' same

theorem matches_false {keyOf : Nat → Bytes} {key : Bytes} {ls : List Nat} (plain : 0 ∉ key)
    (reads : ∀ l ∈ ls, (a.assocOf l).fKey = keyOf l) (fresh : ∀ l ∈ ls, keyOf l ≠ key) :
    ∀ l ∈ ls, keyMatches key (ifaHash key).2 (a.assocOf l).fKey = false := by
  intro l member
  rw [Bool.eq_false_iff]
  intro hit
  rw [keyMatches_iff plain, reads l member] at hit
  exact fresh l member hit

/-! ### Rehashing -/

theorem rehash_loop (shape : a.Shape) (cells : List (Cell Nat)) (pos : 0 < t.fCapacity)
    (length : t.fHashTable.length = t.fCapacity) (clean : .deleted ∉ t.fHashTable)
    (nodup : (contents cells ++ contents t.fHashTable).Nodup)
    (bound : ∀ l ∈ contents cells ++ contents t.fHashTable, l < a.fSize)
    (room : (contents cells).length + (contents t.fHashTable).length < t.fCapacity) :
    ∃ t', cells.foldlM (fun table entry =>
        match entry with
        | .used slot => do
          let key ← a.slotKey slot
          let lIdx ← a.doHash table key
          storeHash table lIdx slot
        | _ => return table) t = .ok t' ∧
      t'.fCapacity = t.fCapacity ∧ t'.fThreshold = t.fThreshold ∧ t'.fHashTable.length = t'.fCapacity ∧
      (contents t'.fHashTable).Nodup ∧
      (∀ l ∈ contents t'.fHashTable, l ∈ contents cells ++ contents t.fHashTable) ∧
      (contents t'.fHashTable).length ≤ (contents cells).length + (contents t.fHashTable).length ∧
      ∀ keyOf : Nat → Bytes, t.Indexed keyOf →
        (∀ l ∈ contents cells ++ contents t.fHashTable, 0 ∉ keyOf l ∧ (a.assocOf l).fKey = keyOf l ∧
          ∀ m ∈ contents cells ++ contents t.fHashTable, keyOf l = keyOf m → l = m) →
        t'.Indexed keyOf ∧ (contents t'.fHashTable).Perm (contents cells ++ contents t.fHashTable) := by
  induction cells generalizing t with
  | nil =>
    refine ⟨t, rfl, rfl, rfl, length, nodup, fun l member => member, ?_, fun keyOf indexed _ => ⟨indexed, List.Perm.refl _⟩⟩
    exact Nat.le_add_left _ _
  | cons c cells ih =>
    cases c with
    | free => exact ih pos length clean nodup bound room
    | deleted => exact ih pos length clean nodup bound room
    | used slot =>
      have split : contents (.used slot :: cells) = slot :: contents cells := rfl
      rw [split] at nodup bound room ⊢
      have fresh : slot ∉ contents t.fHashTable := by
        intro member
        exact (List.nodup_cons.mp nodup).1 (List.mem_append_right _ member)
      have inner : (contents t.fHashTable).Nodup := (List.nodup_append.mp nodup).2.1
      have tableBound : ∀ l ∈ contents t.fHashTable, l < a.fSize :=
        fun l member => bound l (List.mem_append_right _ member)
      have key := shape.slotKey_ok (bound slot List.mem_cons_self)
      have hash := doHash_eq shape length pos tableBound (a.assocOf slot).fKey false
      obtain ⟨p, found⟩ := search_clean
        (fun l => keyMatches (a.assocOf slot).fKey (ifaHash (a.assocOf slot).fKey).2 (a.assocOf l).fKey)
        (show home t.fCapacity (a.assocOf slot).fKey < t.fHashTable.length by rw [length]; exact home_lt pos _)
        (by simp only [List.length_cons] at room; omega) clean
      obtain ⟨u, stored, cap, threshold, table, ulength, unodup, umem, ucount⟩ :=
        store_spec length (search_lt found) inner fresh
      have uclean : .deleted ∉ u.fHashTable := by
        rw [table]
        intro member
        rcases List.mem_or_eq_of_mem_set member with old | new
        · exact clean old
        · cases new
      -- The rest of the loop runs on the table with the slot stored.
      have upos : 0 < u.fCapacity := by rw [cap]; exact pos
      have unodup' : (contents cells ++ contents u.fHashTable).Nodup := by
        rw [List.nodup_append]
        refine ⟨(List.nodup_append.mp (List.nodup_cons.mp nodup).2).1, unodup, ?_⟩
        intro l hl m hm same
        subst same
        rcases umem l hm with rfl | old
        · exact (List.nodup_cons.mp nodup).1 (List.mem_append_left _ hl)
        · exact (List.nodup_append.mp (List.nodup_cons.mp nodup).2).2.2 l hl l old rfl
      have sub : ∀ l ∈ contents cells ++ contents u.fHashTable, l ∈ slot :: contents cells ++ contents t.fHashTable := by
        intro l member
        rcases List.mem_append.mp member with later | now
        · exact List.mem_append_left _ (List.mem_cons_of_mem _ later)
        · rcases umem l now with rfl | old
          · exact List.mem_cons_self
          · exact List.mem_append_right _ old
      have uroom : (contents cells).length + (contents u.fHashTable).length < u.fCapacity := by
        rw [cap]
        simp only [List.length_cons] at room
        omega
      obtain ⟨t', run, cap', threshold', length', nodup', mem', count', strong⟩ :=
        ih upos ulength uclean unodup' (fun l member => bound l (sub l member)) uroom
      refine ⟨t', ?_, cap'.trans cap, threshold'.trans threshold, length', nodup', fun l member => sub l (mem' l member),
        ?_, ?_⟩
      · rw [List.foldlM_cons]
        simp only [key, bind, Except.bind, hash, found, stored]
        exact run
      · simp only [List.length_cons]
        omega
      · intro keyOf indexed keys
        obtain ⟨plain, read, apart⟩ := keys slot List.mem_cons_self
        have differ : ∀ l ∈ contents t.fHashTable, keyOf l ≠ keyOf slot := by
          intro l member same
          exact fresh (apart l (List.mem_append_right _ member) same.symm ▸ member)
        rw [read] at found
        have absent := matches_false plain
          (fun l member => (keys l (List.mem_append_right _ member)).2.1) differ
        obtain ⟨uindexed, perm⟩ := indexed_store indexed cap table plain differ absent found
        obtain ⟨indexed', perm'⟩ := strong keyOf uindexed fun l member =>
          ⟨(keys l (sub l member)).1, (keys l (sub l member)).2.1,
            fun m hm same => (keys l (sub l member)).2.2 m (sub m hm) same⟩
        refine ⟨indexed', perm'.trans ?_⟩
        exact (List.Perm.append_left _ perm).trans List.perm_middle

theorem rehash_spec (shape : a.Shape) (wf : t.Wf n) (le : n ≤ a.fSize) :
    ∃ t', a.rehash t (t.fCapacity * 2) = .ok t' ∧ t'.Wf n ∧
      (contents t'.fHashTable).length + 1 < t'.fCapacity ∧
      ∀ keyOf : Nat → Bytes, t.Indexed keyOf → (∀ l ∈ contents t.fHashTable, (a.assocOf l).fKey = keyOf l) →
        t'.Indexed keyOf ∧ (contents t'.fHashTable).Perm (contents t.fHashTable) := by
  obtain ⟨u, hu⟩ : ∃ u, u = AnyKeyTable.initTable (t.fCapacity * 2) := ⟨_, rfl⟩
  have uwf : u.Wf 0 := by rw [hu]; exact AnyKeyTable.wf_initTable _
  have none : contents u.fHashTable = [] := by rw [hu]; simp [AnyKeyTable.initTable, contents]
  have clean : .deleted ∉ u.fHashTable := by rw [hu]; simp [AnyKeyTable.initTable]
  have large : t.fCapacity * 2 ≤ u.fCapacity := by
    rw [hu]
    refine Nat.le_trans ?_ (le_ifaNextPrime _)
    split <;> omega
  have small := wf.capacity
  have room := wf.room
  have init : AnyKeyTable.cInitCapacity = 17 := rfl
  obtain ⟨t', run, cap, threshold, length, nodup, mem, count, strong⟩ := rehash_loop (t := u) shape t.fHashTable
    (by omega) uwf.length clean (by rw [none, List.append_nil]; exact wf.nodup)
    (by rw [none, List.append_nil]; exact fun l member => Nat.lt_of_lt_of_le (wf.bound l member) le)
    (by rw [none, List.length_nil]; omega)
  rw [none, List.append_nil] at mem strong
  rw [none, List.length_nil] at count
  refine ⟨t', by rw [rehash, ← hu]; exact run, ⟨length, by omega, by rw [threshold, cap]; exact uwf.threshold, nodup,
    fun l member => wf.bound l (mem l member), by omega⟩, by omega, ?_⟩
  intro keyOf indexed reads
  refine strong keyOf ?_ ?_
  · rw [hu]
    exact AnyKeyTable.indexed_initTable _ keyOf
  · exact fun l member => ⟨indexed.plain l member, reads l member, fun m hm => indexed.apart l member m hm⟩

/-! ### Appending -/

theorem ensureThreshold_spec (shape : a.Shape) (wf : t.Wf n) (le : n ≤ a.fSize) :
    ∃ t', a.ensureThreshold t = .ok t' ∧ t'.Wf n ∧ (contents t'.fHashTable).length + 1 < t'.fCapacity ∧
      ∀ keyOf : Nat → Bytes, t.Indexed keyOf → (∀ l ∈ contents t.fHashTable, (a.assocOf l).fKey = keyOf l) →
        t'.Indexed keyOf ∧ (contents t'.fHashTable).Perm (contents t.fHashTable) := by
  unfold ensureThreshold
  split
  · exact rehash_spec shape wf le
  · refine ⟨t, rfl, wf, ?_, fun keyOf indexed _ => ⟨indexed, List.Perm.refl _⟩⟩
    have count := wf.count_le
    have threshold := wf.threshold
    have large := wf.capacity
    have init : AnyKeyTable.cInitCapacity = 17 := rfl
    omega

theorem keyAppend_spec (shape : a.Shape) (wf : t.Wf n) (le : n ≤ a.fSize) (key : Bytes) :
    ∃ t', a.keyAppend t (some key) n = .ok t' ∧ t'.Wf (n + 1) ∧
      ∀ keyOf : Nat → Bytes, t.Indexed keyOf → (∀ l ∈ contents t.fHashTable, (a.assocOf l).fKey = keyOf l) →
        keyOf n = key → 0 ∉ key → (∀ l ∈ contents t.fHashTable, keyOf l ≠ key) →
        t'.Indexed keyOf ∧ (contents t'.fHashTable).Perm (n :: contents t.fHashTable) := by
  obtain ⟨u, grown, uwf, room, strong⟩ := ensureThreshold_spec shape wf le
  have upos : 0 < u.fCapacity := by omega
  have bound : ∀ l ∈ contents u.fHashTable, l < a.fSize :=
    fun l member => Nat.lt_of_lt_of_le (uwf.bound l member) le
  have hash := doHash_eq shape uwf.length upos bound key true
  obtain ⟨p, found⟩ := search_reuse (fun l => keyMatches key (ifaHash key).2 (a.assocOf l).fKey)
    (show home u.fCapacity key < u.fHashTable.length by rw [uwf.length]; exact home_lt upos _)
    (by rw [uwf.length]; omega)
  have fresh : n ∉ contents u.fHashTable := fun member => Nat.lt_irrefl _ (uwf.bound n member)
  obtain ⟨t', stored, cap, threshold, table, length, nodup, mem, count⟩ :=
    store_spec uwf.length (search_lt found) uwf.nodup fresh
  refine ⟨t', ?_, ⟨length, by rw [cap]; exact uwf.capacity, by rw [threshold, cap]; exact uwf.threshold, nodup, ?_,
    by omega⟩, ?_⟩
  · simp only [keyAppend, grown, bind, Except.bind, hash, found, stored]
  · intro l member
    rcases mem l member with rfl | old
    · exact Nat.lt_succ_self _
    · exact Nat.lt_succ_of_lt (uwf.bound l old)
  · intro keyOf indexed reads own plain differ
    obtain ⟨uindexed, perm⟩ := strong keyOf indexed reads
    have reads' : ∀ l ∈ contents u.fHashTable, (a.assocOf l).fKey = keyOf l :=
      fun l member => reads l (perm.mem_iff.mp member)
    have differ' : ∀ l ∈ contents u.fHashTable, keyOf l ≠ key := fun l member => differ l (perm.mem_iff.mp member)
    have absent := matches_false plain reads' differ'
    subst own
    obtain ⟨indexed', perm'⟩ := indexed_store uindexed cap table plain differ' absent found
    exact ⟨indexed', perm'.trans (perm.cons n)⟩

/-! ### Lookups -/

theorem keyAt_ok (shape : a.Shape) (wf : t.Wf a.fSize) (key : Bytes) :
    a.keyAt t key = .ok none ∨ ∃ slot < a.fSize, a.keyAt t key = .ok (some slot) := by
  have pos : 0 < t.fCapacity := Nat.lt_of_lt_of_le (by decide) wf.capacity
  unfold keyAt
  rw [doHash_eq shape wf.length pos wf.bound]
  simp only [bind, Except.bind]
  split
  · exact .inl rfl
  · rename_i i _
    cases hc : t.fHashTable.getD i .free with
    | free => exact .inl rfl
    | deleted => exact .inl rfl
    | used slot => exact .inr ⟨slot, wf.bound slot (mem_contents.mpr ⟨i, getElem?_of_getD_used hc⟩), rfl⟩

theorem keyAt_iff (shape : a.Shape) (wf : t.Wf a.fSize) (indexed : t.Indexed fun l => (a.assocOf l).fKey)
    {key : Bytes} (plain : 0 ∉ key) (slot : Nat) :
    a.keyAt t key = .ok (some slot) ↔ slot ∈ contents t.fHashTable ∧ (a.assocOf slot).fKey = key := by
  have pos : 0 < t.fCapacity := Nat.lt_of_lt_of_le (by decide) wf.capacity
  have hash := doHash_eq shape wf.length pos wf.bound key false
  constructor
  · intro found
    unfold keyAt at found
    rw [hash] at found
    simp only [bind, Except.bind] at found
    split at found
    · cases found
    · rename_i i stop
      obtain ⟨_, _, _, stops, _⟩ := search_eq_some stop
      cases hc : t.fHashTable.getD i .free with
      | free =>
        rw [hc] at found
        cases found
      | deleted =>
        rw [hc] at found
        cases found
      | used l =>
        rw [hc] at found stops
        have same : l = slot := by
          cases found
          rfl
        subst same
        exact ⟨mem_contents.mpr ⟨i, getElem?_of_getD_used hc⟩, (keyMatches_iff plain _).mp stops⟩
  · rintro ⟨member, own⟩
    obtain ⟨i, cell⟩ := mem_contents.mp member
    have unique : ∀ (j : Nat) b, t.fHashTable[j]? = some (.used b) →
        keyMatches key (ifaHash key).2 (a.assocOf b).fKey = true → j = i := by
      intro j b cell' hit
      have same : b = slot := indexed.apart b (mem_contents.mpr ⟨j, cell'⟩) slot member
        (((keyMatches_iff plain _).mp hit).trans own.symm)
      subst same
      exact cell_unique wf.nodup cell' cell
    have found := search_found indexed.located cell ((keyMatches_iff plain _).mpr own) unique
    rw [own] at found
    unfold keyAt
    rw [hash, found]
    simp only [bind, Except.bind, getD_of_getElem? cell]
    rfl

end AnyArrayImpl

end Coast.Anything
