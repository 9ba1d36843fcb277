import Coast.Lib.Holes
import Coast.Regex.Invariants
import Coast.Regex.Termination

/-!
# Replacing

`Subst` searches again and again, from behind the match before. It steps over a character where a match is
empty, without a copy of it, and keeps the position in an `int`. What it makes of a text is compared with
what the matches themselves say.
-/

namespace Coast.Regex

namespace Matcher

variable (m : Matcher) (fPrefix : Bytes)

/-! ### The matches of a text -/

def span (c : Captures) : Nat × Nat := ((c.startRegister 0).getD 0, (c.endRegister 0).getD 0)

/-- `ContainedIn` returns from `pos`, with the beginning and the end of the match if there is one. -/
def Finds (pos : Nat) (r : Option (Nat × Nat)) : Prop :=
  ∃ f found, m.containedIn fPrefix f pos = some found ∧ found.map span = r

/-- The successive leftmost matches from `pos` on. Behind an empty match the search goes on one further. -/
inductive Matches : Nat → List (Nat × Nat) → Prop
  | behind {pos} : m.search.length < pos → Matches pos []
  | none {pos} : pos ≤ m.search.length → m.Finds fPrefix pos none → Matches pos []
  | next {pos s e ms} : pos ≤ m.search.length → m.Finds fPrefix pos (some (s, e)) → s ≤ e →
      Matches (if e = s then e + 1 else e) ms → Matches pos ((s, e) :: ms)

def gaps : Nat → List (Nat × Nat) → List Bytes
  | _, [] => []
  | pos, (s, e) :: ms => subString m.search pos (s - pos) :: gaps e ms

def lastEnd : Nat → List (Nat × Nat) → Nat
  | pos, [] => pos
  | _, (_, e) :: ms => lastEnd e ms

/-- The text from `pos` on with `t` in place of every match; the rest is copied. -/
def replaced (t : Bytes) (pos : Nat) (ms : List (Nat × Nat)) : Bytes :=
  Holes.fill t (m.gaps pos ms) (m.search.drop (lastEnd pos ms))

/-- `Subst` with `replaceall` puts any text in place of the successive matches. -/
def ReplacesAll : Prop :=
  ∃ ms, m.Matches fPrefix 0 ms ∧ ∀ t, ∃ f, m.subst t true fPrefix f = some (m.replaced t 0 ms)

/-- `Subst` without `replaceall` puts any text in place of the first match. -/
def ReplacesFirst : Prop :=
  ∃ r, m.Finds fPrefix 0 r ∧ (∀ s e, r = some (s, e) → s ≤ e) ∧
    ∀ t, ∃ f, m.subst t false fPrefix f = some (m.replaced t 0 r.toList)

/-- No match is empty, but for one at the end of the text that does not border on the match before it; and
the positions are an `int`. -/
def Plain : Nat → List (Nat × Nat) → Prop
  | _, [] => True
  | pos, (s, e) :: ms => e < 2 ^ 31 ∧ (s < e ∨ (pos < s ∧ s = m.search.length)) ∧ Plain e ms

section Found

variable {m fPrefix}

theorem containedIn_unique {f g : Nat} {i : Int} {r r' : Option Captures} (run : m.containedIn fPrefix f i = some r)
    (run' : m.containedIn fPrefix g i = some r') : r = r' := by
  have first := m.containedIn_mono fPrefix (Nat.le_max_left f g) i _ run
  have second := m.containedIn_mono fPrefix (Nat.le_max_right f g) i _ run'
  rw [first] at second
  exact Option.some.inj second

theorem Finds.unique {pos : Nat} {r r' : Option (Nat × Nat)} (finds : m.Finds fPrefix pos r) (finds' : m.Finds fPrefix pos r') :
    r = r' := by
  obtain ⟨f, found, run, rfl⟩ := finds
  obtain ⟨g, found', run', rfl⟩ := finds'
  rw [containedIn_unique run run']

theorem finds_none {f pos : Nat} (run : m.containedIn fPrefix f pos = some none) : m.Finds fPrefix pos none := ⟨f, none, run, rfl⟩

theorem finds_some {f : Nat} {pos : Int} {c : Captures} (run : m.containedIn fPrefix f pos = some (some c)) :
    ∃ s e : Nat, register (c.startRegister 0) = s ∧ register (c.endRegister 0) = e ∧ pos ≤ s ∧ s ≤ m.search.length ∧
      e ≤ m.search.length ∧ m.Finds fPrefix s (some (s, e)) ∧ ∀ p : Nat, pos = p → m.Finds fPrefix p (some (s, e)) := by
  obtain ⟨s, e, low, high, inside, start, finish, -, again⟩ := containedIn_place run
  have is : span c = (s, e) := by rw [span, start, finish]; rfl
  refine ⟨s, e, by rw [start]; rfl, by rw [finish]; rfl, low, high, inside, ⟨f, some c, again, by rw [Option.map_some, is]⟩, ?_⟩
  rintro p rfl
  exact ⟨f, some c, run, by rw [Option.map_some, is]⟩

theorem Finds.place {pos s e : Nat} (finds : m.Finds fPrefix pos (some (s, e))) :
    pos ≤ s ∧ s ≤ m.search.length ∧ e ≤ m.search.length ∧ m.Finds fPrefix s (some (s, e)) := by
  obtain ⟨f, found, run, is⟩ := finds
  obtain ⟨c, rfl, -⟩ := Option.map_eq_some_iff.mp is
  obtain ⟨s', e', -, -, low, high, inside, again, here⟩ := finds_some run
  have same := Finds.unique (here pos rfl) ⟨f, some c, run, is⟩
  cases same
  exact ⟨by omega, high, inside, again⟩

theorem Matches.lastEnd_le {pos from' : Nat} {ms : List (Nat × Nat)} (all : m.Matches fPrefix pos ms) (le : from' ≤ pos) :
    from' ≤ lastEnd from' ms := by
  induction all generalizing from' with
  | behind | none => exact Nat.le_refl from'
  | next inside finds ordered rest ih =>
    rename_i s e ms
    have place := finds.place
    have further : e ≤ lastEnd e ms := ih (by split <;> omega)
    show from' ≤ lastEnd e ms
    omega

end Found

/-! ### The loop of `Subst` -/

def nextPos (pos newpos : Int) : Int := toInt (if newpos = pos then newpos + 1 else newpos)

/-- A run of the loop of `Subst` from `pos` on: the texts that it copies and the last position. -/
inductive Copies : Int → List Bytes → Int → Prop
  | stop {pos : Int} : ¬pos < m.search.length → Copies pos [] pos
  | none {f : Nat} {pos : Int} : pos < m.search.length → m.containedIn fPrefix f pos = some none → Copies pos [] pos
  | found {f : Nat} {pos : Int} {c : Captures} {parts : List Bytes} {last : Int} : pos < m.search.length → m.containedIn fPrefix f pos = some (some c) →
      Copies (nextPos pos (register (c.endRegister 0))) parts last →
      Copies pos (m.part pos (register (c.startRegister 0) - pos) :: parts) last

/-- What `Subst` appends behind the loop. -/
def remainder (pos : Int) : Bytes := if pos < m.search.length then m.part pos (-1) else []

section Copying

variable {m fPrefix}

theorem Copies.unique {pos last last' : Int} {parts parts' : List Bytes} (copies : m.Copies fPrefix pos parts last)
    (copies' : m.Copies fPrefix pos parts' last') : parts = parts' ∧ last = last' := by
  induction copies generalizing parts' with
  | stop outside =>
    cases copies' with
    | stop => exact ⟨rfl, rfl⟩
    | none inside => exact absurd inside outside
    | found inside => exact absurd inside outside
  | none inside run =>
    cases copies' with
    | stop outside => exact absurd inside outside
    | none => exact ⟨rfl, rfl⟩
    | found _ run' => cases containedIn_unique run run'
  | found inside run _ ih =>
    cases copies' with
    | stop outside => exact absurd inside outside
    | none _ run' => cases containedIn_unique run run'
    | found _ run' rest =>
      cases containedIn_unique run run'
      obtain ⟨rfl, rfl⟩ := ih rest
      exact ⟨rfl, rfl⟩

theorem copies_of_substLoop {t : Bytes} {f n : Nat} {pos last : Int} {ret r : Bytes}
    (run : m.substLoop t true fPrefix f n pos ret = some (last, r)) :
    ∃ parts, m.Copies fPrefix pos parts last ∧ r = ret ++ parts.flatMap (fun part => part ++ t) := by
  induction n generalizing pos ret with
  | zero => cases run
  | succ n ih =>
    rw [substLoop] at run
    split at run
    · rename_i inside
      split at run
      · rename_i c found
        obtain ⟨parts, rest, rfl⟩ := ih run
        exact ⟨_, .found inside found rest, by simp only [List.flatMap_cons, List.append_assoc]⟩
      · rename_i none'
        cases run
        exact ⟨[], .none inside none', by simp only [List.flatMap_nil, List.append_nil]⟩
      · cases run
    · rename_i outside
      cases run
      exact ⟨[], .stop outside, by simp only [List.flatMap_nil, List.append_nil]⟩

theorem Copies.substLoop {pos last : Int} {parts : List Bytes} (copies : m.Copies fPrefix pos parts last) :
    ∃ k, ∀ f ≥ k, ∀ n ≥ k, ∀ t ret,
      m.substLoop t true fPrefix f n pos ret = some (last, ret ++ parts.flatMap (fun part => part ++ t)) := by
  induction copies with
  | stop outside =>
    refine ⟨1, fun f _ n large t ret => ?_⟩
    obtain ⟨n, rfl⟩ : ∃ n', n = n' + 1 := ⟨n - 1, by omega⟩
    rw [Matcher.substLoop, if_neg outside, List.flatMap_nil, List.append_nil]
  | @none g pos inside run =>
    refine ⟨g + 1, fun f enough n large t ret => ?_⟩
    obtain ⟨n, rfl⟩ : ∃ n', n = n' + 1 := ⟨n - 1, by omega⟩
    rw [Matcher.substLoop, if_pos inside, m.containedIn_mono fPrefix (by omega : g ≤ f) _ _ run, List.flatMap_nil, List.append_nil]
  | @found g pos c parts last inside run rest ih =>
    obtain ⟨k, later⟩ := ih
    refine ⟨max k g + 1, fun f enough n large t ret => ?_⟩
    obtain ⟨n, rfl⟩ : ∃ n', n = n' + 1 := ⟨n - 1, by omega⟩
    rw [Matcher.substLoop, if_pos inside, m.containedIn_mono fPrefix (by omega : g ≤ f) _ _ run]
    dsimp only
    rw [if_pos rfl, ← nextPos, later f (by omega) n (by omega), List.flatMap_cons]
    simp only [List.append_assoc]

theorem subst_of_copies {last : Int} {parts : List Bytes} (copies : m.Copies fPrefix 0 parts last) (t : Bytes) :
    ∃ f, m.subst t true fPrefix f = some (Holes.fill t parts (m.remainder last)) := by
  obtain ⟨k, run⟩ := copies.substLoop
  refine ⟨k, ?_⟩
  rw [subst, run k (Nat.le_refl k) k (Nat.le_refl k), List.nil_append]
  dsimp only
  unfold Holes.fill remainder
  split
  · rfl
  · rw [List.append_nil]

theorem copies_of_subst {t r : Bytes} {f : Nat} (run : m.subst t true fPrefix f = some r) :
    ∃ parts last, m.Copies fPrefix 0 parts last ∧ r = Holes.fill t parts (m.remainder last) := by
  rw [subst] at run
  split at run
  · rename_i last ret looped
    obtain ⟨parts, copies, rfl⟩ := copies_of_substLoop looped
    refine ⟨parts, last, copies, ?_⟩
    rw [← Option.some.inj run, List.nil_append]
    unfold Holes.fill remainder
    split
    · rfl
    · rw [List.append_nil]
  · cases run

theorem part_between {pos s : Nat} (le : pos ≤ s) : m.part pos ((s : Int) - pos) = subString m.search pos (s - pos) := by
  unfold part
  rw [if_neg (by omega)]
  congr 1
  omega

theorem part_rest (pos : Int) : m.part pos (-1) = m.search.drop pos.toNat := rfl

theorem length_subString (text : Bytes) (start length : Nat) :
    (subString text start length).length = min length (text.length - start) := by
  rw [subString, List.length_take, List.length_drop]

theorem toInt_lt (n : Int) : toInt n < 2 ^ 31 := by
  unfold toInt
  omega

theorem toInt_nat {n : Nat} (short : n < 2 ^ 31) : toInt n = n := by
  unfold toInt
  omega

theorem nextPos_of_ne {pos e : Nat} (differ : e ≠ pos) (short : e < 2 ^ 31) : nextPos pos e = e := by
  rw [nextPos, if_neg (by omega), toInt_nat short]

theorem Copies.of_nil {pos last : Int} (copies : m.Copies fPrefix pos [] last) : last = pos := by
  cases copies with
  | stop | none => rfl

theorem Copies.last_short {pos last : Int} {parts : List Bytes} (copies : m.Copies fPrefix pos parts last)
    (short : pos < 2 ^ 31) : last < 2 ^ 31 := by
  induction copies with
  | stop | none => exact short
  | found _ _ _ ih => exact ih (toInt_lt _)

theorem remainder_of_short {last : Int} (short : last < 2 ^ 31) {e : Nat} (large : 2 ^ 31 ≤ e)
    (long : 2 ^ 31 ≤ m.search.length) :
    m.remainder last ≠ m.search.drop e := by
  intro same
  have lengths := congrArg List.length same
  rw [remainder, if_pos (by omega), part_rest, List.length_drop, List.length_drop] at lengths
  omega

theorem Copies.at_match {pos e : Nat} {parts : List Bytes} {last : Int} (copies : m.Copies fPrefix pos parts last)
    (inside : pos < m.search.length) (finds : m.Finds fPrefix pos (some (pos, e))) : ∃ parts', parts = [] :: parts' := by
  cases copies with
  | stop outside => exact absurd (by omega) outside
  | none _ run => cases finds.unique (finds_none run)
  | @found f pos' c parts last _ run rest =>
    obtain ⟨s', e', start, -, -, -, -, -, here⟩ := finds_some run
    cases (here pos rfl).unique finds
    refine ⟨parts, ?_⟩
    rw [start, part_between (Nat.le_refl pos), Nat.sub_self]
    rfl

theorem lost {pos : Nat} {ms : List (Nat × Nat)} {last : Int} (rest : m.Matches fPrefix (pos + 1) ms) (short : pos < 2 ^ 31)
    (before : pos < m.search.length) (same : m.remainder last = m.search.drop (lastEnd pos ms)) :
    ¬m.Copies fPrefix (nextPos pos pos) (m.gaps pos ms) last := by
  intro copies
  rw [nextPos, if_pos rfl] at copies
  have lastShort := copies.last_short (toInt_lt _)
  cases ms with
  | nil =>
    have stays : last = toInt (pos + 1) := copies.of_nil
    have lengths := congrArg List.length same
    rw [lastEnd, List.length_drop, remainder] at lengths
    split at lengths
    · rw [part_rest, List.length_drop, stays] at lengths
      unfold toInt at lengths
      omega
    · rw [List.length_nil] at lengths
      omega
  | cons first ms =>
    obtain ⟨s, e⟩ := first
    cases rest with
    | next within finds ordered rest =>
      obtain ⟨low, high, inside, -⟩ := finds.place
      have further : e ≤ lastEnd e ms := rest.lastEnd_le (by split <;> omega)
      by_cases wraps : pos + 1 < 2 ^ 31
      · have next : toInt ((pos : Int) + 1) = ((pos + 1 : Nat) : Int) := toInt_nat wraps
        rw [next] at copies
        generalize firsts : m.gaps pos ((s, e) :: ms) = texts at copies
        cases copies with
        | stop | none => cases firsts
        | found before' run rest =>
          obtain ⟨s', e', start, -, -, -, -, -, here⟩ := finds_some run
          cases (here (pos + 1) rfl).unique finds
          have lengths := congrArg List.length (List.cons.inj firsts).1
          rw [start, part_between low, length_subString, length_subString] at lengths
          omega
      · exact remainder_of_short lastShort (by show 2 ^ 31 ≤ lastEnd e ms; omega) (by omega) same

theorem plain_of_copies {pos : Nat} {ms : List (Nat × Nat)} {last : Int} (all : m.Matches fPrefix pos ms) (short : pos < 2 ^ 31)
    (copies : m.Copies fPrefix pos (m.gaps pos ms) last) (same : m.remainder last = m.search.drop (lastEnd pos ms)) :
    m.Plain pos ms := by
  induction all with
  | behind | none => trivial
  | @next pos s e ms within finds ordered rest ih =>
    obtain ⟨low, high, inside, again⟩ := finds.place
    have further : e ≤ lastEnd e ms := rest.lastEnd_le (by split <;> omega)
    change m.Copies fPrefix pos (subString m.search pos (s - pos) :: m.gaps e ms) last at copies
    change m.remainder last = m.search.drop (lastEnd e ms) at same
    have lastShort := copies.last_short (by omega)
    have endShort : e < 2 ^ 31 := by
      by_contra large
      exact remainder_of_short lastShort (by omega) (by omega) same
    obtain ⟨before, copies'⟩ : pos < m.search.length ∧ m.Copies fPrefix (nextPos pos e) (m.gaps e ms) last := by
      generalize firsts : subString m.search pos (s - pos) :: m.gaps e ms = texts at copies
      cases copies with
      | stop | none => cases firsts
      | found before run rest =>
        obtain ⟨s', e', -, finish, -, -, -, -, here⟩ := finds_some run
        cases (here pos rfl).unique finds
        rw [finish] at rest
        rw [(List.cons.inj firsts).2]
        exact ⟨by omega, rest⟩
    refine ⟨endShort, ?_⟩
    by_cases empty : e = s
    · subst empty
      rw [if_pos rfl] at rest ih
      by_cases moved : pos < e
      · by_cases last' : e = m.search.length
        · refine ⟨.inr ⟨moved, last'⟩, ?_⟩
          cases rest with
          | behind | none => trivial
          | next within' => omega
        · -- the match is found once more, and the character behind it is lost
          rw [nextPos_of_ne (by omega) endShort] at copies'
          obtain ⟨parts, texts⟩ := copies'.at_match (by omega) again
          cases rest with
          | behind outside => omega
          | none => cases texts
          | @next _ s' e' ms' _ finds' =>
            have place := finds'.place
            have lengths := congrArg List.length (List.cons.inj texts).1
            rw [length_subString, List.length_nil] at lengths
            omega
      · obtain rfl : e = pos := by omega
        exact absurd copies' (lost rest short before same)
    · have differ : s < e := by omega
      rw [if_neg empty] at rest ih
      rw [nextPos_of_ne (by omega) endShort] at copies'
      exact ⟨.inl differ, ih endShort copies' same⟩

theorem copies_found {pos s e : Nat} {parts : List Bytes} {last : Int} (inside : pos < m.search.length)
    (finds : m.Finds fPrefix pos (some (s, e))) (rest : m.Copies fPrefix (nextPos pos e) parts last) :
    m.Copies fPrefix pos (subString m.search pos (s - pos) :: parts) last := by
  obtain ⟨f, found, run, is⟩ := finds
  obtain ⟨c, rfl, -⟩ := Option.map_eq_some_iff.mp is
  obtain ⟨s', e', start, finish, low, -, -, -, here⟩ := finds_some run
  cases (here pos rfl).unique ⟨f, some c, run, is⟩
  have step := Copies.found (by omega) run (finish ▸ rest)
  rwa [start, part_between (by omega)] at step

theorem copies_none {pos : Nat} (finds : m.Finds fPrefix pos none) : m.Copies fPrefix pos [] pos := by
  obtain ⟨f, found, run, is⟩ := finds
  cases Option.map_eq_none_iff.mp is
  by_cases inside : (pos : Int) < m.search.length
  · exact .none inside run
  · exact .stop inside

theorem remainder_nat (pos : Nat) : m.remainder pos = m.search.drop pos := by
  unfold remainder
  split
  · exact part_rest pos
  · exact (List.drop_eq_nil_of_le (by omega)).symm

theorem copies_of_plain {pos : Nat} {ms : List (Nat × Nat)} (all : m.Matches fPrefix pos ms) (within : pos ≤ m.search.length)
    (plain : m.Plain pos ms) :
    ∃ last, m.Copies fPrefix pos (m.gaps pos ms) last ∧ m.remainder last = m.search.drop (lastEnd pos ms) := by
  induction all with
  | behind outside => omega
  | @none pos _ finds => exact ⟨pos, copies_none finds, remainder_nat pos⟩
  | @next pos s e ms _ finds ordered rest ih =>
    obtain ⟨low, high, inside, -⟩ := finds.place
    obtain ⟨short, proper, plain⟩ := plain
    have before : pos < m.search.length := by omega
    by_cases empty : e = s
    · -- the empty match at the end of the text
      subst empty
      have last' : e = m.search.length := by omega
      cases rest with
      | none within' => exact absurd within' (by rw [if_pos rfl]; omega)
      | next within' => exact absurd within' (by rw [if_pos rfl]; omega)
      | behind =>
        refine ⟨e, copies_found before finds ?_, remainder_nat e⟩
        rw [nextPos_of_ne (by omega) short]
        exact .stop (by omega)
    · rw [if_neg empty] at rest ih
      obtain ⟨last, copies, same⟩ := ih inside plain
      refine ⟨last, copies_found before finds ?_, same⟩
      rwa [nextPos_of_ne (by omega) short]

theorem plain_of_replacesAll (replaces : m.ReplacesAll fPrefix) : ∃ ms, m.Matches fPrefix 0 ms ∧ m.Plain 0 ms := by
  obtain ⟨ms, all, gives⟩ := replaces
  obtain ⟨f, run⟩ := gives []
  obtain ⟨parts, last, copies, -⟩ := copies_of_subst run
  have same : ∀ t, Holes.fill t parts (m.remainder last) = Holes.fill t (m.gaps 0 ms) (m.search.drop (lastEnd 0 ms)) := by
    intro t
    obtain ⟨f, run⟩ := gives t
    obtain ⟨parts', last', copies', is⟩ := copies_of_subst run
    obtain ⟨rfl, rfl⟩ := copies.unique copies'
    exact is.symm
  have bytes : Nontrivial UInt8 := ⟨0, 1, by decide⟩
  obtain ⟨rfl, lasts⟩ := Holes.fill_injective same
  exact ⟨ms, all, plain_of_copies all (by omega) copies lasts⟩

theorem replacesAll_of_plain {ms : List (Nat × Nat)} (all : m.Matches fPrefix 0 ms) (plain : m.Plain 0 ms) :
    m.ReplacesAll fPrefix := by
  obtain ⟨last, copies, same⟩ := copies_of_plain all (Nat.zero_le _) plain
  refine ⟨ms, all, fun t => ?_⟩
  obtain ⟨f, run⟩ := subst_of_copies copies t
  exact ⟨f, by rw [run, same, replaced]⟩

/-! ### The first match alone -/

theorem subst_first_none (finds : m.Finds fPrefix 0 none) (some' : 0 < m.search.length) :
    ∃ k, ∀ t, m.subst t false fPrefix k = some m.search := by
  obtain ⟨g, found, run, is⟩ := finds
  cases Option.map_eq_none_iff.mp is
  refine ⟨g + 1, fun t => ?_⟩
  have run' : m.containedIn fPrefix (g + 1) 0 = some none := m.containedIn_mono fPrefix (Nat.le_succ g) _ _ run
  rw [subst, substLoop, if_pos (by omega), run']
  dsimp only
  rw [if_pos (by omega), part_rest]
  rfl

theorem subst_of_first {f : Nat} {c : Captures} {s e : Nat} (run : m.containedIn fPrefix (f + 1) 0 = some (some c))
    (finds : m.Finds fPrefix 0 (some (s, e))) (some' : 0 < m.search.length) (t : Bytes) :
    m.subst t false fPrefix (f + 1) = some (Holes.fill t [subString m.search 0 s] (m.remainder (nextPos 0 e))) := by
  obtain ⟨s', e', start, finish, -, -, -, -, here⟩ := finds_some run
  cases (here 0 rfl).unique finds
  have first : m.part 0 (s - 0) = subString m.search 0 s := part_between (Nat.zero_le s)
  rw [subst, substLoop, if_pos (by omega), run]
  dsimp only
  rw [if_neg (by decide), start, finish, first, List.nil_append, Holes.fill_cons, Holes.fill_nil, ← nextPos, remainder]
  dsimp only
  split
  · rw [List.append_assoc]
  · rw [List.append_nil]

theorem subst_first_some {s e : Nat} (finds : m.Finds fPrefix 0 (some (s, e))) (some' : 0 < m.search.length) :
    ∃ k, ∀ t, m.subst t false fPrefix k = some (Holes.fill t [subString m.search 0 s] (m.remainder (nextPos 0 e))) := by
  obtain ⟨g, found, run, is⟩ := finds
  obtain ⟨c, rfl, -⟩ := Option.map_eq_some_iff.mp is
  have run' : m.containedIn fPrefix (g + 1) 0 = some (some c) := m.containedIn_mono fPrefix (Nat.le_succ g) _ _ run
  exact ⟨g + 1, subst_of_first run' ⟨g, some c, run, is⟩ some'⟩

theorem first_of_subst {s e f : Nat} {t r : Bytes} (finds : m.Finds fPrefix 0 (some (s, e))) (some' : 0 < m.search.length)
    (gives : m.subst t false fPrefix f = some r) : r = Holes.fill t [subString m.search 0 s] (m.remainder (nextPos 0 e)) := by
  cases f with
  | zero => cases gives
  | succ f =>
    match run : m.containedIn fPrefix (f + 1) 0 with
    | some (some c) =>
      rw [subst_of_first run finds some'] at gives
      exact (Option.some.inj gives).symm
    | some none => cases finds.unique (finds_none run)
    | none =>
      rw [subst, substLoop, if_pos (by omega), run] at gives
      cases gives

theorem subst_empty (empty : m.search = []) (t : Bytes) : m.subst t false fPrefix 1 = some [] := by
  rw [subst, substLoop, if_neg (by rw [empty]; decide)]
  dsimp only
  rw [if_neg (by rw [empty]; decide)]

theorem replacesFirst_of_proper {r : Option (Nat × Nat)} (finds : m.Finds fPrefix 0 r)
    (proper : ∀ s e, r = some (s, e) → s ≤ e ∧ 0 < e ∧ e < 2 ^ 31) : m.ReplacesFirst fPrefix := by
  refine ⟨r, finds, fun s e is => (proper s e is).1, fun t => ?_⟩
  by_cases empty : m.search = []
  · cases r with
    | none => exact ⟨1, by rw [subst_empty empty, replaced, Option.toList_none, gaps, Holes.fill_nil, empty, lastEnd]; rfl⟩
    | some place =>
      obtain ⟨s, e⟩ := place
      have inside := finds.place
      have bounds := proper s e rfl
      rw [empty] at inside
      exact absurd inside.2.2.1 (by simp only [List.length_nil]; omega)
  · have some' := List.length_pos_of_ne_nil empty
    cases r with
    | none =>
      obtain ⟨k, run⟩ := subst_first_none finds some'
      exact ⟨k, run t⟩
    | some place =>
      obtain ⟨s, e⟩ := place
      obtain ⟨-, later, short⟩ := proper s e rfl
      obtain ⟨k, run⟩ := subst_first_some finds some'
      have next : nextPos 0 e = e := nextPos_of_ne (by omega : e ≠ 0) short
      exact ⟨k, by rw [run, next, remainder_nat]; rfl⟩

theorem proper_of_replacesFirst (replaces : m.ReplacesFirst fPrefix) :
    ∃ r, m.Finds fPrefix 0 r ∧ ∀ s e, r = some (s, e) → s ≤ e ∧ 0 < e ∧ e < 2 ^ 31 := by
  obtain ⟨r, finds, ordered, gives⟩ := replaces
  refine ⟨r, finds, ?_⟩
  rintro s e rfl
  refine ⟨ordered s e rfl, ?_⟩
  obtain ⟨low, high, inside, -⟩ := finds.place
  by_cases empty : m.search = []
  · -- the match at the end of the empty text is not looked for
    obtain ⟨f, run⟩ := gives [0]
    have nothing : m.subst [0] false fPrefix f = some [] ∨ m.subst [0] false fPrefix f = none := by
      cases f with
      | zero => exact .inr rfl
      | succ f =>
        rw [subst, substLoop, if_neg (by rw [empty]; decide)]
        dsimp only
        rw [if_neg (by rw [empty]; decide)]
        exact .inl rfl
    rw [run] at nothing
    rcases nothing with none' | stuck
    · have lengths := congrArg List.length (Option.some.inj none')
      change (Holes.fill [0] [subString m.search 0 (s - 0)] (m.search.drop e)).length = 0 at lengths
      rw [Holes.fill_cons, List.length_append, List.length_append, List.length_singleton] at lengths
      omega
    · cases stuck
  · have some' := List.length_pos_of_ne_nil empty
    obtain ⟨f, run⟩ := gives []
    have same := first_of_subst finds some' run
    change Holes.fill [] [subString m.search 0 s] (m.search.drop e) = _ at same
    simp only [Holes.fill_cons, Holes.fill_nil, List.nil_append] at same
    have lengths := congrArg List.length (List.append_cancel_left same)
    rw [remainder, List.length_drop] at lengths
    split at lengths
    · rw [part_rest, List.length_drop, nextPos] at lengths
      unfold toInt at lengths
      split at lengths
      · omega
      · omega
    · rename_i outside
      rw [nextPos] at outside
      unfold toInt at outside
      rw [List.length_nil] at lengths
      split at outside
      · omega
      · omega

end Copying

/-- `Subst` replaces the matches and copies the rest exactly if no match is empty, but for one at the end of
the text behind a character that is in no match, and the positions are an `int`. -/
theorem subst_replaces_iff (m : Matcher) (fPrefix : Bytes) :
    (m.ReplacesAll fPrefix ↔ ∃ ms, m.Matches fPrefix 0 ms ∧ m.Plain 0 ms) ∧
      (m.ReplacesFirst fPrefix ↔ ∃ r, m.Finds fPrefix 0 r ∧ ∀ s e, r = some (s, e) → s ≤ e ∧ 0 < e ∧ e < 2 ^ 31) :=
  ⟨⟨plain_of_replacesAll, fun ⟨_, all, plain⟩ => replacesAll_of_plain all plain⟩,
    ⟨proper_of_replacesFirst, fun ⟨_, finds, proper⟩ => replacesFirst_of_proper finds proper⟩⟩

/-- At the empty matches of `x*` the characters of the text are lost. -/
theorem subst_loses_characters :
    ∃ c, compile (ascii "x*") 20 = some (some c, []) ∧
      subst ⟨c.program, .normal, ascii "ab"⟩ (ascii "-") true c.fPrefix 20 = some (ascii "--") ∧
      ¬ReplacesAll ⟨c.program, .normal, ascii "ab"⟩ c.fPrefix ∧ ¬ReplacesFirst ⟨c.program, .normal, ascii "ab"⟩ c.fPrefix := by
  obtain ⟨a, shape⟩ : ∃ a, a = Alts.last (.star (.simple (.opAtom [120]))) := ⟨_, rfl⟩
  have compiled : compile (ascii "x*") 20 = some (some a.compiled, []) := by
    rw [shape]
    exact compile_of_parse rfl
  have empty : Finds ⟨a.compiled.program, .normal, ascii "ab"⟩ a.compiled.fPrefix 0 (some (0, 0)) := by
    subst shape
    exact ⟨20, _, rfl, rfl⟩
  refine ⟨_, compiled, by subst shape; decide, fun replaces => ?_, fun replaces => ?_⟩
  · obtain ⟨ms, all, plain⟩ := plain_of_replacesAll replaces
    cases all with
    | behind outside => exact absurd outside (Nat.not_lt_zero _)
    | none _ finds => cases finds.unique empty
    | next _ finds =>
      cases finds.unique empty
      rcases plain.2.1 with less | ⟨less, -⟩
      · exact absurd less (Nat.lt_irrefl 0)
      · exact absurd less (Nat.lt_irrefl 0)
  · obtain ⟨r, finds, proper⟩ := proper_of_replacesFirst replaces
    have later := (proper 0 0 (finds.unique empty)).2.1
    exact absurd later (Nat.lt_irrefl 0)

end Matcher

end Coast.Regex
