import Coast.Regex.Replacing

/-!
# Splitting

`Split` searches as `Subst` does, but keeps the character that it steps over at an empty match. Its pieces
and the texts of the matches are the text again, if the engine returns and the positions are an `int`.
-/

namespace Coast.Regex

namespace Matcher

/-! ### The loop of `Split` -/

section Splitting

variable (m : Matcher) (fPrefix : Bytes)

/-- The texts of the matches in the loop of `Split` from `pos` on. A match that ends before it begins has
no text. -/
def separators (fuel : Nat) : Nat → Int → Option (List Bytes)
  | 0, _ => none
  | n + 1, pos =>
    if pos < m.search.length then
      match m.containedIn fPrefix fuel pos with
      | some (some c) =>
        let start := register (c.startRegister 0)
        let newpos := register (c.endRegister 0)
        if newpos < start then none
        else (separators fuel n (nextPos pos newpos)).map fun seps => m.part start (newpos - start) :: seps
      | some none => some []
      | none => none
    else some []

def interleave : List Bytes → List Bytes → Bytes
  | [], seps => seps.flatten
  | pieces, [] => pieces.flatten
  | piece :: pieces, sep :: seps => piece ++ sep ++ interleave pieces seps

/-- `Split` returns, and its pieces with the separators between them are the text. -/
def SplitsAll : Prop := ∃ f pieces seps, m.split fPrefix f = some pieces ∧ m.separators fPrefix f f 0 = some seps ∧
  (pieces.length = seps.length ∨ pieces.length = seps.length + 1) ∧ interleave pieces seps = m.search

/-- The positions that the loop comes to when all of them are an `int`. -/
inductive Visits : Nat → Prop
  | start : Visits 0
  | next {pos s e} : Visits pos → pos < m.search.length → m.Finds fPrefix pos (some (s, e)) →
      Visits (if e = pos then e + 1 else e)

/-- A run of the loop of `Split` from `pos` on: the pieces, each with the separator behind it, and the last
position. -/
inductive Cuts : Int → List (Bytes × Bytes) → Int → Prop
  | stop {pos : Int} : ¬pos < m.search.length → Cuts pos [] pos
  | none {f : Nat} {pos : Int} : pos < m.search.length → m.containedIn fPrefix f pos = some none → Cuts pos [] pos
  | found {f : Nat} {pos : Int} {c : Captures} {start newpos : Int} {cuts : List (Bytes × Bytes)} {last : Int} :
      pos < m.search.length → m.containedIn fPrefix f pos = some (some c) → register (c.startRegister 0) = start →
      register (c.endRegister 0) = newpos → start ≤ newpos → Cuts (nextPos pos newpos) cuts last →
      Cuts pos ((m.part pos (if newpos = pos then start + 1 - pos else start - pos), m.part start (newpos - start)) :: cuts) last

def cutText (cuts : List (Bytes × Bytes)) : Bytes := cuts.flatMap fun cut => cut.1 ++ cut.2

end Splitting

section Splitting

variable {m : Matcher} {fPrefix : Bytes}

theorem cuts_of_splitLoop {f n : Nat} {pos last : Int} {res pieces seps : List Bytes}
    (run : m.splitLoop fPrefix f n pos res = some (last, pieces)) (texts : m.separators fPrefix f n pos = some seps) :
    ∃ cuts, m.Cuts fPrefix pos cuts last ∧ pieces = res ++ cuts.map Prod.fst ∧ seps = cuts.map Prod.snd := by
  induction n generalizing pos res seps with
  | zero => cases run
  | succ n ih =>
    rw [splitLoop] at run
    rw [separators] at texts
    split at run
    · rename_i inside
      rw [if_pos inside] at texts
      cases found : m.containedIn fPrefix f pos with
      | none => rw [found] at run; cases run
      | some r =>
        rw [found] at run texts
        cases r with
        | none =>
          cases run
          cases texts
          exact ⟨[], .none inside found, (List.append_nil _).symm, rfl⟩
        | some c =>
          dsimp only at run texts
          obtain ⟨ordered, more⟩ := Option.ite_none_left_eq_some.mp texts
          obtain ⟨seps', rest, rfl⟩ := Option.map_eq_some_iff.mp more
          by_cases here : register (c.endRegister 0) = pos
          · rw [if_pos here] at run
            rw [nextPos, if_pos here] at rest
            obtain ⟨cuts, later, rfl, rfl⟩ := ih run rest
            refine ⟨_, .found inside found rfl rfl (by omega) (by rw [nextPos, if_pos here]; exact later), ?_, rfl⟩
            rw [List.map_cons, if_pos here, List.append_assoc, List.singleton_append]
          · rw [if_neg here] at run
            rw [nextPos, if_neg here] at rest
            obtain ⟨cuts, later, rfl, rfl⟩ := ih run rest
            refine ⟨_, .found inside found rfl rfl (by omega) (by rw [nextPos, if_neg here]; exact later), ?_, rfl⟩
            rw [List.map_cons, if_neg here, List.append_assoc, List.singleton_append]
    · rename_i outside
      rw [if_neg outside] at texts
      cases run
      cases texts
      exact ⟨[], .stop outside, (List.append_nil _).symm, rfl⟩

theorem Cuts.splitLoop {pos last : Int} {cuts : List (Bytes × Bytes)} (cut : m.Cuts fPrefix pos cuts last) :
    ∃ k, ∀ f ≥ k, ∀ n ≥ k, ∀ res, m.splitLoop fPrefix f n pos res = some (last, res ++ cuts.map Prod.fst) ∧
      m.separators fPrefix f n pos = some (cuts.map Prod.snd) := by
  induction cut with
  | stop outside =>
    refine ⟨1, fun f _ n large res => ?_⟩
    obtain ⟨n, rfl⟩ : ∃ n', n = n' + 1 := ⟨n - 1, by omega⟩
    rw [Matcher.splitLoop, separators, if_neg outside, if_neg outside, List.map_nil, List.append_nil]
    exact ⟨rfl, rfl⟩
  | @none g pos inside run =>
    refine ⟨g + 1, fun f enough n large res => ?_⟩
    obtain ⟨n, rfl⟩ : ∃ n', n = n' + 1 := ⟨n - 1, by omega⟩
    rw [Matcher.splitLoop, separators, if_pos inside, if_pos inside, m.containedIn_mono fPrefix (by omega : g ≤ f) _ _ run,
      List.map_nil, List.append_nil]
    exact ⟨rfl, rfl⟩
  | @found g pos c start newpos cuts last inside run is is' ordered rest ih =>
    obtain ⟨k, later⟩ := ih
    refine ⟨max k g + 1, fun f enough n large res => ?_⟩
    obtain ⟨n, rfl⟩ : ∃ n', n = n' + 1 := ⟨n - 1, by omega⟩
    rw [Matcher.splitLoop, separators, if_pos inside, if_pos inside, m.containedIn_mono fPrefix (by omega : g ≤ f) _ _ run]
    dsimp only
    rw [is, is', if_neg (by omega : ¬newpos < start)]
    have step := later f (by omega) n (by omega) (res ++ [m.part pos (if newpos = pos then start + 1 - pos else start - pos)])
    rw [List.append_assoc, List.singleton_append] at step
    refine ⟨?_, by rw [step.2]; rfl⟩
    rw [List.map_cons, ← step.1, nextPos]
    split
    · rfl
    · rfl

/-- The pieces of `Split` are those of its loop, and the rest if there is one. -/
def tail (m : Matcher) (last : Int) : List Bytes := if m.part last (-1) = [] then [] else [m.part last (-1)]

theorem tail_flatten (last : Int) : (m.tail last).flatten = m.part last (-1) := by
  unfold tail
  split
  · rename_i empty
    rw [empty]
    rfl
  · exact List.append_nil _

theorem tail_length (last : Int) : (m.tail last).length = 0 ∨ (m.tail last).length = 1 := by
  unfold tail
  split
  · exact .inl rfl
  · exact .inr rfl

theorem interleave_cuts (cuts : List (Bytes × Bytes)) (last : Int) :
    interleave (cuts.map Prod.fst ++ m.tail last) (cuts.map Prod.snd) = cutText cuts ++ m.part last (-1) := by
  induction cuts with
  | nil =>
    rw [List.map_nil, List.map_nil, List.nil_append, cutText, List.flatMap_nil, List.nil_append, ← tail_flatten]
    cases m.tail last with
    | nil => rfl
    | cons => rfl
  | cons cut cuts ih =>
    rw [List.map_cons, List.map_cons, List.cons_append, interleave, ih, cutText, cutText, List.flatMap_cons]
    simp only [List.append_assoc]

theorem split_of_loop {f : Nat} {last : Int} {pieces : List Bytes} (run : m.splitLoop fPrefix f f 0 [] = some (last, pieces)) :
    m.split fPrefix f = some (pieces ++ m.tail last) := by
  rw [split, run]
  dsimp only
  unfold tail
  split
  · rw [List.append_nil]
  · rfl

theorem splitsAll_iff_cuts : m.SplitsAll fPrefix ↔
    ∃ cuts last, m.Cuts fPrefix 0 cuts last ∧ cutText cuts ++ m.part last (-1) = m.search := by
  constructor
  · rintro ⟨f, pieces, seps, gives, texts, -, whole⟩
    match run : m.splitLoop fPrefix f f 0 [] with
    | none =>
      rw [split, run] at gives
      cases gives
    | some (last, pieces') =>
      obtain ⟨cuts, cut, rfl, rfl⟩ := cuts_of_splitLoop run texts
      rw [split_of_loop run, List.nil_append] at gives
      cases gives
      exact ⟨cuts, last, cut, by rw [← interleave_cuts, whole]⟩
  · rintro ⟨cuts, last, cut, whole⟩
    obtain ⟨k, both⟩ := cut.splitLoop
    obtain ⟨run, texts⟩ := both k (Nat.le_refl k) k (Nat.le_refl k) []
    refine ⟨k, _, _, split_of_loop run, texts, ?_, ?_⟩
    · rw [List.nil_append, List.length_append, List.length_map, List.length_map]
      have := m.tail_length last
      omega
    · rw [List.nil_append, interleave_cuts, whole]

/-! ### What is cut out -/

theorem length_part_rest (pos : Int) : (m.part pos (-1)).length = m.search.length - pos.toNat := by
  rw [part_rest, List.length_drop]

theorem cutText_cons (cut : Bytes × Bytes) (cuts : List (Bytes × Bytes)) :
    cutText (cut :: cuts) = cut.1 ++ cut.2 ++ cutText cuts := List.flatMap_cons

theorem cut_text {pos s e : Nat} (low : pos ≤ s) (ordered : s ≤ e) (inside : e ≤ m.search.length) (before : pos < m.search.length) :
    m.part pos (if (e : Int) = pos then (s : Int) + 1 - pos else s - pos) ++ m.part s ((e : Int) - s) =
      subString m.search pos ((if e = pos then e + 1 else e) - pos) := by
  rw [part_between ordered]
  by_cases empty : e = pos
  · subst empty
    obtain rfl : s = e := by omega
    have one : m.part s (s + 1 - s) = subString m.search s (s + 1 - s) := part_between (Nat.le_succ s)
    rw [if_pos rfl, if_pos rfl, one, Nat.sub_self]
    exact List.append_nil _
  · rw [if_neg (by omega), if_neg empty, part_between low]
    unfold subString
    rw [show e - pos = (s - pos) + (e - s) by omega, List.take_add, List.drop_drop, show pos + (s - pos) = s by omega]

theorem Cuts.covers {pos last : Int} {cuts : List (Bytes × Bytes)} (cut : m.Cuts fPrefix pos cuts last) :
    m.search.length ≤ pos.toNat + (cutText cuts ++ m.part last (-1)).length := by
  induction cut with
  | stop | none =>
    rw [cutText, List.flatMap_nil, List.nil_append, length_part_rest]
    omega
  | @found g pos c start newpos cuts last inside run is is' ordered rest ih =>
    obtain ⟨s, e, start', finish, low, high, within, -, -⟩ := finds_some run
    rw [is] at start'
    rw [is'] at finish
    subst start' finish
    have next : (nextPos pos e).toNat ≤ if (e : Int) = pos then e + 1 else e := by
      unfold nextPos toInt
      split
      · omega
      · omega
    have sep : (m.part s ((e : Int) - s)).length = e - s := by
      rw [part_between (by omega), length_subString]
      omega
    have piece : (if (e : Int) = pos then 1 else 0) + (s - pos.toNat) ≤
        (m.part pos (if (e : Int) = pos then (s : Int) + 1 - pos else s - pos)).length := by
      unfold part
      split
      · rename_i here
        rw [if_neg (by omega), length_subString]
        omega
      · rw [if_neg (by omega), length_subString]
        omega
    rw [cutText_cons, List.append_assoc, List.append_assoc, List.length_append, List.length_append]
    dsimp only
    rw [sep]
    split at next
    · rename_i here
      rw [if_pos here] at piece
      omega
    · rename_i here
      rw [if_neg here] at piece
      omega

theorem Cuts.exact {pos : Nat} {last : Int} {cuts : List (Bytes × Bytes)} (cut : m.Cuts fPrefix pos cuts last)
    (before : pos < m.search.length) (all : pos + (cutText cuts ++ m.part last (-1)).length = m.search.length) :
    ∃ r, m.Finds fPrefix pos r ∧ ∀ s e, r = some (s, e) → s ≤ e ∧ (if e = pos then e + 1 else e) < 2 ^ 31 ∧
      ∃ cuts' last', m.Cuts fPrefix (if e = pos then e + 1 else e : Nat) cuts' last' ∧
        (if e = pos then e + 1 else e) + (cutText cuts' ++ m.part last' (-1)).length = m.search.length := by
  generalize here : (pos : Int) = pos' at cut
  cases cut with
  | stop outside => exact absurd (by omega) outside
  | none _ run =>
    subst here
    exact ⟨.none, finds_none run, fun _ _ is => by cases is⟩
  | @found g _ c start newpos cuts _ inside run is is' ordered rest =>
    subst here
    obtain ⟨s, e, start', finish, low, high, within, -, finds⟩ := finds_some run
    rw [is] at start'
    rw [is'] at finish
    subst start' finish
    refine ⟨some (s, e), finds pos rfl, fun s' e' same => ?_⟩
    cases same
    rw [cutText_cons, cut_text (by omega) (by omega) within before, List.append_assoc, List.length_append, length_subString] at all
    have covered := rest.covers
    obtain ⟨next, isNext⟩ : ∃ next, next = if e = pos then e + 1 else e := ⟨_, rfl⟩
    have further : pos < next := by
      rw [isNext]
      split <;> omega
    have stays : next ≤ m.search.length := by
      rw [isNext]
      split <;> omega
    have wide : nextPos pos e = toInt next := by
      rw [nextPos, isNext]
      congr 1
      split
      · rw [if_pos (by omega)]
        rfl
      · rw [if_neg (by omega)]
    rw [← isNext] at all ⊢
    rw [wide] at covered rest
    have short : next < 2 ^ 31 := by
      unfold toInt at covered
      omega
    rw [toInt_nat short] at rest
    exact ⟨by omega, short, cuts, last, rest, by omega⟩

/-- The condition under which `Split` loses nothing: from each position that the loop comes to `ContainedIn`
returns, a match does not end before it begins, and the next position is an `int`. -/
def Steady (m : Matcher) (fPrefix : Bytes) : Prop := ∀ pos, m.Visits fPrefix pos → pos < m.search.length →
  ∃ r, m.Finds fPrefix pos r ∧ ∀ s e, r = some (s, e) → s ≤ e ∧ (if e = pos then e + 1 else e) < 2 ^ 31

theorem cuts_of_visits {cuts : List (Bytes × Bytes)} {last : Int} (cut : m.Cuts fPrefix 0 cuts last)
    (whole : cutText cuts ++ m.part last (-1) = m.search) {pos : Nat} (visits : m.Visits fPrefix pos) :
    ∃ cuts' last', m.Cuts fPrefix pos cuts' last' ∧ pos + (cutText cuts' ++ m.part last' (-1)).length = m.search.length := by
  induction visits with
  | start => exact ⟨cuts, last, cut, by rw [whole, Nat.zero_add]⟩
  | @next pos s e _ before finds ih =>
    obtain ⟨cuts', last', cut', all⟩ := ih
    obtain ⟨r, finds', proper⟩ := cut'.exact before all
    obtain ⟨-, -, rest⟩ := proper s e (finds'.unique finds)
    exact rest

theorem steady_of_splitsAll (splits : m.SplitsAll fPrefix) : m.Steady fPrefix := by
  intro pos visits before
  obtain ⟨cuts, last, cut, whole⟩ := splitsAll_iff_cuts.mp splits
  obtain ⟨cuts', last', cut', all⟩ := cuts_of_visits cut whole visits
  obtain ⟨r, finds, proper⟩ := cut'.exact before all
  exact ⟨r, finds, fun s e is => ⟨(proper s e is).1, (proper s e is).2.1⟩⟩

/-- From a position on, the loop cuts out the text behind it; the induction is on what is left of the text. -/
theorem cuts_of_steady (steady : m.Steady fPrefix) (left : Nat) {pos : Nat} (visits : m.Visits fPrefix pos)
    (inside : pos ≤ m.search.length) (less : m.search.length - pos ≤ left) :
    ∃ cuts last, m.Cuts fPrefix pos cuts last ∧ cutText cuts ++ m.part last (-1) = m.search.drop pos := by
  induction left generalizing pos with
  | zero => exact ⟨[], pos, .stop (by omega), part_rest pos⟩
  | succ left ih =>
    by_cases before : pos < m.search.length
    · obtain ⟨r, finds, proper⟩ := steady pos visits before
      cases r with
      | none =>
        obtain ⟨f, found, run, is⟩ := finds
        cases Option.map_eq_none_iff.mp is
        exact ⟨[], pos, .none (by omega) run, part_rest pos⟩
      | some place =>
        obtain ⟨s, e⟩ := place
        obtain ⟨ordered, short⟩ := proper s e rfl
        obtain ⟨low, high, within, -⟩ := finds.place
        have onwards := visits.next before finds
        have further : pos < (if e = pos then e + 1 else e) ∧ (if e = pos then e + 1 else e) ≤ m.search.length := by
          split <;> omega
        obtain ⟨cuts, last, cut, texts⟩ := ih onwards further.2 (by omega)
        obtain ⟨f, found, run, is⟩ := finds
        obtain ⟨c, rfl, -⟩ := Option.map_eq_some_iff.mp is
        obtain ⟨s', e', start, finish, -, -, -, -, here⟩ := finds_some run
        cases (here pos rfl).unique ⟨f, some c, run, is⟩
        have wide : nextPos pos e = (if e = pos then e + 1 else e : Nat) := by
          rw [← toInt_nat short, nextPos]
          congr 1
          split
          · rw [if_pos (by omega)]
            rfl
          · rw [if_neg (by omega)]
        refine ⟨_, last, .found (by omega) run start finish (by omega) (by rw [wide]; exact cut), ?_⟩
        rw [cutText_cons, cut_text (by omega) (by omega) within before, List.append_assoc, texts]
        have together := List.take_append_drop ((if e = pos then e + 1 else e) - pos) (m.search.drop pos)
        rw [List.drop_drop, show pos + ((if e = pos then e + 1 else e) - pos) = if e = pos then e + 1 else e by omega] at together
        exact together
    · exact ⟨[], pos, .stop (by omega), part_rest pos⟩

theorem splitsAll_of_steady (steady : m.Steady fPrefix) : m.SplitsAll fPrefix := by
  obtain ⟨cuts, last, cut, whole⟩ := cuts_of_steady steady _ .start (Nat.zero_le _) (Nat.le_refl _)
  exact splitsAll_iff_cuts.mpr ⟨cuts, last, cut, whole⟩

end Splitting

/-- `Split` returns and loses nothing exactly if the condition holds. -/
theorem split_loses_nothing_iff (m : Matcher) (fPrefix : Bytes) : m.SplitsAll fPrefix ↔ m.Steady fPrefix :=
  ⟨steady_of_splitsAll, splitsAll_of_steady⟩

/-- `Split` with `\0*` never comes back from its first search. -/
theorem split_hangs_on_nul :
    ∃ c, compile (ascii "\\0*") 20 = some (some c, []) ∧
      (∀ f, split ⟨c.program, .normal, ascii "a"⟩ c.fPrefix f = none) ∧ ¬SplitsAll ⟨c.program, .normal, ascii "a"⟩ c.fPrefix := by
  have hangs : ∀ f, split ⟨Alts.program (.last (.star (.simple (.opAtom [0])))), .normal, ascii "a"⟩ [] f = none := by
    intro f
    have first := nul_loop_hangs .normal (ascii "a") (Nat.zero_le 1) f (.start 0)
    cases f with
    | zero => rfl
    | succ f =>
      have here : matchAt ⟨Alts.program (.last (.star (.simple (.opAtom [0])))), .normal, ascii "a"⟩ (f + 1) 0 = none := by
        rw [matchAt, if_neg (by decide)]
        split
        · rename_i found
          cases first.symm.trans found
        · rename_i found
          cases first.symm.trans found
        · rfl
      have search : containedIn ⟨Alts.program (.last (.star (.simple (.opAtom [0])))), .normal, ascii "a"⟩ [] (f + 1) 0 = none := by
        have searched : searchFrom ⟨Alts.program (.last (.star (.simple (.opAtom [0])))), .normal, ascii "a"⟩ (fun _ => true) (f + 1) 2 0 = none := by
          rw [searchFrom, if_pos rfl, here]
        exact searched
      rw [split, splitLoop, if_pos (by decide), search]
  refine ⟨_, compile_nul_loop, hangs, fun splits => ?_⟩
  obtain ⟨f, pieces, seps, gives, -⟩ := splits
  cases (hangs f).symm.trans gives

end Matcher

end Coast.Regex
