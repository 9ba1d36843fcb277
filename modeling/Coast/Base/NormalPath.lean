import Coast.Base.SystemFile

/-!
# The normal form of a path

What `ResolvePath` is for, said without its buffer: the segments that a walk along the path keeps, with
a slash in front and one behind where the path has them.
-/

namespace Coast.System

open Segments

def keptSegments (path : Bytes) : List Bytes := walkPath [] (path.splitOn sep)

def normalForm (path : Bytes) : Bytes :=
  pathText (isAbsolutePath path) (keptSegments path) ++
    if (path.splitOn sep).getLast? = some [] ∧ keptSegments path ≠ [] then [sep] else []

def CleanSegments (text : Bytes) : Prop :=
  DotFree text ∧ ∀ init s rest, text.splitOn sep = init ++ s :: rest → init ≠ [] → rest ≠ [] → s ≠ []

example : normalForm (ascii "a/./b//../c/") = ascii "a/c/" := by decide

theorem keptSegments_entered (path : Bytes) : ∀ s ∈ keptSegments path, Entered s :=
  walkPath_entered fun _ mem => splitOn_free sep mem

theorem resolvePath_eq_normalForm {path : Bytes} (text : (0 : UInt8) ∉ path) : resolvePath path = normalForm path := by
  obtain ⟨segs, last, split, frees⟩ := splitOn_concat path
  rw [resolvePath_segments text split fun s mem => frees s (List.mem_append_left _ mem), normalForm, keptSegments, split,
    List.getLast?_concat]
  by_cases empty : last = []
  · subst empty
    have kept : walkPath [] (segs ++ [[]]) = walkPath [] segs := walkPath_concat [] segs []
    rw [kept]
    by_cases none : walkPath [] segs = []
    · rw [if_neg (fun both => both.2 none), if_neg (fun both => both.2 none), List.append_nil]
    · rw [if_pos ⟨rfl, none⟩, if_pos ⟨rfl, none⟩]
  · rw [if_neg (fun both => empty both.1), if_neg (fun both => empty (Option.some.inj both.1)), List.append_nil]

/-! ### The segments of a normal form -/

theorem splitOn_pathText (absolute : Bool) {dir tail : List Bytes} (all : ∀ s ∈ dir, Entered s) (nonempty : dir ≠ [])
    (frees : ∀ s ∈ tail, sep ∉ s) :
    (pathText absolute dir ++ rooted sep tail).splitOn sep = (if absolute then [[]] else []) ++ (dir ++ tail) := by
  obtain ⟨s, segs, rfl⟩ := List.exists_cons_of_ne_nil nonempty
  have inner : ∀ t ∈ segs ++ tail, sep ∉ t := by
    intro t mem
    obtain mem | mem := List.mem_append.mp mem
    · exact (all t (List.mem_cons_of_mem s mem)).2
    · exact frees t mem
  have split := splitOn_append_rooted sep (all s List.mem_cons_self).2 inner
  have whole : pathText absolute (s :: segs) ++ rooted sep tail = pathText absolute [] ++ (s ++ rooted sep (segs ++ tail)) := by
    rw [pathText_cons, rooted_append, List.append_assoc, List.append_assoc]
  rw [whole]
  cases absolute with
  | false => exact split
  | true => exact (splitOn_cons_self sep _).trans (congrArg _ split)

theorem normalForm_nil {path : Bytes} (none : keptSegments path = []) :
    normalForm path = pathText (isAbsolutePath path) [] := by
  rw [normalForm, none, if_neg fun both => both.2 rfl, List.append_nil]

def lastSlash (path : Bytes) : List Bytes := if (path.splitOn sep).getLast? = some [] then [[]] else []

theorem normalForm_rooted {path : Bytes} (nonempty : keptSegments path ≠ []) :
    normalForm path = pathText (isAbsolutePath path) (keptSegments path) ++ rooted sep (lastSlash path) := by
  rw [normalForm, lastSlash]
  by_cases last : (path.splitOn sep).getLast? = some []
  · rw [if_pos ⟨last, nonempty⟩, if_pos last]
    rfl
  · rw [if_neg fun both => last both.1, if_neg last]
    rfl

def Slash (segs : List Bytes) : Prop := segs = [] ∨ segs = [[]]

theorem splitOn_normalForm (path : Bytes) : ∃ lead tail, Slash lead ∧ Slash tail ∧
    (normalForm path).splitOn sep = lead ++ (keptSegments path ++ tail) ∧
      (keptSegments path ≠ [] → (tail = [[]] ↔ (path.splitOn sep).getLast? = some [])) := by
  by_cases none : keptSegments path = []
  · rw [normalForm_nil none, none]
    cases isAbsolutePath path with
    | true => exact ⟨[[]], [[]], .inr rfl, .inr rfl, rfl, fun kept => absurd rfl kept⟩
    | false => exact ⟨[[]], [], .inr rfl, .inl rfl, rfl, fun kept => absurd rfl kept⟩
  · have tail : Slash (lastSlash path) := by
      rw [lastSlash]
      split
      · exact .inr rfl
      · exact .inl rfl
    refine ⟨if isAbsolutePath path then [[]] else [], lastSlash path, ?_, tail, ?_, fun _ => ?_⟩
    · cases isAbsolutePath path
      · exact .inl rfl
      · exact .inr rfl
    · rw [normalForm_rooted none]
      refine splitOn_pathText _ (keptSegments_entered path) none fun s mem => ?_
      obtain eq | eq := tail <;> simp_all
    · rw [lastSlash]
      split <;> simp_all

theorem isAbsolutePath_normalForm (path : Bytes) : isAbsolutePath (normalForm path) = isAbsolutePath path := by
  by_cases none : keptSegments path = []
  · rw [normalForm_nil none]
    cases isAbsolutePath path <;> rfl
  · rw [normalForm_rooted none]
    obtain ⟨s, segs, kept⟩ := List.exists_cons_of_ne_nil none
    obtain ⟨⟨some, -⟩, free⟩ : Entered s := keptSegments_entered path s (by simp [kept])
    obtain ⟨c, rest, rfl⟩ := List.exists_cons_of_ne_nil some
    have other : c ≠ sep := fun eq => free (eq ▸ List.mem_cons_self)
    rw [kept, pathText_cons]
    cases isAbsolutePath path with
    | true => rfl
    | false => simpa [isAbsolutePath, pathText] using other

theorem mem_middle {lead middle tail init rest : List Bytes} {s : Bytes} (begins : lead.length ≤ 1) (ends : tail.length ≤ 1)
    (split : lead ++ (middle ++ tail) = init ++ s :: rest) (before : init ≠ []) (behind : rest ≠ []) : s ∈ middle := by
  have here : (lead ++ (middle ++ tail))[init.length]? = some s := by rw [split]; simp
  have total := congrArg List.length split
  have first := List.length_pos_iff.mpr before
  have last := List.length_pos_iff.mpr behind
  simp only [List.length_append, List.length_cons] at total
  rw [List.getElem?_append_right (by omega), List.getElem?_append_left (by omega)] at here
  exact List.mem_of_getElem? here

theorem Slash.length_le {segs : List Bytes} (slash : Slash segs) : segs.length ≤ 1 := by
  obtain rfl | rfl := slash <;> simp

theorem cleanSegments_normalForm (path : Bytes) : CleanSegments (normalForm path) := by
  obtain ⟨lead, tail, begins, ends, split, -⟩ := splitOn_normalForm path
  have entered := keptSegments_entered path
  constructor
  · have empty : ∀ {segs : List Bytes}, Slash segs → ∀ s ∈ segs, s ≠ ascii "." ∧ s ≠ ascii ".." := by
      rintro segs (rfl | rfl) s mem
      · cases mem
      · rw [List.mem_singleton.mp mem]
        decide
    intro s mem
    rw [split, List.mem_append, List.mem_append] at mem
    obtain mem | mem | mem := mem
    · exact empty begins s mem
    · exact (entered s mem).1.2
    · exact empty ends s mem
  · intro init s rest shape before behind
    rw [split] at shape
    exact (entered s (mem_middle begins.length_le ends.length_le shape before behind)).1.1

/-! ### Resolving again -/

theorem walkPath_slash {segs : List Bytes} (slash : Slash segs) (dir : List Bytes) : walkPath dir segs = dir := by
  obtain rfl | rfl := slash <;> rfl

theorem keptSegments_normalForm (path : Bytes) : keptSegments (normalForm path) = keptSegments path := by
  obtain ⟨lead, tail, begins, ends, split, -⟩ := splitOn_normalForm path
  have plain : ∀ s ∈ keptSegments path, PlainName s := fun s mem => (keptSegments_entered path s mem).1
  have walked : walkPath [] (lead ++ (keptSegments path ++ tail)) =
      walkPath (walkPath (walkPath [] lead) (keptSegments path)) tail :=
    (walk_append _ _ [] lead _).trans (walk_append _ _ _ _ tail)
  rw [keptSegments, split, walked, walkPath_slash begins, walkPath_slash ends]
  exact walk_plain _ _ plain

theorem normalForm_normalForm (path : Bytes) : normalForm (normalForm path) = normalForm path := by
  obtain ⟨lead, tail, -, ends, split, last⟩ := splitOn_normalForm path
  have same : ((normalForm path).splitOn sep).getLast? = some [] ∧ keptSegments path ≠ [] ↔
      (path.splitOn sep).getLast? = some [] ∧ keptSegments path ≠ [] := by
    refine and_congr_left fun kept => ?_
    rw [← last kept, split]
    obtain rfl | rfl := ends
    · obtain ⟨segs, s, shape⟩ := (List.eq_nil_or_concat' (keptSegments path)).resolve_left kept
      have entered : Entered s := keptSegments_entered path s (by simp [shape])
      rw [shape, List.append_nil, ← List.append_assoc, List.getLast?_concat]
      simpa using entered.1.1
    · rw [← List.append_assoc, List.getLast?_concat]
      exact iff_of_true rfl rfl
  rw [normalForm, isAbsolutePath_normalForm, keptSegments_normalForm, if_congr same rfl rfl]
  rfl

theorem zero_not_mem_normalForm {path : Bytes} (text : (0 : UInt8) ∉ path) : (0 : UInt8) ∉ normalForm path := by
  have slash : (0 : UInt8) ≠ sep := by decide
  have kept : ∀ s ∈ keptSegments path, (0 : UInt8) ∉ s := by
    refine walk_keeps _ _ (by simp) fun s mem _ inside => ?_
    have whole : (0 : UInt8) ∈ rooted sep (path.splitOn sep) := List.mem_flatMap.mpr ⟨s, mem, List.mem_cons_of_mem _ inside⟩
    rw [rooted_splitOn, List.mem_cons] at whole
    exact whole.elim slash text
  have joined : ∀ {dir : List Bytes}, (∀ s ∈ dir, (0 : UInt8) ∉ s) → (0 : UInt8) ∉ [sep].intercalate dir := by
    intro dir free
    cases dir with
    | nil => exact List.not_mem_nil
    | cons s segs =>
      rw [intercalate_cons, List.mem_append]
      rintro (inside | inside)
      · exact free s List.mem_cons_self inside
      · obtain ⟨t, mem, inside⟩ := List.mem_flatMap.mp inside
        exact (List.mem_cons.mp inside).elim slash (free t (List.mem_cons_of_mem s mem))
  rw [normalForm, pathText, List.mem_append, List.mem_append]
  rintro ((inside | inside) | inside)
  · split at inside <;> simp [slash] at inside
  · exact joined kept inside
  · split at inside <;> simp [slash] at inside

/-- `ResolvePath` computes the normal form, which is clean, relative where the path was, and its own normal form. -/
theorem resolvePath_normal {path : Bytes} (text : (0 : UInt8) ∉ path) :
    resolvePath path = normalForm path ∧ CleanSegments (resolvePath path) ∧
      isAbsolutePath (resolvePath path) = isAbsolutePath path ∧ resolvePath (resolvePath path) = resolvePath path := by
  have normal := resolvePath_eq_normalForm text
  have again := resolvePath_eq_normalForm (zero_not_mem_normalForm text)
  rw [normal, again]
  exact ⟨rfl, cleanSegments_normalForm path, isAbsolutePath_normalForm path, normalForm_normalForm path⟩

theorem resolvePath_normal_up : resolvePath (ascii "a/./b//../c/") = normalForm (ascii "a/./b//../c/") ∧
    CleanSegments (resolvePath (ascii "a/./b//../c/")) ∧
      isAbsolutePath (resolvePath (ascii "a/./b//../c/")) = isAbsolutePath (ascii "a/./b//../c/") ∧
      resolvePath (resolvePath (ascii "a/./b//../c/")) = resolvePath (ascii "a/./b//../c/") :=
  resolvePath_normal (by decide)

end Coast.System
