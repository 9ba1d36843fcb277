import Coast.Lib.Segments
import Coast.Regex.Program

/-!
# Cleaning up paths

`ResolvePath` rebuilds a path token by token and takes back the last segment at each `..`.
-/

namespace Coast.System

open Regex (cstr cstr_of_plain)
open Segments

def sep : UInt8 := '/'.toUInt8

def isAbsolutePath (name : Bytes) : Bool := name.head? == some sep

/-- The tokens of a `StringTokenizer`; it stops at once on an empty string. -/
def stringTokenizer (s : Bytes) (delimiter : UInt8) : List Bytes :=
  if (cstr s).isEmpty then [] else (cstr s).splitOn delimiter

def strRChr (text : Bytes) (c : UInt8) : Option Nat :=
  (text.reverse.findIdx? fun b => b == c).map fun i => text.length - 1 - i

def appendSlash (newPath : Bytes) : Bytes :=
  if !newPath.isEmpty && newPath.getLast? != some sep then newPath ++ [sep] else newPath

def resolveToken (newPath token : Bytes) (last : Bool) : Bytes :=
  if token = ascii "." then newPath
  else if token = ascii ".." then
    match strRChr newPath sep with
    | some 0 => newPath.take 1
    | some idx => newPath.take idx
    | none => []
  else if token.isEmpty then (if last then appendSlash newPath else newPath)
  else appendSlash newPath ++ token

def resolveTokens (newPath : Bytes) : List Bytes → Bytes
  | [] => newPath
  | token :: rest => resolveTokens (resolveToken newPath token rest.isEmpty) rest

def resolvePath (path : Bytes) : Bytes :=
  if path.isEmpty then path
  else resolveTokens (if isAbsolutePath path then [sep] else []) (stringTokenizer path sep)

example : resolvePath (ascii "/a/./b//../c/") = ascii "/a/c/" := by decide

/-! ### The path as a directory -/

abbrev PlainName : Bytes → Prop := Plain (ascii ".") (ascii "..")

abbrev walkPath : List Bytes → List Bytes → List Bytes := walk (ascii ".") (ascii "..")

def DotFree (text : Bytes) : Prop := ∀ s ∈ text.splitOn sep, s ≠ ascii "." ∧ s ≠ ascii ".."

instance : DecidablePred DotFree := fun text => inferInstanceAs (Decidable (∀ s ∈ text.splitOn sep, _ ∧ _))

def pathText (absolute : Bool) (dir : List Bytes) : Bytes := (if absolute then [sep] else []) ++ [sep].intercalate dir

def dirText (dir : List Bytes) : Bytes := if dir = [] then [sep] else rooted sep dir

/-- The segments that `newPath` can have. -/
def Entered (s : Bytes) : Prop := PlainName s ∧ sep ∉ s

theorem strRChr_none {text : Bytes} {c : UInt8} (free : c ∉ text) : strRChr text c = none := by
  have none : text.reverse.findIdx? (fun b => b == c) = none := by
    rw [List.findIdx?_eq_none_iff]
    intro b mem
    exact beq_eq_false_iff_ne.mpr fun eq => free (eq ▸ List.mem_reverse.mp mem)
  rw [strRChr, none]
  rfl

theorem strRChr_last {front back : Bytes} {c : UInt8} (free : c ∉ back) : strRChr (front ++ c :: back) c = some front.length := by
  have none : back.reverse.findIdx? (fun b => b == c) = none := by
    rw [List.findIdx?_eq_none_iff]
    intro b mem
    have other : b ≠ c := fun eq => free (eq ▸ List.mem_reverse.mp mem)
    simpa using other
  unfold strRChr
  rw [List.reverse_append, List.reverse_cons, List.append_assoc, List.findIdx?_append, none]
  simp [List.findIdx?_cons]

theorem intercalate_cons (s : Bytes) (segs : List Bytes) : [sep].intercalate (s :: segs) = s ++ rooted sep segs :=
  (List.cons.inj (cons_intercalate sep (List.cons_ne_nil s segs))).2

theorem pathText_cons (absolute : Bool) (s : Bytes) (segs : List Bytes) :
    pathText absolute (s :: segs) = pathText absolute [] ++ s ++ rooted sep segs := by
  rw [pathText, intercalate_cons, ← List.append_assoc, pathText, List.intercalate_nil, List.append_nil]

theorem pathText_concat (absolute : Bool) {dir : List Bytes} (nonempty : dir ≠ []) (s : Bytes) :
    pathText absolute (dir ++ [s]) = pathText absolute dir ++ sep :: s := by
  obtain ⟨t, segs, rfl⟩ := List.exists_cons_of_ne_nil nonempty
  rw [List.cons_append, pathText_cons, pathText_cons, rooted_append, rooted_cons, rooted_nil, List.append_nil,
    List.append_assoc _ (rooted sep segs)]

theorem pathText_singleton (absolute : Bool) (s : Bytes) : pathText absolute [s] = pathText absolute [] ++ s := by
  rw [pathText_cons, rooted_nil, List.append_nil]

theorem dirText_eq (dir : List Bytes) : dirText dir = pathText true dir := by
  cases dir with
  | nil => rfl
  | cons s segs =>
    rw [pathText_cons, dirText, if_neg (List.cons_ne_nil _ _)]
    rfl

theorem pathText_ne_nil (absolute : Bool) {dir : List Bytes} (all : ∀ s ∈ dir, Entered s) (nonempty : dir ≠ []) :
    pathText absolute dir ≠ [] := by
  obtain ⟨t, segs, rfl⟩ := List.exists_cons_of_ne_nil nonempty
  rw [pathText_cons]
  exact List.append_ne_nil_of_left_ne_nil (List.append_ne_nil_of_right_ne_nil _ (all t List.mem_cons_self).1.1) _

theorem getLast?_append_entered (front : Bytes) {s : Bytes} (entered : Entered s) : (front ++ s).getLast? ≠ some sep := by
  rw [List.getLast?_append_of_ne_nil _ entered.1.1]
  exact fun eq => entered.2 (List.mem_of_getLast? eq)

theorem getLast?_pathText (absolute : Bool) {dir : List Bytes} {s : Bytes} (entered : Entered s) :
    (pathText absolute (dir ++ [s])).getLast? ≠ some sep := by
  cases dir with
  | nil =>
    rw [List.nil_append, pathText_singleton]
    exact getLast?_append_entered _ entered
  | cons t dir =>
    rw [pathText_concat absolute (List.cons_ne_nil t dir), List.append_cons]
    exact getLast?_append_entered _ entered

theorem appendSlash_pathText (absolute : Bool) {dir : List Bytes} (all : ∀ s ∈ dir, Entered s) :
    appendSlash (pathText absolute dir) = if dir = [] then pathText absolute [] else pathText absolute dir ++ [sep] := by
  cases dir using List.reverseRecOn with
  | nil => cases absolute <;> rfl
  | append_singleton dir s =>
    have nonempty : dir ++ [s] ≠ [] := by simp
    have last : (pathText absolute (dir ++ [s])).getLast? ≠ some sep := getLast?_pathText absolute (all s (by simp))
    rw [appendSlash, if_pos (by simpa using ⟨pathText_ne_nil absolute all nonempty, last⟩), if_neg nonempty]

theorem resolveToken_up (absolute : Bool) {dir : List Bytes} (all : ∀ s ∈ dir, Entered s) (last : Bool) :
    resolveToken (pathText absolute dir) (ascii "..") last = pathText absolute dir.dropLast := by
  rw [resolveToken, if_neg (by decide), if_pos rfl]
  cases dir using List.reverseRecOn with
  | nil => cases absolute <;> rfl
  | append_singleton dir s =>
    have free : sep ∉ s := (all s (by simp)).2
    rw [List.dropLast_concat]
    by_cases none : dir = []
    · subst none
      rw [List.nil_append, pathText_singleton]
      cases absolute with
      | true =>
        have found : strRChr (sep :: s) sep = some 0 := @strRChr_last [] s sep free
        have whole : pathText true [] ++ s = sep :: s := rfl
        rw [whole, found]
        rfl
      | false =>
        have found : strRChr s sep = none := strRChr_none free
        have whole : pathText false [] ++ s = s := rfl
        rw [whole, found]
        rfl
    · have nonempty : pathText absolute dir ≠ [] := pathText_ne_nil absolute (fun t mem => all t (by simp [mem])) none
      obtain ⟨c, front, shape⟩ := List.exists_cons_of_ne_nil nonempty
      rw [pathText_concat absolute none, strRChr_last free, shape, List.length_cons]
      exact List.take_left' (List.length_cons ..)

theorem resolveToken_pathText (absolute : Bool) {dir : List Bytes} (all : ∀ s ∈ dir, Entered s) (token : Bytes) (last : Bool) :
    resolveToken (pathText absolute dir) token last =
      if token = [] ∧ last ∧ dir ≠ [] then pathText absolute dir ++ [sep]
      else pathText absolute (visit (ascii ".") (ascii "..") dir token) := by
  by_cases up : token = ascii ".."
  · subst up
    rw [resolveToken_up absolute all, visit, if_pos rfl, if_neg fun both => absurd both.1 (by decide)]
  unfold resolveToken visit
  by_cases here : token = ascii "."
  · subst here
    rw [if_pos rfl, if_neg fun both => absurd both.1 (by decide), if_neg (by decide), if_pos (.inl rfl)]
  by_cases empty : token = []
  · subst empty
    have stays : (if ([] : Bytes) = ascii "." ∨ ([] : Bytes) = [] then dir else dir ++ [[]]) = dir := if_pos (.inr rfl)
    rw [if_neg here, if_neg up, if_pos List.isEmpty_nil, if_neg up, stays]
    cases last with
    | false => rw [if_neg Bool.false_ne_true, if_neg fun both => Bool.false_ne_true both.2.1]
    | true =>
      rw [if_pos rfl, appendSlash_pathText absolute all]
      by_cases none : dir = []
      · rw [if_pos none, if_neg fun both => both.2.2 none, none]
      · rw [if_neg none, if_pos ⟨rfl, rfl, none⟩]
  · rw [if_neg here, if_neg up, if_neg (by simpa using empty), if_neg (fun both => empty both.1), if_neg up,
      if_neg (not_or.mpr ⟨here, empty⟩), appendSlash_pathText absolute all]
    split
    · rename_i none
      rw [none, List.nil_append, pathText_singleton]
    · rename_i nonempty
      rw [pathText_concat absolute nonempty, List.append_assoc, List.singleton_append]

theorem walkPath_concat (dir segs : List Bytes) (s : Bytes) :
    walkPath dir (segs ++ [s]) = visit (ascii ".") (ascii "..") (walkPath dir segs) s := by
  simp [walk]

theorem resolveTokens_pathText (absolute : Bool) {dir : List Bytes} (all : ∀ s ∈ dir, Entered s) {segs : List Bytes}
    {last : Bytes} (frees : ∀ s ∈ segs, sep ∉ s) :
    resolveTokens (pathText absolute dir) (segs ++ [last]) =
      if last = [] ∧ walkPath dir segs ≠ [] then pathText absolute (walkPath dir segs) ++ [sep]
      else pathText absolute (walkPath dir (segs ++ [last])) := by
  induction segs generalizing dir with
  | nil =>
    rw [List.nil_append, resolveTokens, resolveTokens, resolveToken_pathText absolute all]
    simp [walk]
  | cons s segs ih =>
    rw [List.cons_append, resolveTokens, resolveToken_pathText absolute all, if_neg (by simp)]
    have enters : PlainName s → Entered s := fun plain => ⟨plain, frees s List.mem_cons_self⟩
    rw [ih (visit_keeps _ _ all enters) fun t mem => frees t (List.mem_cons_of_mem _ mem)]
    rfl

theorem walkPath_entered {segs : List Bytes} (frees : ∀ s ∈ segs, sep ∉ s) : ∀ s ∈ walkPath [] segs, Entered s :=
  walk_keeps _ _ (by simp) fun s mem plain => ⟨plain, frees s mem⟩

theorem splitOn_concat (text : Bytes) : ∃ segs last, text.splitOn sep = segs ++ [last] ∧ ∀ s ∈ segs ++ [last], sep ∉ s := by
  obtain ⟨segs, last, split⟩ := (List.eq_nil_or_concat' (text.splitOn sep)).resolve_left (List.splitOn_ne_nil sep text)
  exact ⟨segs, last, split, fun s mem => splitOn_free sep (split ▸ mem)⟩

theorem resolvePath_segments {path : Bytes} (text : (0 : UInt8) ∉ path) {segs : List Bytes} {last : Bytes}
    (split : path.splitOn sep = segs ++ [last]) (frees : ∀ s ∈ segs, sep ∉ s) :
    resolvePath path =
      if last = [] ∧ walkPath [] segs ≠ [] then pathText (isAbsolutePath path) (walkPath [] segs) ++ [sep]
      else pathText (isAbsolutePath path) (walkPath [] (segs ++ [last])) := by
  rw [← resolveTokens_pathText _ (by simp) frees, ← split]
  cases path with
  | nil => rfl
  | cons c rest =>
    have start : (if isAbsolutePath (c :: rest) then [sep] else []) = pathText (isAbsolutePath (c :: rest)) [] := by
      rw [pathText, List.intercalate_nil, List.append_nil]
    rw [resolvePath, if_neg (c := (c :: rest).isEmpty = true) (by simp), start, stringTokenizer, cstr_of_plain text,
      if_neg (c := (c :: rest).isEmpty = true) (by simp)]

theorem resolvePath_rooted {segs : List Bytes} {last : Bytes} (frees : ∀ s ∈ segs ++ [last], sep ∉ s)
    (text : (0 : UInt8) ∉ rooted sep (segs ++ [last])) :
    resolvePath (rooted sep (segs ++ [last])) =
      if last = [] then rooted sep (walkPath [] segs) ++ [sep] else dirText (walkPath [] (segs ++ [last])) := by
  have absolute : isAbsolutePath (rooted sep (segs ++ [last])) = true := by cases segs <;> rfl
  have split : (rooted sep (segs ++ [last])).splitOn sep = ([] :: segs) ++ [last] := splitOn_rooted sep frees
  have begun : ∀ more, walkPath [] ([] :: more) = walkPath [] more := fun _ => rfl
  rw [resolvePath_segments text split (by simpa using fun s mem => frees s (List.mem_append_left _ mem)), absolute,
    begun, List.cons_append, begun, ← dirText_eq, ← dirText_eq]
  by_cases empty : last = []
  · subst empty
    rw [if_pos rfl, walkPath_concat]
    by_cases none : walkPath [] segs = []
    · rw [if_neg (by simp [none]), none]
      rfl
    · rw [if_pos ⟨rfl, none⟩, dirText, if_neg none]
  · rw [if_neg empty, if_neg (fun both => empty both.1)]

/-! ### Absolute paths -/

section Absolute

variable {rest : Bytes} (text : (0 : UInt8) ∉ sep :: rest)
include text

theorem absolute_segments : ∃ (segs : List Bytes) (last : Bytes), sep :: rest = rooted sep (segs ++ [last]) ∧
    (∀ s ∈ segs ++ [last], sep ∉ s) ∧ (0 : UInt8) ∉ rooted sep (segs ++ [last]) := by
  obtain ⟨segs, last, split, frees⟩ := splitOn_concat rest
  refine ⟨segs, last, ?_, frees, ?_⟩
  · rw [← split, rooted_splitOn]
  · rwa [← split, rooted_splitOn]

theorem resolvePath_dotFree : DotFree (resolvePath (sep :: rest)) := by
  obtain ⟨segs, last, eq, frees, zero⟩ := absolute_segments text
  have plain : ∀ {segs : List Bytes} (slash : List Bytes), (∀ s ∈ segs, sep ∉ s) → (∀ s ∈ slash, s = []) →
      DotFree (rooted sep (walkPath [] segs ++ slash)) := by
    intro segs slash frees empty s mem
    have entered := walkPath_entered frees
    rw [splitOn_rooted] at mem
    · obtain rfl | mem := List.mem_cons.mp mem
      · decide
      · obtain mem | mem := List.mem_append.mp mem
        · exact (entered s mem).1.2
        · rw [empty s mem]
          decide
    · intro t mem
      obtain mem | mem := List.mem_append.mp mem
      · exact (entered t mem).2
      · rw [empty t mem]
        exact List.not_mem_nil
  rw [eq, resolvePath_rooted frees zero]
  split
  · have slash := plain [[]] (fun s mem => frees s (List.mem_append_left _ mem)) (by simp)
    rwa [rooted_append] at slash
  · unfold dirText
    split
    · exact @plain [] [[]] (by simp) (by simp)
    · have none := plain [] frees (by simp)
      rwa [List.append_nil] at none

theorem resolvePath_eq_of_length (kept : (resolvePath (sep :: rest)).length = (sep :: rest).length) :
    resolvePath (sep :: rest) = sep :: rest := by
  obtain ⟨segs, last, eq, frees, zero⟩ := absolute_segments text
  rw [eq, resolvePath_rooted frees zero] at kept ⊢
  by_cases empty : last = []
  · subst empty
    rw [if_pos rfl, rooted_append, List.length_append, List.length_append] at kept
    have walked : walkPath [] segs = [] ++ segs := by
      apply walk_eq_of_length _ _ sep
      simp only [walkPath, rooted_nil, rooted_cons, List.length_nil, List.length_cons, List.append_nil] at kept ⊢
      omega
    rw [if_pos rfl, rooted_append, walked]
    rfl
  · rw [if_neg empty] at kept ⊢
    have long : 2 ≤ (rooted sep (segs ++ [last])).length := by
      have some : 0 < last.length := List.length_pos_iff.mpr empty
      rw [rooted_append, List.length_append, rooted_cons, List.length_cons, List.length_append]
      omega
    unfold dirText at kept ⊢
    split at kept
    · simp only [List.length_cons, List.length_nil] at kept
      omega
    · rename_i moved
      have walked : walkPath [] (segs ++ [last]) = [] ++ (segs ++ [last]) := by
        apply walk_eq_of_length _ _ sep
        rw [kept, rooted_nil, List.length_nil, Nat.zero_add]
      rw [if_neg moved, walked]
      rfl

end Absolute

end Coast.System
