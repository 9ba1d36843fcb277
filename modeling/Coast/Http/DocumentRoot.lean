import Coast.Http.URLUtils

/-!
# Requests and the document root

`HTTPProcessorWithChecks` checks, decodes and normalizes the path of a request and puts the arguments
back behind it. `URI2FileNameMapper` appends what stands before the first `?` to the document root.
-/

namespace Coast.Http

open Coast.System Segments
open Regex (cstr)

/-! ### The checks of the processor -/

structure CheckSettings where
  urlExhaustiveDecode : Bool
  fixDirectoryTraversial : Bool

structure ErrorMessage where
  code : Nat
  msg : Bytes
  content : Bytes
  component : Bytes
  deriving DecidableEq

/-- What `RequestURISplitHelper::split` stores. -/
structure RequestURISplit where
  fPath : Bytes
  fArgSep : Bytes
  fArgs : Bytes

def splitURI (uri : Bytes) : RequestURISplit :=
  match firstCharOf uri (ascii "?;") with
  | none => ⟨uri, [], []⟩
  | some pos =>
    if pos ≠ uri.length - 1 then ⟨uri.take pos, (uri.drop pos).take 1, uri.drop (pos + 1)⟩ else ⟨uri.take pos, [], []⟩

def RequestURISplit.merge (split : RequestURISplit) : Bytes := split.fPath ++ split.fArgSep ++ split.fArgs

def decodePath (settings : CheckSettings) (urlPath : Bytes) : Bytes × URLCheckStatus :=
  if settings.urlExhaustiveDecode then exhaustiveUrlDecode urlPath else urlDecode urlPath

def uriChangedDuringPathCleanup (urlPath : Bytes) : Bool := urlPath.length != (cleanUpUriPath urlPath).length

/-- `DoPrepareContextRequest` without override settings: the rewritten `REQUEST_URI` of an accepted
request, and the messages that it leaves. -/
def doPrepareContextRequest (settings : CheckSettings) (requestURI : Bytes) : Option Bytes × List ErrorMessage :=
  let split := splitURI requestURI
  if !checkUrlEncoding split.fPath [] then
    (none, [⟨400, ascii "Not all unsafe chars URL encoded", split.fPath, ascii "HTTPProcessorWithChecks::DoVerifyRequest"⟩])
  else
    let warnings : List ErrorMessage :=
      if checkUrlArgEncoding split.fArgs [] then []
      else [⟨200, ascii "Argument string (after " ++ split.fArgSep ++ ascii ") was not correctly encoded. Request not rejected.",
        split.fArgs, ascii "HTTPProcessorWithChecks::DoVerifyRequest"⟩]
    let decoded := decodePath settings split.fPath
    if decoded.2 = .eSuspiciousChar then
      (none, warnings ++ [⟨400, ascii "Encoded char above 0x255 detected", split.fPath,
        ascii "HTTPProcessorWithChecks::DoPrepareContextRequest"⟩])
    else if checkUrlPathContainsUnsafeChars decoded.1 [] [] true then
      (none, warnings ++ [⟨400, ascii "Decoded URL path contains unsafe char", decoded.1,
        ascii "HTTPProcessorWithChecks::DoVerifyRequest"⟩])
    else if uriChangedDuringPathCleanup decoded.1 then
      if settings.fixDirectoryTraversial then
        (some { split with fPath := cleanUpUriPath decoded.1 }.merge,
          warnings ++ [⟨200, ascii "Directory traversal attack detected and normalized. Request not rejected because of FixDirectoryTraversial setting",
            decoded.1, ascii "HTTPProcessorWithChecks::DoPrepareContextRequest"⟩])
      else
        (none, warnings ++ [⟨400, ascii "Directory traversal attack", decoded.1,
          ascii "HTTPProcessorWithChecks::DoPrepareContextRequest"⟩])
    else (some { split with fPath := decoded.1 }.merge, warnings)

/-! ### The mapper -/

def trimUriArguments (filename : Bytes) : Bytes := filename.takeWhile fun c => c != '?'.toUInt8

def documentRootPath (rootDir documentRoot uri : Bytes) : Bytes :=
  let path :=
    if isAbsolutePath documentRoot then documentRoot
    else if documentRoot.isEmpty then rootDir
    else if rootDir.getLast? != some sep && documentRoot.head? != some sep then rootDir ++ [sep] ++ documentRoot
    else if rootDir.getLast? == some sep && documentRoot.head? == some sep then rootDir.dropLast ++ documentRoot
    else rootDir ++ documentRoot
  if path.getLast? == some sep && uri.head? == some sep then path.dropLast else path

def fileName (rootDir documentRoot requestURI : Bytes) : Bytes :=
  let uri := trimUriArguments requestURI
  documentRootPath rootDir documentRoot uri ++ uri

structure Files where
  isRegularFile : Bytes → Bool
  isDirectory : Bytes → Bool

/-- The result of `DoFinalGetAny` and what it leaves in the temporary store. -/
structure Mapped where
  found : Bool
  val : Bytes
  httpError : Option (Nat × Bytes) := none
  httpLocation : Option Bytes := none

/-- `DoFinalGetAny` for the key `FileName`. -/
def doFinalGetAny (files : Files) (rootDir documentRoot directoryIndex requestURI : Bytes) : Mapped :=
  let uri := trimUriArguments requestURI
  let value := fileName rootDir documentRoot requestURI
  if files.isRegularFile value then { found := true, val := value }
  else if files.isDirectory value then
    if value.getLast? != some sep || uri.isEmpty then
      if uri.isEmpty then { found := false, val := value, httpError := some (400, ascii "Bad Request") }
      else
        { found := false, val := value ++ [sep], httpError := some (301, ascii "Permanently moved")
          httpLocation := some (value ++ [sep]) }
    else { found := true, val := value ++ directoryIndex }
  else { found := false, val := value, httpError := some (404, ascii "Not Found") }

theorem doFinalGetAny_val (files : Files) (rootDir documentRoot directoryIndex requestURI : Bytes) :
    ∃ ending ∈ [[], [sep], directoryIndex],
      (doFinalGetAny files rootDir documentRoot directoryIndex requestURI).val = fileName rootDir documentRoot requestURI ++ ending := by
  unfold doFinalGetAny
  dsimp only
  split
  · exact ⟨[], by simp, (List.append_nil _).symm⟩
  · split
    · split
      · split
        · exact ⟨[], by simp, (List.append_nil _).symm⟩
        · exact ⟨[sep], by simp, rfl⟩
      · exact ⟨directoryIndex, by simp, rfl⟩
    · exact ⟨[], by simp, (List.append_nil _).symm⟩

/-! ### Accepted requests -/

def cleanPath (settings : CheckSettings) (uri : Bytes) : Bytes := cleanUpUriPath (decodePath settings (splitURI uri).fPath).1

theorem cstr_eq_of_firstCharOf {text charSet : Bytes} (none : firstCharOf text charSet = none) : (0 : UInt8) ∉ text := by
  unfold firstCharOf at none
  dsimp only at none
  split at none
  · rename_i all
    have inner := (List.takeWhile_prefix (fun c => !charSet.contains c) (l := cstr text)).length_le
    have outer : cstr text <+: text := List.takeWhile_prefix _
    have whole : cstr text = text := outer.eq_of_length (Nat.le_antisymm outer.length_le (all.trans inner))
    unfold cstr at whole
    rw [List.takeWhile_eq_self_iff] at whole
    exact fun mem => absurd (whole 0 mem) (by decide)
  · cases none

theorem firstCharOf_cons {c : UInt8} {rest charSet : Bytes} (zero : c ≠ 0) (other : c ∉ charSet) {pos : Nat}
    (found : firstCharOf (c :: rest) charSet = some pos) : 0 < pos := by
  unfold firstCharOf cstr at found
  rw [List.takeWhile_cons_of_pos (by simpa using zero), List.takeWhile_cons_of_pos (by simpa using other)] at found
  dsimp only at found
  split at found
  · cases found
  · obtain rfl := Option.some.inj found
    exact Nat.succ_pos _

theorem firstCharOf_found {text charSet : Bytes} {pos : Nat} (found : firstCharOf text charSet = some pos) :
    ∃ delim more, text.drop pos = delim :: more ∧ (delim = 0 ∨ delim ∈ charSet) := by
  unfold firstCharOf cstr at found
  dsimp only at found
  rw [List.takeWhile_takeWhile] at found
  split at found
  · cases found
  · rename_i before
    obtain rfl := Option.some.inj found
    generalize passes : (fun c => decide ((!charSet.contains c) = true ∧ (c != 0) = true)) = p at before ⊢
    have whole := List.takeWhile_append_dropWhile (p := p) (l := text)
    have behind : text.drop (text.takeWhile p).length = text.dropWhile p :=
      (congrArg (List.drop _) whole.symm).trans List.drop_left
    cases eq : text.dropWhile p with
    | nil =>
      rw [eq, List.append_nil] at whole
      rw [whole] at before
      exact absurd (Nat.le_refl _) before
    | cons delim more =>
      have stops := List.head?_dropWhile_not p text
      rw [eq] at stops
      refine ⟨delim, more, behind.trans eq, ?_⟩
      have stopped : p delim = false := by simpa using stops
      rw [← passes, decide_eq_false_iff_not] at stopped
      by_cases zero : delim = 0
      · exact .inl zero
      · by_contra other
        rw [not_or] at other
        exact stopped ⟨by simpa using other.2, by simpa using zero⟩

theorem splitURI_cons (rest : Bytes) : ∃ more, (splitURI (sep :: rest)).fPath = sep :: more := by
  unfold splitURI
  split
  · exact ⟨rest, rfl⟩
  · rename_i pos found
    obtain ⟨pos, rfl⟩ := Nat.exists_eq_succ_of_ne_zero (Nat.ne_of_gt (firstCharOf_cons (by decide) (by decide) found))
    split <;> exact ⟨_, List.take_succ_cons⟩

theorem decodePath_cons (settings : CheckSettings) (rest : Bytes) : ∃ more, (decodePath settings (sep :: rest)).1 = sep :: more := by
  unfold decodePath
  split
  · exact exhaustiveRounds_cons (by decide) _ _ _ _
  · exact urlDecode_cons (by decide) _

theorem accepted_path {settings : CheckSettings} {rest rewritten : Bytes} {messages : List ErrorMessage}
    (accepted : doPrepareContextRequest settings (sep :: rest) = (some rewritten, messages)) :
    rewritten = { splitURI (sep :: rest) with fPath := cleanPath settings (sep :: rest) }.merge ∧
      DotFree (cleanPath settings (sep :: rest)) := by
  obtain ⟨path, starts⟩ := splitURI_cons rest
  obtain ⟨decoded, eq⟩ := decodePath_cons settings path
  unfold doPrepareContextRequest at accepted
  unfold cleanPath cleanUpUriPath
  dsimp only at accepted
  rw [starts, eq] at accepted ⊢
  split at accepted
  · cases accepted
  split at accepted
  · cases accepted
  split at accepted
  · cases accepted
  rename_i safe
  have text : (0 : UInt8) ∉ sep :: decoded := by
    unfold checkUrlPathContainsUnsafeChars at safe
    simp only [Bool.or_eq_true, not_or, Option.isSome_iff_ne_none, ne_eq, not_not] at safe
    exact cstr_eq_of_firstCharOf safe.1
  refine ⟨?_, resolvePath_dotFree text⟩
  split at accepted
  · split at accepted
    · cases accepted
      rfl
    · cases accepted
  · rename_i same
    unfold uriChangedDuringPathCleanup cleanUpUriPath at same
    rw [bne_iff_ne, ne_eq, not_not] at same
    rw [resolvePath_eq_of_length text same.symm]
    cases accepted
    rfl

/-! ### What stands before the first question mark -/

def IsDotName (s : Bytes) : Prop := s = ascii "." ∨ s = ascii ".."

def QuestionAfterDot (settings : CheckSettings) (uri : Bytes) : Prop :=
  '?'.toUInt8 ∈ cleanPath settings uri ∧ ∃ s ∈ ((trimUriArguments (cleanPath settings uri)).splitOn sep).getLast?, IsDotName s

/-- A dot name in arguments that do not begin at a question mark. -/
def DotInArguments (settings : CheckSettings) (uri : Bytes) : Prop :=
  '?'.toUInt8 ∉ cleanPath settings uri ∧ (splitURI uri).fArgSep ≠ [] ∧ (splitURI uri).fArgSep ≠ ['?'.toUInt8] ∧
    ∃ s ∈ ((trimUriArguments (splitURI uri).fArgs).splitOn sep).tail, IsDotName s

theorem dotFree_iff (text : Bytes) : DotFree text ↔ ∀ s ∈ text.splitOn sep, ¬IsDotName s := by
  simp only [DotFree, IsDotName, not_or]

theorem trimUriArguments_of_mem {path : Bytes} (mem : '?'.toUInt8 ∈ path) (more : Bytes) :
    trimUriArguments (path ++ more) = trimUriArguments path := by
  unfold trimUriArguments
  rw [List.takeWhile_append, if_neg]
  intro all
  have whole := (List.takeWhile_prefix (fun c => c != '?'.toUInt8) (l := path)).eq_of_length all
  rw [List.takeWhile_eq_self_iff] at whole
  exact absurd (whole _ mem) (by decide)

theorem trimUriArguments_of_not_mem {path : Bytes} (free : '?'.toUInt8 ∉ path) (more : Bytes) :
    trimUriArguments (path ++ more) = path ++ trimUriArguments more := by
  unfold trimUriArguments
  rw [List.takeWhile_append_of_pos]
  intro c mem
  rw [bne_iff_ne]
  rintro rfl
  exact free mem

theorem dotFree_front {front back : Bytes} (free : DotFree (front ++ back)) :
    DotFree front ↔ ¬∃ s ∈ (front.splitOn sep).getLast?, IsDotName s := by
  obtain ⟨init, last, first, rest, one, -, both⟩ := splitOn_append sep front back
  rw [dotFree_iff] at free ⊢
  rw [both] at free
  rw [one, List.getLast?_concat]
  constructor
  · rintro all ⟨s, mem, dot⟩
    obtain rfl := Option.mem_some.mp mem
    exact all last (by simp) dot
  · intro ends s mem dot
    obtain mem | mem := List.mem_append.mp mem
    · exact free s (List.mem_append_left _ mem) dot
    · obtain rfl := List.mem_singleton.mp mem
      exact ends ⟨s, rfl, dot⟩

theorem dotFree_behind {path args : Bytes} {delim : UInt8} (free : DotFree path) (slash : delim ≠ sep) (dot : delim ≠ '.'.toUInt8) :
    DotFree (path ++ delim :: args) ↔ ¬∃ s ∈ (args.splitOn sep).tail, IsDotName s := by
  obtain ⟨init, last, first, rest, one, two, both⟩ := splitOn_append sep path (delim :: args)
  have other : (delim == sep) = false := by simpa using slash
  obtain ⟨head, tail, split⟩ := List.exists_cons_of_ne_nil (List.splitOn_ne_nil sep args)
  rw [List.splitOn_cons_eq_if_modifyHead, other, split] at two
  obtain ⟨rfl, rfl⟩ := List.cons.inj two
  rw [dotFree_iff] at free ⊢
  rw [one] at free
  rw [both, split, List.tail_cons]
  have named : ¬IsDotName (last ++ delim :: head) := by
    have mem : delim ∈ last ++ delim :: head := by simp
    rintro (eq | eq) <;> rw [eq] at mem
    · exact dot (List.mem_singleton.mp mem)
    · obtain eq | mem := List.mem_cons.mp mem
      · exact dot eq
      · exact dot (List.mem_singleton.mp mem)
  constructor
  · rintro all ⟨s, mem, name⟩
    exact all s (by simp [mem]) name
  · intro none s mem name
    obtain mem | mem := List.mem_append.mp mem
    · exact free s (List.mem_append_left _ mem) name
    · obtain rfl | mem := List.mem_cons.mp mem
      · exact named name
      · exact none ⟨s, mem, name⟩

theorem splitURI_delim (uri : Bytes) : ((splitURI uri).fArgSep = [] ∧ (splitURI uri).fArgs = []) ∨
    ∃ delim, (splitURI uri).fArgSep = [delim] ∧ (delim = 0 ∨ delim ∈ ascii "?;") := by
  unfold splitURI
  split
  · exact .inl ⟨rfl, rfl⟩
  · rename_i pos found
    obtain ⟨delim, more, eq, which⟩ := firstCharOf_found found
    split
    · refine .inr ⟨delim, ?_, which⟩
      dsimp only
      rw [eq]
      rfl
    · exact .inl ⟨rfl, rfl⟩

/-- The file name of an accepted request leaves the document root by a dot name in two ways only. -/
theorem accepted_inside_iff (settings : CheckSettings) {rest rewritten : Bytes} {messages : List ErrorMessage}
    (accepted : doPrepareContextRequest settings (sep :: rest) = (some rewritten, messages)) (rootDir documentRoot : Bytes) :
    DotFree ((fileName rootDir documentRoot rewritten).drop
        (documentRootPath rootDir documentRoot (trimUriArguments rewritten)).length) ↔
      ¬QuestionAfterDot settings (sep :: rest) ∧ ¬DotInArguments settings (sep :: rest) := by
  obtain ⟨rfl, clean⟩ := accepted_path accepted
  unfold fileName QuestionAfterDot DotInArguments RequestURISplit.merge
  dsimp only
  rw [List.drop_left, List.append_assoc]
  by_cases question : '?'.toUInt8 ∈ cleanPath settings (sep :: rest)
  · have front : ∃ back, cleanPath settings (sep :: rest) = trimUriArguments (cleanPath settings (sep :: rest)) ++ back :=
      ⟨_, List.takeWhile_append_dropWhile.symm⟩
    obtain ⟨back, eq⟩ := front
    rw [eq] at clean
    rw [trimUriArguments_of_mem question, dotFree_front clean]
    simp [question]
  · rw [trimUriArguments_of_not_mem question]
    obtain ⟨none, empty⟩ | ⟨delim, one, which⟩ := splitURI_delim (sep :: rest)
    · rw [none, empty]
      simpa [question, trimUriArguments] using clean
    · rw [one]
      by_cases mark : delim = '?'.toUInt8
      · subst mark
        simpa [question, trimUriArguments] using clean
      · have cut : trimUriArguments ([delim] ++ (splitURI (sep :: rest)).fArgs) =
            delim :: trimUriArguments (splitURI (sep :: rest)).fArgs := by
          unfold trimUriArguments
          rw [List.singleton_append, List.takeWhile_cons_of_pos (by simpa using mark)]
        rw [cut, dotFree_behind clean]
        · simp [question, mark]
        · rintro rfl
          revert which
          decide
        · rintro rfl
          revert which
          decide

theorem accepted_inside_iff_page :
    DotFree ((fileName (ascii ".") (ascii "htdocs/") (ascii "/a/b.html?x=/../y")).drop
        (documentRootPath (ascii ".") (ascii "htdocs/") (trimUriArguments (ascii "/a/b.html?x=/../y"))).length) ↔
      ¬QuestionAfterDot ⟨true, false⟩ (ascii "/a/%62.html?x=/../y") ∧ ¬DotInArguments ⟨true, false⟩ (ascii "/a/%62.html?x=/../y") :=
  @accepted_inside_iff ⟨true, false⟩ (ascii "a/%62.html?x=/../y") (ascii "/a/b.html?x=/../y") [] (by decide)
    (ascii ".") (ascii "htdocs/")

/-- The arguments of a path parameter are not checked, and the mapper keeps them. -/
theorem arguments_leave_root :
    doPrepareContextRequest ⟨false, false⟩ (ascii "/a;/../../etc/passwd") = (some (ascii "/a;/../../etc/passwd"), []) ∧
      fileName (ascii ".") (ascii "/srv/www") (ascii "/a;/../../etc/passwd") = ascii "/srv/www/a;/../../etc/passwd" ∧
      ¬DotFree ((fileName (ascii ".") (ascii "/srv/www") (ascii "/a;/../../etc/passwd")).drop
        (documentRootPath (ascii ".") (ascii "/srv/www") (trimUriArguments (ascii "/a;/../../etc/passwd"))).length) := by
  decide

end Coast.Http
