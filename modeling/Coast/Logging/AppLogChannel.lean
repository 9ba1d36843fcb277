import Coast.Lib.Pool
import Coast.Lib.Runs

/-!
# A log channel

`LogAll` looks at `fLogStream` twice before it enters its section; `FlushItems` is one section; `Rotate`
holds `fChannelMutex` in its second section over several steps, in which other threads see `fLogStream`.
Streams write what they are given.
-/

namespace Coast.Logging

open Pool

inductive Entry where
  | header (text : String)
  | line (logMsg : String)
  deriving DecidableEq, Repr

def Entry.logged : Entry → Option String
  | header _ => none
  | line logMsg => some logMsg

structure ChannelInfo where
  fItemsToBuffer : Nat
  /-- `DoInitClone` stores at least 1. -/
  buffers : 0 < fItemsToBuffer
  fSuppressEmptyLines : Bool
  fDoNotRotate : Bool
  fNoLogItemsWrite : Bool
  fSeverity : Nat
  header : List String

inductive LogStream where
  | null
  | deleted
  | opened
  deriving DecidableEq, Repr

/-- Where the call of `Rotate` stands that is in its second section. -/
inductive Rotating where
  /-- After `delete fLogStream`. -/
  | clearing
  | opening
  deriving DecidableEq, Repr

/-- What a call returned, `LogAll` with the line that it put into `fBuffer`. -/
inductive Result where
  | logAll (appended : Option String) (ok : Bool)
  | flushItems
  | rotate (ok : Bool)
  deriving DecidableEq, Repr

def Result.accepted : Result → Option String
  | logAll (some logMsg) true => some logMsg
  | _ => none

structure Channel where
  fLogStream : LogStream
  fChannelMutex : Option Rotating
  /-- The lines in `fBuffer`. -/
  fBuffer : List String
  fItemsInBuffer : Nat
  logFile : Option (List Entry)
  /-- The files in the directory for rotated logs, by their names, in the order of their rotation. -/
  rotated : List (String × List Entry)
  returned : List Result

namespace Channel

variable (s : Channel)

def report (r : Result) : Channel := { s with returned := s.returned ++ [r] }

def files : List Entry := (s.rotated.map Prod.snd).flatten ++ s.logFile.getD []

def lines : List String := s.files.filterMap Entry.logged ++ s.fBuffer

def accepted : List String := s.returned.filterMap Result.accepted

def write (entries : List Entry) : Channel := { s with logFile := s.logFile.map (· ++ entries) }

def doFlushItems : Channel :=
  if s.fLogStream ≠ .null ∧ 0 < s.fItemsInBuffer then
    { s.write (s.fBuffer.map .line) with fBuffer := [], fItemsInBuffer := 0 }
  else s

def writeHeader (info : ChannelInfo) : Channel :=
  if info.header = [] then s else s.write (info.header.map .header ++ [.header "\n"])

end Channel

/-! ### Rotation -/

/-- The names after `name`, and after the first of them the others. `lNum` is the next number, and `more`
the number of names that are left. -/
def rotateNames (name : String) : (lNum more : Nat) → List String
  | _, 0 => []
  | lNum, more + 1 => (name ++ "." ++ toString lNum) :: rotateNames (name ++ "." ++ toString lNum) (lNum + 1) more

def uniqueName (regular : List String) (name : String) : List String → String
  | [] => name
  | next :: names => if name ∈ regular then uniqueName regular next names else name

inductive Opening where
  | noDirectories
  | renameFails
  | openFails
  | opens
  deriving DecidableEq, Repr

namespace Channel

variable (s : Channel)

def newLogFileName (stamped : String) : String := uniqueName (s.rotated.map Prod.fst) stamped (rotateNames stamped 1 9)

def rename (name : String) : Channel :=
  match s.logFile with
  | none => s
  | some content => { s with logFile := none, rotated := s.rotated.filter (·.1 ≠ name) ++ [(name, content)] }

/-- `OpenOStream`, which appends. -/
def openOStream : Channel := { s with fLogStream := .opened, logFile := some (s.logFile.getD []) }

/-- `fLogStream = OpenLogStream(..)`. -/
def openLogStream (stamped : String) : Opening → Channel
  | .noDirectories => { s with fLogStream := .null }
  | .renameFails => { s with fLogStream := .null }
  | .openFails => { s.rename (s.newLogFileName stamped) with fLogStream := .null }
  | .opens => (s.rename (s.newLogFileName stamped)).openOStream

end Channel

/-! ### Calls -/

inductive Fault where
  | nullStream
  | deletedStream
  | notEnabled
  deriving DecidableEq, Repr

inductive Call where
  /-- `fLogStream != 0`. -/
  | logAll (iLevel : Nat) (logMsg : String)
  /-- `fLogStream->good()`. -/
  | good (iLevel : Nat) (logMsg : String)
  /-- In front of `fChannelMutex`, with the message and its line feed. -/
  | append (logMsg : String)
  | flushItems
  | rotate (overrideDoNotRotateLogs : Bool)
  | rotateLocking
  deriving DecidableEq, Repr

def created (info : ChannelInfo) (iLevel : Nat) (logMsg : String) (s : Channel) : Channel × Option Call :=
  if info.fNoLogItemsWrite then (s.report (.logAll none true), none)
  else if 0 < iLevel &&& info.fSeverity then
    if !info.fSuppressEmptyLines || logMsg.length != 0 then (s, some (.append (logMsg ++ "\n")))
    else (s.report (.logAll none info.fSuppressEmptyLines), none)
  else (s.report (.logAll none info.fSuppressEmptyLines), none)

def appendLine (info : ChannelInfo) (logMsg : String) (s : Channel) : Except Fault Channel :=
  let s' := { s with fBuffer := s.fBuffer ++ [logMsg], fItemsInBuffer := s.fItemsInBuffer + 1 }
  if s'.fItemsInBuffer % info.fItemsToBuffer ≠ 0 then .ok (s'.report (.logAll (some logMsg) true))
  else
    match s.fLogStream with
    | .null => .error .nullStream
    | .deleted => .error .deletedStream
    | .opened => .ok (s'.doFlushItems.report (.logAll (some logMsg) true))

def Call.next (info : ChannelInfo) (s : Channel) : Call → Except Fault (Channel × Option Call)
  | .logAll iLevel logMsg =>
    if s.fLogStream = .null then .ok (s.report (.logAll none false), none) else .ok (s, some (.good iLevel logMsg))
  | .good iLevel logMsg =>
    match s.fLogStream with
    | .null => .error .nullStream
    | .deleted => .error .deletedStream
    | .opened => .ok (created info iLevel logMsg s)
  | .append logMsg =>
    if s.fChannelMutex.isSome then .error .notEnabled else (appendLine info logMsg s).map (·, none)
  | .flushItems =>
    if s.fChannelMutex.isSome then .error .notEnabled else .ok (s.doFlushItems.report .flushItems, none)
  | .rotate overrideDoNotRotateLogs =>
    if s.fChannelMutex.isSome then .error .notEnabled
    else if s.fLogStream = .null ∨ overrideDoNotRotateLogs ∨ info.fDoNotRotate = false then .ok (s, some .rotateLocking)
    else .ok (s.report (.rotate true), none)
  | .rotateLocking =>
    if s.fChannelMutex.isSome then .error .notEnabled
    else if s.fLogStream ≠ .null then .ok ({ s.doFlushItems with fLogStream := .deleted, fChannelMutex := some .clearing }, none)
    else .ok ({ s with fChannelMutex := some .opening }, none)

/-- The end of the section of `Rotate`. -/
def finishRotate (info : ChannelInfo) (stamped : String) (opening : Opening) (s : Channel) : Channel :=
  let s' := { s.openLogStream stamped opening with fChannelMutex := none }
  if s'.fLogStream ≠ .null then (s'.writeHeader info).report (.rotate true) else s'.report (.rotate false)

structure State where
  channel : Channel
  calls : List Call

inductive Event where
  | logAll (iLevel : Nat) (logMsg : String)
  | flushItems
  | rotate (overrideDoNotRotateLogs : Bool)
  | advance (place : Nat)
  /-- `fLogStream = 0` in the section of `Rotate`. -/
  | clear
  | open (stamped : String) (opening : Opening)

def step (info : ChannelInfo) : Event → State → Except Fault State
  | .logAll iLevel logMsg, σ => .ok { σ with calls := σ.calls ++ [.logAll iLevel logMsg] }
  | .flushItems, σ => .ok { σ with calls := σ.calls ++ [.flushItems] }
  | .rotate overrideDoNotRotateLogs, σ => .ok { σ with calls := σ.calls ++ [.rotate overrideDoNotRotateLogs] }
  | .advance place, σ =>
    match σ.calls[place]? with
    | none => .error .notEnabled
    | some c => (c.next info σ.channel).map fun (s, next) => ⟨s, replace σ.calls place next⟩
  | .clear, σ =>
    if σ.channel.fChannelMutex = some .clearing then
      .ok { σ with channel := { σ.channel with fLogStream := .null, fChannelMutex := some .opening } }
    else .error .notEnabled
  | .open stamped opening, σ =>
    if σ.channel.fChannelMutex = some .opening ∧ (opening = .renameFails → σ.channel.logFile.isSome) then
      .ok { σ with channel := finishRotate info stamped opening σ.channel }
    else .error .notEnabled

/-- A channel after `DoInitClone`, in front of what earlier runs of the program have left. -/
def State.new (logFile : Option (List Entry)) (rotated : List (String × List Entry)) : State where
  channel :=
    { fLogStream := .null
      fChannelMutex := none
      fBuffer := []
      fItemsInBuffer := 0
      logFile := logFile
      rotated := rotated
      returned := [] }
  calls := []

abbrev run (info : ChannelInfo) : List Event → State → Except Fault State := Runs.run (step info)

/-! ### The operations on the channel -/

namespace Channel

variable {s : Channel} {info : ChannelInfo}

theorem accepted_report (r : Result) : (s.report r).accepted = s.accepted ++ r.accepted.toList := by
  simp only [accepted, report, List.filterMap_append, List.filterMap_cons, List.filterMap_nil]
  cases r.accepted <;> rfl

theorem lines_congr {s' : Channel} (files : s'.files = s.files) (buffer : s'.fBuffer = s.fBuffer) : s'.lines = s.lines := by
  unfold lines
  rw [files, buffer]

theorem files_write (file : s.logFile.isSome = true) (entries : List Entry) : (s.write entries).files = s.files ++ entries := by
  obtain ⟨content, file⟩ := Option.isSome_iff_exists.mp file
  simp only [files, write, file, Option.map_some, Option.getD_some, List.append_assoc]

theorem logged_lines (logMsgs : List String) : (logMsgs.map Entry.line).filterMap Entry.logged = logMsgs := by
  rw [List.filterMap_map]
  exact List.filterMap_some

theorem doFlushItems_null (null : s.fLogStream = .null) : s.doFlushItems = s := if_neg fun both => both.1 null

theorem doFlushItems_empty (empty : s.fItemsInBuffer = 0) : s.doFlushItems = s :=
  if_neg fun both => Nat.ne_of_gt both.2 empty

theorem doFlushItems_opened (opened : s.fLogStream = .opened) (some : 0 < s.fItemsInBuffer) :
    s.doFlushItems = { s.write (s.fBuffer.map .line) with fBuffer := [], fItemsInBuffer := 0 } :=
  if_pos ⟨by rw [opened]; exact nofun, some⟩

theorem doFlushItems_lines (opened : s.fLogStream = .opened) (file : s.logFile.isSome = true) :
    s.doFlushItems.lines = s.lines := by
  rcases Nat.eq_zero_or_pos s.fItemsInBuffer with empty | some
  · rw [doFlushItems_empty empty]
  · have written := files_write file (s.fBuffer.map .line)
    rw [doFlushItems_opened opened some]
    show (s.write (s.fBuffer.map .line)).files.filterMap Entry.logged ++ [] = _
    rw [written, List.filterMap_append, logged_lines, List.append_nil]
    rfl

theorem doFlushItems_eq (opened : s.fLogStream = .opened) (file : s.logFile.isSome = true)
    (counted : s.fItemsInBuffer = s.fBuffer.length) :
    ∃ content, s.doFlushItems = { s with logFile := some content, fBuffer := [], fItemsInBuffer := 0 } := by
  obtain ⟨content, isFile⟩ := Option.isSome_iff_exists.mp file
  rcases Nat.eq_zero_or_pos s.fItemsInBuffer with empty | some
  · have nothing : s.fBuffer = [] := List.length_eq_zero_iff.mp (counted ▸ empty)
    rw [doFlushItems_empty empty]
    refine ⟨content, ?_⟩
    rw [← isFile, ← nothing, ← empty]
  · rw [doFlushItems_opened opened some]
    refine ⟨content ++ s.fBuffer.map .line, ?_⟩
    unfold write
    rw [isFile]
    rfl

theorem headers_logged (header : List String) : (header.map Entry.header).filterMap Entry.logged = [] := by
  rw [List.filterMap_map, List.filterMap_eq_nil_iff]
  exact fun _ _ => rfl

theorem writeHeader_eq (file : s.logFile.isSome = true) : ∃ content, s.writeHeader info = { s with logFile := some content } := by
  obtain ⟨content, isFile⟩ := Option.isSome_iff_exists.mp file
  unfold writeHeader
  split
  · exact ⟨content, by rw [← isFile]⟩
  · unfold write
    rw [isFile]
    exact ⟨_, rfl⟩

theorem writeHeader_lines (file : s.logFile.isSome = true) : (s.writeHeader info).lines = s.lines := by
  unfold writeHeader
  split
  · rfl
  · have written := files_write file (info.header.map .header ++ [.header "\n"])
    show (s.write _).files.filterMap Entry.logged ++ s.fBuffer = _
    rw [written, List.filterMap_append, List.filterMap_append, headers_logged]
    exact congrArg (· ++ s.fBuffer) (List.append_nil _)

end Channel

theorem uniqueName_free {regular : List String} {names : List String} {name : String}
    (free : ∃ n ∈ name :: names, n ∉ regular) : uniqueName regular name names ∉ regular := by
  induction names generalizing name with
  | nil =>
    obtain ⟨n, mem, free⟩ := free
    obtain rfl := List.mem_singleton.mp mem
    exact free
  | cons next names ih =>
    unfold uniqueName
    split
    · rename_i taken
      refine ih ?_
      obtain ⟨n, mem, free⟩ := free
      rcases List.mem_cons.mp mem with rfl | mem
      · exact absurd taken free
      · exact ⟨n, mem, free⟩
    · assumption

namespace Channel

variable {s : Channel} {info : ChannelInfo}

theorem rename_files {name : String} (free : s.logFile.isSome = true → name ∉ s.rotated.map Prod.fst) :
    (s.rename name).files = s.files := by
  unfold rename
  split
  · rfl
  · rename_i content file
    have free := free (by rw [file]; rfl)
    have kept : s.rotated.filter (·.1 ≠ name) = s.rotated := by
      refine List.filter_eq_self.mpr fun rotated mem => decide_eq_true ?_
      rintro rfl
      exact free (List.mem_map_of_mem mem)
    simp only [files, kept, file, List.map_append, List.flatten_append, List.map_cons, List.map_nil, List.flatten_cons,
      List.flatten_nil, List.append_nil, Option.getD_none, Option.getD_some]

theorem openLogStream_lines {stamped : String} {opening : Opening}
    (free : s.logFile.isSome = true → ∃ name ∈ stamped :: rotateNames stamped 1 9, name ∉ s.rotated.map Prod.fst) :
    (s.openLogStream stamped opening).lines = s.lines := by
  have renamed : (s.rename (s.newLogFileName stamped)).files = s.files :=
    rename_files fun file => uniqueName_free (free file)
  have buffer : (s.rename (s.newLogFileName stamped)).fBuffer = s.fBuffer := by
    unfold rename
    split <;> rfl
  cases opening with
  | noDirectories => rfl
  | renameFails => rfl
  | openFails => exact lines_congr renamed buffer
  | opens =>
    refine lines_congr ?_ buffer
    rw [← renamed]
    exact congrArg ((s.rename (s.newLogFileName stamped)).rotated.map Prod.snd).flatten.append (Option.getD_some ..)

theorem rename_eq (name : String) : ∃ logFile rotated, s.rename name = { s with logFile := logFile, rotated := rotated } := by
  unfold rename
  split <;> exact ⟨_, _, rfl⟩

theorem openLogStream_eq (stamped : String) (opening : Opening) : ∃ logFile rotated, 
    s.openLogStream stamped opening =
      { s with fLogStream := if opening = .opens then .opened else .null, logFile := logFile, rotated := rotated } ∧
    (opening = .opens → logFile.isSome = true) := by
  obtain ⟨logFile, rotated, renamed⟩ := rename_eq (s := s) (s.newLogFileName stamped)
  cases opening with
  | noDirectories => exact ⟨_, _, rfl, nofun⟩
  | renameFails => exact ⟨_, _, rfl, nofun⟩
  | openFails =>
    dsimp only [openLogStream]
    rw [renamed]
    exact ⟨_, _, rfl, nofun⟩
  | opens =>
    dsimp only [openLogStream]
    rw [renamed]
    exact ⟨_, _, rfl, fun _ => rfl⟩

end Channel

/-! ### Runs -/

def Call.appends : Call → Nat
  | append _ => 1
  | _ => 0

def Call.looks : Call → Bool
  | good _ _ => true
  | _ => false

def Call.Orderly (σ : State) : Call → Prop
  | logAll _ _ => σ.channel.fChannelMutex ≠ some .clearing
  | rotateLocking => ∀ c ∈ σ.calls, c.looks = false
  | _ => True

/-- `Rotate` deletes the stream only while no call of `LogAll` stands between its looks at `fLogStream`, and
none begins until the pointer is null. A new file fails to open only if the calls of `LogAll` that are past
their looks leave room in the buffer. A name is left for the old file. -/
def Orderly (info : ChannelInfo) : Event → State → Prop
  | .advance place, σ => ∀ c ∈ σ.calls[place]?, c.Orderly σ
  | .open stamped opening, σ =>
    (opening ≠ .opens → σ.channel.fItemsInBuffer + total Call.appends σ.calls < info.fItemsToBuffer) ∧
    (σ.channel.logFile.isSome = true → ∃ name ∈ stamped :: rotateNames stamped 1 9, name ∉ σ.channel.rotated.map Prod.fst)
  | _, _ => True

instance (σ : State) : (c : Call) → Decidable (c.Orderly σ)
  | .logAll _ _ => inferInstanceAs (Decidable (_ ≠ _))
  | .rotateLocking => inferInstanceAs (Decidable (∀ c ∈ σ.calls, c.looks = false))
  | .good _ _ | .append _ | .flushItems | .rotate _ => .isTrue trivial

instance (info : ChannelInfo) (σ : State) : (e : Event) → Decidable (Orderly info e σ)
  | .advance place => inferInstanceAs (Decidable (∀ c ∈ σ.calls[place]?, c.Orderly σ))
  | .open _ _ => inferInstanceAs (Decidable (_ ∧ _))
  | .logAll _ _ | .flushItems | .rotate _ | .clear => .isTrue trivial

structure Kept (info : ChannelInfo) (before : List String) (σ : State) : Prop where
  counted : σ.channel.fItemsInBuffer = σ.channel.fBuffer.length
  below : σ.channel.fItemsInBuffer < info.fItemsToBuffer
  lines : σ.channel.lines = before ++ σ.channel.accepted
  looking : ∀ c ∈ σ.calls, c.looks = true → σ.channel.fLogStream = .opened
  file : σ.channel.fLogStream = .opened → σ.channel.logFile.isSome = true
  /-- Without a stream the calls that are past their looks do not fill the buffer. -/
  closed : σ.channel.fLogStream = .null → σ.channel.fChannelMutex = none →
    σ.channel.fItemsInBuffer + total Call.appends σ.calls < info.fItemsToBuffer
  clearing : σ.channel.fLogStream = .deleted ↔ σ.channel.fChannelMutex = some .clearing
  opening : σ.channel.fChannelMutex = some .opening → σ.channel.fLogStream = .null

variable {info : ChannelInfo} {before : List String} {σ σ' : State}

theorem Kept.moves (kept : Kept info before σ) {place : Nat} {c : Call} {s : Channel} {next : Option Call}
    (here : σ.calls[place]? = some c) (same : s = σ.channel ∨ ∃ r : Result, r.accepted = none ∧ s = σ.channel.report r)
    (past : σ.channel.fLogStream = .opened ∨ ∀ c, next = some c → c.looks = false ∧ c.appends = 0) :
    Kept info before ⟨s, replace σ.calls place next⟩ := by
  have looking : ∀ c ∈ replace σ.calls place next, c.looks = true → σ.channel.fLogStream = .opened := by
    intro c mem looks
    rcases mem_replace mem with mem | rfl
    · exact kept.looking c mem looks
    · exact past.resolve_right fun none => Bool.false_ne_true ((none c rfl).1.symm.trans looks)
  have closed : σ.channel.fLogStream = .null → σ.channel.fChannelMutex = none →
      σ.channel.fItemsInBuffer + total Call.appends (replace σ.calls place next) < info.fItemsToBuffer := by
    intro null free
    have room := kept.closed null free
    have totals := total_replace Call.appends here next
    have nothing : (next.map Call.appends).getD 0 = 0 := by
      cases next with
      | none => rfl
      | some c => exact ((past.resolve_left (by rw [null]; exact nofun)) c rfl).2
    omega
  rcases same with rfl | ⟨r, unaccepted, rfl⟩
  · exact ⟨kept.counted, kept.below, kept.lines, looking, kept.file, closed, kept.clearing, kept.opening⟩
  · refine ⟨kept.counted, kept.below, ?_, looking, kept.file, closed, kept.clearing, kept.opening⟩
    rw [Channel.accepted_report, unaccepted]
    exact kept.lines.trans (congrArg (before ++ ·) (List.append_nil _).symm)

theorem created_keeps (kept : Kept info before σ) {place iLevel : Nat} {logMsg : String}
    (here : σ.calls[place]? = some (.good iLevel logMsg)) :
    Kept info before ⟨(created info iLevel logMsg σ.channel).1, replace σ.calls place (created info iLevel logMsg σ.channel).2⟩ := by
  have opened := kept.looking _ (List.mem_of_getElem? here) rfl
  refine kept.moves here ?_ (.inl opened)
  unfold created
  split
  · exact .inr ⟨_, rfl, rfl⟩
  · split
    · split
      · exact .inl rfl
      · exact .inr ⟨_, rfl, rfl⟩
    · exact .inr ⟨_, rfl, rfl⟩

theorem kept_of_flush {s : Channel} {calls : List Call} {r : Result} (opened : s.fLogStream = .opened)
    (file : s.logFile.isSome = true) (counted : s.fItemsInBuffer = s.fBuffer.length) (free : s.fChannelMutex = none)
    (lines : s.lines = before ++ (s.accepted ++ r.accepted.toList)) : Kept info before ⟨s.doFlushItems.report r, calls⟩ := by
  have same := Channel.doFlushItems_lines opened file
  obtain ⟨content, flushed⟩ := Channel.doFlushItems_eq opened file counted
  rw [flushed] at same ⊢
  constructor
  · rfl
  · exact info.buffers
  · rw [Channel.accepted_report]
    exact same.trans lines
  · exact fun _ _ _ => opened
  · exact fun _ => rfl
  · exact fun null => absurd (opened.symm.trans null) nofun
  · exact ⟨fun deleted => absurd (opened.symm.trans deleted) nofun, fun clearing => absurd (free.symm.trans clearing) nofun⟩
  · exact fun opening => absurd (free.symm.trans opening) nofun

theorem Kept.not_deleted (kept : Kept info before σ) (free : σ.channel.fChannelMutex = none) : σ.channel.fLogStream ≠ .deleted := by
  intro deleted
  have clearing := kept.clearing.mp deleted
  rw [free] at clearing
  cases clearing

theorem flushItems_keeps (kept : Kept info before σ) {place : Nat} (here : σ.calls[place]? = some .flushItems)
    (free : σ.channel.fChannelMutex = none) :
    Kept info before ⟨σ.channel.doFlushItems.report .flushItems, replace σ.calls place none⟩ := by
  cases stream : σ.channel.fLogStream with
  | null =>
    rw [Channel.doFlushItems_null stream]
    exact kept.moves here (.inr ⟨_, rfl, rfl⟩) (.inr nofun)
  | deleted => exact absurd stream (kept.not_deleted free)
  | opened =>
    exact kept_of_flush stream (kept.file stream) kept.counted free
      (kept.lines.trans (congrArg (before ++ ·) (List.append_nil _).symm))

theorem appendLine_keeps (kept : Kept info before σ) {place : Nat} {logMsg : String}
    (here : σ.calls[place]? = some (.append logMsg)) (free : σ.channel.fChannelMutex = none) :
    ∃ s, appendLine info logMsg σ.channel = .ok s ∧ Kept info before ⟨s, replace σ.calls place none⟩ := by
  have totals : total Call.appends (replace σ.calls place none) + 1 = total Call.appends σ.calls :=
    total_replace Call.appends here none
  have below := kept.below
  have counted : σ.channel.fItemsInBuffer + 1 = (σ.channel.fBuffer ++ [logMsg]).length := by
    rw [List.length_append, kept.counted]
    rfl
  have lines : ({ σ.channel with fBuffer := σ.channel.fBuffer ++ [logMsg], fItemsInBuffer := σ.channel.fItemsInBuffer + 1 } : Channel).lines =
      before ++ (σ.channel.accepted ++ [logMsg]) := by
    have kept := kept.lines
    unfold Channel.lines at kept ⊢
    rw [← List.append_assoc, ← List.append_assoc, ← kept]
    rfl
  unfold appendLine
  dsimp only
  split
  · rename_i fits
    refine ⟨_, rfl, ?_⟩
    constructor
    · exact counted
    · show _ + 1 < _
      have : σ.channel.fItemsInBuffer + 1 ≠ info.fItemsToBuffer := fun full => fits (full ▸ Nat.mod_self _)
      omega
    · rw [Channel.accepted_report]
      exact lines
    · intro c mem looks
      have mem : c ∈ replace σ.calls place none := mem
      rcases mem_replace mem with mem | ended
      · exact kept.looking c mem looks
      · cases ended
    · exact kept.file
    · intro null free
      have room := kept.closed null free
      show _ + 1 + _ < _
      dsimp only
      omega
    · exact kept.clearing
    · exact kept.opening
  · rename_i fills
    rw [not_not] at fills
    split
    · rename_i null
      -- with no stream there is room for all lines on their way
      have room := kept.closed null free
      have small : σ.channel.fItemsInBuffer + 1 < info.fItemsToBuffer := by omega
      rw [Nat.mod_eq_of_lt small] at fills
      cases fills
    · exact absurd ‹_› (kept.not_deleted free)
    · rename_i opened
      exact ⟨_, rfl, kept_of_flush opened (kept.file opened) counted free lines⟩

theorem call_keeps (kept : Kept info before σ) {place : Nat} {c : Call} (here : σ.calls[place]? = some c)
    (orderly : Orderly info (.advance place) σ) :
    c.next info σ.channel = .error .notEnabled ∨
    ∃ s next, c.next info σ.channel = .ok (s, next) ∧ Kept info before ⟨s, replace σ.calls place next⟩ := by
  have orderly : c.Orderly σ := orderly c here
  cases c with
  | logAll iLevel logMsg =>
    right
    dsimp only [Call.next]
    split
    · exact ⟨_, _, rfl, kept.moves here (.inr ⟨_, rfl, rfl⟩) (.inr nofun)⟩
    · rename_i notNull
      refine ⟨_, _, rfl, kept.moves here (.inl rfl) (.inl ?_)⟩
      cases stream : σ.channel.fLogStream with
      | null => exact absurd stream notNull
      | deleted => exact absurd (kept.clearing.mp stream) orderly
      | opened => rfl
  | good iLevel logMsg =>
    right
    have opened := kept.looking _ (List.mem_of_getElem? here) rfl
    dsimp only [Call.next]
    rw [opened]
    exact ⟨_, _, rfl, created_keeps kept here⟩
  | append logMsg =>
    dsimp only [Call.next]
    split
    · exact .inl rfl
    · rename_i free
      obtain ⟨s, appended, kept⟩ := appendLine_keeps kept here (Option.not_isSome_iff_eq_none.mp free)
      rw [appended]
      exact .inr ⟨s, none, rfl, kept⟩
  | flushItems =>
    dsimp only [Call.next]
    split
    · exact .inl rfl
    · rename_i free
      exact .inr ⟨_, _, rfl, flushItems_keeps kept here (Option.not_isSome_iff_eq_none.mp free)⟩
  | rotate overrideDoNotRotateLogs =>
    dsimp only [Call.next]
    split
    · exact .inl rfl
    · right
      split
      · refine ⟨_, _, rfl, kept.moves here (.inl rfl) (.inr ?_)⟩
        rintro c ⟨⟩
        exact ⟨rfl, rfl⟩
      · exact ⟨_, _, rfl, kept.moves here (.inr ⟨_, rfl, rfl⟩) (.inr nofun)⟩
  | rotateLocking =>
    dsimp only [Call.next]
    split
    · exact .inl rfl
    · rename_i free
      rw [Option.not_isSome_iff_eq_none] at free
      right
      split
      · rename_i notNull
        have opened : σ.channel.fLogStream = .opened := by
          cases stream : σ.channel.fLogStream with
          | null => exact absurd stream notNull
          | deleted => exact absurd stream (kept.not_deleted free)
          | opened => rfl
        have same := Channel.doFlushItems_lines opened (kept.file opened)
        obtain ⟨content, flushed⟩ := Channel.doFlushItems_eq opened (kept.file opened) kept.counted
        rw [flushed] at same ⊢
        refine ⟨_, _, rfl, ?_⟩
        constructor
        · rfl
        · exact info.buffers
        · exact same.trans kept.lines
        · intro c mem looks
          have mem : c ∈ replace σ.calls place none := mem
          rcases mem_replace mem with mem | ended
          · exact absurd ((orderly c mem).symm.trans looks) nofun
          · cases ended
        · exact nofun
        · exact nofun
        · exact ⟨fun _ => rfl, fun _ => rfl⟩
        · exact nofun
      · rename_i null
        rw [not_not] at null
        refine ⟨_, _, rfl, ?_⟩
        constructor
        · exact kept.counted
        · exact kept.below
        · exact kept.lines
        · intro c mem looks
          have mem : c ∈ replace σ.calls place none := mem
          rcases mem_replace mem with mem | ended
          · exact kept.looking c mem looks
          · cases ended
        · exact kept.file
        · exact fun _ => nofun
        · exact ⟨fun deleted => absurd (null.symm.trans deleted) nofun, nofun⟩
        · exact fun _ => null

theorem clear_keeps (kept : Kept info before σ) (clearing : σ.channel.fChannelMutex = some .clearing) :
    Kept info before { σ with channel := { σ.channel with fLogStream := .null, fChannelMutex := some .opening } } := by
  have deleted := kept.clearing.mpr clearing
  refine ⟨kept.counted, kept.below, kept.lines, ?_, nofun, fun _ => nofun, ⟨nofun, nofun⟩, fun _ => rfl⟩
  intro c mem looks
  exact absurd (deleted.symm.trans (kept.looking c mem looks)) nofun

theorem open_keeps (kept : Kept info before σ) {stamped : String} {opening : Opening}
    (holds : σ.channel.fChannelMutex = some .opening) (orderly : Orderly info (.open stamped opening) σ) :
    Kept info before { σ with channel := finishRotate info stamped opening σ.channel } := by
  obtain ⟨room, free⟩ := orderly
  have null := kept.opening holds
  have nobody : ∀ c ∈ σ.calls, ¬ c.looks = true := fun c mem looks => absurd (null.symm.trans (kept.looking c mem looks)) nofun
  have same := (Channel.openLogStream_lines free : (σ.channel.openLogStream stamped opening).lines = _).trans kept.lines
  obtain ⟨logFile, rotated, opened, isFile⟩ := Channel.openLogStream_eq (s := σ.channel) stamped opening
  unfold finishRotate
  rw [opened] at same ⊢
  by_cases opens : opening = .opens
  · simp only [if_pos opens] at same ⊢
    rw [if_pos nofun]
    have headed := @Channel.writeHeader_lines info
      (s := { σ.channel with fLogStream := .opened, fChannelMutex := none, logFile := logFile, rotated := rotated }) (isFile opens)
    obtain ⟨content, written⟩ := @Channel.writeHeader_eq info
      (s := { σ.channel with fLogStream := .opened, fChannelMutex := none, logFile := logFile, rotated := rotated }) (isFile opens)
    rw [written] at headed ⊢
    constructor
    · exact kept.counted
    · exact kept.below
    · rw [Channel.accepted_report]
      exact (headed.trans same).trans (congrArg (before ++ ·) (List.append_nil _).symm)
    · exact fun c mem looks => absurd looks (nobody c mem)
    · exact fun _ => rfl
    · exact nofun
    · exact ⟨nofun, nofun⟩
    · exact nofun
  · simp only [if_neg opens] at same ⊢
    rw [if_neg (fun h => h rfl)]
    constructor
    · exact kept.counted
    · exact kept.below
    · rw [Channel.accepted_report]
      exact same.trans (congrArg (before ++ ·) (List.append_nil _).symm)
    · exact fun c mem looks => absurd looks (nobody c mem)
    · exact nofun
    · exact fun _ _ => room opens
    · exact ⟨nofun, nofun⟩
    · exact nofun

theorem new_kept (info : ChannelInfo) (logFile : Option (List Entry)) (rotated : List (String × List Entry)) :
    Kept info (State.new logFile rotated).channel.lines (.new logFile rotated) := by
  refine ⟨rfl, info.buffers, (List.append_nil _).symm, nofun, nofun, fun _ _ => info.buffers, ⟨nofun, nofun⟩, nofun⟩

theorem step_keeps {e : Event} (kept : Kept info before σ) (orderly : Orderly info e σ) :
    step info e σ = .error .notEnabled ∨ ∃ σ', step info e σ = .ok σ' ∧ Kept info before σ' := by
  have starts : ∀ c : Call, c.looks = false → c.appends = 0 → Kept info before { σ with calls := σ.calls ++ [c] } := by
    intro c apart nothing
    refine ⟨kept.counted, kept.below, kept.lines, ?_, kept.file, ?_, kept.clearing, kept.opening⟩
    · intro d mem looks
      rcases List.mem_append.mp mem with mem | mem
      · exact kept.looking d mem looks
      · rw [List.mem_singleton.mp mem, apart] at looks
        cases looks
    · intro null free
      rw [total_append, total_cons, total_nil, nothing]
      exact kept.closed null free
  cases e with
  | logAll iLevel logMsg => exact .inr ⟨_, rfl, starts _ rfl rfl⟩
  | flushItems => exact .inr ⟨_, rfl, starts _ rfl rfl⟩
  | rotate overrideDoNotRotateLogs => exact .inr ⟨_, rfl, starts _ rfl rfl⟩
  | advance place =>
    simp only [step]
    cases here : σ.calls[place]? with
    | none => exact .inl rfl
    | some c =>
      rcases call_keeps kept here orderly with waits | ⟨s, next, moves, kept⟩
      · dsimp only
        rw [waits]
        exact .inl rfl
      · dsimp only
        rw [moves]
        exact .inr ⟨_, rfl, kept⟩
  | clear =>
    simp only [step]
    split
    · exact .inr ⟨_, rfl, clear_keeps kept ‹_›⟩
    · exact .inl rfl
  | «open» stamped opening =>
    simp only [step]
    split
    · rename_i enabled
      exact .inr ⟨_, rfl, open_keeps kept enabled.1 orderly⟩
    · exact .inl rfl

/-- In a run in which rotation keeps out of the way, no stream is used that is gone, `fItemsInBuffer` is
the number of lines in `fBuffer`, and the accepted lines follow what was in the files before, in the log
files and then the buffer. -/
theorem accepted_lines_kept (logFile : Option (List Entry)) (rotated : List (String × List Entry)) (events : List Event)
    (orderly : Runs.Meets (step info) (Orderly info) events (.new logFile rotated)) :
    (∀ fault, run info events (.new logFile rotated) = .error fault → fault = .notEnabled) ∧
    ∀ σ, run info events (.new logFile rotated) = .ok σ → σ.channel.fItemsInBuffer = σ.channel.fBuffer.length ∧
      σ.channel.lines = (State.new logFile rotated).channel.lines ++ σ.channel.accepted := by
  have runs := Runs.run_keeps_or (fun _ _ kept orderly => step_keeps kept orderly) events (new_kept info logFile rotated) orderly
  constructor
  · intro fault failed
    rcases runs with impossible | ⟨σ, done, -⟩
    · exact Except.error.inj (failed.symm.trans impossible)
    · exact absurd (failed.symm.trans done) nofun
  · intro σ done
    rcases runs with impossible | ⟨σ', done', kept⟩
    · exact absurd (done.symm.trans impossible) nofun
    · obtain rfl := Except.ok.inj (done.symm.trans done')
      exact ⟨kept.counted, kept.lines⟩

def plainInfo (fItemsToBuffer : Nat) (buffers : 0 < fItemsToBuffer) : ChannelInfo where
  fItemsToBuffer := fItemsToBuffer
  buffers := buffers
  fSuppressEmptyLines := false
  fDoNotRotate := false
  fNoLogItemsWrite := false
  fSeverity := 255
  header := []

/-- `Rotate` that opens the first file. -/
def opened : List Event := [.rotate false, .advance 0, .advance 0, .open "log.1" .opens]

def buffered : List Event := opened ++ [.logAll 16 "up", .advance 0, .advance 0, .advance 0]

theorem accepted_lines_kept_buffered :
    ∃ σ, run (plainInfo 2 (by decide)) buffered (.new none []) = .ok σ ∧ σ.channel.accepted = ["up\n"] ∧
      σ.channel.fItemsInBuffer = σ.channel.fBuffer.length ∧ σ.channel.lines = [] ++ σ.channel.accepted :=
  ⟨_, rfl, rfl, (@accepted_lines_kept (plainInfo 2 (by decide)) none [] buffered (Runs.meets_of_decide (by decide))).2 _ rfl⟩

/-- A file that is not opened between the looks of `LogAll` and its section. -/
theorem rotate_fails_under_logAll :
    run (plainInfo 1 (by decide)) (opened ++ [.logAll 16 "up", .rotate false, .advance 0, .advance 0, .advance 1, .advance 1,
      .clear, .open "log.2" .openFails, .advance 0]) (.new none []) = .error .nullStream := by
  rfl

end Coast.Logging
