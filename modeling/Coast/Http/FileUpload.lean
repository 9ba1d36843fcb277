import Coast.Http.Boundaries

/-!
# File uploads

A list of files in a multipart body comes out as it was put in, byte for byte, as long as the header of
each file fits into a line.
-/

namespace Coast.Http

open Anything (Key)
open AnythingParser (assignKey)
open Regex (cstr cstr_of_plain)
open Value
open IStream (Round piece on)

variable {D : Type}

/-! ### The text -/

def isNameChar (c : UInt8) : Bool := isalnum c || c == '.'.toUInt8

structure FilePart (b : Boundary) where
  name : Bytes
  filename : Bytes
  content : Bytes
  name_chars : ∀ c ∈ name, isNameChar c = true
  filename_chars : ∀ c ∈ filename, isNameChar c = true
  apart : ¬ b.bytes <:+: content

namespace FilePart

variable {b : Boundary} (p : FilePart b)

def disposition : Bytes := ascii "form-data; name=\"" ++ p.name ++ ascii "\"; filename=\"" ++ p.filename ++ ascii "\""

def headerLine : Bytes := ascii "Content-Disposition: " ++ p.disposition

def text : Bytes := p.headerLine ++ crlf ++ crlf ++ p.content

structure Fits : Prop where
  name : p.name ≠ []
  filename : p.filename ≠ []
  line : p.headerLine.length + 2 ≤ 1024

def dispositionInfo (D : Type) : Slots D :=
  [(none, .string (ascii "form-data")), (Key.ofText (ascii "NAME"), .string p.name),
    (Key.ofText (ascii "FILENAME"), .string p.filename)]

def headerInfo (D : Type) : Slots D :=
  [(Key.ofText contentDispositionSlotname, .array (p.dispositionInfo D)),
    (Key.ofText contentTypeSlotname, .string contentTypeMultipart)]

def info (D : Type) : AnyTree D :=
  .array [(Key.ofText (ascii "header"), .array (p.headerInfo D)),
    (Key.ofText (ascii "body"), .array [(none, .string p.content)])]

/-- What the parser makes of the contents; those of a file without a name are taken for the fields of a form. -/
def bodyInfo (D : Type) : AnyTree D :=
  if p.name ≠ [] ∧ p.filename ≠ [] then .array [(none, .string p.content)]
  else if p.content ≠ [] then decode p.content .null
  else .null

def received (D : Type) : AnyTree D :=
  .array [(Key.ofText (ascii "header"), .array (p.headerInfo D)), (Key.ofText (ascii "body"), p.bodyInfo D)]

variable {p} in
theorem received_eq (fits : p.Fits) : p.received D = p.info D := by
  rw [received, bodyInfo, if_pos ⟨fits.name, fits.filename⟩]
  rfl

end FilePart

def opening (b : Boundary) : Bytes := ascii "--" ++ b.bytes ++ crlf

def closing (b : Boundary) : Bytes := ascii "--" ++ b.bytes ++ ascii "--"

def afterOpening (b : Boundary) : List (FilePart b) → Bytes
  | [] => []
  | [p] => p.text ++ crlf ++ closing b
  | p :: q :: parts => p.text ++ crlf ++ opening b ++ afterOpening b (q :: parts)

def encode (b : Boundary) (parts : List (FilePart b)) : Bytes :=
  parts.flatMap (fun p => opening b ++ p.text ++ crlf) ++ closing b

theorem encode_eq (b : Boundary) {parts : List (FilePart b)} (some : parts ≠ []) :
    encode b parts = opening b ++ afterOpening b parts := by
  induction parts with
  | nil => exact absurd rfl some
  | cons p parts ih =>
    cases parts with
    | nil => simp [encode, afterOpening]
    | cons q parts =>
      have rest := ih (List.cons_ne_nil q parts)
      unfold encode at rest ⊢
      rw [List.flatMap_cons, List.append_assoc, rest, afterOpening]
      simp only [List.append_assoc]

/-! ### The headers of a part -/

variable {b : Boundary} (p : FilePart b)

theorem notMem_name {chars : Bytes} (all : ∀ c ∈ chars, isNameChar c = true) {c : UInt8} (other : isNameChar c = false) :
    c ∉ chars := fun mem => by
  rw [all c mem] at other
  cases other

theorem notMem_disposition {c : UInt8} (other : isNameChar c = false) (first : c ∉ ascii "form-data; name=\"")
    (second : c ∉ ascii "\"; filename=\"") (last : c ∉ ascii "\"") : c ∉ p.disposition := by
  have name := notMem_name p.name_chars other
  have filename := notMem_name p.filename_chars other
  simp only [FilePart.disposition, List.mem_append, first, name, second, filename, last, or_self, not_false_eq_true]

theorem quiet_headerLine : Quiet b.bytes (p.headerLine ++ [cr]) := by
  rintro part inside - ⟨dashes, -⟩
  have shape : p.headerLine ++ [cr] = ascii "Content-Disposition: form-data; name=" ++
      '"'.toUInt8 :: (p.name ++ ascii "\"; filename=\"" ++ p.filename ++ ascii "\"" ++ [cr]) := rfl
  have name := notMem_name p.name_chars (c := '-'.toUInt8) (by decide)
  have filename := notMem_name p.filename_chars (c := '-'.toUInt8) (by decide)
  rw [shape] at inside
  obtain first | second := infix_split (dashes.trans inside) (by decide)
  · exact absurd first (by decide +kernel)
  · have dash : '-'.toUInt8 ∈ p.name ++ ascii "\"; filename=\"" ++ p.filename ++ ascii "\"" ++ [cr] :=
      second.subset List.mem_cons_self
    simp only [List.mem_append] at dash
    obtain (((mem | mem) | mem) | mem) | mem := dash
    · exact name mem
    · exact absurd mem (by decide)
    · exact filename mem
    · exact absurd mem (by decide)
    · exact absurd mem (by decide)

theorem tokens_disposition :
    tokens p.disposition ';'.toUInt8 = [ascii "form-data", ascii " name=\"" ++ p.name ++ ascii "\"",
      ascii " filename=\"" ++ p.filename ++ ascii "\""] := by
  have whole : cstr p.disposition = p.disposition :=
    cstr_of_plain (notMem_disposition p (by decide) (by decide) (by decide) (by decide))
  have shape : p.disposition = [';'.toUInt8].intercalate [ascii "form-data", ascii " name=\"" ++ p.name ++ ascii "\"",
      ascii " filename=\"" ++ p.filename ++ ascii "\""] := by
    have first : ascii "form-data; name=\"" = ascii "form-data" ++ ([';'.toUInt8] ++ ascii " name=\"") := rfl
    have second : ascii "\"; filename=\"" = ascii "\"" ++ ([';'.toUInt8] ++ ascii " filename=\"") := rfl
    simp only [FilePart.disposition, first, second, List.intercalate, List.intersperse, List.flatten_cons, List.flatten_nil,
      List.append_assoc, List.append_nil]
  have free : ∀ token ∈ [ascii "form-data", ascii " name=\"" ++ p.name ++ ascii "\"",
      ascii " filename=\"" ++ p.filename ++ ascii "\""], ';'.toUInt8 ∉ token := by
    have name := notMem_name p.name_chars (c := ';'.toUInt8) (by decide)
    have filename := notMem_name p.filename_chars (c := ';'.toUInt8) (by decide)
    intro token mem within
    simp only [List.mem_cons, List.not_mem_nil, or_false] at mem
    obtain rfl | rfl | rfl := mem
    · exact absurd within (by decide)
    · obtain (within | within) | within := List.mem_append.mp within |>.imp_left List.mem_append.mp
      · exact absurd within (by decide)
      · exact name within
      · exact absurd within (by decide)
    · obtain (within | within) | within := List.mem_append.mp within |>.imp_left List.mem_append.mp
      · exact absurd within (by decide)
      · exact filename within
      · exact absurd within (by decide)
  have full : ¬ (cstr p.disposition).isEmpty = true := by
    rw [whole]
    exact Bool.false_ne_true
  rw [tokens, if_neg full, whole, shape, List.splitOn_intercalate _ free (List.cons_ne_nil _ _)]

theorem pair_quoted {key : Bytes} (free : '='.toUInt8 ∉ key) (value : Bytes) (any : AnyTree D) (norm : NormalizeTag) :
    pair (key ++ '='.toUInt8 :: '"'.toUInt8 :: (value ++ ['"'.toUInt8])) '='.toUInt8 any norm =
      appendValueTo any (normalize key norm) value := by
  have quoted : unquote ('"'.toUInt8 :: (value ++ ['"'.toUInt8])) = value := by
    rw [unquote, if_pos (.inl rfl), ← List.cons_append, List.dropLast_concat, List.tail_cons]
  rw [pair_key free, quoted]

theorem split_disposition :
    split p.disposition ';'.toUInt8 (.null : AnyTree D) '='.toUInt8 .eUpshift = .array (p.dispositionInfo D) := by
  have name : cstr p.name = p.name := cstr_of_plain (notMem_name p.name_chars (by decide))
  have filename : cstr p.filename = p.filename := cstr_of_plain (notMem_name p.filename_chars (by decide))
  have first : pair (trimBlanks (ascii "form-data")) '='.toUInt8 (.null : AnyTree D) .eUpshift =
      .array [(none, .string (ascii "form-data"))] := rfl
  have second : trimBlanks (ascii " name=\"" ++ p.name ++ ascii "\"") =
      ascii "name" ++ '='.toUInt8 :: '"'.toUInt8 :: (p.name ++ ['"'.toUInt8]) := rfl
  have third : trimBlanks (ascii " filename=\"" ++ p.filename ++ ascii "\"") =
      ascii "filename" ++ '='.toUInt8 :: '"'.toUInt8 :: (p.filename ++ ['"'.toUInt8]) := rfl
  rw [split, tokens_disposition, List.foldl_cons, List.foldl_cons, List.foldl_cons, List.foldl_nil, first, second, third,
    pair_quoted (by decide), pair_quoted (by decide), appendValueTo, appendValueTo, name, filename]
  rfl

theorem strChr_first {c : UInt8} {before : Bytes} (free : c ∉ before) (rest : Bytes) :
    strChr (before ++ c :: rest) c 0 = some before.length := by
  have first : (before ++ c :: rest).findIdx? (fun d => d == c) = some before.length := by
    have none : before.findIdx? (fun d => d == c) = Option.none := by
      rw [List.findIdx?_eq_none_iff]
      intro d mem
      rw [beq_eq_false_iff_ne]
      rintro rfl
      exact free mem
    rw [List.findIdx?_append, none, List.findIdx?_cons, beq_self_eq_true]
    simp
  rw [strChr, List.drop_zero, first]
  rfl

set_option maxRecDepth 2000 in
/-- The pattern is spelled out first, since its bytes are looked up one by one. -/
theorem multivalue_disposition : multivalue contentDispositionSlotname = false := by
  have pattern : splitFieldsRegularExpression = ascii _ ++ ascii _ := ascii_append _ _
  rw [ascii_ofList, ascii_ofList] at pattern
  simp only [List.map_cons, List.map_nil, Char.reduceToNat, UInt8.reduceOfNat, List.cons_append, List.nil_append] at pattern
  have unfolded : multivalue = multivalue := rfl
  conv at unfolded => rhs; delta multivalue
  rw [unfolded, pattern]
  decide +kernel

theorem storeKeyValue_disposition (strValue : Bytes) :
    storeKeyValue ([] : Slots D) contentDispositionSlotname strValue =
      [(Key.ofText contentDispositionSlotname, split strValue ';'.toUInt8 .null '='.toUInt8 .eUpshift)] := by
  rw [storeKeyValue, multivalue_disposition, if_neg Bool.false_ne_true, if_pos (by decide)]
  rfl

theorem splitAndAdd_headerLine :
    splitAndAddHeaderLine ([] : Slots D) p.headerLine .eUpshift =
      [(Key.ofText contentDispositionSlotname, split p.disposition ';'.toUInt8 .null '='.toUInt8 .eUpshift)] := by
  have colon : ascii "Content-Disposition: " = ascii "Content-Disposition" ++ [':'.toUInt8, ' '.toUInt8] := rfl
  have found : strChr p.headerLine ':'.toUInt8 0 = some 19 := by
    rw [FilePart.headerLine, colon, List.append_assoc, List.cons_append, strChr_first (by decide)]
    rfl
  have key : normalize (p.headerLine.take 19) .eUpshift = contentDispositionSlotname := rfl
  have value : trimBlanks (p.headerLine.drop 20) = p.disposition := rfl
  have full : (p.headerLine.drop 20).isEmpty = false := rfl
  unfold splitAndAddHeaderLine
  rw [found]
  dsimp only
  rw [key, value, full, if_neg Bool.false_ne_true, if_neg (by decide), storeKeyValue_disposition]

/-! ### The body of a part -/

theorem getLineFromStream_line {line : Bytes} (free : lf ∉ line) (maxlinelen : Nat) (fits : line.length + 1 ≤ maxlinelen) (rest : Bytes) :
    getLineFromStream (on (line ++ lf :: rest)) maxlinelen = .ok (line ++ [lf], on rest) := by
  have read := appendUntil_line free (Nat.zero_lt_of_lt fits) (Nat.le_of_succ_le fits) rest
  have next : appendNext line (on (lf :: rest)) = (line ++ [lf], on rest) := rfl
  unfold getLineFromStream
  rw [IStream.good_on, if_pos rfl, read]
  dsimp only
  rw [next]
  dsimp only
  rw [if_neg (by rw [List.length_append]; exact Nat.not_lt.mpr fits)]

theorem getLineFromStream_shorter {input is : IStream UInt8} {maxlinelen : Nat} {line : Bytes} (good : input.good = true)
    (read : getLineFromStream input maxlinelen = .ok (line, is)) (still : is.good = true) : is.rest.length < input.rest.length := by
  have appended : (∃ is, (appendUntil input maxlinelen lf).2.peek = (none, is) ∧ is.good = false) ∨
      ∃ c rest, (appendUntil input maxlinelen lf).2 = on (c :: rest) ∧ rest.length < input.rest.length := by
    rw [IStream.eq_on good]
    cases maxlinelen with
    | zero =>
      cases shape : input.rest with
      | nil => exact .inl ⟨_, rfl, rfl⟩
      | cons c rest => exact .inr ⟨c, rest, rfl, Nat.lt_succ_self _⟩
    | succ n =>
      obtain ⟨-, is, is', read, peek, bad, -⟩ | ⟨rest, stop, read⟩ | ⟨-, c, rest, -, stop, read⟩ :=
        appendUntil_on (n + 1) (Nat.succ_pos n) lf input.rest
      · exact .inl ⟨is', by rw [read, peek], bad⟩
      all_goals
        have parts := congrArg List.length stop
        rw [List.length_append, List.length_cons] at parts
        exact .inr ⟨_, rest, by rw [read], by rw [IStream.rest_on]; omega⟩
  unfold getLineFromStream at read
  rw [good, if_pos rfl] at read
  dsimp only at read
  split at read
  · cases read
  · have same := congrArg Prod.snd (Except.ok.inj read)
    dsimp only at same
    obtain ⟨is', peek, bad⟩ | ⟨c, rest, shape, shorter⟩ := appended
    · rw [appendNext, peek] at same
      rw [← same, bad] at still
      cases still
    · rw [shape] at same
      rw [← same]
      exact shorter

theorem parseLine_advances (maxlinelen maxheaderlen : Nat) :
    IStream.Advances (MIMEHeader.parseLine (D := D) maxlinelen maxheaderlen) := by
  intro h h' is is' good next still
  unfold MIMEHeader.parseLine at next
  split at next
  · cases next
  · rename_i line is'' read
    dsimp only at next
    split at next
    · cases next
    · split at next
      · cases next
      · cases next
        exact getLineFromStream_shorter good read still

theorem trimENDL_crlf (line : Bytes) : trimENDL (line ++ crlf) = line := by
  rw [trimENDL, if_pos (List.isSuffixOf_iff_suffix.mpr (List.suffix_append line crlf)), List.length_append]
  exact List.take_left

theorem trimENDL_cr {line : Bytes} : trimENDL (line ++ [cr]) = line := by
  have other : ¬ crlf.isSuffixOf (line ++ [cr]) = true := by
    rw [List.isSuffixOf_iff_suffix]
    rintro ⟨front, same⟩
    have ends : front ++ [cr] ++ [lf] = line ++ [cr] := by
      rw [List.append_assoc]
      exact same
    exact absurd (List.append_inj' ends rfl).2 (by decide)
  rw [trimENDL, if_neg other, if_pos (.inl List.getLast?_concat), List.dropLast_concat]

theorem headerLine_free : lf ∉ p.headerLine := by
  have value := notMem_disposition p (c := lf) (by decide) (by decide) (by decide) (by decide)
  simp only [FilePart.headerLine, List.mem_append, value, or_false]
  decide

theorem parseHeaders_text (fits : p.headerLine.length + 2 ≤ 1024) :
    MIMEHeader.parseHeaders {} (on p.text) 1024 4096 =
      .ok (({ fHeader := splitAndAddHeaderLine ([] : Slots D) p.headerLine .eUpshift,
              fParsedHeaderLength := p.headerLine.length + 2 + 2 } : MIMEHeader D), on p.content) := by
  have free : lf ∉ p.headerLine ++ [cr] := by
    rw [List.mem_append]
    exact not_or.mpr ⟨headerLine_free p, by decide⟩
  have some : (p.headerLine).isEmpty = false := rfl
  have shape : p.text = p.headerLine ++ [cr] ++ lf :: ([cr] ++ lf :: p.content) := by
    simp [FilePart.text, crlf]
  have first : MIMEHeader.parseLine 1024 4096 ({} : MIMEHeader D) (on p.text) =
      .again { fHeader := splitAndAddHeaderLine [] p.headerLine .eUpshift, fParsedHeaderLength := p.headerLine.length + 2 }
        (on ([cr] ++ lf :: p.content)) := by
    have line := getLineFromStream_line free 1024
      (by rw [List.length_append]; exact fits) ([cr] ++ lf :: p.content)
    have whole : p.headerLine ++ [cr] ++ [lf] = p.headerLine ++ crlf := by simp [crlf]
    have length : (p.headerLine ++ crlf).length = p.headerLine.length + 2 := List.length_append
    rw [← shape, whole] at line
    unfold MIMEHeader.parseLine
    rw [line]
    dsimp only
    rw [trimENDL_crlf, some, if_neg Bool.false_ne_true, length, Nat.zero_add, if_neg (by omega)]
  have second : ∀ h : MIMEHeader D, MIMEHeader.parseLine 1024 4096 h (on ([cr] ++ lf :: p.content)) =
      .done (.ok { h with fParsedHeaderLength := h.fParsedHeaderLength + 2 }) (on p.content) := by
    intro h
    have line := getLineFromStream_line (List.not_mem_cons_of_ne_of_not_mem (by decide) List.not_mem_nil : lf ∉ [cr]) 1024 (by decide) p.content
    unfold MIMEHeader.parseLine
    rw [line]
    rfl
  rw [MIMEHeader.parseHeaders, IStream.loop_again (parseLine_advances 1024 4096) (IStream.good_on _) first,
    IStream.loop_done (IStream.good_on _) (second _)]

/-! ### A part -/

section Parts

variable (env : Environment D) (importAny : IStream UInt8 → Option (AnyTree D) × IStream UInt8)

theorem read_cases (text : Bytes) :
    (on text).read 4096 = (text.take 4096, on (text.drop 4096)) ∧ 4096 ≤ text.length ∨
      (on text).read 4096 = (text, ⟨[], true, true⟩) := by
  by_cases short : text.length < 4096
  · exact .inr (IStream.read_on_short short)
  · exact .inl ⟨IStream.read_on (Nat.not_lt.mp short), Nat.not_lt.mp short⟩

theorem readBlock_advances : IStream.Advances readBlock := by
  intro s s' is is' good next still
  rw [IStream.eq_on good] at next ⊢
  rw [readBlock] at next
  obtain ⟨read, enough⟩ | read := read_cases is.rest
  · rw [read] at next
    cases next
    rw [IStream.rest_on, IStream.rest_on, List.length_drop]
    omega
  · rw [read] at next
    cases next
    cases still

theorem readAll_on (text : Bytes) : ∃ is, readAll [] (on text) = (text, is) ∧ is.eofbit = true := by
  have whole := @IStream.loop_induct _ _ _ _ readBlock_advances
    (fun s is => s ++ is.rest = text ∧ (is.good = false → is.rest = [] ∧ is.eofbit = true))
    (fun left => ∃ is, left = .again text is ∧ is.eofbit = true)
    (fun s is inv bad => ?_) (fun s is r is' _ _ left => ?_) (fun s s' is is' inv good next => ?_) [] (on text) ⟨rfl, nofun⟩
  · obtain ⟨is, left, eof⟩ := whole
    exact ⟨is, by rw [readAll, left], eof⟩
  · obtain ⟨empty, eof⟩ := inv.2 bad
    have all := inv.1
    rw [empty, List.append_nil] at all
    exact ⟨is, by rw [all], eof⟩
  · exact nomatch r
  · have all := inv.1
    rw [IStream.eq_on good, readBlock] at next
    obtain ⟨read, -⟩ | read := read_cases is.rest
    · rw [read] at next
      cases next
      exact ⟨by rw [List.append_assoc, IStream.rest_on, List.take_append_drop, all], nofun⟩
    · rw [read] at next
      cases next
      exact ⟨by rw [List.append_nil, all], fun _ => ⟨rfl, rfl⟩⟩

theorem withContentType_headerInfo (n : Nat) :
    HTTPPostRequestBodyParser.withContentType
        ({ fHeader := splitAndAddHeaderLine [] p.headerLine .eUpshift, fParsedHeaderLength := n } : MIMEHeader D) =
      { fHeader := p.headerInfo D, fParsedHeaderLength := n } := by
  rw [splitAndAdd_headerLine, split_disposition]
  rfl

theorem formNames_headerInfo (n : Nat) :
    formNames env ({ fHeader := p.headerInfo D, fParsedHeaderLength := n } : MIMEHeader D) = (p.name, p.filename) := rfl

theorem doParseBody_part (n : Nat) :
    ∃ is part, HTTPPostRequestBodyParser.doParseBody env importAny
        { fHeader := { fHeader := p.headerInfo D, fParsedHeaderLength := n } } (on p.content) = (true, part, is) ∧
      part.fContent = p.bodyInfo D := by
  obtain ⟨is, read, eof⟩ := readAll_on p.content
  have contenttype : ((MIMEHeader.lookup ({ fHeader := p.headerInfo D, fParsedHeaderLength := n } : MIMEHeader D)
      contentTypeSlotname).map (asString env)) = some contentTypeMultipart := rfl
  have other : indexOf contentTypeMultipart contentTypeAnything = none := by decide
  have contentLength : (MIMEHeader.getContentLength ({ fHeader := p.headerInfo D, fParsedHeaderLength := n } : MIMEHeader D)) = -1 :=
    rfl
  refine ⟨is, ⟨⟨p.headerInfo D, n, .eUpshift⟩, p.bodyInfo D, p.content⟩, ?_, rfl⟩
  unfold HTTPPostRequestBodyParser.doParseBody
  dsimp only
  rw [contenttype, Option.bind_some, other, contentLength, if_neg (by decide), if_neg (by decide), read]
  dsimp only
  rw [HTTPPostRequestBodyParser.storeBody, formNames_headerInfo, eof, FilePart.bodyInfo]
  dsimp only
  split
  · rfl
  · split <;> rfl

theorem partInfo_ok {parse : HTTPPostRequestBodyParser.Parse D} {body : Bytes} {h : MIMEHeader D} {is is' : IStream UInt8}
    {ok : Bool} {part : HTTPPostRequestBodyParser D} (headers : MIMEHeader.parseHeaders {} (on body) 1024 4096 = .ok (h, is))
    (parsed : parse { fHeader := HTTPPostRequestBodyParser.withContentType h } is = .ok (ok, part, is')) :
    HTTPPostRequestBodyParser.partInfo parse body = .ok (.array (assignKey (assignKey [] (ascii "header")
      (ofSlots (HTTPPostRequestBodyParser.withContentType h).fHeader)) (ascii "body") part.fContent)) := by
  unfold HTTPPostRequestBodyParser.partInfo
  rw [headers]
  dsimp only
  rw [parsed]

theorem partInfo_text (fits : p.headerLine.length + 2 ≤ 1024) :
    HTTPPostRequestBodyParser.partInfo (HTTPPostRequestBodyParser.parse env importAny) p.text = .ok (p.received D) := by
  obtain ⟨is, part, done, content⟩ := doParseBody_part p env importAny (p.headerLine.length + 2 + 2)
  have single : MIMEHeader.isMultiPart env
      ({ fHeader := p.headerInfo D, fParsedHeaderLength := p.headerLine.length + 2 + 2 } : MIMEHeader D) = false := rfl
  have given := @withContentType_headerInfo D b p (p.headerLine.length + 2 + 2)
  have parsed : HTTPPostRequestBodyParser.parse env importAny
      { fHeader := { fHeader := p.headerInfo D, fParsedHeaderLength := p.headerLine.length + 2 + 2 } } (on p.content) =
        .ok (true, part, is) := by
    rw [HTTPPostRequestBodyParser.parse, HTTPPostRequestBodyParser.parseNested, single, if_neg Bool.false_ne_true, done]
  rw [← given] at parsed
  rw [partInfo_ok (parseHeaders_text p fits) parsed, given, content]
  rfl

variable {p}

theorem quiet_text : Quiet b.bytes (p.text ++ [cr]) := by
  have shape : p.text ++ [cr] = p.headerLine ++ [cr] ++ lf :: ([cr] ++ lf :: (p.content ++ [cr])) := by
    simp [FilePart.text, crlf]
  have empty : Quiet b.bytes [cr] := fun part inside _ both =>
    absurd ((both.1.trans inside).subset (List.mem_cons_self : '-'.toUInt8 ∈ ascii "--")) (by decide)
  have content : Quiet b.bytes (p.content ++ [cr]) := by
    rintro part inside - ⟨-, boundary⟩
    have free : cr ∉ b.bytes := b.notMem_bytes (by decide) (by decide)
    obtain within | within := infix_split (boundary.trans inside) free
    · exact p.apart within
    · exact b.some (List.append_eq_nil_iff.mp (List.infix_nil.mp within)).2
  rw [shape]
  exact quiet_lines (quiet_headerLine p) (quiet_lines empty content)

theorem notMem_dashes_bytes : lf ∉ ascii "--" ++ b.bytes := by
  rw [List.mem_append, not_or]
  exact ⟨by decide, b.notMem_bytes (by decide) (by decide)⟩

theorem readPiece_opening (short : b.bytes.length ≤ 4092) (rest : Bytes) :
    readPiece (on (opening b ++ rest)) = (ascii "--" ++ b.bytes ++ [cr], true, on rest) := by
  have shape : opening b ++ rest = ascii "--" ++ b.bytes ++ [cr] ++ lf :: rest := by
    simp [opening, crlf]
  have free : lf ∉ ascii "--" ++ b.bytes ++ [cr] := by
    rw [List.mem_append, not_or]
    exact ⟨notMem_dashes_bytes, by decide⟩
  have length : (ascii "--" ++ b.bytes ++ [cr]).length = b.bytes.length + 2 + 1 := by
    rw [List.length_append, b.length_line]
    rfl
  rw [shape]
  exact readPiece_line free (by omega)

theorem readPiece_closing (short : b.bytes.length ≤ 4092) (behind : Bytes) :
    ∃ more newLine is, readPiece (on (closing b ++ behind)) = (closing b ++ more, newLine, is) ∧
      more ++ (if newLine then [lf] else []) ++ is.rest = behind := by
  have free : lf ∉ closing b := by
    rw [closing, List.mem_append, not_or]
    exact ⟨notMem_dashes_bytes, by decide⟩
  have length : (closing b).length = b.bytes.length + 2 + 2 := by
    rw [closing, List.length_append, b.length_line]
    rfl
  have isPiece := IStream.piece_append 4096 free (by omega) behind
  have reads := readPiece_on (closing b ++ behind)
  rw [isPiece] at reads
  obtain ⟨whole, is, read, -, empty⟩ | ⟨rest, stop, read⟩ | ⟨-, c, rest, -, stop, read⟩ := reads
  · refine ⟨_, _, is, read, ?_⟩
    rw [if_neg Bool.false_ne_true, empty, List.append_nil, List.append_nil]
    exact (List.append_cancel_left whole).symm
  · refine ⟨_, _, _, read, ?_⟩
    rw [List.append_assoc] at stop
    rw [if_pos rfl, IStream.rest_on, List.append_assoc]
    exact (List.append_cancel_left stop).symm
  · refine ⟨_, _, _, read, ?_⟩
    rw [List.append_assoc] at stop
    rw [if_neg Bool.false_ne_true, IStream.rest_on, List.append_nil]
    exact (List.append_cancel_left stop).symm

theorem doReadToBoundary_text (short : b.bytes.length ≤ 4092) (unparsed : Bytes) {opened : Bytes}
    (opens : opened = [] ∨ opened = opening b) {behind rest : Bytes} {newLine : Bool} {is : IStream UInt8}
    (read : readPiece (on behind) = (ascii "--" ++ b.bytes ++ rest, newLine, is)) {closing : Bool}
    (ends : closing = true ∧ (ascii "--" <+: rest) ∨ closing = false ∧ '-'.toUInt8 ∉ rest) :
    doReadToBoundary (on (opened ++ (p.text ++ crlf ++ behind))) b.bytes [] unparsed =
      (closing, ⟨p.text, true, unparsed ++ (opened ++ (p.text ++ crlf)) ++ (ascii "--" ++ b.bytes ++ rest) ++
        if newLine then [lf] else []⟩, is) := by
  have shape : p.text ++ crlf ++ behind = p.text ++ [cr] ++ lf :: behind := by
    simp [crlf]
  have part := fun (s : Reading) none => Boundary.loop_part (s := s) quiet_text
    (List.append_ne_nil_of_right_ne_nil p.text (List.cons_ne_nil cr []) : p.text ++ [cr] ≠ [])
    (fun first => absurd (Option.some.inj first : 'C'.toUInt8 = lf) (by decide)) none read ends
  unfold doReadToBoundary
  rw [shape]
  obtain rfl | rfl := opens
  · rw [List.nil_append, part _ rfl, trimENDL_cr]
    simp [crlf]
  · have first := Boundary.readLine_opening (s := ⟨[], false, unparsed⟩) (readPiece_opening short (p.text ++ [cr] ++ lf :: behind)) rfl
    rw [IStream.loop_again (readLine_advances b.bytes) (IStream.good_on _) first, part _ rfl, trimENDL_cr]
    simp [crlf, opening]

theorem readPart_text (fits : p.headerLine.length + 2 ≤ 1024) (parser : HTTPPostRequestBodyParser D) {input is : IStream UInt8} {closing : Bool}
    {unparsed : Bytes} (read : doReadToBoundary input b.bytes [] parser.fUnparsedContent = (closing, ⟨p.text, true, unparsed⟩, is)) :
    HTTPPostRequestBodyParser.readPart (HTTPPostRequestBodyParser.parse env importAny) b.bytes parser input =
      let parser : HTTPPostRequestBodyParser D :=
        { parser with fContent := append parser.fContent (p.received D), fUnparsedContent := unparsed }
      if closing then .done (.ok parser) is else .again parser is := by
  have some : p.text ≠ [] := List.cons_ne_nil _ _
  unfold HTTPPostRequestBodyParser.readPart
  rw [read]
  dsimp only
  rw [if_neg some, partInfo_text p env importAny fits]

theorem readPart_advances (parse : HTTPPostRequestBodyParser.Parse D) (bound : Bytes) :
    IStream.Advances (HTTPPostRequestBodyParser.readPart parse bound) := by
  intro parser parser' is is' good next still
  have stays : ∀ {endReached : Bool} {p : HTTPPostRequestBodyParser D} {is'' : IStream UInt8},
      (if endReached then (Round.done (.ok p) is'' : Round UInt8 (HTTPPostRequestBodyParser D) (Except HeaderException (HTTPPostRequestBodyParser D)))
        else .again p is'') = .again parser' is' → is'' = is' := by
    intro endReached p is'' same
    cases endReached <;> cases same
    rfl
  unfold HTTPPostRequestBodyParser.readPart at next
  split at next
  rename_i endReached s is'' read
  dsimp only at next
  have same : is'' = is' := by
    split at next
    · exact stays next
    · split at next
      · exact stays next
      · exact stays next
      · cases next
  subst same
  exact doReadToBoundary_shorter read still

theorem loop_parts (short : b.bytes.length ≤ 4092) {parts : List (FilePart b)} (some : parts ≠ []) (fits : ∀ p ∈ parts, p.headerLine.length + 2 ≤ 1024)
    (parser : HTTPPostRequestBodyParser D) {opened : Bytes} (opens : opened = [] ∨ opened = opening b) (behind : Bytes) :
    ∃ unparsed is, IStream.loop (HTTPPostRequestBodyParser.readPart (HTTPPostRequestBodyParser.parse env importAny) b.bytes)
        parser (on (opened ++ afterOpening b parts ++ behind)) =
      .done (.ok { parser with
        fContent := .array (slotsOf parser.fContent ++ parts.map fun p => (none, p.received D))
        fUnparsedContent := parser.fUnparsedContent ++ unparsed }) is ∧
      opened ++ afterOpening b parts <+: unparsed ∧ unparsed ++ is.rest = opened ++ afterOpening b parts ++ behind := by
  induction parts generalizing parser opened with
  | nil => exact absurd rfl some
  | cons p parts ih =>
    have fit := fits p List.mem_cons_self
    cases parts with
    | nil =>
      obtain ⟨more, newLine, is, read, left⟩ := readPiece_closing short behind
      have ends : true = true ∧ (ascii "--" <+: ascii "--" ++ more) ∨ true = false ∧ '-'.toUInt8 ∉ ascii "--" ++ more :=
        .inl ⟨rfl, List.prefix_append _ _⟩
      have shape : opened ++ afterOpening b [p] ++ behind = opened ++ (p.text ++ crlf ++ (closing b ++ behind)) := by
        simp only [afterOpening, List.append_assoc]
      rw [closing, List.append_assoc _ _ more] at read
      have body := @doReadToBoundary_text _ p short parser.fUnparsedContent _ opens _ _ _ _ read _ ends
      have round := readPart_text env importAny fit parser body
      rw [shape]
      refine ⟨opened ++ (p.text ++ crlf) ++ (closing b ++ more) ++ if newLine then [lf] else [], is, ?_, ?_, ?_⟩
      · refine (IStream.loop_done (IStream.good_on _) round).trans ?_
        simp only [append, closing, List.map_cons, List.map_nil, List.append_assoc]
      · exact ⟨more ++ if newLine then [lf] else [], by simp only [afterOpening, List.append_assoc]⟩
      · rw [← left]
        simp only [List.append_assoc]
    | cons q parts =>
      have read := readPiece_opening short (afterOpening b (q :: parts) ++ behind)
      have ends : false = true ∧ (ascii "--" <+: [cr]) ∨ false = false ∧ '-'.toUInt8 ∉ [cr] := .inr ⟨rfl, by decide⟩
      have shape : opened ++ afterOpening b (p :: q :: parts) ++ behind =
          opened ++ (p.text ++ crlf ++ (opening b ++ (afterOpening b (q :: parts) ++ behind))) := by
        simp only [afterOpening, List.append_assoc]
      have body := @doReadToBoundary_text _ p short parser.fUnparsedContent _ opens _ _ _ _ read _ ends
      have round := readPart_text env importAny fit parser body
      rw [shape]
      obtain ⟨unparsed, is, done, begins, left⟩ := ih (List.cons_ne_nil q parts) (fun r mem => fits r (List.mem_cons_of_mem p mem))
        { parser with
          fContent := append parser.fContent (p.received D)
          fUnparsedContent := parser.fUnparsedContent ++ (opened ++ (p.text ++ crlf)) ++ (ascii "--" ++ b.bytes ++ [cr]) ++ [lf] }
        (.inl rfl)
      rw [List.nil_append] at done begins left
      refine ⟨opened ++ (p.text ++ crlf) ++ opening b ++ unparsed, is, ?_, ?_, ?_⟩
      · refine (IStream.loop_again (readPart_advances _ b.bytes) (IStream.good_on _) round).trans (done.trans ?_)
        simp only [append, opening, crlf, slotsOf, List.map_cons, List.append_assoc, List.cons_append, List.nil_append]
      · rw [afterOpening, ← List.append_assoc, ← List.append_assoc]
        exact (List.prefix_append_right_inj _).mpr begins
      · rw [List.append_assoc, left]
        simp only [List.append_assoc]

/-- The files come out of the body in front of some text, and all that was consumed is in the unparsed content. -/
def Arrives (header : MIMEHeader D) (b : Boundary) (parts : List (FilePart b)) (behind : Bytes) : Prop :=
  ∃ parser is, HTTPPostRequestBodyParser.doParseMultiPart (HTTPPostRequestBodyParser.parse env importAny) { fHeader := header }
      (on (encode b parts ++ behind)) b.bytes = .ok (true, parser, is) ∧
    parser.fContent = .array (parts.map fun p => (none, p.info D)) ∧
    encode b parts <+: parser.fUnparsedContent ∧ parser.fUnparsedContent ++ is.rest = encode b parts ++ behind

theorem doParseMultiPart_received (header : MIMEHeader D) (b : Boundary) (short : b.bytes.length ≤ 4092) {parts : List (FilePart b)}
    (some : parts ≠ []) (fits : ∀ p ∈ parts, p.headerLine.length + 2 ≤ 1024) (behind : Bytes) :
    ∃ parser is, HTTPPostRequestBodyParser.doParseMultiPart (HTTPPostRequestBodyParser.parse env importAny) { fHeader := header }
        (on (encode b parts ++ behind)) b.bytes = .ok (true, parser, is) ∧
      parser.fContent = .array (parts.map fun p => (none, p.received D)) ∧
      encode b parts <+: parser.fUnparsedContent ∧ parser.fUnparsedContent ++ is.rest = encode b parts ++ behind := by
  obtain ⟨unparsed, is, done, begins, left⟩ :=
    loop_parts env importAny short some fits { fHeader := header } (.inr rfl) behind
  rw [← encode_eq b some] at done begins left
  refine ⟨⟨header, .array ([] ++ parts.map fun p => (none, p.received D)), [] ++ unparsed⟩, is, ?_, rfl, begins, left⟩
  unfold HTTPPostRequestBodyParser.doParseMultiPart
  rw [done]
  rfl

/-- A list of files arrives byte for byte. -/
theorem doParseMultiPart_upload (header : MIMEHeader D) (b : Boundary) (short : b.bytes.length ≤ 4092) {parts : List (FilePart b)}
    (some : parts ≠ []) (fits : ∀ p ∈ parts, p.Fits) (behind : Bytes) : Arrives env importAny header b parts behind := by
  obtain ⟨parser, is, done, content, unparsed⟩ :=
    doParseMultiPart_received env importAny header b short some (fun p mem => (fits p mem).line) behind
  have same : parts.map (fun p => ((none : Option Key), p.received D)) = parts.map fun p => (none, p.info D) :=
    List.map_congr_left fun p mem => by rw [FilePart.received_eq (fits p mem)]
  exact ⟨parser, is, done, content.trans (congrArg _ same), unparsed⟩

/-! ### What does not arrive -/

theorem partInfo_long (long : 1024 < p.headerLine.length + 2) (parse : HTTPPostRequestBodyParser.Parse D) :
    ∃ e, HTTPPostRequestBodyParser.partInfo parse p.text = .error (.lineSizeExceeded e) := by
  have shape : p.text = p.headerLine ++ [cr] ++ lf :: ([cr] ++ lf :: p.content) := by
    simp [FilePart.text, crlf]
  have free : lf ∉ p.headerLine ++ [cr] := by
    rw [List.mem_append, not_or]
    exact ⟨headerLine_free p, by decide⟩
  have length : (p.headerLine ++ [cr]).length = p.headerLine.length + 1 := List.length_append
  -- the piece is full, and there is more
  have full : ∃ c rest, (piece 1024 lf p.text).length = 1024 ∧
      appendUntil (on p.text) 1024 lf = (piece 1024 lf p.text, on (c :: rest)) := by
    have stop : ∀ {d rest}, p.text = piece 1024 lf p.text ++ d :: rest → d = lf → 1024 ≤ (piece 1024 lf p.text).length := by
      intro d rest stop same
      subst same
      have cut := cut_cases (shape.symm.trans stop) IStream.delim_notMem_piece
      obtain ⟨whole, -⟩ | ⟨later, longer, -⟩ := cut
      · rw [← whole, length]
        omega
      · exact absurd (longer ▸ List.mem_append_right _ List.mem_cons_self) free
    obtain ⟨whole, -⟩ | ⟨rest, cut, read⟩ | ⟨full, c, rest, -, -, read⟩ := appendUntil_on 1024 (by decide) lf p.text
    · have within : lf ∈ piece 1024 lf p.text := by
        rw [← whole, shape]
        exact List.mem_append_right _ List.mem_cons_self
      exact absurd within IStream.delim_notMem_piece
    · exact ⟨lf, rest, Nat.le_antisymm IStream.piece_length_le (stop cut rfl), read⟩
    · exact ⟨c, rest, full, read⟩
  obtain ⟨c, rest, full, read⟩ := full
  have next : appendNext (piece 1024 lf p.text) (on (c :: rest)) = (piece 1024 lf p.text ++ [c], on rest) := rfl
  have line : ∃ e, getLineFromStream (on p.text) 1024 = .error (.lineSizeExceeded e) := by
    unfold getLineFromStream
    rw [IStream.good_on, if_pos rfl, read]
    dsimp only
    rw [next]
    dsimp only
    rw [List.length_append, full, List.length_singleton, if_pos (by decide)]
    exact ⟨_, rfl⟩
  obtain ⟨e, fails⟩ := line
  refine ⟨e, ?_⟩
  have left : MIMEHeader.parseLine 1024 4096 ({} : MIMEHeader D) (on p.text) = .done (.error (.lineSizeExceeded e)) (on p.text) := by
    rw [MIMEHeader.parseLine, fails]
  rw [HTTPPostRequestBodyParser.partInfo, MIMEHeader.parseHeaders, IStream.loop_done (IStream.good_on _) left]

theorem not_arrives_long_line (short : b.bytes.length ≤ 4092) (long : 1024 < p.headerLine.length + 2) (header : MIMEHeader D) :
    ¬ Arrives env importAny header b [p] [] := by
  rintro ⟨parser, is, done, -⟩
  obtain ⟨more, newLine, is', read, -⟩ := readPiece_closing short []
  have ends : true = true ∧ (ascii "--" <+: ascii "--" ++ more) ∨ true = false ∧ '-'.toUInt8 ∉ ascii "--" ++ more :=
    .inl ⟨rfl, List.prefix_append _ _⟩
  have shape : encode b [p] ++ [] = opening b ++ (p.text ++ crlf ++ (closing b ++ [])) := by
    simp [encode]
  obtain ⟨e, fails⟩ := partInfo_long long (HTTPPostRequestBodyParser.parse env importAny)
  rw [closing, List.append_assoc _ _ more] at read
  have body : doReadToBoundary (on (opening b ++ (p.text ++ crlf ++ (closing b ++ [])))) b.bytes []
      (HTTPPostRequestBodyParser.mk header .null []).fUnparsedContent = (true, ⟨p.text, true, _⟩, is') :=
    doReadToBoundary_text short [] (.inr rfl) read ends
  have text : p.text ≠ [] := List.cons_ne_nil _ _
  have left : HTTPPostRequestBodyParser.readPart (HTTPPostRequestBodyParser.parse env importAny) b.bytes { fHeader := header }
      (on (opening b ++ (p.text ++ crlf ++ (closing b ++ [])))) = .done (.error (.lineSizeExceeded e)) is' := by
    unfold HTTPPostRequestBodyParser.readPart
    rw [body]
    dsimp only
    rw [if_neg text, fails]
  rw [shape, HTTPPostRequestBodyParser.doParseMultiPart, IStream.loop_done (IStream.good_on _) left] at done
  cases done

theorem not_arrives_unnamed (short : b.bytes.length ≤ 4092) (fits : p.headerLine.length + 2 ≤ 1024) (unnamed : p.filename = [])
    (empty : p.content = []) (header : MIMEHeader D) : ¬ Arrives env importAny header b [p] [] := by
  rintro ⟨parser, is, done, content, -⟩
  obtain ⟨parser', is', done', content', -⟩ :=
    doParseMultiPart_received env importAny header b short (List.cons_ne_nil p []) (fun q mem => (List.mem_singleton.mp mem) ▸ fits) []
  cases done.symm.trans done'
  have body : p.bodyInfo D = .null := by
    rw [FilePart.bodyInfo, if_neg fun both => both.2 unnamed, if_neg fun some => some empty]
  have same := content.symm.trans content'
  rw [List.map_singleton, List.map_singleton, FilePart.received, body] at same
  cases same

theorem readLine_long {bound : Bytes} (plain : 0 ∉ bound) (long : 4096 < bound.length) (s : Reading) {input : IStream UInt8}
    (good : input.good = true) : ∃ s' is, readLine bound s input = .again s' is := by
  have length : (readPiece input).1.length ≤ 4096 := by
    rw [IStream.eq_on good]
    obtain ⟨-, is, read, -⟩ | ⟨rest, -, read⟩ | ⟨-, c, rest, -, -, read⟩ := readPiece_on input.rest
    all_goals
      rw [read]
      exact IStream.piece_length_le
  have unseen : ¬ (ascii "--" <:+: (readPiece input).1 ∧ bound <:+: (readPiece input).1) := fun both =>
    Nat.not_le.mpr long (Nat.le_trans both.2.length_le length)
  exact ⟨_, _, readLine_quiet plain s rfl unseen⟩

theorem doReadToBoundary_long {bound : Bytes} (plain : 0 ∉ bound) (long : 4096 < bound.length) (input : IStream UInt8)
    (body unparsed : Bytes) : (doReadToBoundary input bound body unparsed).1 = false := by
  have ends := @IStream.loop_induct _ _ _ _ (readLine_advances bound) (fun _ _ => True) (fun left => ∃ s is, left = .again s is)
    (fun s is _ _ => ⟨s, is, rfl⟩)
    (fun s is r is' _ good left => by
      obtain ⟨s', is'', goes⟩ := readLine_long plain long s good
      cases left.symm.trans goes)
    (fun _ _ _ _ _ _ _ => trivial) ⟨body, false, unparsed⟩ input trivial
  obtain ⟨s, is, left⟩ := ends
  rw [doReadToBoundary, left]

theorem doParseMultiPart_long {bound : Bytes} (plain : 0 ∉ bound) (long : 4096 < bound.length)
    (parse : HTTPPostRequestBodyParser.Parse D) (p parser : HTTPPostRequestBodyParser D) (input is : IStream UInt8) :
    HTTPPostRequestBodyParser.doParseMultiPart parse p input bound ≠ .ok (true, parser, is) := by
  have goesOn : ∀ p input p' is', HTTPPostRequestBodyParser.readPart parse bound p input ≠ .done (.ok p') is' := by
    intro p input p' is' done
    have unfinished := doReadToBoundary_long plain long input [] p.fUnparsedContent
    unfold HTTPPostRequestBodyParser.readPart at done
    split at done
    rename_i endReached s is'' read
    rw [read] at unfinished
    dsimp only at done unfinished
    rw [unfinished] at done
    split at done
    · cases done
    · split at done <;> cases done
  have ends := @IStream.loop_induct _ _ _ _ (readPart_advances parse bound) (fun _ _ => True)
    (fun left => ∀ p is, left ≠ .done (.ok p) is) (fun _ _ _ _ _ _ => nofun)
    (fun p is r is' _ _ left p' is'' same => goesOn p is p' is'' (left.trans same)) (fun _ _ _ _ _ _ _ => trivial) p input trivial
  unfold HTTPPostRequestBodyParser.doParseMultiPart
  split
  · rename_i p is left
    exact absurd left (ends p is)
  · nofun
  · nofun

end Parts

theorem replicate_chars (n : Nat) : ∀ c ∈ List.replicate n 'b'.toUInt8, isNameChar c = true ∧ isalnum c = true := by
  intro c mem
  rw [List.eq_of_mem_replicate mem]
  decide

def plainBoundary : Boundary :=
  ⟨2, ascii "b", List.cons_ne_nil _ _, fun _ mem => List.mem_singleton.mp mem ▸ (rfl : isalnum 'b'.toUInt8 = true)⟩

def longBoundary : Boundary := ⟨0, List.replicate 4097 'b'.toUInt8, List.cons_ne_nil _ _, fun c mem => (replicate_chars 4097 c mem).2⟩

def longNamed : FilePart plainBoundary :=
  ⟨ascii "a", List.replicate 1000 'b'.toUInt8, [], by decide +kernel, fun c mem => (replicate_chars 1000 c mem).1, by decide +kernel⟩

def unnamed : FilePart plainBoundary := ⟨ascii "a", [], [], by decide +kernel, nofun, by decide +kernel⟩

def longBounded : FilePart longBoundary :=
  ⟨ascii "a", ascii "b", [], by decide +kernel, by decide +kernel, fun within => List.cons_ne_nil _ _ (List.infix_nil.mp within)⟩

/-- A header line that is too long, a file without a name and a boundary that is too long. -/
theorem uploads_lost :
    ¬ Arrives bareEnvironment (fun is => (none, is)) {} plainBoundary [longNamed] [] ∧
    (unnamed.headerLine.length + 2 ≤ 1024 ∧ ¬ Arrives bareEnvironment (fun is => (none, is)) {} plainBoundary [unnamed] []) ∧
    longBounded.Fits ∧ ¬ Arrives bareEnvironment (fun is => (none, is)) {} longBoundary [longBounded] [] := by
  refine ⟨not_arrives_long_line _ _ (by decide) (by decide +kernel) _,
    ⟨by decide +kernel, not_arrives_unnamed _ _ (by decide) (by decide) rfl rfl _⟩,
    ⟨by decide +kernel, by decide +kernel, by decide +kernel⟩, ?_⟩
  rintro ⟨parser, is, done, -⟩
  have long : 4096 < longBoundary.bytes.length := by
    rw [Boundary.bytes, longBoundary, List.length_append, List.length_replicate, List.length_replicate]
    decide
  exact doParseMultiPart_long (Boundary.plain _) long _ _ parser _ is done

theorem doParseMultiPart_upload_two :
    ∃ p : FilePart plainBoundary, p.content = ascii "\x00--\r\n\n" ∧ p.Fits ∧
      Arrives bareEnvironment (fun is => (none, is)) {} plainBoundary [p, p] (ascii "\r\nmore") := by
  have fits : (⟨ascii "a", ascii "b.txt", ascii "\x00--\r\n\n", by decide +kernel, by decide +kernel, by decide +kernel⟩ : FilePart plainBoundary).Fits :=
    ⟨by decide +kernel, by decide +kernel, by decide +kernel⟩
  refine ⟨_, rfl, fits, ?_⟩
  refine doParseMultiPart_upload bareEnvironment (fun is => (none, is)) {} plainBoundary (by decide) (List.cons_ne_nil _ _) ?_ _
  intro p mem
  obtain rfl | rfl := List.mem_pair.mp mem
  · exact fits
  · exact fits

end Coast.Http
