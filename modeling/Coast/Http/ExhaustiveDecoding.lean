import Coast.Http.Escapes
import Coast.Lib.Rounds

/-!
# Decoding until nothing changes

A round that changes a text shortens it, or takes its plus signs away. What no round changes has no
escape left: an escape would have been shorter after decoding.
-/

namespace Coast.Http

/-! ### Rounds over a URL -/

def urlRound (replacePlusByBlank : Bool) (text : Bytes) : Bytes := (urlDecodeWith replacePlusByBlank text).1

/-- `ExhaustiveUrlDecode` with a status. -/
def exhaustiveDecode (replacePlusByBlank : Bool) (instr : Bytes) : Part (Bytes × URLCheckStatus) :=
  let add (eUrlCheckStatus : URLCheckStatus) (previous : Bytes) : URLCheckStatus :=
    if (urlDecodeWith replacePlusByBlank previous).2 = .eSuspiciousChar then .eSuspiciousChar else eUrlCheckStatus
  Loops.loop (Rounds.turn (urlRound replacePlusByBlank) add) ([], instr, .eOk)

/-- `ExhaustiveUrlDecode` without one. -/
def exhaustiveDecodeText (replacePlusByBlank : Bool) (instr : Bytes) : Part Bytes :=
  Rounds.settle (urlRound replacePlusByBlank) [] instr

/-- The places where the scan of `urlDecode` stops. -/
inductive Scans : Bytes → Bytes → Prop where
  | here (text : Bytes) : Scans text text
  | char {c : UInt8} {rest place : Bytes} (plain : c ≠ '%'.toUInt8) (later : Scans rest place) : Scans (c :: rest) place
  | escape {rest place : Bytes} (later : Scans (rest.drop (decodeEscape rest).moves) place) :
    Scans ('%'.toUInt8 :: rest) place

/-- The text starts with a `%uXXXX` whose value is above FF. -/
def StartsWide (text : Bytes) : Prop :=
  ∃ u a b high low rest, text = '%'.toUInt8 :: u :: a :: b :: high :: low :: rest ∧ (u = 'u'.toUInt8 ∨ u = 'U'.toUInt8) ∧
    (∀ c ∈ [a, b, high, low], isxdigit c = true) ∧ 255 < digitsValue 16 [a, b, high, low]

/-- A round over `text` meets such an escape. -/
def MeetsWide (replacePlusByBlank : Bool) (text : Bytes) : Prop :=
  ∃ place, Scans (if replacePlusByBlank then convert text else text) place ∧ StartsWide place

/-- No `%XX` and no `%uXXXX`. -/
def Decoded (text : Bytes) : Prop :=
  (∀ high low, isxdigit high = true → isxdigit low = true → ¬ ['%'.toUInt8, high, low] <:+: text) ∧
    ∀ u a b high low, u = 'u'.toUInt8 ∨ u = 'U'.toUInt8 → (∀ c ∈ [a, b, high, low], isxdigit c = true) →
      ¬ ['%'.toUInt8, u, a, b, high, low] <:+: text

theorem digitValue_xdigit {c : UInt8} (digit : isxdigit c = true) :
    digitValue c < 16 ∧ (digitValue c = 0 ↔ c = '0'.toUInt8) := by
  revert digit
  exact forall_byte (by decide) c

theorem digitsValue_xdigits {a b high low : UInt8} (digits : ∀ c ∈ [a, b, high, low], isxdigit c = true) :
    255 < digitsValue 16 [a, b, high, low] ↔ ¬ (a = '0'.toUInt8 ∧ b = '0'.toUInt8) := by
  have all : ∀ c ∈ [a, b, high, low], decide (digitValue c < 16) = true := fun c mem =>
    decide_eq_true (digitValue_xdigit (digits c mem)).1
  obtain ⟨-, aZero⟩ := digitValue_xdigit (digits a (by simp))
  obtain ⟨-, bZero⟩ := digitValue_xdigit (digits b (by simp))
  obtain ⟨highSmall, -⟩ := digitValue_xdigit (digits high (by simp))
  obtain ⟨lowSmall, -⟩ := digitValue_xdigit (digits low (by simp))
  rw [digitsValue, List.takeWhile_eq_self_iff.mpr all, ← aZero, ← bZero]
  simp only [List.foldl_cons, List.foldl_nil]
  omega

theorem decodeEscape_unicode {u a b high low : UInt8} (mark : u = 'u'.toUInt8 ∨ u = 'U'.toUInt8)
    (digits : ∀ c ∈ [a, b, high, low], isxdigit c = true) (rest : Bytes) :
    decodeEscape (u :: a :: b :: high :: low :: rest) =
      if a == '0'.toUInt8 && b == '0'.toUInt8 then ⟨[twoHexAsChar high low], 5, .eOk⟩ else ⟨[], 5, .eSuspiciousChar⟩ := by
  have marked : (some u == some 'u'.toUInt8 || some u == some 'U'.toUInt8) = true := by simpa using mark
  have all : (isxdigit a && isxdigit b && isxdigit high && isxdigit low) = true := by
    simp [digits a (by simp), digits b (by simp), digits high (by simp), digits low (by simp)]
  simp only [decodeEscape, List.head?_cons, marked, all, if_true]

theorem decodeSpecialChars_status (rest : Bytes) (offset : Nat) : (decodeSpecialChars rest offset).status = .eOk := by
  rw [decodeSpecialChars]
  split
  · split <;> rfl
  · rfl

theorem decodeEscape_suspicious {rest : Bytes} :
    (decodeEscape rest).status = .eSuspiciousChar ↔ StartsWide ('%'.toUInt8 :: rest) := by
  constructor
  · intro suspicious
    have special : ∀ offset, (decodeSpecialChars rest offset).status ≠ .eSuspiciousChar := fun offset eq => by
      rw [decodeSpecialChars_status] at eq
      cases eq
    unfold decodeEscape at suspicious
    split at suspicious
    · rename_i mark
      split at suspicious
      · rename_i u a b high low more
        split at suspicious
        · rename_i digits
          split at suspicious
          · cases suspicious
          · rename_i large
            simp only [Bool.and_eq_true] at digits
            have all : ∀ c ∈ [a, b, high, low], isxdigit c = true := by simp [digits]
            refine ⟨u, a, b, high, low, more, rfl, by simpa using mark, all, ?_⟩
            rw [digitsValue_xdigits all]
            simpa using large
        · exact absurd suspicious (special 2)
      · exact absurd suspicious (special 2)
    · split at suspicious
      · split at suspicious
        · cases suspicious
        · exact absurd suspicious (special 1)
      · exact absurd suspicious (special 1)
  · rintro ⟨u, a, b, high, low, more, eq, mark, digits, large⟩
    rw [List.cons.injEq] at eq
    rw [digitsValue_xdigits digits] at large
    rw [eq.2, decodeEscape_unicode mark digits, if_neg (by simpa using large)]

theorem urlDecodeFrom_suspicious (moves : Nat) (text : Bytes) : (urlDecodeFrom moves text).2 = .eSuspiciousChar ↔
    ∃ place, Scans (text.drop moves) place ∧ StartsWide place := by
  induction text generalizing moves with
  | nil =>
    rw [List.drop_nil, urlDecodeFrom]
    refine ⟨fun is => (by cases is), ?_⟩
    rintro ⟨place, scans, wide⟩
    cases scans
    obtain ⟨_, _, _, _, _, _, eq, -⟩ := wide
    cases eq
  | cons c rest ih =>
    cases moves with
    | succ moves => exact ih moves
    | zero =>
      rw [List.drop_zero]
      by_cases percent : c = '%'.toUInt8
      · subst percent
        have step : (urlDecodeFrom 0 ('%'.toUInt8 :: rest)).2 = .eSuspiciousChar ↔
            (decodeEscape rest).status = .eSuspiciousChar ∨
              (urlDecodeFrom (decodeEscape rest).moves rest).2 = .eSuspiciousChar := by
          rw [urlDecodeFrom, if_pos rfl]
          dsimp only
          split <;> simp_all
        rw [step, decodeEscape_suspicious, ih]
        constructor
        · rintro (wide | ⟨place, scans, wide⟩)
          · exact ⟨_, .here _, wide⟩
          · exact ⟨place, .escape scans, wide⟩
        · rintro ⟨place, scans, wide⟩
          cases scans with
          | here => exact .inl wide
          | char plain later => exact absurd rfl plain
          | escape later => exact .inr ⟨place, later, wide⟩
      · have step : (urlDecodeFrom 0 (c :: rest)).2 = (urlDecodeFrom 0 rest).2 := by
          rw [urlDecodeFrom, if_neg percent]
        rw [step, ih, List.drop_zero]
        constructor
        · rintro ⟨place, scans, wide⟩
          exact ⟨place, .char percent scans, wide⟩
        · rintro ⟨place, scans, wide⟩
          cases scans with
          | here =>
            obtain ⟨_, _, _, _, _, _, eq, -⟩ := wide
            exact absurd (List.cons.inj eq).1 percent
          | char plain later => exact ⟨place, later, wide⟩
          | escape later => exact absurd rfl percent

theorem urlDecodeWith_suspicious (replacePlusByBlank : Bool) (text : Bytes) :
    (urlDecodeWith replacePlusByBlank text).2 = .eSuspiciousChar ↔ MeetsWide replacePlusByBlank text := by
  rw [urlDecodeWith_eq, urlDecodeFrom_suspicious]
  rfl

/-! ### What no round changes -/

theorem length_urlRound (replacePlusByBlank : Bool) (text : Bytes) : (urlRound replacePlusByBlank text).length ≤ text.length := by
  rw [urlRound, urlDecodeWith_eq]
  refine (length_urlDecodeFrom_le 0 _).trans ?_
  split
  · exact (length_convert text).le
  · exact Nat.le_refl _

theorem urlRound_of_length {replacePlusByBlank : Bool} {text : Bytes}
    (kept : (urlRound replacePlusByBlank text).length = text.length) :
    urlRound replacePlusByBlank text = if replacePlusByBlank then convert text else text := by
  rw [urlRound, urlDecodeWith_eq] at kept ⊢
  refine urlDecodeFrom_eq_of_length (kept.trans ?_)
  split
  · exact (length_convert text).symm
  · rfl

theorem plus_not_mem_convert (text : Bytes) : '+'.toUInt8 ∉ convert text := by
  intro mem
  obtain ⟨c, -, eq⟩ := List.mem_map.mp mem
  split at eq
  · exact absurd eq (by decide)
  · rename_i other
    exact other eq

def plusMeasure (text : Bytes) : Nat := 2 * text.length + (text.contains '+'.toUInt8).toNat

theorem urlRound_settles (replacePlusByBlank : Bool) : Rounds.Settles (urlRound replacePlusByBlank) plusMeasure := by
  intro text changes
  have le := length_urlRound replacePlusByBlank text
  have small := Bool.toNat_le ((urlRound replacePlusByBlank text).contains '+'.toUInt8)
  rw [plusMeasure, plusMeasure]
  by_cases kept : (urlRound replacePlusByBlank text).length = text.length
  · have result := urlRound_of_length kept
    cases replacePlusByBlank with
    | false => exact absurd result changes
    | true =>
      rw [if_pos rfl] at result
      rw [result] at changes ⊢
      have before : text.contains '+'.toUInt8 = true := by
        rw [List.contains_iff_mem]
        exact not_not.mp fun none => changes (convert_eq_self.mpr none)
      have after : (convert text).contains '+'.toUInt8 = false := by
        rw [← Bool.not_eq_true, List.contains_iff_mem]
        exact plus_not_mem_convert text
      rw [before, after, length_convert]
      exact Nat.lt_succ_self _
  · omega

theorem urlDecodeFrom_of_fixed {replacePlusByBlank : Bool} {text : Bytes} (fixed : urlRound replacePlusByBlank text = text) :
    (urlDecodeFrom 0 text).1 = text := by
  have result := urlRound_of_length (congrArg List.length fixed)
  rw [fixed] at result
  rw [urlRound, urlDecodeWith_eq, ← result] at fixed
  exact fixed

theorem moves_of_fixed {before rest : Bytes}
    (fixed : (urlDecodeFrom 0 (before ++ '%'.toUInt8 :: rest)).1 = before ++ '%'.toUInt8 :: rest) :
    (decodeEscape rest).moves = 0 := by
  induction before with
  | nil =>
    rw [List.nil_append] at fixed
    exact (urlDecodeFrom_percent_of_length (congrArg List.length fixed)).1
  | cons c before ih =>
    rw [List.cons_append] at fixed
    by_cases percent : c = '%'.toUInt8
    · subst percent
      rw [(urlDecodeFrom_percent_of_length (congrArg List.length fixed)).2] at fixed
      exact ih (List.cons.inj fixed).2
    · rw [urlDecodeFrom_plain percent] at fixed
      exact ih (List.cons.inj fixed).2

theorem decoded_of_fixed {replacePlusByBlank : Bool} {text : Bytes} (fixed : urlRound replacePlusByBlank text = text) :
    Decoded text := by
  have still := urlDecodeFrom_of_fixed fixed
  constructor
  · rintro high low h l ⟨before, rest, rfl⟩
    rw [List.append_assoc] at still
    have moves : (decodeEscape (high :: low :: rest)).moves = 0 := moves_of_fixed still
    rw [decodeEscape_hex h l] at moves
    cases moves
  · rintro u a b high low mark digits ⟨before, rest, rfl⟩
    rw [List.append_assoc] at still
    have moves : (decodeEscape (u :: a :: b :: high :: low :: rest)).moves = 0 := moves_of_fixed still
    rw [decodeEscape_unicode mark digits] at moves
    split at moves <;> cases moves

/-! ### Rounds over HTML -/

def exhaustiveHTMLDecode (instr : Bytes) : Part Bytes := Rounds.settle htmlDecode [] instr

def NoEntity (text : Bytes) : Prop :=
  ∀ body, ';'.toUInt8 ∉ body → body.length ≤ 5 → ¬ (ascii "&#" ++ body ++ ascii ";") <:+: text

theorem length_extractDecimal (body : Bytes) : (extractDecimal body).length ≤ 1 := by
  rw [extractDecimal]
  split <;> simp

theorem length_decodeEntity (body : Bytes) : (decodeEntity body).length ≤ 1 := by
  have decimal := length_extractDecimal body
  unfold decodeEntity
  dsimp only
  split <;> (try split_ifs) <;> simp_all

theorem decodeSpecialHTMLChars_shrinks (c : UInt8) (rest : Bytes) :
    (decodeSpecialHTMLChars c rest).moves ≤ rest.length ∧ (decodeSpecialHTMLChars c rest).out.length ≤ 1 ∧
      ((decodeSpecialHTMLChars c rest).moves = 0 → (decodeSpecialHTMLChars c rest).out = [c]) := by
  rw [decodeSpecialHTMLChars]
  split
  · exact ⟨Nat.zero_le _, Nat.le_refl _, fun _ => rfl⟩
  · rename_i delta found
    split
    · exact ⟨Nat.zero_le _, Nat.le_refl _, fun _ => rfl⟩
    · rename_i entity
      obtain ⟨inside, semicolon, -⟩ := List.findIdx?_eq_some_iff_getElem.mp found
      refine ⟨Nat.le_of_lt_succ inside, length_decodeEntity _, fun none => ?_⟩
      simp only at none
      subst none
      rw [List.getElem_cons_zero, beq_iff_eq] at semicolon
      have other : (';'.toUInt8 != '&'.toUInt8) = true := by decide
      rw [semicolon, other, Bool.true_or, Bool.true_or] at entity
      exact absurd rfl entity

theorem length_htmlDecodeFrom_le (moves : Nat) (text : Bytes) : (htmlDecodeFrom moves text).length ≤ text.length - moves := by
  induction text generalizing moves with
  | nil => exact Nat.zero_le _
  | cons c rest ih =>
    cases moves with
    | succ moves =>
      have tail := ih moves
      rw [htmlDecodeFrom, List.length_cons]
      omega
    | zero =>
      obtain ⟨-, short, -⟩ := decodeSpecialHTMLChars_shrinks c rest
      have tail := ih (decodeSpecialHTMLChars c rest).moves
      rw [htmlDecodeFrom, List.length_append, List.length_cons]
      omega

theorem htmlDecodeFrom_cons_of_length {c : UInt8} {rest : Bytes}
    (kept : (htmlDecodeFrom 0 (c :: rest)).length = rest.length + 1) :
    (decodeSpecialHTMLChars c rest).moves = 0 ∧ htmlDecodeFrom 0 (c :: rest) = c :: htmlDecodeFrom 0 rest := by
  obtain ⟨inside, short, same⟩ := decodeSpecialHTMLChars_shrinks c rest
  have tail := length_htmlDecodeFrom_le (decodeSpecialHTMLChars c rest).moves rest
  rw [htmlDecodeFrom, List.length_append] at kept
  have none : (decodeSpecialHTMLChars c rest).moves = 0 := by omega
  refine ⟨none, ?_⟩
  rw [htmlDecodeFrom, same none, none]
  rfl

theorem htmlDecodeFrom_eq_of_length {text : Bytes} (kept : (htmlDecodeFrom 0 text).length = text.length) :
    htmlDecodeFrom 0 text = text := by
  induction text with
  | nil => rfl
  | cons c rest ih =>
    obtain ⟨-, same⟩ := htmlDecodeFrom_cons_of_length kept
    rw [same] at kept ⊢
    rw [ih (Nat.succ.inj kept)]

theorem htmlDecode_settles : Rounds.Settles htmlDecode List.length := by
  intro text changes
  rw [htmlDecode_eq] at changes ⊢
  exact Nat.lt_of_le_of_ne (length_htmlDecodeFrom_le 0 text) fun kept => changes (htmlDecodeFrom_eq_of_length kept)

theorem entity_of_fixed {before rest : Bytes}
    (fixed : htmlDecodeFrom 0 (before ++ '&'.toUInt8 :: rest) = before ++ '&'.toUInt8 :: rest) :
    (decodeSpecialHTMLChars '&'.toUInt8 rest).moves = 0 := by
  induction before with
  | nil =>
    rw [List.nil_append] at fixed
    exact (htmlDecodeFrom_cons_of_length (congrArg List.length fixed)).1
  | cons c before ih =>
    rw [List.cons_append, (htmlDecodeFrom_cons_of_length (congrArg List.length fixed)).2] at fixed
    exact ih (List.cons.inj fixed).2

theorem noEntity_of_fixed {text : Bytes} (fixed : htmlDecode text = text) : NoEntity text := by
  rintro body inner short ⟨before, rest, rfl⟩
  rw [htmlDecode_eq, List.append_assoc before] at fixed
  have whole : ascii "&#" ++ body ++ ascii ";" ++ rest = '&'.toUInt8 :: ('#'.toUInt8 :: body ++ ';'.toUInt8 :: rest) := by
    rw [List.append_assoc]
    rfl
  rw [whole] at fixed
  have moves := entity_of_fixed fixed
  rw [decodeSpecialHTMLChars_entity inner short] at moves
  cases moves

/-! ### The loops end -/

theorem urlRound_nil (replacePlusByBlank : Bool) : urlRound replacePlusByBlank [] = [] := by
  cases replacePlusByBlank <;> rfl

theorem foldl_status (meets : Bytes → Bool) (texts : List Bytes) (status : URLCheckStatus) :
    texts.foldl (fun status text => if meets text then .eSuspiciousChar else status) status = .eSuspiciousChar ↔
      status = .eSuspiciousChar ∨ ∃ text ∈ texts, meets text = true := by
  induction texts generalizing status with
  | nil => simp
  | cons text texts ih =>
    rw [List.foldl_cons, ih]
    split <;> simp_all

theorem exhaustiveDecode_settled {replacePlusByBlank : Bool} {instr : Bytes} {n : Nat} (some : [] ≠ instr)
    (settled : Rounds.SettledAfter (urlRound replacePlusByBlank) instr n) :
    ∃ status, ((urlRound replacePlusByBlank)^[n] instr, status) ∈ exhaustiveDecode replacePlusByBlank instr ∧
      (status = .eSuspiciousChar ↔ ∃ k ≤ n, MeetsWide replacePlusByBlank ((urlRound replacePlusByBlank)^[k] instr)) := by
  refine ⟨_, Rounds.mem_loop_of_settled settled some _, ?_⟩
  have counted := foldl_status (fun text => decide ((urlDecodeWith replacePlusByBlank text).2 = .eSuspiciousChar))
    (List.iterate (urlRound replacePlusByBlank) instr (n + 1)) .eOk
  simp only [decide_eq_true_eq] at counted
  rw [counted]
  constructor
  · rintro (ok | ⟨text, mem, meets⟩)
    · cases ok
    · obtain ⟨k, less, rfl⟩ := List.mem_iterate.mp mem
      exact ⟨k, Nat.le_of_lt_succ less, (urlDecodeWith_suspicious _ _).mp meets⟩
  · rintro ⟨k, le, meets⟩
    exact .inr ⟨_, List.mem_iterate.mpr ⟨k, Nat.lt_succ_of_le le, rfl⟩, (urlDecodeWith_suspicious _ _).mpr meets⟩

/-- The rounds that are counted out for a URL without plus signs are those of the loop. -/
theorem exhaustiveUrlDecode_mem (instr : Bytes) : exhaustiveUrlDecode instr ∈ exhaustiveDecode false instr := by
  refine @Loops.mem_loop_of_fuel _ _ _ (fun s => if s.1 = s.2.1 then 0 else s.2.1.length + 1)
    (fun fuel s => exhaustiveRounds fuel s.1 s.2.1 s.2.2) ?_ ?_ (instr.length + 2) ([], instr, .eOk) ?_
  · rintro fuel ⟨previous, current, status⟩
    simp only [Rounds.turn, exhaustiveRounds]
    split <;> rfl
  · rintro ⟨previous, current, status⟩ s' next
    simp only [Rounds.turn] at next
    split at next
    · cases next
    · rename_i differ
      cases next
      dsimp only
      rw [if_neg differ]
      split
      · exact Nat.succ_pos _
      · rename_i changes
        have le := length_urlRound false current
        have shorter : (urlRound false current).length ≠ current.length := fun kept =>
          changes (urlRound_of_length kept).symm
        omega
  · dsimp only
    split <;> omega

/-- `ExhaustiveUrlDecode` ends with a text that has no escape left and that no further round changes,
and tells whether a round met an escape above FF; `ExhaustiveHTMLDecode` ends without an entity. -/
theorem exhaustive_decoding_ends (instr : Bytes) :
    (∀ replacePlusByBlank, ∃ n status, ((urlRound replacePlusByBlank)^[n] instr, status) ∈ exhaustiveDecode replacePlusByBlank instr ∧
      (urlRound replacePlusByBlank)^[n] instr ∈ exhaustiveDecodeText replacePlusByBlank instr ∧
      Decoded ((urlRound replacePlusByBlank)^[n] instr) ∧
      urlRound replacePlusByBlank ((urlRound replacePlusByBlank)^[n] instr) = (urlRound replacePlusByBlank)^[n] instr ∧
      (status = .eSuspiciousChar ↔ ∃ k ≤ n, MeetsWide replacePlusByBlank ((urlRound replacePlusByBlank)^[k] instr))) ∧
    ∃ result ∈ exhaustiveHTMLDecode instr, NoEntity result ∧ htmlDecode result = result := by
  constructor
  · intro replacePlusByBlank
    by_cases none : [] = instr
    · subst none
      have still := urlRound_nil replacePlusByBlank
      refine ⟨0, .eOk, Rounds.mem_loop_of_same [] _, Rounds.mem_settle_of_same [], decoded_of_fixed still, still, nofun, ?_⟩
      rintro ⟨k, le, meets⟩
      rw [Nat.le_zero.mp le] at meets
      rw [← urlDecodeWith_suspicious] at meets
      cases replacePlusByBlank <;> cases meets
    · obtain ⟨n, settled⟩ := Rounds.exists_settled (urlRound_settles replacePlusByBlank) instr
      obtain ⟨status, ends, met⟩ := exhaustiveDecode_settled none settled
      exact ⟨n, status, ends, Rounds.mem_settle_of_settled settled none, decoded_of_fixed settled.1, settled.1, met⟩
  · by_cases none : [] = instr
    · subst none
      exact ⟨[], Rounds.mem_settle_of_same [], noEntity_of_fixed rfl, rfl⟩
    · obtain ⟨n, settled⟩ := Rounds.exists_settled htmlDecode_settles instr
      exact ⟨_, Rounds.mem_settle_of_settled settled none, noEntity_of_fixed settled.1, settled.1⟩

end Coast.Http
