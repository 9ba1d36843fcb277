import Coast.Text.RoundTrip
import Mathlib.Data.List.SplitBy

/-!
# References

A reference is written as a path between quotes, but unlike a string without masking. The path comes
back where the reader of strings finds nothing to interpret in it, and where no name ends in the
character that escapes the delimiters.
-/

namespace Coast

open AnythingToken

namespace Level

def isPlain (c : UInt8) : Bool := !(c == '"'.toUInt8 || c == '\n'.toUInt8 || c == '\r'.toUInt8)

/-- Whether a backslash before `d` stays a backslash, `d` being followed by `next`. -/
def staysMask (d : UInt8) (next : Option UInt8) : Bool :=
  !(d == '\\'.toUInt8 || d == '"'.toUInt8 || d == 'n'.toUInt8 || d == 'r'.toUInt8 || d == '\n'.toUInt8 ||
    d == '\r'.toUInt8 || isOctal d) && !(d == 'x'.toUInt8 && next.any isxdigit)

def safeName : Bytes → Bool
  | [] => true
  | [c] => isPlain c && c != '\\'.toUInt8
  | c :: d :: cs =>
    if c == '\\'.toUInt8 then staysMask d cs.head? && !isPathDelim d && safeName cs else isPlain c && safeName (d :: cs)

def Safe : Level → Prop
  | key k => k ≠ [] ∧ safeName k = true
  | index _ => True

def literal : Bytes → Bool
  | [] => true
  | [c] => isPlain c && c != '\\'.toUInt8
  | c :: d :: cs => if c == '\\'.toUInt8 then staysMask d cs.head? && literal cs else isPlain c && literal (d :: cs)

theorem staysMask_append {d : UInt8} {cs b : Bytes} (stays : staysMask d cs.head? = true)
    (boundary : ∀ c ∈ b.head?, isxdigit c = false) : staysMask d (cs ++ b).head? = true := by
  rcases cs with _ | ⟨c, cs⟩
  · rw [List.nil_append]
    rcases b with _ | ⟨c, b⟩
    · exact stays
    · have other := boundary c rfl
      simp only [staysMask, List.head?_nil, List.head?_cons, Option.any_none, Option.any_some, other] at stays ⊢
      exact stays
  · exact stays

theorem literal_append {a b : Bytes} (left : literal a = true) (right : literal b = true)
    (boundary : ∀ c ∈ b.head?, isxdigit c = false) : literal (a ++ b) = true := by
  induction a using literal.induct with
  | case1 => exact right
  | case2 c =>
    rw [literal, Bool.and_eq_true, bne_iff_ne] at left
    rcases b with _ | ⟨d, b⟩
    · simp [literal, left]
    · rw [List.singleton_append, literal, if_neg (by simpa using left.2), left.1, right]
      rfl
  | case3 c d cs mask ih =>
    rw [literal, if_pos mask, Bool.and_eq_true] at left
    rw [List.cons_append, List.cons_append, literal, if_pos mask, staysMask_append left.1 boundary, ih left.2]
    rfl
  | case4 c d cs mask ih =>
    rw [literal, if_neg mask, Bool.and_eq_true] at left
    rw [List.cons_append, List.cons_append, literal, if_neg mask, left.1, Bool.true_and]
    exact ih left.2

theorem readMasked_stays {d : UInt8} {rest : Bytes} (text : Bytes) (some : rest ≠ []) (stays : staysMask d rest.head? = true) :
    readMasked '"'.toUInt8 text ⟨d :: rest, true⟩ = (text ++ ['\\'.toUInt8, d], 0, ⟨rest, true⟩) := by
  obtain ⟨c, cs, rfl⟩ := List.exists_cons_of_ne_nil some
  simp only [staysMask, Bool.and_eq_true, Bool.not_eq_true', Bool.or_eq_false_iff, Bool.and_eq_false_iff, List.head?_cons,
    Option.any_some] at stays
  obtain ⟨⟨⟨⟨⟨⟨⟨mask, quote⟩, n⟩, r⟩, lf⟩, cr⟩, octal⟩, hex⟩ := stays
  simp only [readMasked, InputContext.getInto_cons, mask, quote, Bool.or_self, Bool.false_eq_true, if_false, octal, n, r, cr, lf]
  split
  · rename_i x
    have plain : isxdigit c = false := by
      rcases hex with other | plain
      · rw [x] at other
        cases other
      · exact plain
    simp only [readHexCode, InputContext.getInto_cons, plain, Bool.false_eq_true, if_false, InputContext.putback_good,
      eq_of_beq x]
  · rfl

theorem intReadLoop_literal {path : Bytes} (text : Bytes) (fuel : Nat) (enough : path.length < fuel)
    (plain : literal path = true) (rest : Bytes) :
    intReadLoop '"'.toUInt8 fuel text 0 ⟨path ++ '"'.toUInt8 :: rest, true⟩ = (text ++ path, 0, ⟨rest, true⟩) := by
  have single : ∀ {c : UInt8} (text : Bytes) (fuel : Nat) (rest : Bytes), isPlain c = true → (c == '\\'.toUInt8) = false →
      intReadLoop '"'.toUInt8 (fuel + 1) text 0 ⟨c :: rest, true⟩ =
        intReadLoop '"'.toUInt8 fuel (text ++ [c]) 0 ⟨rest, true⟩ := by
    intro c text fuel rest plain mask
    simp only [isPlain, Bool.not_eq_true', Bool.or_eq_false_iff] at plain
    exact intReadLoop_plain fuel text 0 rest plain.1.1 mask plain.2 plain.1.2
  induction path using literal.induct generalizing text fuel with
  | case1 =>
    obtain ⟨fuel, rfl⟩ := Nat.exists_eq_succ_of_ne_zero (Nat.ne_of_gt enough)
    simp [intReadLoop]
  | case2 c =>
    obtain ⟨fuel, rfl⟩ := Nat.exists_eq_add_of_le' (show 2 ≤ fuel from enough)
    rw [literal, Bool.and_eq_true] at plain
    rw [List.singleton_append, single text _ _ plain.1 (by simpa using plain.2)]
    simp [intReadLoop]
  | case3 c d cs mask ih =>
    obtain ⟨fuel, rfl⟩ := Nat.exists_eq_add_of_le' (show 2 ≤ fuel by simp only [List.length_cons] at enough; omega)
    rw [literal, if_pos mask, Bool.and_eq_true] at plain
    have stays : staysMask d (cs ++ '"'.toUInt8 :: rest).head? = true := by
      refine staysMask_append plain.1 ?_
      simp only [List.head?_cons, Option.mem_some_iff, forall_eq']
      decide
    rw [eq_of_beq mask, List.cons_append, List.cons_append, intReadLoop_masked _ text 0 _ (by decide),
      readMasked_stays text (by simp) stays]
    refine (ih (text ++ ['\\'.toUInt8, d]) (fuel + 1) (by simp only [List.length_cons] at enough; omega) plain.2).trans ?_
    rw [List.append_assoc]
    rfl
  | case4 c d cs mask ih =>
    obtain ⟨fuel, rfl⟩ := Nat.exists_eq_add_of_le' (show 1 ≤ fuel by omega)
    rw [literal, if_neg mask, Bool.and_eq_true] at plain
    rw [List.cons_append, single text _ _ plain.1 (by simpa using mask)]
    rw [ih (text ++ [c]) fuel (by simp only [List.length_cons] at enough ⊢; omega) plain.2, List.append_assoc]
    rfl

/-! ### Names in a path -/

theorem escape_cons (c : UInt8) (cs : Bytes) :
    escape (c :: cs) = (if isPathDelim c then ['\\'.toUInt8, c] else [c]) ++ escape cs := rfl

theorem escape_head (cs : Bytes) : ∀ c ∈ (escape cs).head?, isPathDelim c = false := by
  rcases cs with _ | ⟨c, cs⟩
  · nofun
  · rw [escape_cons]
    split
    · simp only [List.cons_append, List.head?_cons, Option.mem_some_iff, forall_eq']
      decide
    · rename_i plain
      simpa using plain

theorem pathDelim_plain {c : UInt8} (delim : isPathDelim c = true) (next : Option UInt8) :
    staysMask c next = true ∧ isPlain c = true ∧ (c == '\\'.toUInt8) = false ∧ isxdigit c = false := by
  rw [isPathDelim, Bool.or_eq_true, beq_iff_eq, beq_iff_eq] at delim
  rcases delim with rfl | rfl <;> exact ⟨rfl, rfl, rfl, rfl⟩

theorem staysMask_escape {d : UInt8} {cs : Bytes} (stays : staysMask d cs.head? = true) :
    staysMask d (escape cs).head? = true := by
  rcases cs with _ | ⟨c, cs⟩
  · exact stays
  · rw [escape_cons]
    split
    · rename_i delim
      have plain := (pathDelim_plain delim none).2.2.2
      simp only [staysMask, List.head?_cons, Option.any_some, plain, List.cons_append] at stays ⊢
      exact stays
    · exact stays

theorem literal_cons {c : UInt8} {cs : Bytes} (plain : isPlain c = true) (mask : ¬ (c == '\\'.toUInt8) = true)
    (rest : literal cs = true) : literal (c :: cs) = true := by
  rcases cs with _ | ⟨d, cs⟩
  · simpa [literal, plain] using mask
  · rw [literal, if_neg mask, plain, rest]
    rfl

theorem literal_escape {k : Bytes} (safe : safeName k = true) : literal (escape k) = true := by
  have delimited : ∀ {c : UInt8} {cs : Bytes}, isPathDelim c = true → literal cs = true →
      literal ('\\'.toUInt8 :: c :: cs) = true := by
    intro c cs delim plain
    rw [literal, if_pos (by decide), (pathDelim_plain delim _).1, plain]
    rfl
  induction k using safeName.induct with
  | case1 => rfl
  | case2 c =>
    rw [safeName, Bool.and_eq_true, bne_iff_ne] at safe
    rw [escape_cons]
    split
    · rename_i delim
      exact delimited delim rfl
    · exact literal_cons safe.1 (by simpa using safe.2) rfl
  | case3 c d cs mask ih =>
    rw [safeName, if_pos mask, Bool.and_eq_true, Bool.and_eq_true] at safe
    obtain ⟨⟨stays, plain⟩, rest⟩ := safe
    rw [eq_of_beq mask, escape_cons, if_neg (by decide), escape_cons, if_neg (by simpa using plain)]
    show literal ('\\'.toUInt8 :: d :: escape cs) = true
    rw [literal, if_pos (by decide), staysMask_escape stays, ih rest]
    rfl
  | case4 c d cs mask ih =>
    rw [safeName, if_neg mask, Bool.and_eq_true] at safe
    rw [escape_cons]
    split
    · rename_i delim
      exact delimited delim (ih safe.2)
    · exact literal_cons safe.1 mask (ih safe.2)

theorem unescape_escape (k : Bytes) : unescape (escape k) = k := by
  have fold : ∀ result : Bytes, (escape k).foldl unescapeStep result = result ++ k := by
    induction k with
    | nil =>
      intro result
      simp [escape]
    | cons c cs ih =>
      intro result
      rw [escape_cons, List.foldl_append, ih]
      split
      · rename_i delim
        have masked : unescapeStep result '\\'.toUInt8 = result ++ ['\\'.toUInt8] := by
          rw [unescapeStep, if_neg]
          simp [show isPathDelim '\\'.toUInt8 = false from rfl]
        rw [List.foldl_cons, List.foldl_cons, List.foldl_nil, masked]
        simp [unescapeStep, delim]
      · rename_i plain
        rw [Bool.not_eq_true] at plain
        simp [unescapeStep, plain]
  exact fold []

/-! ### The path is split where it was joined -/

theorem escape_ne_nil {k : Bytes} (some : k ≠ []) : escape k ≠ [] := by
  rcases k with _ | ⟨c, cs⟩
  · exact absurd rfl some
  · rw [escape_cons]
    split <;> exact List.cons_ne_nil _ _

theorem getLast_append_of_ne_nil {a b : Bytes} (some : b ≠ []) : (a ++ b).getLast? = b.getLast? := by
  rw [List.getLast?_append]
  obtain ⟨c, last⟩ := Option.isSome_iff_exists.mp (List.getLast?_isSome.mpr some)
  rw [last]
  rfl

theorem getLast_escape (k : Bytes) : (escape k).getLast? = k.getLast? := by
  induction k with
  | nil => rfl
  | cons c cs ih =>
    rw [escape_cons]
    rcases cs with _ | ⟨d, cs⟩
    · split <;> rfl
    · rw [getLast_append_of_ne_nil (escape_ne_nil (List.cons_ne_nil d cs)), ih, List.getLast?_cons_cons]

theorem safeName_last {k : Bytes} (safe : safeName k = true) : k.getLast? ≠ Option.some '\\'.toUInt8 := by
  induction k using safeName.induct with
  | case1 => simp
  | case2 c =>
    rw [safeName, Bool.and_eq_true, bne_iff_ne] at safe
    simpa using safe.2
  | case3 c d cs mask ih =>
    rw [safeName, if_pos mask, Bool.and_eq_true, Bool.and_eq_true] at safe
    obtain ⟨⟨stays, -⟩, rest⟩ := safe
    rcases cs with _ | ⟨e, cs⟩
    · intro last
      have escaping : d = '\\'.toUInt8 := Option.some.inj last
      rw [escaping] at stays
      exact absurd stays (by decide)
    · rw [List.getLast?_cons_cons, List.getLast?_cons_cons]
      exact ih rest
  | case4 c d cs mask ih =>
    rw [safeName, if_neg mask, Bool.and_eq_true] at safe
    rw [List.getLast?_cons_cons]
    exact ih safe.2

theorem chain_cons_escape (c : UInt8) (cs : Bytes) :
    (c :: escape cs).IsChain fun l r => !leftCharNotEscape l r := by
  induction cs generalizing c with
  | nil => exact List.isChain_singleton c
  | cons d cs ih =>
    rw [escape_cons]
    split
    · refine List.isChain_cons_cons.mpr ⟨?_, List.isChain_cons_cons.mpr ⟨?_, ih d⟩⟩
      · simp [leftCharNotEscape, show isPathDelim '\\'.toUInt8 = false from rfl]
      · rfl
    · rename_i plain
      rw [Bool.not_eq_true] at plain
      refine List.isChain_cons_cons.mpr ⟨?_, ih d⟩
      simp [leftCharNotEscape, plain]

theorem chain_escape (k : Bytes) : (escape k).IsChain fun l r => !leftCharNotEscape l r :=
  (chain_cons_escape 0 k).tail

theorem escape_of_plain {k : Bytes} (plain : ∀ c ∈ k, isPathDelim c = false) : escape k = k := by
  induction k with
  | nil => rfl
  | cons c cs ih =>
    rw [escape_cons, if_neg (by simp [plain c]), ih fun d mem => plain d (List.mem_cons_of_mem _ mem)]
    rfl

theorem isNumeric_plain {c : UInt8} (numeric : isdigit c = true ∨ c = '-'.toUInt8) :
    isPathDelim c = false ∧ isPlain c = true ∧ c ≠ '\\'.toUInt8 := by
  revert numeric
  exact forall_byte (by decide) c

theorem mem_longText {n : Int} : ∀ c ∈ longText n, isdigit c = true ∨ c = '-'.toUInt8 := by
  intro c mem
  rw [longText] at mem
  split at mem
  · rcases List.mem_cons.mp mem with rfl | digits
    · exact Or.inr rfl
    · exact Or.inl (isdigit_of_mem_decimalText c digits)
  · exact Or.inl (isdigit_of_mem_decimalText c mem)

theorem longText_ne_nil (n : Int) : longText n ≠ [] := by
  rw [longText]
  split
  · exact List.cons_ne_nil _ _
  · exact decimalText_ne_nil _

theorem escape_longText (n : Int) : escape (longText n) = longText n :=
  escape_of_plain fun c mem => (isNumeric_plain (mem_longText c mem)).1

theorem asLong_longText (n : Int64) : asLong (longText n.toInt) = (n, false) := by
  have numeric : ((splitSign ((longText n.toInt).dropWhile isspace)).2.head?.any isdigit) = true := by
    obtain ⟨c, digits, shape, digit, -⟩ := decimalText_cons n.toInt.natAbs
    obtain ⟨space, minus, plus⟩ := digit_not_mark digit
    rw [longText]
    split
    · rw [List.dropWhile_cons_of_neg (by decide)]
      simp [splitSign, shape, digit]
    · rw [shape, List.dropWhile_cons_of_neg (by simp [space])]
      simp [splitSign, minus, plus, digit]
  rw [asLong, if_pos numeric, strtol_longText]

def tokenText (first : Bool) : Level → Bytes
  | key k => (if first then [] else ['.'.toUInt8]) ++ escape k
  | index i => ':'.toUInt8 :: escape (longText i.toInt)

theorem pathText_concat (ls : List Level) (l : Level) :
    pathText (ls ++ [l]) = pathText ls ++ tokenText (pathText ls).isEmpty l := by
  rw [pathText, List.foldl_append, List.foldl_cons, List.foldl_nil, ← pathText]
  cases l with
  | key k =>
    rw [appendLevel, tokenText, text]
    split
    · rfl
    · rw [List.append_assoc]
  | index i => rw [appendLevel, tokenText, text, List.append_assoc, List.singleton_append]

def Named : Level → Prop
  | key k => k ≠ []
  | index _ => True

/-- The escape character at the end of a name escapes the delimiter behind it. -/
def EndsInMask : Level → Prop
  | key k => k.getLast? = some '\\'.toUInt8
  | index _ => False

variable {ls : List Level} {l : Level}

theorem Safe.named (safe : Safe l) : Named l := by
  cases l with
  | key k => exact safe.1
  | index i => trivial

theorem Safe.unmasked (safe : Safe l) : ¬EndsInMask l := by
  cases l with
  | key k => exact safeName_last safe.2
  | index i => exact id

theorem tokenText_ne_nil (named : Named l) (first : Bool) : tokenText first l ≠ [] := by
  cases l with
  | key k =>
    rw [tokenText]
    intro none
    exact escape_ne_nil named (List.append_eq_nil_iff.mp none).2
  | index i => exact List.cons_ne_nil _ _

theorem literal_longText (n : Int) : literal (longText n) = true := by
  have all : ∀ {text : Bytes}, (∀ c ∈ text, isdigit c = true ∨ c = '-'.toUInt8) → literal text = true := by
    intro text numeric
    induction text with
    | nil => rfl
    | cons c cs ih =>
      obtain ⟨-, plain, mask⟩ := isNumeric_plain (numeric c (List.mem_cons_self ..))
      exact literal_cons plain (by simpa using mask) (ih fun d mem => numeric d (List.mem_cons_of_mem _ mem))
  exact all mem_longText

theorem literal_tokenText (safe : Safe l) (first : Bool) : literal (tokenText first l) = true := by
  cases l with
  | key k =>
    cases first with
    | true => exact literal_escape safe.2
    | false => exact literal_cons (by decide) (by decide) (literal_escape safe.2)
  | index i =>
    rw [tokenText, escape_longText]
    exact literal_cons (by decide) (by decide) (literal_longText _)

theorem tokenText_last (named : Named l) (first : Bool) : (tokenText first l).getLast? = some '\\'.toUInt8 ↔ EndsInMask l := by
  cases l with
  | key k => rw [tokenText, getLast_append_of_ne_nil (escape_ne_nil named), getLast_escape, EndsInMask]
  | index i =>
    rw [tokenText, escape_longText, ← List.singleton_append, getLast_append_of_ne_nil (longText_ne_nil _)]
    refine iff_of_false ?_ id
    intro last
    exact (isNumeric_plain (mem_longText _ (List.mem_of_getLast? last))).2.2 rfl

theorem tokenText_head (l : Level) : ∀ c ∈ (tokenText false l).head?, isPathDelim c = true := by
  cases l with
  | key k =>
    intro c head
    rw [← Option.some.inj head]
    rfl
  | index i =>
    intro c head
    rw [← Option.some.inj head]
    rfl

theorem chain_tokenText (l : Level) (first : Bool) : (tokenText first l).IsChain fun l r => !leftCharNotEscape l r := by
  cases l with
  | key k =>
    cases first with
    | true => exact chain_escape k
    | false => exact chain_cons_escape _ k
  | index i => exact chain_cons_escape _ _

theorem splitBy_tokenText (named : Named l) (first : Bool) :
    (tokenText first l).splitBy (fun l r => !leftCharNotEscape l r) = [tokenText first l] :=
  List.splitBy_of_isChain (tokenText_ne_nil named first) (chain_tokenText l first)

theorem ofToken_tokenText (named : Named l) (first erange : Bool) : ofToken erange (tokenText first l) = (l, erange) := by
  cases l with
  | key k =>
    cases first with
    | true =>
      obtain ⟨c, cs, shape⟩ := List.exists_cons_of_ne_nil (escape_ne_nil named)
      have own := escape_head k c (by rw [shape]; rfl)
      rw [isPathDelim, Bool.or_eq_false_iff] at own
      have back := unescape_escape k
      rw [shape] at back
      simp only [tokenText, shape, if_true, List.nil_append, ofToken, own, Bool.false_eq_true, if_false, back]
    | false =>
      have back := unescape_escape k
      simp only [tokenText, Bool.false_eq_true, if_false, List.singleton_append, ofToken]
      rw [if_neg (by decide), if_pos (by decide), back]
  | index i =>
    rw [tokenText, escape_longText, ofToken]
    simp only [beq_self_eq_true, if_true, asLong_longText, Bool.or_false]

/-! ### Paths -/

theorem literal_pathText (safe : ∀ l ∈ ls, Safe l) : literal (pathText ls) = true := by
  induction ls using List.reverseRecOn with
  | nil => rfl
  | append_singleton ls l ih =>
    rw [List.forall_mem_append, List.forall_mem_singleton] at safe
    rw [pathText_concat]
    cases empty : (pathText ls).isEmpty with
    | true =>
      rw [List.isEmpty_iff.mp empty]
      exact literal_tokenText safe.2 true
    | false =>
      refine literal_append (ih safe.1) (literal_tokenText safe.2 false) ?_
      intro c head
      exact (pathDelim_plain (tokenText_head l c head) none).2.2.2

theorem pathText_ne_nil (named : ∀ l ∈ ls, Named l) (some : ls ≠ []) : pathText ls ≠ [] := by
  rcases List.eq_nil_or_concat ls with rfl | ⟨init, l, rfl⟩
  · exact absurd rfl some
  · rw [List.concat_eq_append, List.forall_mem_append, List.forall_mem_singleton] at named
    rw [List.concat_eq_append, pathText_concat]
    intro none
    exact tokenText_ne_nil named.2 _ (List.append_eq_nil_iff.mp none).2

theorem pathText_last (named : ∀ l ∈ ls, Named l) :
    (pathText ls).getLast? = some '\\'.toUInt8 ↔ ∃ l ∈ ls.getLast?, EndsInMask l := by
  rcases List.eq_nil_or_concat ls with rfl | ⟨init, l, rfl⟩
  · simp [pathText]
  · rw [List.concat_eq_append, List.forall_mem_append, List.forall_mem_singleton] at named
    rw [List.concat_eq_append, pathText_concat, getLast_append_of_ne_nil (tokenText_ne_nil named.2 _), tokenText_last named.2,
      List.getLast?_concat]
    simp

theorem ofPath_pathText_of_apart (named : ∀ l ∈ ls, Named l) (apart : ∀ l ∈ ls.dropLast, ¬EndsInMask l) (erange : Bool) :
    ofPath erange (pathText ls) = (ls, erange) := by
  induction ls using List.reverseRecOn with
  | nil => rfl
  | append_singleton ls l ih =>
    rw [List.forall_mem_append, List.forall_mem_singleton] at named
    rw [List.dropLast_concat] at apart
    have ends : ∀ x ∈ (pathText ls).getLast?, ∀ y ∈ (tokenText (pathText ls).isEmpty l).head?,
        (!leftCharNotEscape x y) = false := by
      intro x last y head
      have some : (pathText ls).isEmpty = false := by
        rw [List.isEmpty_eq_false_iff]
        intro none
        rw [none] at last
        cases last
      have other : x ≠ '\\'.toUInt8 := by
        rintro rfl
        obtain ⟨m, isLast, mask⟩ := (pathText_last named.1).mp last
        exact apart m (List.mem_of_getLast? isLast) mask
      rw [some] at head
      simp [leftCharNotEscape, other, tokenText_head l y head]
    have own := ofToken_tokenText named.2 (pathText ls).isEmpty erange
    have others := ih named.1 fun m mem => apart m (List.dropLast_subset _ mem)
    rw [ofPath] at others
    rw [ofPath, pathText_concat, List.splitBy_append ends, splitBy_tokenText named.2, List.foldl_append, others]
    simp only [List.foldl_cons, List.foldl_nil, own]

theorem ofPath_pathText (safe : ∀ l ∈ ls, Safe l) (erange : Bool) : ofPath erange (pathText ls) = (ls, erange) :=
  ofPath_pathText_of_apart (fun l mem => (safe l mem).named) (fun l mem => (safe l (List.dropLast_subset _ mem)).unmasked) erange

end Level

theorem next_reference {ls : List Level} (safe : ∀ l ∈ ls, Level.Safe l) (some : ls ≠ []) (rest : Bytes) :
    next ⟨'%'.toUInt8 :: '"'.toUInt8 :: Level.pathText ls ++ '"'.toUInt8 :: rest, true⟩ =
      (⟨.ref, Level.pathText ls⟩, ⟨rest, true⟩) := by
  have nonempty : 0 < (Level.pathText ls).length := 
    List.length_pos_iff.mpr (Level.pathText_ne_nil (fun l mem => (safe l mem).named) some)
  have read : intReadFrom '"'.toUInt8 ⟨'"'.toUInt8 :: (Level.pathText ls ++ '"'.toUInt8 :: rest), true⟩ =
      (Level.pathText ls, 0, ⟨rest, true⟩) := by
    rw [intReadFrom]
    simp only [InputContext.get_cons]
    rw [Level.intReadLoop_literal [] _ _ (Level.literal_pathText safe), List.nil_append]
    rw [List.length_append]
    omega
  rw [List.cons_append, List.cons_append, next, tokenLoop]
  show readMark .ref ⟨'"'.toUInt8 :: _, true⟩ = _
  simp only [readMark, InputContext.get_cons, beq_self_eq_true, if_true, doReadString, InputContext.putback_good, read,
    gt_iff_lt, nonempty]

end Coast
