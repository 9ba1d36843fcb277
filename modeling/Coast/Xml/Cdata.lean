import Coast.Lib.Endings
import Coast.Xml.Parser
import Mathlib.Data.List.Infix

/-!
# The end of a CDATA section

The reader looks one character ahead for an end of three. It counts on in a run of `]`, of which the last two belong to the
end if `>` follows, and all to the content otherwise.
-/

namespace Coast.Xml.GenericXMLParser

open Endings

def behind (p : GenericXMLParser) (text rest : Bytes) : GenericXMLParser :=
  { p with fReader := .on rest, fLine := p.fLine + text.count '\n'.toUInt8 }

variable {p : GenericXMLParser} {c next : UInt8} {text rest result : Bytes} {fuel : Nat}

theorem behind_behind (p : GenericXMLParser) (text text' rest rest' : Bytes) :
    (p.behind text rest).behind text' rest' = p.behind (text ++ text') rest' := by
  simp [behind, Int.add_assoc]

theorem get_on (here : p.fReader = .on (c :: rest)) : get p = some (some c, p.behind [c] rest) := by
  obtain ⟨tree, reader, name, line⟩ := p
  subst here
  by_cases newline : c = '\n'.toUInt8
  · subst newline
    rfl
  · have same : (some c = some '\n'.toUInt8) = False := by simpa using newline
    simp [get, behind, IStream.on, IStream.get, IStream.good, newline]

theorem peek_on (here : p.fReader = .on (c :: rest)) : peek p = some (some c, p) := by
  obtain ⟨tree, reader, name, line⟩ := p
  subst here
  rfl

theorem skipExceeding_run (n : Nat) (enough : n < fuel) (other : c ≠ ']'.toUInt8)
    (here : p.fReader = .on (List.replicate n ']'.toUInt8 ++ c :: rest)) :
    skipExceeding fuel result p =
      some ((some c, result ++ List.replicate n ']'.toUInt8), p.behind (List.replicate n ']'.toUInt8 ++ [c]) rest) := by
  induction n generalizing fuel result p with
  | zero =>
    obtain ⟨fuel, rfl⟩ := Nat.exists_eq_succ_of_ne_zero (Nat.ne_of_gt enough)
    rw [skipExceeding, bind_run (get_on here), if_neg (by simpa using other)]
    simp
    rfl
  | succ n ih =>
    obtain ⟨fuel, rfl⟩ := Nat.exists_eq_succ_of_ne_zero (Nat.ne_of_gt (Nat.zero_lt_of_lt enough))
    rw [List.replicate_succ, List.cons_append] at here
    rw [skipExceeding, bind_run (get_on here), if_pos rfl, ih (Nat.lt_of_succ_lt_succ enough) rfl, behind_behind]
    simp [List.replicate_succ]

/-! ### One round -/

theorem skipToCdata_other (nonzero : c ≠ 0) (other : c ≠ ']'.toUInt8) (here : p.fReader = .on (c :: rest)) :
    skipToCdata (fuel + 1) result p = skipToCdata fuel (result ++ [c]) (p.behind [c] rest) := by
  have alive : ¬ (some c = none ∨ some c = some 0) := by simpa using nonzero
  rw [skipToCdata, bind_run (get_on here), if_neg alive, if_neg (by simpa using other)]
  rfl

theorem skipToCdata_single (other : next ≠ ']'.toUInt8) (here : p.fReader = .on (']'.toUInt8 :: next :: rest)) :
    skipToCdata (fuel + 1) result p = skipToCdata fuel (result ++ [']'.toUInt8]) (p.behind [']'.toUInt8] (next :: rest)) := by
  have ahead : (p.behind [']'.toUInt8] (next :: rest)).fReader = .on (next :: rest) := rfl
  rw [skipToCdata, bind_run (get_on here), if_neg (by decide), if_pos rfl, bind_run (peek_on ahead), if_neg (by simpa using other)]
  rfl

theorem run_split (n : Nat) : List.replicate (n + 2) ']'.toUInt8 = List.replicate n ']'.toUInt8 ++ [']'.toUInt8, ']'.toUInt8] := by
  rw [← List.replicate_append_replicate]
  rfl

theorem skipToCdata_run {n : Nat} (enough : n ≤ fuel) (other : c ≠ ']'.toUInt8)
    (here : p.fReader = .on (List.replicate (n + 2) ']'.toUInt8 ++ c :: rest)) :
    skipToCdata (fuel + 1) result p =
      if c = '>'.toUInt8 then
        some (result ++ List.replicate n ']'.toUInt8, p.behind (List.replicate (n + 2) ']'.toUInt8 ++ [c]) rest)
      else skipToCdata fuel (result ++ (List.replicate (n + 2) ']'.toUInt8 ++ [c])) (p.behind (List.replicate (n + 2) ']'.toUInt8 ++ [c]) rest) := by
  rw [List.replicate_succ, List.replicate_succ, List.cons_append, List.cons_append] at here
  have ahead : (p.behind [']'.toUInt8] (']'.toUInt8 :: (List.replicate n ']'.toUInt8 ++ c :: rest))).fReader =
      .on (']'.toUInt8 :: (List.replicate n ']'.toUInt8 ++ c :: rest)) := rfl
  rw [skipToCdata, bind_run (get_on here), if_neg (by decide), if_pos rfl, bind_run (peek_on ahead), if_pos rfl,
    bind_run (get_on ahead), bind_run (skipExceeding_run n (Nat.lt_succ_of_le enough) other rfl), behind_behind, behind_behind]
  have text : [']'.toUInt8] ++ ([']'.toUInt8] ++ (List.replicate n ']'.toUInt8 ++ [c])) = List.replicate (n + 2) ']'.toUInt8 ++ [c] := by
    simp [List.replicate_succ]
  rw [text]
  by_cases close : c = '>'.toUInt8
  · rw [if_pos close, if_pos (by rw [close])]
    rfl
  · rw [if_neg close, if_neg (by simpa using close)]
    have order : List.replicate n ']'.toUInt8 ++ [']'.toUInt8, ']'.toUInt8, c] = List.replicate (n + 2) ']'.toUInt8 ++ [c] := by
      rw [run_split, List.append_assoc]
      rfl
    simp only [toChar, Option.getD_some, List.append_assoc, order]

theorem exists_run (text : Bytes) : ∃ n tail, text = List.replicate n ']'.toUInt8 ++ tail ∧ tail.head? ≠ some ']'.toUInt8 := by
  induction text with
  | nil => exact ⟨0, [], rfl, by simp⟩
  | cons c text ih =>
    by_cases here : c = ']'.toUInt8
    · obtain ⟨n, tail, rfl, other⟩ := ih
      exact ⟨n + 1, tail, by rw [here, List.replicate_succ, List.cons_append], other⟩
    · exact ⟨0, c :: text, rfl, by simpa using here⟩

theorem skipToCdata_content {content : Bytes} (plain : 0 ∉ content) (unclosed : ¬ ascii "]]>" <:+: content)
    (enough : content.length < fuel) (here : p.fReader = .on (content ++ (ascii "]]>" ++ rest))) :
    skipToCdata fuel result p = some (result ++ content, p.behind (content ++ ascii "]]>") rest) := by
  induction whole : content.length using Nat.strongRecOn generalizing content fuel result p with
  | ind size ih =>
    obtain ⟨fuel, rfl⟩ := Nat.exists_eq_succ_of_ne_zero (Nat.ne_of_gt (Nat.zero_lt_of_lt enough))
    obtain ⟨n, tail, rfl, other⟩ := exists_run content
    cases tail with
    | nil =>
      -- The end closes the run.
      have split : p.fReader = .on (List.replicate (n + 2) ']'.toUInt8 ++ '>'.toUInt8 :: rest) := by
        rw [here, run_split, List.append_nil, List.append_assoc]
        rfl
      rw [skipToCdata_run (by simpa using Nat.le_of_lt_succ enough) (by decide) split, if_pos rfl, List.append_nil]
      have text : List.replicate (n + 2) ']'.toUInt8 ++ ['>'.toUInt8] = List.replicate n ']'.toUInt8 ++ ascii "]]>" := by
        rw [run_split, List.append_assoc]
        rfl
      rw [text]
    | cons c tail =>
      have other : c ≠ ']'.toUInt8 := by simpa using other
      have nonzero : c ≠ 0 := by
        rintro rfl
        exact plain (by simp)
      have shorter : tail.length < fuel := by
        simp only [List.length_append, List.length_replicate, List.length_cons] at enough
        omega
      have plainTail : 0 ∉ tail := fun zero => plain (by simp [zero])
      have unclosedTail : ¬ ascii "]]>" <:+: tail := fun found =>
        unclosed (found.trans ((List.suffix_cons c tail).trans (List.suffix_append _ _)).isInfix)
      have onward : ∀ {result q}, q.fReader = .on (tail ++ (ascii "]]>" ++ rest)) →
          skipToCdata fuel result q = some (result ++ tail, q.behind (tail ++ ascii "]]>") rest) := fun there =>
        ih tail.length (by rw [← whole]; simp; omega) plainTail unclosedTail shorter there rfl
      rcases n with _ | _ | n
      · rw [skipToCdata_other nonzero other here, onward rfl, behind_behind]
        simp
      · have unclosedRest : ¬ ascii "]]>" <:+: c :: tail := fun found => unclosed (found.trans (List.suffix_append _ _).isInfix)
        have plainRest : 0 ∉ c :: tail := fun zero => plain (List.mem_append_right _ zero)
        have smaller : (c :: tail).length < size := by
          rw [← whole]
          simp
        have fits : (c :: tail).length < fuel := by
          simp only [List.length_append, List.length_replicate, List.length_cons] at enough ⊢
          omega
        rw [skipToCdata_single other here, ih _ smaller plainRest unclosedRest fits rfl rfl, behind_behind]
        simp
      · have near : c ≠ '>'.toUInt8 := by
          rintro rfl
          refine unclosed ⟨List.replicate n ']'.toUInt8, tail, ?_⟩
          rw [run_split, List.append_assoc, List.append_assoc]
          rfl
        have few : n ≤ fuel := by
          simp only [List.length_append, List.length_replicate, List.length_cons] at enough
          omega
        have split : p.fReader = .on (List.replicate (n + 2) ']'.toUInt8 ++ c :: (tail ++ (ascii "]]>" ++ rest))) := by
          rw [here, List.append_assoc, List.cons_append]
        rw [skipToCdata_run few other split, if_neg near, onward rfl, behind_behind]
        simp

/-- Content without NUL and without the end comes back, with all the `]` and `>` in it, and what is behind the end is left. Nothing
is noted as an error. -/
theorem skipToCdataClosing_content (content rest : Bytes) (plain : 0 ∉ content) (unclosed : ¬ ascii "]]>" <:+: content)
    (p : GenericXMLParser) (here : p.fReader = .on (content ++ (ascii "]]>" ++ rest))) (more : Nat) :
    skipToCdataClosing (content.length + 1 + more) p = some (content, p.behind (content ++ ascii "]]>") rest) := by
  rw [skipToCdataClosing, skipToCdata_content plain unclosed (by omega) here, List.nil_append]

theorem skipToCdataClosing_brackets :
    skipToCdataClosing 6 ⟨.null, .on (ascii "]]a]>" ++ (ascii "]]>" ++ ascii "]]>")), [], 1⟩ =
      some (ascii "]]a]>", (⟨.null, .on (ascii "]]a]>" ++ (ascii "]]>" ++ ascii "]]>")), [], 1⟩ : GenericXMLParser).behind
        (ascii "]]a]>" ++ ascii "]]>") (ascii "]]>")) := by
  exact skipToCdataClosing_content (ascii "]]a]>") (ascii "]]>") (by simp [ascii]) (by decide) _ rfl 0

end Coast.Xml.GenericXMLParser
