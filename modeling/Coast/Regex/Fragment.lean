import Coast.Regex.Backtracking

/-!
# A grammar of patterns

Patterns of characters, `.`, alternatives, groups and greedy closures, with the text of each and the
language that it denotes. A number in braces is any sequence of digits.
-/

namespace Coast.Regex.Fragment

open Languages

inductive Closure where
  | once
  | question
  | star
  | plus
  | exactly (times : Bytes)
  | atLeast (least : Bytes)
  | between (least most : Bytes)

namespace Closure

def text : Closure → Bytes
  | once => []
  | question => ['?'.toUInt8]
  | star => ['*'.toUInt8]
  | plus => ['+'.toUInt8]
  | exactly times => '\x7b'.toUInt8 :: (times ++ ['\x7d'.toUInt8])
  | atLeast least => '\x7b'.toUInt8 :: (least ++ [','.toUInt8, '\x7d'.toUInt8])
  | between least most => '\x7b'.toUInt8 :: (least ++ ','.toUInt8 :: (most ++ ['\x7d'.toUInt8]))

def least : Closure → Nat
  | once | plus => 1
  | question | star => 0
  | exactly digits | atLeast digits | between digits _ => digitsValue 10 digits

def most : Closure → Option Nat
  | once | question => some 1
  | star | plus | atLeast _ => none
  | exactly digits | between _ digits => some (digitsValue 10 digits)

/-- A number is not empty, and the greatest one is neither 0 nor below the least. -/
def wellFormed : Closure → Bool
  | once | question | star | plus => true
  | exactly times => !times.isEmpty && times.all isdigit && digitsValue 10 times != 0
  | atLeast least => !least.isEmpty && least.all isdigit
  | between least most => !least.isEmpty && least.all isdigit && !most.isEmpty && most.all isdigit &&
    decide (digitsValue 10 least ≤ digitsValue 10 most) && digitsValue 10 most != 0

def isOnce : Closure → Bool
  | once => true
  | _ => false

end Closure

mutual

/-- Alternatives. -/
inductive Exp where
  | last (b : Branch)
  | alt (b : Branch) (rest : Exp)

inductive Branch where
  | nil
  | cons (x : Operand) (closure : Closure) (rest : Branch)

inductive Operand where
  | char (escaped : Bool) (c : UInt8)
  | any
  | group (e : Exp)

end

mutual

def Exp.text : Exp → Bytes
  | .last b => b.text
  | .alt b rest => b.text ++ '|'.toUInt8 :: rest.text

def Branch.text : Branch → Bytes
  | .nil => []
  | .cons x closure rest => x.text ++ closure.text ++ rest.text

def Operand.text : Operand → Bytes
  | .char escaped c => if escaped then ['\\'.toUInt8, c] else [c]
  | .any => ['.'.toUInt8]
  | .group e => '('.toUInt8 :: (e.text ++ [')'.toUInt8])

end

mutual

noncomputable def Exp.language (flags : MatchFlags) : Exp → Language UInt8
  | .last b => b.language flags
  | .alt b rest => b.language flags + rest.language flags

noncomputable def Branch.language (flags : MatchFlags) : Branch → Language UInt8
  | .nil => 1
  | .cons x closure rest => powers (x.language flags) closure.least closure.most * rest.language flags

noncomputable def Operand.language (flags : MatchFlags) : Operand → Language UInt8
  | .char _ c => alike flags.fold [c]
  | .any => flags.anyChar
  | .group e => e.language flags

end

mutual

def Exp.nullable : Exp → Bool
  | .last b => b.nullable
  | .alt b rest => b.nullable || rest.nullable

def Branch.nullable : Branch → Bool
  | .nil => true
  | .cons x closure rest => (x.nullable || closure.least == 0) && rest.nullable

def Operand.nullable : Operand → Bool
  | .char _ _ | .any => false
  | .group e => e.nullable

end

def isLiteral (escaped : Bool) (c : UInt8) : Bool :=
  c != 0 && if escaped then !isalnum c && decide (c < 128) else !(ascii "^$.[()|\\").contains c && !isClosure c

mutual

/-- The operands of closures are not nullable. -/
def Exp.wellFormed : Exp → Bool
  | .last b => b.wellFormed
  | .alt b rest => b.wellFormed && rest.wellFormed

def Branch.wellFormed : Branch → Bool
  | .nil => true
  | .cons x closure rest => x.wellFormed && closure.wellFormed && (closure.isOnce || !x.nullable) && rest.wellFormed

def Operand.wellFormed : Operand → Bool
  | .char escaped c => isLiteral escaped c
  | .any => true
  | .group e => e.wellFormed

end

/-! ### The empty text -/

section Nullable

variable (flags : MatchFlags)

theorem nil_mem_closure {L : Language UInt8} {closure : Closure} {nullable : Bool} (operand : [] ∈ L ↔ nullable = true)
    (full : closure.isOnce = true ∨ nullable = false) :
    [] ∈ powers L closure.least closure.most ↔ (nullable || closure.least == 0) = true := by
  cases nullable with
  | true =>
    rcases full with once | full
    · cases closure with
      | once =>
        rw [Closure.least, Closure.most, powers_exactly, pow_one, operand]
        rfl
      | _ => cases once
    · cases full
  | false =>
    rw [nil_mem_powers (by simp [operand])]
    simp

mutual

theorem Exp.nil_mem_language {e : Exp} (wf : e.wellFormed = true) : [] ∈ e.language flags ↔ e.nullable = true := by
  match e with
  | .last b => exact Branch.nil_mem_language (b := b) wf
  | .alt b rest =>
    rw [Exp.wellFormed, Bool.and_eq_true] at wf
    rw [Exp.language, Language.mem_add, Branch.nil_mem_language (b := b) wf.1, Exp.nil_mem_language (e := rest) wf.2,
      Exp.nullable, Bool.or_eq_true]

theorem Branch.nil_mem_language {b : Branch} (wf : b.wellFormed = true) : [] ∈ b.language flags ↔ b.nullable = true := by
  match b with
  | .nil => exact iff_of_true Language.nil_mem_one rfl
  | .cons x closure rest =>
    simp only [Branch.wellFormed, Bool.and_eq_true, Bool.or_eq_true, Bool.not_eq_true'] at wf
    obtain ⟨⟨⟨wfx, -⟩, full⟩, later⟩ := wf
    rw [Branch.language, nil_mem_mul, Branch.nil_mem_language (b := rest) later,
      nil_mem_closure (Operand.nil_mem_language (x := x) wfx) full, Branch.nullable, Bool.and_eq_true]

theorem Operand.nil_mem_language {x : Operand} (wf : x.wellFormed = true) : [] ∈ x.language flags ↔ x.nullable = true := by
  match x with
  | .char escaped c =>
    rw [Operand.language, nil_mem_alike]
    exact iff_of_false (List.cons_ne_nil c []) (by simp [Operand.nullable])
  | .any => exact iff_of_false (nil_notMem_anyChar flags) (by simp [Operand.nullable])
  | .group e => exact Exp.nil_mem_language (e := e) wf

end

end Nullable

end Coast.Regex.Fragment
