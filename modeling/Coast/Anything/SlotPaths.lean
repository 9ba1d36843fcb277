import Coast.Anything.SlotCleaner

/-!
# Following a path

A path is the text of its steps. `LookupPath` and `IntOperate` follow the same steps, each in its own way:
the first finds slots, the second makes what is not there.
-/

namespace Coast

open Anything (isDelim atDelim scanIndex scanName ifaHash decimal decimalStep)

inductive PathStep where
  | name (k : Bytes)
  | index (digits : Bytes)
  deriving DecidableEq

namespace PathStep

def delim : PathStep → UInt8
  | name _ => '.'.toUInt8
  | index _ => ':'.toUInt8

def text : PathStep → Bytes
  | name k => k
  | index digits => digits

def tail (steps : List PathStep) : Bytes := steps.flatMap fun step => step.delim :: step.text

def path : List PathStep → Bytes
  | name k :: steps => k ++ tail steps
  | steps => tail steps

def Plain : PathStep → Prop
  | name k => Any.PathName k
  | index digits => digits ≠ [] ∧ ∀ c ∈ digits, isdigit c = true

/-- The index fits a `long`. -/
def Fits : PathStep → Prop
  | name _ => True
  | index digits => decimal digits < 2 ^ 63

variable {step : PathStep} {steps : List PathStep}

theorem tail_cons : tail (step :: steps) = step.delim :: (step.text ++ tail steps) := rfl

theorem path_name (k : Bytes) : path (name k :: steps) = k ++ tail steps := rfl

theorem isDelim_delim : isDelim '.'.toUInt8 ':'.toUInt8 step.delim = true := by
  cases step <;> rfl

theorem atDelim_tail : atDelim '.'.toUInt8 ':'.toUInt8 (tail steps) = true := by
  cases steps with
  | nil => rfl
  | cons step steps => exact isDelim_delim

theorem tail_ne_nil (some : steps ≠ []) : tail steps ≠ [] := by
  cases steps with
  | nil => exact absurd rfl some
  | cons step steps => exact List.cons_ne_nil _ _

theorem tail_trim : (if (tail steps).head? = some '.'.toUInt8 then (tail steps).tail else tail steps) = path steps := by
  cases steps with
  | nil => rfl
  | cons step steps =>
    cases step with
    | name k => rfl
    | index digits => exact if_neg (by simp [tail_cons, delim]; decide)

theorem digit_not_delim {c : UInt8} (digit : isdigit c = true) : isDelim '.'.toUInt8 ':'.toUInt8 c = false := by
  revert digit
  exact forall_byte (by decide) c

theorem Plain.inside (plain : step.Plain) : ∀ c ∈ step.text, isDelim '.'.toUInt8 ':'.toUInt8 c = false := by
  cases step with
  | name k => exact Any.PathName.inside plain
  | index digits => exact fun c mem => digit_not_delim (plain.2 c mem)

theorem Plain.nonempty (plain : step.Plain) : step.text ≠ [] := by
  cases step with
  | name k => exact Any.PathName.named plain
  | index digits => exact plain.1

theorem Plain.not_atDelim (plain : step.Plain) (tail : Bytes) : atDelim '.'.toUInt8 ':'.toUInt8 (step.text ++ tail) = false := by
  obtain ⟨c, rest, split⟩ := List.exists_cons_of_ne_nil plain.nonempty
  have first := plain.inside c (by rw [split]; exact List.mem_cons_self)
  rw [split]
  exact first

theorem path_ne_nil (some : steps ≠ []) (plain : ∀ step ∈ steps, step.Plain) : path steps ≠ [] := by
  cases steps with
  | nil => exact absurd rfl some
  | cons step steps =>
    cases step with
    | name k => exact List.append_ne_nil_of_left_ne_nil (plain _ List.mem_cons_self).nonempty _
    | index digits => exact List.cons_ne_nil _ _

theorem length_le_tail (steps : List PathStep) : steps.length ≤ (tail steps).length := by
  induction steps with
  | nil => exact Nat.le_refl 0
  | cons step steps ih =>
    rw [tail_cons, List.length_cons, List.length_cons, List.length_append]
    omega

end PathStep

/-! ### LookupPath -/

namespace Any

variable {S A : Type} {delim indexdelim : UInt8}

/-- The slot that `LookupPath` goes to in one iteration, and the rest of the path. -/
def lookupSlot (delim indexdelim : UInt8) (c : Any S A) (tok : Bytes) : Option (Nat × Bytes) :=
  if tok.head? = some indexdelim then
    match scanIndex delim indexdelim tok.tail with
    | none => none
    | some (i, tail) => if i ≥ c.getSize then none else if (c.child i.toNat).isNull then none else some (i.toNat, tail)
  else
    match scanName delim indexdelim tok with
    | none => none
    | some key =>
      match c.findIndexHint key (ifaHash key delim indexdelim) with
      | none => none
      | some i => some (i, key.drop (ifaHash key delim indexdelim).2)

def placeLoop (delim indexdelim : UInt8) : Nat → Any S A → Bytes → Option (List Nat)
  | 0, _, _ => none
  | fuel + 1, c, tok =>
    match c.lookupSlot delim indexdelim tok with
    | none => none
    | some (i, tail) => if tail.isEmpty then some [i] else (placeLoop delim indexdelim fuel (c.child i) tail).map (i :: ·)

/-- The way to the value that `LookupPath` finds. -/
def place (delim indexdelim : UInt8) (c : Any S A) (path : Bytes) : Option (List Nat) :=
  if delim = 0 ∨ indexdelim = 0 ∨ path.any (isDelim delim indexdelim) = false then (c.findIndex path).map fun i => [i]
  else if path.head? = some delim then none
  else placeLoop delim indexdelim path.length c path

theorem lookupStep_slot (c : Any S A) (tok : Bytes) : c.lookupStep delim indexdelim tok =
    (c.lookupSlot delim indexdelim tok).map fun slot => (c.child slot.1, slot.2) := by
  rw [lookupStep, lookupSlot]
  split
  · cases scanIndex delim indexdelim tok.tail with
    | none => rfl
    | some scanned =>
      dsimp only
      split
      · rfl
      · split <;> rfl
  · cases scanName delim indexdelim tok with
    | none => rfl
    | some key =>
      dsimp only
      cases c.findIndexHint key (ifaHash key delim indexdelim) <;> rfl

theorem lookupLoop_place (fuel : Nat) (c : Any S A) (tok : Bytes) : lookupLoop delim indexdelim fuel c tok =
    (placeLoop delim indexdelim fuel c tok).map fun way => c.reach way := by
  induction fuel generalizing c tok with
  | zero => rfl
  | succ fuel ih =>
    rw [lookupLoop, placeLoop, lookupStep_slot]
    cases c.lookupSlot delim indexdelim tok with
    | none => rfl
    | some slot =>
      simp only [Option.map_some]
      split
      · rfl
      · rw [ih, Option.map_map]
        rfl

theorem lookupPath_place (delim indexdelim : UInt8) (c : Any S A) (path : Bytes) : c.lookupPath delim indexdelim path =
    (c.place delim indexdelim path).map fun way => c.reach way := by
  rw [lookupPath, place]
  split
  · rw [Option.map_map]
    rfl
  · split
    · rfl
    · exact lookupLoop_place _ c path

/-! ### LookupPath along the steps -/

open PathStep (tail path Plain Fits)

def slotOf (c : Any S A) (rest : List PathStep) : PathStep → Option Nat
  | .name k => c.findIndex (if (ifaHash k).1 = 0 then k ++ tail rest else k)
  | .index digits =>
    if decimal digits < c.getSize ∧ (c.child (decimal digits)).isNull = false then some (decimal digits) else none

def placeOf : List PathStep → Any S A → Option (List Nat)
  | [], _ => some []
  | step :: steps, c => (c.slotOf steps step).bind fun i => (placeOf steps (c.child i)).map (i :: ·)

variable {c : Any S A} {steps : List PathStep}

theorem isDelim_small {d : UInt8} (isDelim : isDelim '.'.toUInt8 ':'.toUInt8 d = true) : d.toNat < 128 := by
  simp only [Anything.isDelim, Bool.or_eq_true, beq_iff_eq] at isDelim
  obtain rfl | rfl := isDelim <;> decide

theorem hash_name {k : Bytes} (isName : PathName k) {tail : Bytes} (stop : atDelim '.'.toUInt8 ':'.toUInt8 tail = true) :
    ifaHash (k ++ tail) '.'.toUInt8 ':'.toUInt8 = ifaHash k := by
  refine Anything.ifaHash_segment isName.plain isName.inside stop fun d first => ?_
  cases tail with
  | nil => cases first
  | cons d' tail =>
    cases first
    exact isDelim_small stop

theorem findIndex_hint {k : Bytes} (isName : PathName k) (c : Any S A) (steps : List PathStep) :
    c.findIndexHint (k ++ tail steps) (ifaHash k) = c.slotOf steps (.name k) := by
  rw [findIndexHint, slotOf, Anything.ifaHash_length isName.plain, List.take_left]
  split <;> rfl

theorem lookupSlot_name {k : Bytes} (isName : PathName k) {tok : Bytes}
    (start : tok = k ++ tail steps ∨ tok = '.'.toUInt8 :: (k ++ tail steps)) :
    c.lookupSlot '.'.toUInt8 ':'.toUInt8 tok = (c.slotOf steps (.name k)).map fun i => (i, tail steps) := by
  have inside := (show (PathStep.name k).Plain from isName).not_atDelim (tail steps)
  obtain ⟨d, rest, split⟩ := List.exists_cons_of_ne_nil (List.append_ne_nil_of_left_ne_nil isName.named (tail steps))
  have scanned : tok.head? ≠ some ':'.toUInt8 ∧ scanName '.'.toUInt8 ':'.toUInt8 tok = some (k ++ tail steps) := by
    simp only [PathStep.text] at inside
    rcases start with rfl | rfl
    · rw [split] at inside ⊢
      simp only [atDelim, isDelim, Bool.or_eq_false_iff, beq_eq_false_iff_ne] at inside
      exact ⟨by simpa using inside.2, by rw [scanName, if_neg inside.1]⟩
    · exact ⟨by simp; decide, by rw [scanName, if_pos rfl, inside]; rfl⟩
  have named := findIndex_hint isName c steps
  rw [lookupSlot, if_neg scanned.1, scanned.2]
  simp only [hash_name isName PathStep.atDelim_tail, named, Anything.ifaHash_length isName.plain, List.drop_left]
  cases c.slotOf steps (.name k) <;> rfl

theorem digit_next (steps : List PathStep) {d : UInt8} (next : d ∈ (tail steps).head?) : isdigit d = false := by
  cases steps with
  | nil => cases next
  | cons step steps =>
    cases next
    cases step <;> rfl

theorem lookupSlot_index {digits : Bytes} (plain : (PathStep.index digits).Plain) (fits : decimal digits < 2 ^ 63) :
    c.lookupSlot '.'.toUInt8 ':'.toUInt8 (':'.toUInt8 :: (digits ++ tail steps)) =
      (c.slotOf steps (.index digits)).map fun i => (i, tail steps) := by
  have scanned := Anything.scanIndex_eq plain.1 plain.inside PathStep.atDelim_tail fun _ => ⟨fits, fun d => digit_next steps⟩
  rw [if_pos (List.all_eq_true.mpr plain.2)] at scanned
  rw [lookupSlot, List.head?_cons, if_pos rfl, List.tail_cons, scanned]
  simp only [slotOf, Int.toNat_natCast]
  by_cases inside : decimal digits < c.getSize
  · rw [if_neg (by omega)]
    cases (c.child (decimal digits)).isNull <;> simp [inside]
  · rw [if_pos (by omega), if_neg fun both => inside both.1]
    rfl

theorem lookupSlot_step {step : PathStep} (plain : step.Plain) (fits : step.Fits) :
    c.lookupSlot '.'.toUInt8 ':'.toUInt8 (tail (step :: steps)) = (c.slotOf steps step).map fun i => (i, tail steps) := by
  cases step with
  | name k => exact lookupSlot_name plain (.inr rfl)
  | index digits => exact lookupSlot_index plain fits

theorem placeLoop_tail {fuel : Nat} (enough : steps.length ≤ fuel) (some : steps ≠ []) (plain : ∀ step ∈ steps, step.Plain)
    (fits : ∀ step ∈ steps, step.Fits) : placeLoop '.'.toUInt8 ':'.toUInt8 fuel c (tail steps) = placeOf steps c := by
  induction steps generalizing fuel c with
  | nil => exact absurd rfl some
  | cons step steps ih =>
    obtain ⟨fuel, rfl⟩ := Nat.exists_eq_succ_of_ne_zero (Nat.ne_zero_of_lt enough)
    rw [placeLoop, lookupSlot_step (plain _ List.mem_cons_self) (fits _ List.mem_cons_self), placeOf]
    cases c.slotOf steps step with
    | none => rfl
    | some i =>
      simp only [Option.map_some, Option.bind_some]
      cases steps with
      | nil => rfl
      | cons next steps =>
        rw [if_neg (by simp [PathStep.tail_cons])]
        rw [ih (Nat.le_of_succ_le_succ enough) (List.cons_ne_nil _ _) (fun step mem => plain step (List.mem_cons_of_mem _ mem))
          fun step mem => fits step (List.mem_cons_of_mem _ mem)]

theorem lookupSlot_path {step : PathStep} (plain : step.Plain) (fits : step.Fits) :
    c.lookupSlot '.'.toUInt8 ':'.toUInt8 (path (step :: steps)) = (c.slotOf steps step).map fun i => (i, tail steps) := by
  cases step with
  | name k => exact lookupSlot_name plain (.inl rfl)
  | index digits => exact lookupSlot_index plain fits

theorem length_le_path (plain : ∀ step ∈ steps, step.Plain) : steps.length ≤ (path steps).length := by
  cases steps with
  | nil => exact Nat.le_refl 0
  | cons step steps =>
    cases step with
    | name k =>
      have some := List.length_pos_iff.mpr (plain _ List.mem_cons_self).nonempty
      have long := PathStep.length_le_tail steps
      simp only [PathStep.text] at some
      rw [PathStep.path_name, List.length_cons, List.length_append]
      omega
    | index digits => exact PathStep.length_le_tail (.index digits :: steps)

theorem place_path (some : steps ≠ []) (plain : ∀ step ∈ steps, step.Plain) (fits : ∀ step ∈ steps, step.Fits) :
    c.place '.'.toUInt8 ':'.toUInt8 (path steps) = placeOf steps c := by
  obtain ⟨step, steps, rfl⟩ := List.exists_cons_of_ne_nil some
  have isStep := plain step List.mem_cons_self
  have looped : placeLoop '.'.toUInt8 ':'.toUInt8 (path (step :: steps)).length c (path (step :: steps)) = placeOf (step :: steps) c := by
    have enough := length_le_path plain
    obtain ⟨fuel, length⟩ := Nat.exists_eq_succ_of_ne_zero (Nat.ne_zero_of_lt enough)
    rw [length] at enough ⊢
    rw [← placeLoop_tail enough some plain fits, placeLoop, placeLoop, lookupSlot_path isStep (fits step List.mem_cons_self),
      lookupSlot_step isStep (fits step List.mem_cons_self)]
  have zeros : ¬ '.'.toUInt8 = 0 ∧ ¬ ':'.toUInt8 = 0 := by decide
  have differ : ¬ ':'.toUInt8 = '.'.toUInt8 := by decide
  rw [place, looped]
  simp only [zeros.1, zeros.2, false_or]
  split
  · rename_i noDelims
    rw [List.any_eq_false] at noDelims
    cases step with
    | index digits => exact absurd PathStep.isDelim_delim (noDelims _ List.mem_cons_self)
    | name k =>
      cases steps with
      | cons next steps =>
        exact absurd PathStep.isDelim_delim (noDelims next.delim (List.mem_append_right k List.mem_cons_self))
      | nil =>
        have whole : path [.name k] = k := List.append_nil k
        have key : c.slotOf [] (.name k) = c.findIndex k := by
          have whole : k ++ tail [] = k := List.append_nil k
          rw [slotOf, whole, ite_self]
        rw [whole, placeOf, key]
        cases c.findIndex k <;> rfl
  · rw [if_neg]
    cases step with
    | index digits => exact fun same => differ (Option.some.inj same)
    | name k =>
      intro same
      have inside := isStep.not_atDelim (tail steps)
      obtain ⟨d, rest, split⟩ := List.exists_cons_of_ne_nil (List.append_ne_nil_of_left_ne_nil isStep.nonempty (tail steps))
      rw [PathStep.path_name] at same
      simp only [PathStep.text] at split inside
      rw [split] at same inside
      cases same
      cases inside

/-! ### Every path that is found has steps -/

theorem steps_of_lookupSlot {tok rest : Bytes} {i : Nat} (found : c.lookupSlot '.'.toUInt8 ':'.toUInt8 tok = some (i, rest))
    (plain : 0 ∉ tok) : ∃ step : PathStep, step.Plain ∧ atDelim '.'.toUInt8 ':'.toUInt8 rest = true ∧
      (tok = step.delim :: (step.text ++ rest) ∨ ∃ k, step = .name k ∧ tok = k ++ rest) := by
  rw [lookupSlot] at found
  split at found
  · rename_i colon
    obtain ⟨d, cs, rfl⟩ : ∃ d cs, tok = d :: cs := List.exists_cons_of_ne_nil fun empty => by rw [empty] at colon; cases colon
    cases colon
    rw [List.tail_cons, scanIndex] at found
    cases start : atDelim '.'.toUInt8 ':'.toUInt8 cs with
    | true => simp [start] at found
    | false =>
      cases stop : atDelim '.'.toUInt8 ':'.toUInt8 (cs.dropWhile isdigit) with
      | false => simp [start, stop] at found
      | true =>
        simp only [start, stop, Bool.false_eq_true, if_false, if_true] at found
        split at found
        · cases found
        · split at found
          · cases found
          · cases found
            refine ⟨.index (cs.takeWhile isdigit), ⟨fun none => ?_, fun c mem => List.mem_takeWhile_imp mem⟩, stop, .inl ?_⟩
            · have same : cs.dropWhile isdigit = cs := by
                conv_rhs => rw [← List.takeWhile_append_dropWhile (p := isdigit) (l := cs), none, List.nil_append]
              rw [same, start] at stop
              cases stop
            · exact congrArg _ List.takeWhile_append_dropWhile.symm
  · rename_i noColon
    cases scanned : scanName '.'.toUInt8 ':'.toUInt8 tok with
    | none =>
      rw [scanned] at found
      cases found
    | some key =>
      have keys : atDelim '.'.toUInt8 ':'.toUInt8 key = false ∧ (tok = '.'.toUInt8 :: key ∨ tok = key) := by
        cases tok with
        | nil => cases scanned
        | cons d cs =>
          rw [scanName] at scanned
          split at scanned
          · rename_i dot
            subst dot
            cases start : atDelim '.'.toUInt8 ':'.toUInt8 cs with
            | true => simp [start] at scanned
            | false =>
              rw [start] at scanned
              cases scanned
              exact ⟨start, .inl rfl⟩
          · rename_i noDot
            cases scanned
            have other : ¬ d = ':'.toUInt8 := fun same => noColon (congrArg some same)
            exact ⟨by simp [atDelim, isDelim, noDot, other], .inr rfl⟩
      obtain ⟨text, own⟩ : ∃ text, text = key.takeWhile fun c => !isDelim '.'.toUInt8 ':'.toUInt8 c := ⟨_, rfl⟩
      obtain ⟨tail, after⟩ : ∃ tail, tail = key.dropWhile fun c => !isDelim '.'.toUInt8 ':'.toUInt8 c := ⟨_, rfl⟩
      have whole : key = text ++ tail := by rw [own, after, List.takeWhile_append_dropWhile]
      have stop : atDelim '.'.toUInt8 ':'.toUInt8 tail = true := by rw [after]; exact Anything.atDelim_dropWhile key
      have inside : ∀ c ∈ text, isDelim '.'.toUInt8 ':'.toUInt8 c = false :=
        fun c mem => Anything.not_delim_of_mem_takeWhile (own ▸ mem)
      have isName : PathName text := by
        refine ⟨fun none => ?_, fun zero => plain ?_, inside⟩
        · rw [whole, none, List.nil_append, stop] at keys
          cases keys.1
        · have member : 0 ∈ key := by rw [whole]; exact List.mem_append_left tail zero
          rcases keys.2 with rfl | rfl
          · exact List.mem_cons_of_mem _ member
          · exact member
      rw [scanned] at found
      simp only [whole, hash_name isName stop, Anything.ifaHash_length isName.plain, List.drop_left] at found
      split at found
      · cases found
      · cases found
        refine ⟨.name text, isName, stop, ?_⟩
        rw [whole] at keys
        rcases keys.2 with rfl | rfl
        · exact .inl rfl
        · exact .inr ⟨text, rfl, rfl⟩

theorem tail_of_atDelim (some : steps ≠ []) (plain : ∀ step ∈ steps, step.Plain)
    (stop : atDelim '.'.toUInt8 ':'.toUInt8 (path steps) = true) : path steps = tail steps := by
  obtain ⟨step, steps, rfl⟩ := List.exists_cons_of_ne_nil some
  cases step with
  | name k =>
    have inside := (plain _ List.mem_cons_self).not_atDelim (tail steps)
    rw [PathStep.path_name] at stop
    rw [PathStep.text, stop] at inside
    cases inside
  | index digits => rfl

theorem steps_of_placeLoop {fuel : Nat} {tok : Bytes} {way : List Nat}
    (found : placeLoop '.'.toUInt8 ':'.toUInt8 fuel c tok = some way) (plain : 0 ∉ tok) :
    ∃ steps, steps ≠ [] ∧ (∀ step ∈ steps, PathStep.Plain step) ∧ (tok = tail steps ∨ tok = path steps) := by
  induction fuel generalizing c tok way with
  | zero => cases found
  | succ fuel ih =>
    rw [placeLoop] at found
    cases slot : c.lookupSlot '.'.toUInt8 ':'.toUInt8 tok with
    | none =>
      rw [slot] at found
      cases found
    | some slot' =>
      obtain ⟨i, rest⟩ := slot'
      rw [slot] at found
      obtain ⟨step, isStep, stop, shape⟩ := steps_of_lookupSlot slot plain
      have more : ∃ steps, (∀ step ∈ steps, PathStep.Plain step) ∧ rest = tail steps := by
        cases empty : rest.isEmpty with
        | true => exact ⟨[], fun step mem => absurd mem List.not_mem_nil, List.isEmpty_iff.mp empty⟩
        | false =>
          simp only [empty, Bool.false_eq_true, if_false] at found
          obtain ⟨way', loop, -⟩ := Option.map_eq_some_iff.mp found
          have inner : 0 ∉ rest := by
            rcases shape with rfl | ⟨k, -, rfl⟩
            · exact fun mem => plain (List.mem_cons_of_mem _ (List.mem_append_right _ mem))
            · exact fun mem => plain (List.mem_append_right _ mem)
          obtain ⟨steps, some, all, same⟩ := ih loop inner
          refine ⟨steps, all, ?_⟩
          rcases same with rfl | rfl
          · rfl
          · exact tail_of_atDelim some all stop
      obtain ⟨steps, all, rfl⟩ := more
      refine ⟨step :: steps, List.cons_ne_nil _ _, fun step' mem => ?_, ?_⟩
      · rcases List.mem_cons.mp mem with rfl | mem
        · exact isStep
        · exact all step' mem
      · rcases shape with rfl | ⟨k, rfl, rfl⟩
        · exact .inl rfl
        · exact .inr rfl

theorem steps_of_place {text : Bytes} {way : List Nat} (found : c.place '.'.toUInt8 ':'.toUInt8 text = some way) (plain : 0 ∉ text) :
    ∃ steps, steps ≠ [] ∧ (∀ step ∈ steps, PathStep.Plain step) ∧ text = path steps := by
  rw [place] at found
  split at found
  · rename_i noDelims
    have zeros : ¬ '.'.toUInt8 = 0 ∧ ¬ ':'.toUInt8 = 0 := by decide
    simp only [zeros.1, zeros.2, false_or] at noDelims
    obtain ⟨i, index, -⟩ := Option.map_eq_some_iff.mp found
    obtain ⟨m, slots, rfl⟩ := array_of_findIndex index
    have isName : PathName text := by
      refine ⟨fun empty => ?_, plain, fun c mem => ?_⟩
      · rw [empty] at index
        cases index
      · simpa using List.any_eq_false.mp noDelims c mem
    refine ⟨[.name text], List.cons_ne_nil _ _, fun step mem => ?_, (List.append_nil text).symm⟩
    rw [List.mem_singleton.mp mem]
    exact isName
  · split at found
    · cases found
    · rename_i noDot
      obtain ⟨steps, some, all, same⟩ := steps_of_placeLoop found plain
      refine ⟨steps, some, all, ?_⟩
      rcases same with rfl | rfl
      · obtain ⟨step, steps, rfl⟩ := List.exists_cons_of_ne_nil some
        cases step with
        | name k => exact absurd rfl noDot
        | index digits => rfl
      · rfl

end Any

end Coast
