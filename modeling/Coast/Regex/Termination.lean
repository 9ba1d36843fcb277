import Coast.Regex.Analysis

/-!
# The engine returns

A loop ends because its operand moves on in the text. How far a back reference moves is the distance of
two entries of the stacks, so the invariant of the stacks is carried along: what was closed first was
opened before. A failed attempt may leave entries behind, but never breaks this.
-/

namespace Coast.Regex

namespace Captures

def Paired (c : Captures) : Prop :=
  ∀ k, (c.closed k).length ≤ (c.opened k).length ∧ ∀ s ∈ (c.opened k).head?, ∀ e ∈ (c.closed k).head?, s ≤ e

/-- At the position `idx` every group that is open was opened before. -/
def Ordered (c : Captures) (idx : Nat) : Prop :=
  c.Paired ∧ ∀ k, c.closed k = [] → ∀ s ∈ (c.opened k).head?, s ≤ idx

def Extends (c c' : Captures) : Prop :=
  ∀ k, c.opened k <+: c'.opened k ∧ c.closed k <+: c'.closed k ∧
    (c'.opened k).length + (c.closed k).length = (c.opened k).length + (c'.closed k).length

theorem Extends.refl (c : Captures) : Extends c c := fun _ => ⟨List.prefix_rfl, List.prefix_rfl, rfl⟩

theorem Extends.trans {a b c : Captures} (first : Extends a b) (second : Extends b c) : Extends a c := by
  intro k
  obtain ⟨opened, closed, length⟩ := first k
  obtain ⟨opened', closed', length'⟩ := second k
  exact ⟨opened.trans opened', closed.trans closed', by omega⟩

theorem ordered_start (i : Nat) : (Captures.start i).Ordered i :=
  ⟨fun _ => ⟨Nat.le_refl _, fun _ has => by cases has⟩, fun _ _ _ has => by cases has⟩

theorem head?_of_isPrefix {α : Type} {l l' : List α} (is : l <+: l') {a : α} (has : a ∈ l.head?) : a ∈ l'.head? := by
  obtain ⟨tail, rfl⟩ := is
  cases l with
  | nil => cases has
  | cons b l => exact has

theorem Ordered.back {c c' : Captures} {idx : Nat} (ordered : c.Ordered idx) (grown : Extends c c') (paired : c'.Paired) :
    c'.Ordered idx := by
  refine ⟨paired, fun k empty s has => ?_⟩
  obtain ⟨opened, closed, length⟩ := grown k
  have never : c.closed k = [] := List.prefix_nil.mp (empty ▸ closed)
  cases before : c.opened k with
  | nil =>
    -- nothing was open, so nothing is
    rw [never, empty, before] at length
    have none : c'.opened k = [] := List.length_eq_zero_iff.mp (by simpa using length)
    rw [none] at has
    cases has
  | cons first more =>
    have first' := head?_of_isPrefix opened (a := first) (by rw [before]; exact rfl)
    rw [Option.mem_unique has first']
    exact ordered.2 k never first (by rw [before]; exact rfl)

theorem Ordered.mono {c : Captures} {idx idx' : Nat} (ordered : c.Ordered idx) (le : idx ≤ idx') : c.Ordered idx' :=
  ⟨ordered.1, fun k empty s has => Nat.le_trans (ordered.2 k empty s has) le⟩

section Stacks

variable {c c' : Captures} {k idx : Nat}

@[simp] theorem opened_pushOpen (i : Nat) : (c.pushOpen k idx).opened i = if i = k then c.opened k ++ [idx] else c.opened i := rfl

@[simp] theorem closed_pushOpen : (c.pushOpen k idx).closed = c.closed := rfl

@[simp] theorem opened_popOpen (i : Nat) : (c.popOpen k).opened i = if i = k then (c.opened k).dropLast else c.opened i := rfl

@[simp] theorem closed_popOpen : (c.popOpen k).closed = c.closed := rfl

@[simp] theorem closed_pushClose (i : Nat) :
    (c.pushClose k idx).closed i = if i = k then c.closed k ++ [idx] else c.closed i := rfl

@[simp] theorem opened_pushClose : (c.pushClose k idx).opened = c.opened := rfl

@[simp] theorem closed_popClose (i : Nat) : (c.popClose k).closed i = if i = k then (c.closed k).dropLast else c.closed i := rfl

@[simp] theorem opened_popClose : (c.popClose k).opened = c.opened := rfl

theorem pushOpen_ordered (ordered : c.Ordered idx) : (c.pushOpen k idx).Ordered idx := by
  refine ⟨fun i => ?_, fun i empty s has => ?_⟩
  · obtain ⟨length, heads⟩ := ordered.1 i
    rw [opened_pushOpen, closed_pushOpen]
    split
    · rename_i same
      subst same
      refine ⟨by rw [List.length_append]; omega, fun s first e last => ?_⟩
      cases before : c.opened i with
      | nil =>
        rw [before] at length
        rw [List.length_eq_zero_iff.mp (Nat.le_zero.mp length)] at last
        cases last
      | cons b more =>
        rw [before] at first
        exact heads s (by rw [before]; exact first) e last
    · exact ⟨length, heads⟩
  · rw [opened_pushOpen] at has
    rw [closed_pushOpen] at empty
    split at has
    · rename_i same
      subst same
      cases before : c.opened i with
      | nil =>
        rw [before] at has
        cases has
        exact Nat.le_refl _
      | cons b more =>
        rw [before] at has
        exact ordered.2 i empty s (by rw [before]; exact has)
    · exact ordered.2 i empty s has

/-- Group `k` is open. -/
def IsOpen (c : Captures) (k : Nat) : Prop := (c.closed k).length < (c.opened k).length

theorem pushOpen_isOpen (ordered : c.Ordered idx) : (c.pushOpen k idx).IsOpen k := by
  have := (ordered.1 k).1
  rw [IsOpen, opened_pushOpen, closed_pushOpen, if_pos rfl, List.length_append, List.length_singleton]
  omega

theorem Extends.isOpen (grown : Extends c c') (is : c.IsOpen k) : c'.IsOpen k := by
  have := (grown k).2.2
  unfold IsOpen at is ⊢
  omega

theorem pushClose_ordered (ordered : c.Ordered idx) (is : c.IsOpen k) : (c.pushClose k idx).Ordered idx := by
  refine ⟨fun i => ?_, fun i empty s has => ?_⟩
  · obtain ⟨length, heads⟩ := ordered.1 i
    rw [closed_pushClose, opened_pushClose]
    split
    · rename_i same
      subst same
      unfold IsOpen at is
      refine ⟨by rw [List.length_append, List.length_singleton]; omega, fun s first e last => ?_⟩
      cases before : c.closed i with
      | nil =>
        rw [before] at last
        cases last
        exact ordered.2 i before s first
      | cons b more =>
        rw [before] at last
        exact heads s first e (by rw [before]; exact last)
    · exact ⟨length, heads⟩
  · rw [closed_pushClose] at empty
    split at empty
    · exact absurd empty (by simp)
    · exact ordered.2 i empty s has

theorem popOpen_paired (paired : c.Paired) (is : c.IsOpen k) : (c.popOpen k).Paired := by
  intro i
  obtain ⟨length, heads⟩ := paired i
  rw [opened_popOpen, closed_popOpen]
  split
  · rename_i same
    subst same
    unfold IsOpen at is
    refine ⟨by rw [List.length_dropLast]; omega, fun s first e last => ?_⟩
    exact heads s (head?_of_isPrefix (List.dropLast_prefix _) first) e last
  · exact ⟨length, heads⟩

theorem popClose_paired (paired : c.Paired) : (c.popClose k).Paired := by
  intro i
  obtain ⟨length, heads⟩ := paired i
  rw [closed_popClose, opened_popClose]
  split
  · rename_i same
    subst same
    refine ⟨by rw [List.length_dropLast]; omega, fun s first e last => ?_⟩
    exact heads s first e (head?_of_isPrefix (List.dropLast_prefix _) last)
  · exact ⟨length, heads⟩

theorem prefix_dropLast {α : Type} {l l' : List α} {a : α} (is : l ++ [a] <+: l') : l <+: l'.dropLast := by
  obtain ⟨tail, rfl⟩ := is
  rw [List.append_assoc, List.dropLast_append_of_ne_nil (by simp)]
  exact List.prefix_append _ _

theorem Extends.popOpen (grown : Extends (c.pushOpen k idx) c') : Extends c (c'.popOpen k) := by
  intro i
  obtain ⟨opened, closed, length⟩ := grown i
  rw [opened_popOpen, closed_popOpen]
  rw [opened_pushOpen] at opened length
  rw [closed_pushOpen] at closed length
  split
  · rename_i same
    subst same
    rw [if_pos rfl] at opened length
    refine ⟨prefix_dropLast opened, closed, ?_⟩
    have := opened.length_le
    rw [List.length_append, List.length_singleton] at this length
    rw [List.length_dropLast]
    omega
  · rename_i other
    rw [if_neg other] at opened length
    exact ⟨opened, closed, length⟩

theorem Extends.popClose (grown : Extends (c.pushClose k idx) c') : Extends c (c'.popClose k) := by
  intro i
  obtain ⟨opened, closed, length⟩ := grown i
  rw [closed_popClose, opened_popClose]
  rw [closed_pushClose] at closed length
  rw [opened_pushClose] at opened length
  split
  · rename_i same
    subst same
    rw [if_pos rfl] at closed length
    refine ⟨opened, prefix_dropLast closed, ?_⟩
    have := closed.length_le
    rw [List.length_append, List.length_singleton] at this length
    rw [List.length_dropLast]
    omega
  · rename_i other
    rw [if_neg other] at closed length
    exact ⟨opened, closed, length⟩

theorem Extends.pushClose {idx' : Nat} (grown : Extends (c.pushOpen k idx) c') : Extends c (c'.pushClose k idx') := by
  intro i
  obtain ⟨opened, closed, length⟩ := grown i
  rw [closed_pushClose, opened_pushClose]
  rw [opened_pushOpen] at opened length
  rw [closed_pushOpen] at closed length
  split
  · rename_i same
    subst same
    rw [if_pos rfl] at opened length
    refine ⟨(List.prefix_append _ _).trans opened, closed.trans (List.prefix_append _ _), ?_⟩
    rw [List.length_append, List.length_singleton] at length ⊢
    omega
  · rename_i other
    rw [if_neg other] at opened length
    exact ⟨opened, closed, length⟩

end Stacks

end Captures

open Captures

/-! ### Attempts -/

structure Moves (m : Matcher) (idx : Nat) (c : Captures) (idx' : Nat) (c' : Captures) : Prop where
  forward : idx ≤ idx'
  inside : idx' = idx ∨ idx' ≤ m.search.length
  grown : Extends c c'
  ordered : c'.Ordered idx'

def Settles (S : Nat → Captures → Prop) (idx : Nat) (c : Captures) : Result → Prop
  | some (some e, c') => S e c'
  | some (none, c') => Extends c c' ∧ c'.Ordered idx
  | none => False

def Stable (S : Nat → Captures → Prop) : Prop := ∀ e c c', c'.opened = c.opened → c'.closed = c.closed → S e c → S e c'

section Attempts

variable {m : Matcher} {S : Nat → Captures → Prop} {idx idx' : Nat} {c c' : Captures}

theorem Moves.refl (ordered : c.Ordered idx) : Moves m idx c idx c := ⟨Nat.le_refl _, .inl rfl, .refl c, ordered⟩

theorem Moves.trans {idx'' : Nat} {c'' : Captures} (first : Moves m idx c idx' c') (second : Moves m idx' c' idx'' c'') :
    Moves m idx c idx'' c'' := by
  obtain ⟨forward, inside, grown, -⟩ := first
  obtain ⟨forward', inside', grown', ordered⟩ := second
  exact ⟨by omega, by omega, grown.trans grown', ordered⟩

theorem Moves.retry (grown : Extends c c') (ordered : c'.Ordered idx) : Moves m idx c idx c' :=
  ⟨Nat.le_refl _, .inl rfl, grown, ordered⟩

theorem Settles.back (ordered : c.Ordered idx) (moves : Moves m idx c idx' c') {r : Result} (settles : Settles S idx' c' r) :
    Settles S idx c r := by
  match r with
  | none => exact settles
  | some (some e, d) => exact settles
  | some (none, d) =>
    have grown := moves.grown.trans settles.1
    exact ⟨grown, ordered.back grown settles.2.1⟩

theorem Settles.orElse {first second : Cont} (settles : Settles S idx c (first idx c))
    (otherwise : ∀ c', Extends c c' → c'.Ordered idx → Settles S idx c' (second idx c')) :
    Settles S idx c (first.orElse second idx c) := by
  unfold Cont.orElse
  match shape : first idx c with
  | none =>
    rw [shape] at settles
    exact settles
  | some (some e, d) =>
    rw [shape] at settles
    exact settles
  | some (none, d) =>
    rw [shape] at settles
    obtain ⟨grown, ordered⟩ := settles
    have later := otherwise d grown ordered
    dsimp only
    match result : second idx d with
    | none =>
      rw [result] at later
      exact later
    | some (some e, d') =>
      rw [result] at later
      exact later
    | some (none, d') =>
      rw [result] at later
      exact ⟨grown.trans later.1, later.2⟩

theorem Settles.andThen {first second : Cont} {T : Nat → Captures → Prop} (settles : Settles T idx c (first idx c))
    (next : ∀ e d, T e d → Settles S idx c (second e d)) : Settles S idx c (first.andThen second idx c) := by
  unfold Cont.andThen
  match shape : first idx c with
  | none =>
    rw [shape] at settles
    exact settles
  | some (some e, d) =>
    rw [shape] at settles
    exact next e d settles
  | some (none, d) =>
    rw [shape] at settles
    exact settles

end Attempts

/-- Whatever follows a piece returns, the piece does; where it is reached, the position has moved on if the
piece consumes something. -/
def Tame (m : Matcher) (x : Cont → Cont) (consumes : Bool) (idx : Nat) (c : Captures) : Prop :=
  ∀ S, Stable S → ∀ rest : Cont,
    (∀ idx' c', Moves m idx c idx' c' → (consumes = true → idx < idx') → Settles S idx' c' (rest idx' c')) →
    Settles S idx c (x rest idx c)

section Tame

variable {m : Matcher} {x : Cont → Cont} {idx : Nat} {c : Captures}

theorem Tame.relax {consumes : Bool} (tame : Tame m x consumes idx c) : Tame m x false idx c :=
  fun S stable rest returns => tame S stable rest fun idx' c' moves _ => returns idx' c' moves (by simp)

theorem Tame.operand {consumes : Bool} (tame : Tame m x consumes idx c) :
    Settles (fun e d => Moves m idx c e d ∧ (consumes = true → idx < e)) idx c (x .stop idx c) := by
  refine tame _ ?_ .stop fun idx' c' moves further => ⟨moves, further⟩
  intro e d d' opened closed holds
  obtain ⟨⟨forward, inside, grown, paired, early⟩, further⟩ := holds
  refine ⟨⟨forward, inside, ?_, ?_, ?_⟩, further⟩
  · intro k
    rw [opened, closed]
    exact grown k
  · intro k
    rw [opened, closed]
    exact paired k
  · intro k
    rw [opened, closed]
    exact early k

/-! ### Terminals -/

def cut (text : Bytes) : Bool := (cstr text).isEmpty

theorem matchBackref_moves {k idx' : Nat} (ordered : c.Ordered idx) (matched : m.matchBackref k idx c = some idx') :
    idx ≤ idx' ∧ (idx' = idx ∨ idx' ≤ m.search.length) := by
  unfold Matcher.matchBackref at matched
  split at matched
  · rename_i s e first last
    have le : s ≤ e := (ordered.1 k).2 s first e last
    dsimp only at matched
    split at matched
    · cases matched
      exact ⟨Nat.le_refl _, .inl rfl⟩
    · have further : (((idx : Int) + ((e : Int) - s)).toNat : Int) = idx + (e - s) := Int.toNat_of_nonneg (by omega)
      split at matched
      · cases matched
      · repeat' split at matched
        all_goals cases matched
        all_goals exact ⟨by omega, .inr (by omega)⟩
  · cases matched

theorem matchSimple_moves {op : Op} {idx' : Nat} (ordered : c.Ordered idx) (matched : m.matchSimple op idx c = some idx') :
    idx ≤ idx' ∧ (idx' = idx ∨ idx' ≤ m.search.length) ∧ (op.nullable cut = false → idx < idx') := by
  have still : some idx = some idx' → (op.nullable cut = true) →
      idx ≤ idx' ∧ (idx' = idx ∨ idx' ≤ m.search.length) ∧ (op.nullable cut = false → idx < idx') := by
    intro same skips
    cases same
    exact ⟨Nat.le_refl _, .inl rfl, fun consumes => by rw [skips] at consumes; cases consumes⟩
  cases op with
  | opBackref k =>
    obtain ⟨forward, inside⟩ := matchBackref_moves ordered matched
    exact ⟨forward, inside, fun consumes => by cases consumes⟩
  | opBol | opEol | opBow boundary =>
    simp only [Matcher.matchSimple, Option.ite_none_left_eq_some] at matched
    exact still matched.2 rfl
  | opAny =>
    simp only [Matcher.matchSimple, Option.ite_none_left_eq_some, Option.some.injEq] at matched
    exact ⟨by omega, .inr (by omega), fun _ => by omega⟩
  | opAnyof set =>
    simp only [Matcher.matchSimple, Option.ite_none_left_eq_some, Option.ite_none_right_eq_some, Option.some.injEq] at matched
    exact ⟨by omega, .inr (by omega), fun _ => by omega⟩
  | opAtom text =>
    unfold Matcher.matchSimple Matcher.matchAtom at matched
    dsimp only at matched
    split at matched
    · cases matched
    · have moved : idx' = idx + (cstr text).length := by
        repeat' split at matched
        all_goals cases matched
        all_goals rfl
      refine ⟨by omega, .inr (by omega), fun consumes => ?_⟩
      have some' : cstr text ≠ [] := by rwa [Op.nullable, cut, List.isEmpty_eq_false_iff] at consumes
      have := List.length_pos_iff.mpr some'
      omega
  | opNothing => exact still matched rfl
  | opGoto => exact still matched rfl
  | _ => cases matched

theorem tame_simple (op : Op) (ordered : c.Ordered idx) : Tame m (.simple m op) (!op.nullable cut) idx c := by
  intro S stable rest returns
  unfold Cont.simple
  cases matched : m.matchSimple op idx c with
  | none => exact ⟨.refl c, ordered⟩
  | some idx' =>
    obtain ⟨forward, inside, further⟩ := matchSimple_moves ordered matched
    have moves : Moves m idx c idx' c := ⟨forward, inside, .refl c, ordered.mono forward⟩
    exact (returns idx' c moves (by simpa using further)).back ordered moves

/-! ### Composition -/

theorem tame_skip (ordered : c.Ordered idx) : Tame m (fun rest => rest) false idx c :=
  fun _ _ _ returns => returns idx c (.refl ordered) (by simp)

theorem Tame.chain {y : Cont → Cont} {consumes consumes' : Bool} (first : Tame m x consumes idx c)
    (second : ∀ idx' c', c'.Ordered idx' → Tame m y consumes' idx' c') :
    Tame m (fun rest => x (y rest)) (consumes || consumes') idx c := by
  intro S stable rest returns
  refine first S stable _ fun idx' c' moves further => ?_
  refine second idx' c' moves.ordered S stable rest fun idx'' c'' moves' further' => ?_
  refine returns idx'' c'' (moves.trans moves') fun either => ?_
  have := moves.forward
  have := moves'.forward
  rcases Bool.or_eq_true_iff.mp either with consumes | consumes
  · have := further consumes
    omega
  · have := further' consumes
    omega

theorem Tame.orElse {y : Cont → Cont} {consumes consumes' : Bool} (first : Tame m x consumes idx c)
    (second : ∀ c', c'.Ordered idx → Tame m y consumes' idx c') :
    Tame m (fun rest => (x rest).orElse (y rest)) (consumes && consumes') idx c := by
  intro S stable rest returns
  refine (first S stable rest fun idx' c' moves further => returns idx' c' moves fun both =>
    further (Bool.and_eq_true_iff.mp both).1).orElse fun c' grown ordered => ?_
  refine second c' ordered S stable rest fun idx' c'' moves further => ?_
  exact returns idx' c'' ((Moves.retry grown ordered).trans moves) fun both => further (Bool.and_eq_true_iff.mp both).2

theorem Tame.group {k : Nat} {consumes : Bool} (ordered : c.Ordered idx)
    (inner : ∀ c', c'.Ordered idx → Tame m x consumes idx c') :
    Tame m (fun rest => .opening k (x (.closing k rest))) consumes idx c := by
  intro S stable rest returns
  have opens := pushOpen_ordered ordered (k := k)
  have body : Settles S idx (c.pushOpen k idx) (x (.closing k rest) idx (c.pushOpen k idx)) := by
    refine inner _ opens S stable _ fun idx' c' moves further => ?_
    have is := moves.grown.isOpen (pushOpen_isOpen ordered)
    have closes := pushClose_ordered moves.ordered is
    have later := returns idx' _ ⟨moves.forward, moves.inside, moves.grown.pushClose, closes⟩ further
    unfold Cont.closing
    match result : rest idx' (c'.pushClose k idx') with
    | none =>
      rw [result] at later
      exact later
    | some (some e, d) =>
      rw [result] at later
      refine stable e d _ ?_ ?_ later
      · unfold setEnd
        split <;> rfl
      · unfold setEnd
        split <;> rfl
    | some (none, d) =>
      rw [result] at later
      have grown := later.1.popClose
      exact ⟨grown, moves.ordered.back grown (popClose_paired later.2.1)⟩
  unfold Cont.opening
  dsimp only
  match result : x (.closing k rest) idx (c.pushOpen k idx) with
  | none =>
    rw [result] at body
    exact body
  | some (some e, d) =>
    rw [result] at body
    refine stable e d _ ?_ ?_ body
    · unfold setStart
      split <;> rfl
    · unfold setStart
      split <;> rfl
  | some (none, d) =>
    rw [result] at body
    have grown := body.1.popOpen
    have is := body.1.isOpen (pushOpen_isOpen ordered)
    exact ⟨grown, ordered.back grown (popOpen_paired body.2.1 is)⟩

/-! ### Loops -/

section Loop

variable (body : ∀ idx c, c.Ordered idx → Tame m x true idx c)

include body

theorem tame_loop (fuel : Nat) (ordered : c.Ordered idx) (enough : m.search.length + 1 - idx < fuel) :
    Tame m (fun rest => .loop x rest fuel) false idx c := by
  intro S stable rest returns
  induction fuel generalizing idx c with
  | zero => exact absurd enough (Nat.not_lt_zero _)
  | succ fuel ih =>
    have pass : Settles S idx c (x (.loop x rest fuel) idx c) := by
      refine body idx c ordered S stable _ fun idx' c' moves further => ?_
      have := moves.inside
      have := further rfl
      refine ih moves.ordered (by omega) fun idx'' c'' moves' _ => ?_
      exact returns idx'' c'' (moves.trans moves') (by simp)
    refine pass.orElse fun c' grown ordered' => ?_
    exact returns idx c' (.retry grown ordered') (by simp)

theorem tame_reluctantLoop (fuel : Nat) (ordered : c.Ordered idx) (enough : m.search.length + 1 - idx < fuel) :
    Tame m (fun rest => Matcher.reluctantLoop rest (x .stop) fuel) false idx c := by
  intro S stable rest returns
  induction fuel generalizing idx c with
  | zero => exact absurd enough (Nat.not_lt_zero _)
  | succ fuel ih =>
    show Settles S idx c (rest.orElse ((x .stop).andThen (Matcher.reluctantLoop rest (x .stop) fuel)) idx c)
    refine (returns idx c (.refl ordered) (by simp)).orElse fun c' grown ordered' => ?_
    refine (body idx c' ordered').operand.andThen fun e d passed => ?_
    obtain ⟨moves, further⟩ := passed
    have := moves.inside
    have := further rfl
    refine (ih moves.ordered (by omega) fun idx'' c'' moves' _ => ?_).back ordered' moves
    exact returns idx'' c'' ((Moves.retry grown ordered').trans (moves.trans moves')) (by simp)

theorem tame_reluctantPlus (fuel : Nat) (ordered : c.Ordered idx) (enough : m.search.length + 1 < fuel) :
    Tame m (fun rest => (x .stop).andThen (Matcher.reluctantLoop rest (x .stop) fuel)) true idx c := by
  intro S stable rest returns
  refine (body idx c ordered).operand.andThen fun e d passed => ?_
  obtain ⟨moves, further⟩ := passed
  refine (tame_reluctantLoop body fuel moves.ordered (by omega) S stable rest fun idx' c' moves' _ => ?_).back ordered moves
  refine returns idx' c' (moves.trans moves') fun _ => ?_
  have := moves'.forward
  have := further rfl
  omega

end Loop

theorem tame_reluctantMaybe {consumes : Bool} (ordered : c.Ordered idx) (body : ∀ c, c.Ordered idx → Tame m x consumes idx c) :
    Tame m (fun rest => rest.orElse ((x .stop).andThen rest)) false idx c := by
  intro S stable rest returns
  refine (returns idx c (.refl ordered) (by simp)).orElse fun c' grown ordered' => ?_
  refine (body c' ordered').operand.andThen fun e d passed => ?_
  exact (returns e d ((Moves.retry grown ordered').trans passed.1) (by simp)).back ordered' passed.1

theorem tame_body {x : Piece} {fuel : Nat} (full : x.nullable cut = false)
    (passes : ∀ idx c, c.Ordered idx → Tame m (x.exec m fuel) (!x.nullable cut) idx c) (idx : Nat) (c : Captures)
    (ordered : c.Ordered idx) : Tame m (x.exec m fuel) true idx c := by
  have passed := passes idx c ordered
  rwa [full] at passed

mutual

theorem Piece.tame {fuel : Nat} (enough : m.search.length + 1 < fuel) (p : Piece)
    (loops : p.Loops fun x => x.nullable cut = false) (idx : Nat) (c : Captures) (ordered : c.Ordered idx) :
    Tame m (p.exec m fuel) (!p.nullable cut) idx c := by
  match p with
  | .nothing => exact tame_skip ordered
  | .simple op => exact tame_simple op ordered
  | .group k a => exact Tame.group ordered fun c' => a.tame enough loops idx c'
  | .question x =>
    have taken := (x.tame enough loops idx c ordered).orElse fun c' ordered' => tame_skip ordered'
    rw [Bool.and_false] at taken
    exact taken
  | .star x =>
    have body := tame_body loops.1 (x.tame enough loops.2)
    exact tame_loop body fuel ordered (by omega)
  | .plus x =>
    have body := tame_body loops.1 (x.tame enough loops.2)
    have twice := (body idx c ordered).chain fun idx' c' ordered' => tame_loop body fuel ordered' (by omega)
    rw [Piece.nullable, loops.1]
    exact twice
  | .reluctantMaybe x => exact tame_reluctantMaybe ordered fun c' ordered' => x.tame enough loops idx c' ordered'
  | .reluctantStar x =>
    have body := tame_body loops.1 (x.tame enough loops.2)
    exact tame_reluctantLoop body fuel ordered (by omega)
  | .reluctantPlus x =>
    have body := tame_body loops.1 (x.tame enough loops.2)
    rw [Piece.nullable, loops.1]
    exact tame_reluctantPlus body fuel ordered enough
  | .chain x y =>
    have both := (x.tame enough loops.1 idx c ordered).chain fun idx' c' => y.tame enough loops.2 idx' c'
    rw [← Bool.not_and] at both
    exact both

theorem Alts.tame {fuel : Nat} (enough : m.search.length + 1 < fuel) (a : Alts)
    (loops : a.Loops fun x => x.nullable cut = false) (idx : Nat) (c : Captures) (ordered : c.Ordered idx) :
    Tame m (a.exec m fuel) (!a.nullable cut) idx c := by
  match a with
  | .last b => exact b.tame enough loops idx c ordered
  | .alt b others =>
    have second := fun c' => others.tame enough loops.2 idx c'
    have first : Tame m (fun rest => b.exec m fuel (if b.closed then rest else others.exec m fuel rest)) (!b.nullable cut) idx c := by
      have own := b.tame enough loops.1 idx c ordered
      cases b.closed with
      | true => exact own
      | false =>
        have both := own.chain fun idx' c' ordered' => (others.tame enough loops.2 idx' c' ordered').relax
        rwa [Bool.or_false] at both
    have either := first.orElse second
    rw [← Bool.not_or] at either
    exact either

end

end Tame

/-! ### The engine and its callers -/

/-- Cut at a NUL, the literals leave no operand of a loop nullable that was not nullable before. -/
def LoopsKept (pattern : Bytes) : Prop :=
  ∀ fuel a msg, parse pattern fuel = some (some a, msg) → a.Loops fun x => x.nullable cut = x.nullable List.isEmpty

theorem compile_parse {pattern : Bytes} {fuel : Nat} {c : Compiled} {msg : Bytes}
    (compiled : compile pattern fuel = some (some c, msg)) : ∃ a, parse pattern fuel = some (some a, msg) ∧ c = a.compiled := by
  rw [compile_eq] at compiled
  obtain ⟨⟨r, msg'⟩, reads, same⟩ := Option.map_eq_some_iff.mp compiled
  obtain ⟨mapped, rfl⟩ := Prod.mk.inj same
  obtain ⟨a, rfl, rfl⟩ := Option.map_eq_some_iff.mp mapped
  exact ⟨a, reads, rfl⟩

namespace Matcher

variable {m : Matcher}

/-- The match that begins at `idx` returns, and it ends behind its beginning. -/
def Decided (m : Matcher) (idx : Nat) : Prop :=
  ∃ f r, m.matchNodes f 0 m.program.length idx (.start idx) = some r ∧
    ∀ e ∈ r.1, idx ≤ e ∧ (e = idx ∨ e ≤ m.search.length)

theorem decided_of_loops {a : Alts} (fit : m.OffsetsFit) (whole : m.program = a.program)
    (simple : a.All fun op => op.isSimple = true) (loops : a.Loops fun x => x.nullable cut = false) (idx : Nat) :
    m.Decided idx := by
  have ordered := Captures.ordered_start idx
  have returns := a.tame (show m.search.length + 1 < m.search.length + 2 by omega) loops idx (.start idx) ordered
    (fun e _ => idx ≤ e ∧ (e = idx ∨ e ≤ m.search.length)) (fun _ _ _ _ _ holds => holds) .stop
    fun idx' c' moves _ => ⟨moves.forward, moves.inside⟩
  match result : a.exec m (m.search.length + 2) .stop idx (.start idx) with
  | none =>
    rw [result] at returns
    exact returns.elim
  | some r =>
    rw [result] at returns
    obtain ⟨f, run⟩ := a.matchNodes_program _ fit simple whole result
    refine ⟨f, r, run, fun e has => ?_⟩
    obtain ⟨_ | e', d⟩ := r
    · cases has
    · cases has
      exact returns

section Callers

variable (decided : ∀ idx, m.Decided idx)

include decided

theorem matchAt_returns (i : Int) : ∃ f r, m.matchAt f i = some r := by
  unfold matchAt
  split
  · exact ⟨0, none, rfl⟩
  · obtain ⟨f, ⟨r, c⟩, run, -⟩ := decided i.toNat
    refine ⟨f, ?_⟩
    rw [run]
    cases r with
    | none => exact ⟨_, rfl⟩
    | some e => exact ⟨_, rfl⟩

theorem matchAt_end {f : Nat} {i : Int} {c : Captures} (found : m.matchAt f i = some (some c)) :
    ∃ e : Nat, c.endRegister 0 = some e ∧ i ≤ e ∧ ((e : Int) = i ∨ e ≤ m.search.length) := by
  unfold matchAt at found
  split at found
  · cases found
  · obtain ⟨f', r, run, bounds⟩ := decided i.toNat
    have same : ∀ r', m.matchNodes f 0 m.program.length i.toNat (.start i.toNat) = some r' → r' = r := by
      intro r' run'
      have first := m.matchNodes_mono (Nat.le_max_left f f') _ _ _ _ _ run'
      have second := m.matchNodes_mono (Nat.le_max_right f f') _ _ _ _ _ run
      rw [first] at second
      exact Option.some.inj second
    split at found
    · rename_i e c' run'
      cases found
      have := bounds e (by rw [← same _ run']; exact rfl)
      exact ⟨e, rfl, by omega, by omega⟩
    · cases found
    · cases found

theorem searchFrom_returns (test : Int → Bool) (count : Nat) (i : Int) : ∃ f r, m.searchFrom test f count i = some r := by
  induction count generalizing i with
  | zero => exact ⟨0, none, rfl⟩
  | succ count ih =>
    obtain ⟨f, r, later⟩ := ih (i + 1)
    by_cases tested : test i = true
    · obtain ⟨g, first, here⟩ := matchAt_returns decided i
      refine ⟨max f g, ?_⟩
      rw [searchFrom, if_pos tested, m.matchAt_mono (Nat.le_max_right f g) i _ here]
      cases first with
      | some c => exact ⟨_, rfl⟩
      | none => exact ⟨r, m.searchFrom_mono test (Nat.le_max_left f g) count (i + 1) r later⟩
    · exact ⟨f, r, by rw [searchFrom, if_neg tested, later]⟩

theorem containedIn_returns (fPrefix : Bytes) (i : Int) : ∃ f r, m.containedIn fPrefix f i = some r := by
  unfold containedIn
  split
  · exact ⟨0, none, rfl⟩
  · split
    · exact searchFrom_returns decided _ _ i
    · exact searchFrom_returns decided _ _ i

theorem containedIn_end {fPrefix : Bytes} {f : Nat} {i : Int} {c : Captures} (inside : i < m.search.length)
    (found : m.containedIn fPrefix f i = some (some c)) :
    ∃ e : Nat, c.endRegister 0 = some e ∧ i ≤ e ∧ e ≤ m.search.length := by
  have position : ∃ j, i ≤ j ∧ j ≤ m.search.length ∧ m.matchAt f j = some (some c) := by
    unfold containedIn at found
    split at found
    · cases found
    · split at found
      · obtain ⟨j, low, high, -, here⟩ := searchFrom_place found
        exact ⟨j, low, by omega, here⟩
      · obtain ⟨j, low, high, -, here⟩ := searchFrom_place found
        exact ⟨j, low, by omega, here⟩
  obtain ⟨j, low, high, here⟩ := position
  obtain ⟨e, is, low', high'⟩ := matchAt_end decided here
  exact ⟨e, is, by omega, by omega⟩

theorem containedIn_uniform (fPrefix : Bytes) (n : Nat) : ∃ f, ∀ i < n, ∃ r, m.containedIn fPrefix f i = some r := by
  induction n with
  | zero => exact ⟨0, fun i less => absurd less (Nat.not_lt_zero i)⟩
  | succ n ih =>
    obtain ⟨f, earlier⟩ := ih
    obtain ⟨g, r, last⟩ := containedIn_returns decided fPrefix n
    refine ⟨max f g, fun i less => ?_⟩
    by_cases here : i = n
    · subst here
      exact ⟨r, m.containedIn_mono fPrefix (Nat.le_max_right f g) _ r last⟩
    · obtain ⟨r', before⟩ := earlier i (by omega)
      exact ⟨r', m.containedIn_mono fPrefix (Nat.le_max_left f g) _ r' before⟩

section Positions

variable (short : m.search.length < 2 ^ 31) {fPrefix : Bytes} {f : Nat}
  (uniform : ∀ i < m.search.length, ∃ r, m.containedIn fPrefix f i = some r)

include short uniform

theorem next_position {pos : Int} (low : 0 ≤ pos) (inside : pos < m.search.length) :
    m.containedIn fPrefix f pos = some none ∨ ∃ c, m.containedIn fPrefix f pos = some (some c) ∧
      let newpos := register (c.endRegister 0)
      pos < toInt (if newpos = pos then newpos + 1 else newpos) ∧
        toInt (if newpos = pos then newpos + 1 else newpos) ≤ m.search.length := by
  obtain ⟨r, found⟩ := uniform pos.toNat (by omega)
  rw [Int.toNat_of_nonneg low] at found
  cases r with
  | none => exact .inl found
  | some c =>
    refine .inr ⟨c, found, ?_⟩
    obtain ⟨e, is, low', high⟩ := containedIn_end decided inside found
    rw [is]
    show pos < toInt (if (e : Int) = pos then e + 1 else e) ∧ toInt (if (e : Int) = pos then e + 1 else e) ≤ m.search.length
    unfold toInt
    split
    · omega
    · omega

theorem splitLoop_returns (n : Nat) {pos : Int} (low : 0 ≤ pos) (high : pos ≤ m.search.length)
    (enough : m.search.length - pos < n) (res : List Bytes) : m.splitLoop fPrefix f n pos res ≠ none := by
  induction n generalizing pos res with
  | zero => omega
  | succ n ih =>
    rw [splitLoop]
    split
    · rename_i inside
      rcases next_position decided short uniform low inside with none' | ⟨c, found, further, within⟩
      · rw [none']
        exact Option.some_ne_none _
      · rw [found]
        dsimp only at further within ⊢
        split
        · rename_i same
          rw [if_pos same] at further within
          exact ih (by omega) within (by omega) _
        · rename_i differ
          rw [if_neg differ] at further within
          exact ih (by omega) within (by omega) _
    · exact Option.some_ne_none _

theorem substLoop_returns (substitution : Bytes) (replaceall : Bool) (n : Nat) {pos : Int} (low : 0 ≤ pos)
    (high : pos ≤ m.search.length) (enough : m.search.length - pos < n) (ret : Bytes) :
    m.substLoop substitution replaceall fPrefix f n pos ret ≠ none := by
  induction n generalizing pos ret with
  | zero => omega
  | succ n ih =>
    rw [substLoop]
    split
    · rename_i inside
      rcases next_position decided short uniform low inside with none' | ⟨c, found, further, within⟩
      · rw [none']
        exact Option.some_ne_none _
      · rw [found]
        dsimp only at further within ⊢
        split
        · exact ih (by omega) within (by omega) _
        · exact Option.some_ne_none _
    · exact Option.some_ne_none _

end Positions

theorem split_subst_return (short : m.search.length < 2 ^ 31) (fPrefix : Bytes) :
    ∃ f, m.split fPrefix f ≠ none ∧ ∀ substitution replaceall, m.subst substitution replaceall fPrefix f ≠ none := by
  obtain ⟨f, uniform⟩ := containedIn_uniform decided fPrefix m.search.length
  obtain ⟨g, more⟩ : ∃ g, g = max f (m.search.length + 1) := ⟨_, rfl⟩
  have uniform' : ∀ i < m.search.length, ∃ r, m.containedIn fPrefix g i = some r := by
    intro i less
    obtain ⟨r, found⟩ := uniform i less
    exact ⟨r, m.containedIn_mono fPrefix (by omega) i r found⟩
  refine ⟨g, ?_, fun substitution replaceall => ?_⟩
  · have loop := splitLoop_returns decided short uniform' g (Int.le_refl 0) (by omega) (by omega) []
    unfold split
    split
    · exact Option.some_ne_none _
    · exact absurd ‹_› loop
  · have loop := substLoop_returns decided short uniform' substitution replaceall g (Int.le_refl 0) (by omega) (by omega) []
    unfold subst
    split
    · exact Option.some_ne_none _
    · exact absurd ‹_› loop

end Callers

theorem grepLoop_mono {α : Type} (asString : α → Bytes) (fPrefix : Bytes) {f g : Nat} (le : f ≤ g) (search res : List (Option Bytes × α)) :
    Below (m.grepLoop asString fPrefix f search res) (m.grepLoop asString fPrefix g search res) := by
  induction search generalizing res with
  | nil => exact Below.refl _
  | cons slot rest ih =>
    intro r found
    obtain ⟨sname, value⟩ := slot
    rw [grepLoop] at found ⊢
    cases run : containedIn { m with search := asString value } fPrefix f 0 with
    | none => rw [run] at found; cases found
    | some t =>
      rw [containedIn_mono _ fPrefix le 0 t run]
      rw [run] at found
      cases t with
      | none => exact ih _ r found
      | some c => exact ih _ r found

theorem grep_returns (decided : ∀ text idx, Decided { m with search := text } idx) {α : Type} (asString : α → Bytes) (fPrefix : Bytes)
    (search : List (Option Bytes × α)) : ∃ f, m.grep asString fPrefix f search ≠ none := by
  have loop : ∀ res, ∃ f r, m.grepLoop asString fPrefix f search res = some r := by
    induction search with
    | nil => exact fun res => ⟨0, res, rfl⟩
    | cons slot rest ih =>
      intro res
      obtain ⟨sname, value⟩ := slot
      obtain ⟨f, t, found⟩ := containedIn_returns (decided (asString value)) fPrefix 0
      cases t with
      | none =>
        obtain ⟨g, r, later⟩ := ih res
        refine ⟨max f g, r, ?_⟩
        rw [grepLoop, containedIn_mono _ fPrefix (Nat.le_max_left f g) 0 _ found]
        exact grepLoop_mono asString fPrefix (Nat.le_max_right f g) rest _ r later
      | some c =>
        obtain ⟨g, r, later⟩ := ih (res ++ [(if sname.isSome && res.any fun slot => slot.1 == sname then none else sname, value)])
        refine ⟨max f g, r, ?_⟩
        rw [grepLoop, containedIn_mono _ fPrefix (Nat.le_max_left f g) 0 _ found]
        exact grepLoop_mono asString fPrefix (Nat.le_max_right f g) rest _ r later
  obtain ⟨f, r, done⟩ := loop []
  exact ⟨f, by rw [grep, done]; exact Option.some_ne_none r⟩

end Matcher

open Matcher

theorem parse_unique {pattern : Bytes} {f g : Nat} {r r' : Option Alts × Bytes} (reads : parse pattern f = some r)
    (reads' : parse pattern g = some r') : r = r' := by
  have first := parse_mono pattern (Nat.le_max_left f g) reads
  have second := parse_mono pattern (Nat.le_max_right f g) reads'
  rw [first] at second
  exact Option.some.inj second

theorem nul_loop_hangs (flags : MatchFlags) (search : Bytes) {idx : Nat} (inside : idx ≤ search.length) (f : Nat) (c : Captures) :
    matchNodes ⟨Alts.program (.last (.star (.simple (.opAtom [0])))), flags, search⟩ f 0 8 idx c = none := by
  obtain ⟨m, is⟩ : ∃ m : Matcher, m = ⟨Alts.program (.last (.star (.simple (.opAtom [0])))), flags, search⟩ := ⟨_, rfl⟩
  have atom : ∀ c, m.matchSimple (.opAtom [0]) idx c = some idx := by
    intro c
    subst is
    show (if search.length < 0 + idx then none else _) = _
    rw [if_neg (by omega)]
    cases flags.icase with
    | true => rfl
    | false => rfl
  -- from each node of the loop the engine comes to another one at the same position
  have around : ∀ f c, m.matchNodes f 0 8 idx c = none ∧ m.matchNodes f 1 8 idx c = none ∧ m.matchNodes f 2 8 idx c = none ∧
      m.matchNodes f 3 8 idx c = none ∧ m.matchNodes f 4 8 idx c = none := by
    intro f
    induction f with
    | zero => exact fun c => ⟨rfl, rfl, rfl, rfl, rfl⟩
    | succ f ih =>
      intro c
      obtain ⟨-, one, two, three, four⟩ := ih c
      have literal : m.matchNodes (f + 1) 2 8 idx c = m.matchNodes f 3 8 idx c := by
        have op : (m.program.nodeAt 2).op = .opAtom [0] := by rw [is]; rfl
        have next : (2 : Int) + short (m.program.nodeAt 2).next = 3 := by rw [is]; rfl
        rw [matchNodes, if_neg (by decide)]
        simp only [op, next, atom]
      subst is
      refine ⟨one, ?_, literal.trans three, four, one⟩
      show branchLoop _ (fun node c => matchNodes _ f node 8 idx c) f 1 c = none
      cases f with
      | zero => rfl
      | succ f => rw [branchLoop, show (1 : Int) + 1 = 2 from rfl, two]
  rw [← is]
  exact (around f c).1
theorem compile_nul_loop : compile (ascii "\\0*") 20 = some (some (Alts.last (.star (.simple (.opAtom [0])))).compiled, []) :=
  compile_of_parse rfl

end Coast.Regex
