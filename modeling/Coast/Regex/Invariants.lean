import Coast.Regex.Prefix

/-!
# What a match keeps

A property of the position and one of the captures that no node breaks hold of everything `MatchNodes`
returns, whatever the program is. So does what is derived from it: where a match begins and ends.
-/

namespace Coast.Regex

namespace Matcher

variable {m : Matcher}

structure Preserved (m : Matcher) (I : Nat → Prop) (J : Captures → Prop) : Prop where
  simple : ∀ {op idx idx' c}, I idx → J c → m.matchSimple op idx c = some idx' → I idx'
  pushOpen : ∀ {k idx c}, I idx → J c → J (c.pushOpen k idx)
  popOpen : ∀ {k c}, J c → J (c.popOpen k)
  pushClose : ∀ {k idx c}, I idx → J c → J (c.pushClose k idx)
  popClose : ∀ {k c}, J c → J (c.popClose k)
  setStart : ∀ {k idx c}, I idx → J c → J (c.setStart k idx)
  setEnd : ∀ {k idx c}, I idx → J c → J (c.setEnd k idx)

def Returns (I : Nat → Prop) (J : Captures → Prop) (r : Result) : Prop := ∀ e c, r = some (e, c) → J c ∧ ∀ idx ∈ e, I idx

section Preserved

variable {I : Nat → Prop} {J : Captures → Prop} {rest operand : Nat → Captures → Result}

theorem reluctantLoop_returns (hrest : ∀ {idx c}, I idx → J c → Returns I J (rest idx c))
    (hoperand : ∀ {idx c}, I idx → J c → Returns I J (operand idx c)) (n : Nat) {idx : Nat} {c : Captures} (place : I idx)
    (holds : J c) : Returns I J (reluctantLoop rest operand n idx c) := by
  induction n generalizing idx c with
  | zero =>
    intro e c' ran
    cases ran
  | succ n ih =>
    intro e c' ran
    rw [reluctantLoop] at ran
    cases tried : rest idx c with
    | none => rw [tried] at ran; cases ran
    | some t =>
      rw [tried] at ran
      obtain ⟨_ | e', d⟩ := t
      · dsimp only at ran
        have held := (hrest place holds none d tried).1
        cases passed : operand idx d with
        | none => rw [passed] at ran; cases ran
        | some p =>
          rw [passed] at ran
          obtain ⟨_ | idx', d'⟩ := p
          · cases ran
            exact hoperand place held none _ passed
          · have both := hoperand place held _ _ passed
            exact ih (both.2 idx' rfl) both.1 e c' ran
      · cases ran
        exact hrest place holds _ _ tried

theorem branchLoop_keeps {operand : Int → Captures → Result} (hoperand : ∀ {node c}, J c → Returns I J (operand node c))
    (n : Nat) {node : Int} {c : Captures} (holds : J c) : Returns I J (m.branchLoop operand n node c) := by
  induction n generalizing node c with
  | zero =>
    intro e c' ran
    cases ran
  | succ n ih =>
    intro e c' ran
    rw [branchLoop] at ran
    cases tried : operand (node + 1) c with
    | none => rw [tried] at ran; cases ran
    | some t =>
      rw [tried] at ran
      have held := hoperand holds _ _ tried
      obtain ⟨_ | e', d⟩ := t
      · dsimp only at ran
        split at ran
        · exact ih held.1 e c' ran
        · cases ran
          exact held
      · cases ran
        exact held

theorem matchNodes_keeps (kept : m.Preserved I J) (fuel : Nat) (node lastNode : Int) {idx : Nat} {c : Captures} (place : I idx)
    (holds : J c) : Returns I J (m.matchNodes fuel node lastNode idx c) := by
  induction fuel generalizing node lastNode idx c with
  | zero =>
    intro e c' ran
    cases ran
  | succ fuel ih =>
    intro e c' ran
    rw [matchNodes] at ran
    have failed : ∀ {d : Captures}, J d → J d ∧ ∀ idx ∈ (none : Option Nat), I idx := fun held => ⟨held, fun _ has => by cases has⟩
    split at ran
    · cases ran
      exact failed holds
    · dsimp only at ran
      cases op : (m.program.nodeAt node).op with
      | opReluctantMaybe =>
        rw [op] at ran
        dsimp only at ran
        cases tried : m.matchNodes fuel (node + short (m.program.nodeAt node).next) m.program.length idx c with
        | none => rw [tried] at ran; cases ran
        | some t =>
          rw [tried] at ran
          have held := ih _ _ place holds _ _ tried
          obtain ⟨_ | e', d⟩ := t
          · dsimp only at ran
            cases passed : m.matchNodes fuel (node + 1) (node + short (m.program.nodeAt node).next) idx d with
            | none => rw [passed] at ran; cases ran
            | some p =>
              rw [passed] at ran
              have held' := ih _ _ place held.1 _ _ passed
              obtain ⟨_ | idx', d'⟩ := p
              · cases ran
                exact held'
              · exact ih _ _ (held'.2 idx' rfl) held'.1 e c' ran
          · cases ran
            exact held
      | opReluctantPlus =>
        rw [op] at ran
        dsimp only at ran
        cases passed : m.matchNodes fuel (node + 1) (node + short (m.program.nodeAt node).next) idx c with
        | none => rw [passed] at ran; cases ran
        | some p =>
          rw [passed] at ran
          have held := ih _ _ place holds _ _ passed
          obtain ⟨_ | idx', d⟩ := p
          · cases ran
            exact held
          · exact reluctantLoop_returns (fun place holds => ih _ _ place holds) (fun place holds => ih _ _ place holds) fuel
              (held.2 idx' rfl) held.1 e c' ran
      | opReluctantStar =>
        rw [op] at ran
        exact reluctantLoop_returns (fun place holds => ih _ _ place holds) (fun place holds => ih _ _ place holds) fuel place
          holds e c' ran
      | opOpen k =>
        rw [op] at ran
        dsimp only at ran
        have held := @ih (node + short (m.program.nodeAt node).next) m.program.length _ _ place (kept.pushOpen (k := k) place holds)
        split at ran
        · rename_i e' d tried
          cases ran
          have both := held _ _ tried
          exact ⟨kept.setStart place both.1, both.2⟩
        · rename_i d tried
          cases ran
          exact failed (kept.popOpen (held _ _ tried).1)
        · cases ran
      | opClose k =>
        rw [op] at ran
        dsimp only at ran
        have held := @ih (node + short (m.program.nodeAt node).next) m.program.length _ _ place (kept.pushClose (k := k) place holds)
        split at ran
        · rename_i e' d tried
          cases ran
          have both := held _ _ tried
          exact ⟨kept.setEnd place both.1, both.2⟩
        · rename_i d tried
          cases ran
          exact failed (kept.popClose (held _ _ tried).1)
        · cases ran
      | opBranch =>
        rw [op] at ran
        dsimp only at ran
        split at ran
        · exact branchLoop_keeps (fun holds => ih _ _ place holds) fuel holds e c' ran
        · exact ih _ _ place holds e c' ran
      | opEnd =>
        rw [op] at ran
        cases ran
        exact ⟨holds, fun idx' has => by cases has; exact place⟩
      | hole =>
        rw [op] at ran
        cases ran
        exact failed holds
      | _ =>
        rw [op] at ran
        dsimp only at ran
        split at ran
        · rename_i idx' matched
          exact ih _ _ (kept.simple place holds matched) holds e c' ran
        · cases ran
          exact failed holds

end Preserved

/-! ### Where a match lies -/

theorem matchBackref_inside {k idx idx' : Nat} {c : Captures} (inside : idx ≤ m.search.length)
    (matched : m.matchBackref k idx c = some idx') : idx' ≤ m.search.length := by
  unfold matchBackref at matched
  split at matched
  · split at matched
    · cases matched
      exact inside
    · obtain ⟨fits, compared⟩ := Option.ite_none_left_eq_some.mp matched
      split at compared
      · obtain ⟨-, is⟩ := Option.ite_none_right_eq_some.mp compared
        cases is
        omega
      · obtain ⟨-, is⟩ := Option.ite_none_right_eq_some.mp compared
        cases is
        omega
  · cases matched

theorem matchAtom_inside {text : Bytes} {idx idx' : Nat} (matched : m.matchAtom text idx = some idx') :
    idx' ≤ m.search.length := by
  obtain ⟨fits, compared⟩ := Option.ite_none_left_eq_some.mp matched
  split at compared
  · obtain ⟨-, is⟩ := Option.ite_none_right_eq_some.mp compared
    cases is
    omega
  · obtain ⟨-, is⟩ := Option.ite_none_right_eq_some.mp compared
    cases is
    omega

theorem matchSimple_inside {op : Op} {idx idx' : Nat} {c : Captures} (inside : idx ≤ m.search.length)
    (matched : m.matchSimple op idx c = some idx') : idx' ≤ m.search.length := by
  cases op with
  | opBackref k => exact matchBackref_inside inside matched
  | opAtom text => exact matchAtom_inside matched
  | opAny =>
    obtain ⟨more, is⟩ := Option.ite_none_left_eq_some.mp matched
    cases is
    omega
  | opAnyof set =>
    obtain ⟨more, tested⟩ := Option.ite_none_left_eq_some.mp matched
    obtain ⟨-, is⟩ := Option.ite_none_right_eq_some.mp tested
    cases is
    omega
  | opBol | opEol | opBow =>
    obtain ⟨-, is⟩ := Option.ite_none_left_eq_some.mp matched
    cases is
    exact inside
  | opNothing | opGoto =>
    cases matched
    exact inside
  | _ => cases matched

theorem preserved_place (i : Nat) : m.Preserved (· ≤ m.search.length) (fun c => c.startRegister 0 = some i) where
  simple inside _ matched := matchSimple_inside inside matched
  pushOpen _ holds := holds
  popOpen holds := holds
  pushClose _ holds := holds
  popClose holds := holds
  setStart {k idx c} _ holds := by
    unfold Captures.setStart
    split
    · rename_i unset
      show update c.startRegister k (some idx) 0 = some i
      unfold update
      split
      · rename_i here
        rw [← here, holds] at unset
        cases unset
      · exact holds
    · exact holds
  setEnd {k idx c} _ holds := by
    unfold Captures.setEnd
    split
    · exact holds
    · exact holds

theorem matchAt_place {f : Nat} {i : Int} {c : Captures} (inside : i ≤ m.search.length)
    (found : m.matchAt f i = some (some c)) :
    0 ≤ i ∧ c.startRegister 0 = some i.toNat ∧ ∃ e ≤ m.search.length, c.endRegister 0 = some e := by
  unfold matchAt at found
  split at found
  · cases found
  · split at found
    · rename_i e d ran
      cases found
      have begins : (Captures.start i.toNat).startRegister 0 = some i.toNat := rfl
      have both := matchNodes_keeps (preserved_place i.toNat) f 0 m.program.length (show i.toNat ≤ m.search.length by omega)
        begins _ _ ran
      exact ⟨by omega, both.1, e, both.2 e rfl, rfl⟩
    · cases found
    · cases found

theorem containedIn_place {fPrefix : Bytes} {f : Nat} {i : Int} {c : Captures}
    (found : m.containedIn fPrefix f i = some (some c)) : ∃ s e : Nat, i ≤ s ∧ s ≤ m.search.length ∧ e ≤ m.search.length ∧
      c.startRegister 0 = some s ∧ c.endRegister 0 = some e ∧ m.matchAt f s = some (some c) ∧
      m.containedIn fPrefix f s = some (some c) := by
  have again : ∀ (test : Int → Bool) (count : Nat) (j : Int), test j = true → m.matchAt f j = some (some c) →
      m.searchFrom test f (count + 1) j = some (some c) := by
    intro test count j tested here
    rw [searchFrom, if_pos tested, here]
  unfold containedIn at found ⊢
  split at found
  · cases found
  · rename_i program
    simp only [if_neg program]
    split at found
    · rename_i free
      obtain ⟨j, low, high, tested, here⟩ := searchFrom_place found
      obtain ⟨positive, start, e, inside, finish⟩ := matchAt_place (by omega) here
      refine ⟨j.toNat, e, by omega, by omega, inside, start, finish, by rwa [Int.toNat_of_nonneg positive], ?_⟩
      rw [if_pos free, Int.toNat_of_nonneg positive, show (m.search.length + 1 - j).toNat = (m.search.length - j).toNat + 1 by omega]
      exact again _ _ j tested here
    · rename_i bound
      obtain ⟨j, low, high, tested, here⟩ := searchFrom_place found
      obtain ⟨positive, start, e, inside, finish⟩ := matchAt_place (by omega) here
      refine ⟨j.toNat, e, by omega, by omega, inside, start, finish, by rwa [Int.toNat_of_nonneg positive], ?_⟩
      rw [if_neg bound, Int.toNat_of_nonneg positive,
        show (m.search.length + 1 - fPrefix.length - j).toNat = (m.search.length - fPrefix.length - j).toNat + 1 by omega]
      exact again _ _ j tested here

end Matcher

end Coast.Regex
