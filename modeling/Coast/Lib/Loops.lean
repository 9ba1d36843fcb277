import Mathlib.Data.PFun

/-!
# Loops

A turn of a loop ends it with a result or goes on with a state. `Loops.loop` takes turns without a
bound; a loop with fuel computes it when a variant falls with every turn that goes on.
-/

namespace Loops

variable {σ ρ : Type*}

/-- `while (true)`: defined where some turn ends it. -/
def loop (turn : σ → ρ ⊕ σ) : PFun σ ρ := PFun.fix (PFun.lift turn)

def Falls (turn : σ → ρ ⊕ σ) (variant : σ → Nat) : Prop := ∀ s s', turn s = .inr s' → variant s' < variant s

def Fueled (turn : σ → ρ ⊕ σ) (run : Nat → σ → ρ) : Prop := ∀ fuel s, run (fuel + 1) s = (turn s).elim id (run fuel)

variable {turn : σ → ρ ⊕ σ} {variant : σ → Nat} {run : Nat → σ → ρ}

theorem mem_loop_of_ends {s : σ} {r : ρ} (ends : turn s = .inl r) : r ∈ loop turn s :=
  PFun.fix_stop (Part.mem_some_iff.mpr ends.symm)

theorem loop_goes_on {s s' : σ} (next : turn s = .inr s') : loop turn s = loop turn s' :=
  PFun.fix_fwd_eq (Part.mem_some_iff.mpr next.symm)

theorem not_mem_loop (kind : σ → Prop) (goesOn : ∀ s, kind s → ∃ s', turn s = .inr s' ∧ kind s') {s : σ} (here : kind s)
    (r : ρ) : r ∉ loop turn s := by
  intro ends
  refine PFun.fixInduction (C := fun s => ¬ kind s) ends (fun s _ later here => ?_) here
  obtain ⟨s', next, here'⟩ := goesOn s here
  exact later s' (Part.mem_some_iff.mpr next.symm) here'

theorem mem_loop_of_fuel_within {inv : σ → Prop} (fueled : Fueled turn run)
    (falls : ∀ s s', inv s → turn s = .inr s' → inv s' ∧ variant s' < variant s) {fuel : Nat} {s : σ} (start : inv s)
    (enough : variant s < fuel) : run fuel s ∈ loop turn s := by
  induction fuel generalizing s with
  | zero => omega
  | succ fuel ih =>
    rw [fueled]
    rcases next : turn s with r | s'
    · exact mem_loop_of_ends next
    · obtain ⟨kept, lower⟩ := falls s s' start next
      rw [loop_goes_on next]
      exact ih kept (by omega)

theorem mem_loop_of_fuel (fueled : Fueled turn run) (falls : Falls turn variant) {fuel : Nat} {s : σ}
    (enough : variant s < fuel) : run fuel s ∈ loop turn s :=
  @mem_loop_of_fuel_within _ _ turn variant run (fun _ => True) fueled (fun s s' _ next => ⟨trivial, falls s s' next⟩) _ _ trivial enough

theorem loop_congr {s t : σ} (same : turn s = turn t) : loop turn s = loop turn t := by
  rcases next : turn t with r | s'
  · have stops : ∀ u, turn u = .inl r → loop turn u = Part.some r := fun u ends => Part.eq_some_iff.mpr (mem_loop_of_ends ends)
    rw [stops s (same.trans next), stops t next]
  · rw [loop_goes_on (same.trans next), loop_goes_on next]

/-! ### Turns that are counted -/

def after (turn : σ → ρ ⊕ σ) : Nat → σ → Option σ
  | 0, s => some s
  | n + 1, s => (turn s).elim (fun _ => none) (after turn n)

def counted (turn : σ → ρ ⊕ σ) (marked : σ → σ → Bool) : Nat → σ → Nat
  | 0, _ => 0
  | n + 1, s => (turn s).elim (fun _ => 0) fun s' => (marked s s').toNat + counted turn marked n s'

theorem dom_loop_iff {s : σ} : (loop turn s).Dom ↔ ∃ n, after turn n s = none := by
  constructor
  · intro ends
    refine PFun.fixInduction (C := fun s => ∃ n, after turn n s = none) (Part.get_mem ends) fun s _ later => ?_
    rcases next : turn s with r | s'
    · exact ⟨1, by rw [after, next]; rfl⟩
    · obtain ⟨n, ended⟩ := later s' (Part.mem_some_iff.mpr next.symm)
      exact ⟨n + 1, by rw [after, next]; exact ended⟩
  · rintro ⟨n, ended⟩
    induction n generalizing s with
    | zero => cases ended
    | succ n ih =>
      rw [after] at ended
      rcases next : turn s with r | s'
      · exact (mem_loop_of_ends next).1
      · rw [next] at ended
        rw [loop_goes_on next]
        exact ih ended

/-- Every turn without a mark lowers the potential, and one with a mark raises it by `k` at most. -/
structure Pays (turn : σ → ρ ⊕ σ) (marked : σ → σ → Bool) (potential : σ → Nat) (k : Nat) (inv : σ → Prop) : Prop where
  keeps : ∀ s s', inv s → turn s = .inr s' → inv s'
  lowers : ∀ s s', inv s → turn s = .inr s' → marked s s' = false → potential s' < potential s
  raises : ∀ s s', inv s → turn s = .inr s' → marked s s' = true → potential s' ≤ potential s + k

variable {marked : σ → σ → Bool} {potential : σ → Nat} {k : Nat} {inv : σ → Prop}

theorem Pays.after_le (pays : Pays turn marked potential k inv) {n : Nat} {s s' : σ} (start : inv s)
    (on : after turn n s = some s') : n ≤ potential s + (k + 1) * counted turn marked n s := by
  induction n generalizing s with
  | zero => omega
  | succ n ih =>
    rw [after] at on
    rw [counted]
    rcases next : turn s with r | t
    · rw [next] at on
      cases on
    · rw [next] at on
      have rest := ih (pays.keeps s t start next) on
      simp only [Sum.elim_inr]
      cases mark : marked s t with
      | false =>
        have lower := pays.lowers s t start next mark
        simp only [Bool.toNat_false, Nat.zero_add]
        omega
      | true =>
        have raised := pays.raises s t start next mark
        simp only [Bool.toNat_true, Nat.mul_add, Nat.mul_one]
        omega

theorem counted_le_of_ended {n : Nat} {s : σ} (ended : after turn n s = none) (m : Nat) : counted turn marked m s ≤ n := by
  induction n generalizing s m with
  | zero => cases ended
  | succ n ih =>
    cases m with
    | zero => exact Nat.zero_le _
    | succ m =>
      rw [after] at ended
      rw [counted]
      rcases next : turn s with r | t
      · exact Nat.zero_le _
      · rw [next] at ended
        have rest := ih ended m
        have one := Bool.toNat_le (marked s t)
        simp only [Sum.elim_inr]
        omega

theorem Pays.dom_iff (pays : Pays turn marked potential k inv) {s : σ} (start : inv s) :
    (loop turn s).Dom ↔ ∃ c, ∀ n, counted turn marked n s ≤ c := by
  rw [dom_loop_iff]
  constructor
  · rintro ⟨n, ended⟩
    exact ⟨n, counted_le_of_ended ended⟩
  · rintro ⟨c, bounded⟩
    refine ⟨potential s + (k + 1) * c + 1, ?_⟩
    by_contra on
    obtain ⟨s', still⟩ := Option.ne_none_iff_exists'.mp on
    have le := pays.after_le start still
    have most := Nat.mul_le_mul_left (k + 1) (bounded (potential s + (k + 1) * c + 1))
    omega

end Loops
