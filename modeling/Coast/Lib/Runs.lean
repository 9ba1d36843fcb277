import Mathlib.Tactic.Common

/-!
# Runs of a partial step function

A step may fail. `Meets` says that every step of a run is taken in a state that meets a condition, up
to the first failure.
-/

namespace Runs

variable {σ τ α ε : Type*}

def run (step : α → σ → Except ε σ) : List α → σ → Except ε σ
  | [], s => .ok s
  | x :: xs, s =>
    match step x s with
    | .ok s' => run step xs s'
    | .error e => .error e

def Meets (step : α → σ → Except ε σ) (cond : α → σ → Prop) : List α → σ → Prop
  | [], _ => True
  | x :: xs, s => cond x s ∧ ∀ s', step x s = .ok s' → Meets step cond xs s'

variable {step : α → σ → Except ε σ} {cond : α → σ → Prop}

theorem run_of_ok {x : α} {s s' : σ} (taken : step x s = .ok s') (xs : List α) : run step (x :: xs) s = run step xs s' := by
  show (match step x s with | .ok s' => run step xs s' | .error e => .error e) = _
  rw [taken]

theorem run_of_error {x : α} {s : σ} {e : ε} (failed : step x s = .error e) (xs : List α) : run step (x :: xs) s = .error e := by
  show (match step x s with | .ok s' => run step xs s' | .error e => .error e) = _
  rw [failed]

theorem run_cons_ok {x : α} {xs : List α} {s s'' : σ} (done : run step (x :: xs) s = .ok s'') :
    ∃ s', step x s = .ok s' ∧ run step xs s' = .ok s'' := by
  match taken : step x s with
  | .ok s' => exact ⟨s', rfl, run_of_ok taken xs ▸ done⟩
  | .error e =>
    rw [run_of_error taken] at done
    cases done

theorem meets_of_ok {x : α} {xs : List α} {s s' : σ} (taken : step x s = .ok s') (holds : cond x s) :
    Meets step cond (x :: xs) s ↔ Meets step cond xs s' := by
  constructor
  · exact fun meets => meets.2 s' taken
  · intro meets
    refine ⟨holds, fun t same => ?_⟩
    cases taken.symm.trans same
    exact meets

theorem run_concat {xs : List α} {s s' : σ} (done : run step xs s = .ok s') (x : α) :
    run step (xs ++ [x]) s = step x s' := by
  induction xs generalizing s with
  | nil =>
    cases done
    match taken : step x s' with
    | .ok _ => exact run_of_ok taken []
    | .error _ => exact run_of_error taken []
  | cons y ys ih =>
    obtain ⟨s₁, taken, rest⟩ := run_cons_ok done
    exact (run_of_ok taken (ys ++ [x])).trans (ih rest)

/-- Where each step fails in a bad way exactly when the condition does not hold, so do runs. The steps
are taken as `pre` allows. -/
theorem never_bad_iff (inv : σ → Prop) {pre : α → σ → Prop} {bad : ε → Prop}
    (succeeds : ∀ x s, inv s → pre x s → cond x s → ∃ s', step x s = .ok s' ∧ inv s')
    (fails : ∀ x s, inv s → pre x s → ¬ cond x s → ∃ e, step x s = .error e ∧ bad e) (xs : List α) {s : σ}
    (start : inv s) (allowed : Meets step pre xs s) :
    (∀ e, bad e → run step xs s ≠ .error e) ↔ Meets step cond xs s := by
  induction xs generalizing s with
  | nil => exact ⟨fun _ => trivial, fun _ e _ failed => by cases failed⟩
  | cons x xs ih =>
    obtain ⟨first, later⟩ := allowed
    by_cases holds : cond x s
    · obtain ⟨s', taken, kept⟩ := succeeds x s start first holds
      have rest := ih kept (later s' taken)
      rw [run_of_ok taken, meets_of_ok taken holds]
      exact rest
    · obtain ⟨e, failed, isBad⟩ := fails x s start first holds
      exact iff_of_false (fun never => never e isBad (run_of_error failed xs)) fun meets => holds meets.1

theorem run_keeps {inv : σ → Prop} (keeps : ∀ x s, inv s → cond x s → ∃ s', step x s = .ok s' ∧ inv s') (xs : List α)
    {s : σ} (start : inv s) (meets : Meets step cond xs s) : ∃ s', run step xs s = .ok s' ∧ inv s' := by
  induction xs generalizing s with
  | nil => exact ⟨s, rfl, start⟩
  | cons x xs ih =>
    obtain ⟨first, later⟩ := meets
    obtain ⟨s', taken, kept⟩ := keeps x s start first
    rw [run_of_ok taken]
    exact ih kept (later s' taken)

theorem run_keeps_or {inv : σ → Prop} {impossible : ε}
    (keeps : ∀ x s, inv s → cond x s → step x s = .error impossible ∨ ∃ s', step x s = .ok s' ∧ inv s') (xs : List α) {s : σ}
    (start : inv s) (meets : Meets step cond xs s) : run step xs s = .error impossible ∨ ∃ s', run step xs s = .ok s' ∧ inv s' := by
  induction xs generalizing s with
  | nil => exact .inr ⟨s, rfl, start⟩
  | cons x xs ih =>
    obtain ⟨first, later⟩ := meets
    obtain failed | ⟨s', taken, kept⟩ := keeps x s start first
    · exact .inl (run_of_error failed xs)
    · rw [run_of_ok taken]
      exact ih kept (later s' taken)

theorem run_simulates {model : α → τ → τ} {rel : σ → τ → Prop}
    (follows : ∀ x s t, rel s t → cond x s → ∃ s', step x s = .ok s' ∧ rel s' (model x t)) (xs : List α) {s : σ} {t : τ}
    (start : rel s t) (meets : Meets step cond xs s) :
    ∃ s', run step xs s = .ok s' ∧ rel s' (xs.foldl (fun t x => model x t) t) := by
  induction xs generalizing s t with
  | nil => exact ⟨s, rfl, start⟩
  | cons x xs ih =>
    obtain ⟨first, later⟩ := meets
    obtain ⟨s', taken, next⟩ := follows x s t start first
    obtain ⟨s'', done, last⟩ := ih next (later s' taken)
    exact ⟨s'', (run_of_ok taken xs).trans done, last⟩

theorem run_ok_keeps {inv : σ → Prop} (keeps : ∀ x s s', inv s → cond x s → step x s = .ok s' → inv s') {xs : List α}
    {s s' : σ} (start : inv s) (meets : Meets step cond xs s) (done : run step xs s = .ok s') : inv s' := by
  induction xs generalizing s with
  | nil =>
    cases done
    exact start
  | cons x xs ih =>
    obtain ⟨first, later⟩ := meets
    obtain ⟨t, taken, rest⟩ := run_cons_ok done
    exact ih (keeps x s t start first taken) (later t taken) rest

theorem meets_of_mem {xs : List α} (all : ∀ x ∈ xs, ∀ s, cond x s) (s : σ) : Meets step cond xs s := by
  induction xs generalizing s with
  | nil => trivial
  | cons x xs ih =>
    exact ⟨all x List.mem_cons_self s, fun s' _ => ih (fun y mem => all y (List.mem_cons_of_mem x mem)) s'⟩

theorem meets_of_forall (all : ∀ x s, cond x s) (xs : List α) (s : σ) : Meets step cond xs s :=
  meets_of_mem (fun x _ => all x) s

/-- Where a step that is taken as `pre` allows leads to a good state exactly when the condition holds, all states
that a run passes are good exactly when all its steps meet the condition. -/
theorem always_good_iff_within {inv good : σ → Prop} {pre : α → σ → Prop} (safe : ∀ s, inv s → good s)
    (keeps : ∀ x s s', inv s → pre x s → cond x s → step x s = .ok s' → inv s')
    (breaks : ∀ x s, inv s → pre x s → ¬ cond x s → ∃ s', step x s = .ok s' ∧ ¬ good s') (xs : List α) {s : σ}
    (start : inv s) (allowed : Meets step pre xs s) :
    (∀ before, before <+: xs → ∀ s', run step before s = .ok s' → good s') ↔ Meets step cond xs s := by
  induction xs generalizing s with
  | nil =>
    refine ⟨fun _ => trivial, fun _ before isPrefix s' done => ?_⟩
    obtain rfl := List.prefix_nil.mp isPrefix
    cases done
    exact safe s start
  | cons x xs ih =>
    obtain ⟨first, next⟩ := allowed
    constructor
    · intro always
      by_cases holds : cond x s
      · refine ⟨holds, fun s' taken => ?_⟩
        refine (ih (keeps x s s' start first holds taken) (next s' taken)).mp fun before isPrefix s'' done => ?_
        exact always (x :: before) (List.cons_prefix_cons.mpr ⟨rfl, isPrefix⟩) s'' ((run_of_ok taken before).trans done)
      · obtain ⟨s', taken, bad⟩ := breaks x s start first holds
        exact absurd (always [x] (List.cons_prefix_cons.mpr ⟨rfl, List.nil_prefix⟩) s' (run_of_ok taken [])) bad
    · rintro ⟨holds, later⟩ before isPrefix s'' done
      cases before with
      | nil =>
        cases done
        exact safe s start
      | cons y before =>
        obtain ⟨rfl, inRest⟩ := List.cons_prefix_cons.mp isPrefix
        obtain ⟨s', taken, rest⟩ := run_cons_ok done
        exact (ih (keeps y s s' start first holds taken) (next s' taken)).mpr (later s' taken) before inRest s'' rest

theorem always_good_iff {inv good : σ → Prop} (safe : ∀ s, inv s → good s)
    (keeps : ∀ x s s', inv s → cond x s → step x s = .ok s' → inv s')
    (breaks : ∀ x s, inv s → ¬ cond x s → ∃ s', step x s = .ok s' ∧ ¬ good s') (xs : List α) {s : σ} (start : inv s) :
    (∀ before, before <+: xs → ∀ s', run step before s = .ok s' → good s') ↔ Meets step cond xs s := by
  have free : Meets step (fun _ _ => True) xs s := meets_of_forall (fun _ _ => trivial) xs s
  exact always_good_iff_within safe (fun x s s' holds _ => keeps x s s' holds) (fun x s holds _ => breaks x s holds) xs start free

theorem meets_congr {inv : σ → Prop} {pre cond' : α → σ → Prop} (keeps : ∀ x s s', inv s → pre x s → step x s = .ok s' → inv s')
    (same : ∀ x s, inv s → pre x s → (cond x s ↔ cond' x s)) (xs : List α) {s : σ} (start : inv s)
    (allowed : Meets step pre xs s) : Meets step cond xs s ↔ Meets step cond' xs s := by
  induction xs generalizing s with
  | nil => exact Iff.rfl
  | cons x xs ih =>
    obtain ⟨first, next⟩ := allowed
    refine and_congr (same x s start first) (forall_congr' fun s' => forall_congr' fun taken => ?_)
    exact ih (keeps x s s' start first taken) (next s' taken)

/-- `Meets` for a condition that can be computed. -/
def check (step : α → σ → Except ε σ) (cond : α → σ → Bool) : List α → σ → Bool
  | [], _ => true
  | x :: xs, s =>
    cond x s && match step x s with
    | .ok s' => check step cond xs s'
    | .error _ => true

theorem meets_of_check {cond : α → σ → Bool} {xs : List α} {s : σ} (checked : check step cond xs s = true) :
    Meets step (fun x s => cond x s = true) xs s := by
  induction xs generalizing s with
  | nil => trivial
  | cons x xs ih =>
    obtain ⟨first, later⟩ := Bool.and_eq_true_iff.mp checked
    refine ⟨first, fun s' taken => ih ?_⟩
    rwa [taken] at later

theorem meets_of_decide [∀ x s, Decidable (cond x s)] {xs : List α} {s : σ}
    (checked : check step (fun x s => decide (cond x s)) xs s = true) : Meets step cond xs s := by
  have meets := meets_of_check checked
  simpa only [decide_eq_true_eq] using meets

end Runs
