import Mathlib.Logic.Basic

/-!
Runs of a step function that may not return.

* `run_invariant`: what every step keeps, every run keeps;
* `run_invariant_of_meets`: the same when only the steps that meet a condition keep it;
* `run_iff_meets`: when a step keeps a property exactly under the condition, a run keeps it
  exactly when all its steps meet the condition;
* `run_simulates`: when every step is one of another step function, or none that it sees, a
  run is a run of that function.
-/

namespace Steps

variable {σ α : Type*} (step : σ → α → Option σ)

/-- The state after the actions, from left to right. -/
def run : σ → List α → Option σ
  | s, [] => some s
  | s, a :: actions => (step s a).bind fun s' => run s' actions

/-- Every step of the run meets the condition in the state it starts from. -/
def Meets (cond : σ → α → Prop) : σ → List α → Prop
  | _, [] => True
  | s, a :: actions => cond s a ∧ ∀ s', step s a = some s' → Meets cond s' actions

variable {step} {cond : σ → α → Prop} {P Inv : σ → Prop}

theorem Meets.cons {s t : σ} {a : α} {actions : List α} (h : step s a = some t)
    (hcond : cond s a) (hrest : Meets step cond t actions) :
    Meets step cond s (a :: actions) := by
  refine ⟨hcond, fun t' ht' => ?_⟩
  cases h.symm.trans ht'
  exact hrest

theorem run_cons {s s' : σ} {a : α} {actions : List α}
    (h : run step s (a :: actions) = some s') :
    ∃ t, step s a = some t ∧ run step t actions = some s' :=
  Option.bind_eq_some_iff.mp h

theorem run_nil (s : σ) : run step s [] = some s := rfl

theorem run_of_step {s t s' : σ} {a : α} {actions : List α} (hstep : step s a = some t)
    (hrun : run step t actions = some s') : run step s (a :: actions) = some s' :=
  Option.bind_eq_some_iff.mpr ⟨t, hstep, hrun⟩

theorem run_append {s t : σ} {actions : List α} (h : run step s actions = some t)
    (actions' : List α) : run step s (actions ++ actions') = run step t actions' := by
  induction actions generalizing s with
  | nil =>
    cases h
    rfl
  | cons a actions ih =>
    obtain ⟨s', hstep, hrun⟩ := run_cons h
    rw [List.cons_append, run, hstep]
    exact ih hrun

theorem Meets.append {s t : σ} {actions actions' : List α}
    (h : Meets step cond s actions) (hrun : run step s actions = some t)
    (h' : Meets step cond t actions') : Meets step cond s (actions ++ actions') := by
  induction actions generalizing s with
  | nil =>
    cases hrun
    exact h'
  | cons a actions ih =>
    obtain ⟨s', hstep, hrest⟩ := run_cons hrun
    obtain ⟨hcond, hmeets⟩ := h
    exact .cons hstep hcond (ih (hmeets s' hstep) hrest)

theorem run_invariant_of_meets
    (keeps : ∀ s a s', Inv s → cond s a → step s a = some s' → Inv s')
    {s s' : σ} {actions : List α} (hmeets : Meets step cond s actions)
    (h : run step s actions = some s') (hs : Inv s) : Inv s' := by
  induction actions generalizing s with
  | nil =>
    cases h
    exact hs
  | cons a actions ih =>
    obtain ⟨t, hstep, hrun⟩ := run_cons h
    obtain ⟨hcond, hrest⟩ := hmeets
    exact ih (hrest t hstep) hrun (keeps s a t hs hcond hstep)

theorem run_invariant (keeps : ∀ s a s', Inv s → step s a = some s' → Inv s')
    {s s' : σ} {actions : List α} (h : run step s actions = some s') (hs : Inv s) :
    Inv s' := by
  induction actions generalizing s with
  | nil =>
    cases h
    exact hs
  | cons a actions ih =>
    obtain ⟨t, hstep, hrun⟩ := run_cons h
    exact ih hrun (keeps s a t hs hstep)

/-- `P` must not come back once it is lost. -/
theorem run_iff_meets (exact : ∀ s a s', step s a = some s' → (P s' ↔ P s ∧ cond s a))
    {s s' : σ} {actions : List α} (h : run step s actions = some s') :
    P s' ↔ P s ∧ Meets step cond s actions := by
  induction actions generalizing s with
  | nil =>
    cases h
    constructor
    · intro hP
      exact ⟨hP, trivial⟩
    · intro hP
      exact hP.1
  | cons a actions ih =>
    obtain ⟨t, hstep, hrun⟩ := run_cons h
    rw [ih hrun, exact s a t hstep]
    constructor
    · rintro ⟨⟨hP, hcond⟩, hrest⟩
      exact ⟨hP, .cons hstep hcond hrest⟩
    · rintro ⟨hP, hcond, hrest⟩
      exact ⟨⟨hP, hcond⟩, hrest t hstep⟩

theorem run_simulates {σ' β : Type*} {step' : σ' → β → Option σ'} (view : σ → σ')
    (simulates : ∀ s a s', step s a = some s' →
      view s' = view s ∨ ∃ b, step' (view s) b = some (view s'))
    {s s' : σ} {actions : List α} (h : run step s actions = some s') :
    ∃ actions', run step' (view s) actions' = some (view s') := by
  induction actions generalizing s with
  | nil =>
    cases h
    exact ⟨[], rfl⟩
  | cons a actions ih =>
    obtain ⟨t, hstep, hrun⟩ := run_cons h
    obtain ⟨actions', hrun'⟩ := ih hrun
    rcases simulates s a t hstep with hsame | ⟨b, hb⟩
    · refine ⟨actions', ?_⟩
      rw [← hsame]
      exact hrun'
    · refine ⟨b :: actions', ?_⟩
      rw [run, hb]
      exact hrun'

end Steps
