import Mathlib.Logic.Function.Basic

/-!
Counted loops over a state, with the invariant rule each proof about a loop uses.

`forUp a n body s` is `for (k = a; k < a + n; k++) body`, `forUpM` the same loop
when its body may fail to return, `forUpE` when its body may end the function, and
`forDown n body s` counts from `n - 1` to `0`. An invariant is indexed by the next value of
the counter, so that a step is proved once and the run follows.
-/

namespace Loop

variable {σ : Type*}

/-- `for (k = a; k < a + n; k++) s = body(k, s)`. -/
def forUp (a n : Nat) (body : Nat → σ → σ) (s : σ) : σ :=
  Nat.fold n (fun k _ s => body (a + k) s) s

/-- `forUp` with a body that may not return. -/
def forUpM (a n : Nat) (body : Nat → σ → Option σ) (s : σ) : Option σ :=
  Nat.fold n (fun k _ s => s.bind (body (a + k))) (some s)

/-- `forUp` with a body that may end the function: an error says how. -/
def forUpE {ρ : Type*} (a n : Nat) (body : Nat → σ → Except ρ σ) (s : σ) : Except ρ σ :=
  Nat.fold n (fun k _ s => s.bind (body (a + k))) (.ok s)

/-- `for (k = n - 1; k >= 0; k--) s = body(k, s)`. -/
def forDown (n : Nat) (body : Nat → σ → σ) (s : σ) : σ :=
  Nat.foldRev n (fun k _ s => body k s) s

@[simp] theorem forUp_zero (a : Nat) (body : Nat → σ → σ) (s : σ) :
    forUp a 0 body s = s := rfl

theorem forUp_succ (a n : Nat) (body : Nat → σ → σ) (s : σ) :
    forUp a (n + 1) body s = body (a + n) (forUp a n body s) := rfl

@[simp] theorem forUpM_zero (a : Nat) (body : Nat → σ → Option σ) (s : σ) :
    forUpM a 0 body s = some s := rfl

theorem forUpM_succ (a n : Nat) (body : Nat → σ → Option σ) (s : σ) :
    forUpM a (n + 1) body s = (forUpM a n body s).bind (body (a + n)) := rfl

@[simp] theorem forUpE_zero {ρ : Type*} (a : Nat) (body : Nat → σ → Except ρ σ) (s : σ) :
    forUpE a 0 body s = .ok s := rfl

theorem forUpE_succ {ρ : Type*} (a n : Nat) (body : Nat → σ → Except ρ σ) (s : σ) :
    forUpE a (n + 1) body s = (forUpE a n body s).bind (body (a + n)) := rfl

@[simp] theorem forDown_zero (body : Nat → σ → σ) (s : σ) : forDown 0 body s = s := rfl

theorem forDown_succ (n : Nat) (body : Nat → σ → σ) (s : σ) :
    forDown (n + 1) body s = forDown n body (body n s) := rfl

theorem forUp_congr {a n : Nat} {body body' : Nat → σ → σ} {s : σ}
    (h : ∀ k s, a ≤ k → k < a + n → body k s = body' k s) :
    forUp a n body s = forUp a n body' s := by
  induction n with
  | zero => rfl
  | succ n ih =>
    rw [forUp_succ, forUp_succ, ih fun k s hk hlt => h k s hk (by omega)]
    exact h (a + n) _ (by omega) (by omega)

/-! ### Invariant rules -/

theorem forUp_invariant {P : Nat → σ → Prop} {a n : Nat} {f : Nat → σ → σ} {s : σ}
    (start : P a s)
    (step : ∀ k s, a ≤ k → k < a + n → P k s → P (k + 1) (f k s)) :
    P (a + n) (forUp a n f s) := by
  induction n with
  | zero => exact start
  | succ n ih =>
    rw [forUp_succ]
    exact step (a + n) _ (by omega) (by omega)
      (ih fun k s hk hlt => step k s hk (by omega))

/-- When the invariant makes every body return, the loop returns. -/
theorem forUpM_invariant {P : Nat → σ → Prop} {a n : Nat} {f : Nat → σ → Option σ} {s : σ}
    (start : P a s)
    (step : ∀ k s, a ≤ k → k < a + n → P k s → ∃ s', f k s = some s' ∧ P (k + 1) s') :
    ∃ s', forUpM a n f s = some s' ∧ P (a + n) s' := by
  induction n with
  | zero => exact ⟨s, rfl, start⟩
  | succ n ih =>
    obtain ⟨t, hrun, ht⟩ := ih fun k s hk hlt => step k s hk (by omega)
    obtain ⟨t', hbody, ht'⟩ := step (a + n) t (by omega) (by omega) ht
    exact ⟨t', by rw [forUpM_succ, hrun, Option.bind_some, hbody], ht'⟩

/-- The loop runs to its end, or a body ends the function. -/
theorem forUpE_invariant {ρ : Type*} {P : Nat → σ → Prop} {Q : ρ → Prop} {a n : Nat}
    {f : Nat → σ → Except ρ σ} {s : σ} (start : P a s)
    (step : ∀ k s, a ≤ k → k < a + n → P k s →
      (∃ s', f k s = .ok s' ∧ P (k + 1) s') ∨ ∃ r, f k s = .error r ∧ Q r) :
    (∃ s', forUpE a n f s = .ok s' ∧ P (a + n) s') ∨ ∃ r, forUpE a n f s = .error r ∧ Q r := by
  induction n with
  | zero => exact Or.inl ⟨s, rfl, start⟩
  | succ n ih =>
    rcases ih fun k s hk hlt => step k s hk (by omega) with ⟨t, hrun, ht⟩ | ⟨r, hrun, hr⟩
    · rw [forUpE_succ, hrun]
      exact step (a + n) t (by omega) (by omega) ht
    · rw [forUpE_succ, hrun]
      exact Or.inr ⟨r, rfl, hr⟩

theorem forDown_invariant {P : Nat → σ → Prop} {n : Nat} {f : Nat → σ → σ} {s : σ}
    (start : P n s)
    (step : ∀ k s, k < n → P (k + 1) s → P k (f k s)) :
    P 0 (forDown n f s) := by
  induction n generalizing s with
  | zero => exact start
  | succ n ih =>
    rw [forDown_succ]
    exact ih (step n s (by omega) start) fun k s hk => step k s (by omega)

/-! ### Loops that run alike -/

section Simulation

variable {τ : Type*}

theorem forUp_hom {a n : Nat} {f : Nat → σ → σ} {u : Nat → τ → τ} {g : σ → τ} {s : σ}
    (h : ∀ k s, a ≤ k → k < a + n → g (f k s) = u k (g s)) :
    g (forUp a n f s) = forUp a n u (g s) := by
  induction n with
  | zero => rfl
  | succ n ih =>
    rw [forUp_succ, forUp_succ, h (a + n) _ (by omega) (by omega),
      ih fun k s hk hlt => h k s hk (by omega)]

/-- A loop that keeps only a part of the state ends as the loop over the whole state. -/
theorem forUpE_hom {ρ ρ' : Type*} {a n : Nat} {f : Nat → σ → Except ρ σ}
    {f' : Nat → τ → Except ρ' τ} {g : σ → τ} {e : ρ → ρ'} {s : σ}
    (h : ∀ k s, a ≤ k → k < a + n → f' k (g s) = ((f k s).map g).mapError e) :
    forUpE a n f' (g s) = ((forUpE a n f s).map g).mapError e := by
  induction n with
  | zero => rfl
  | succ n ih =>
    rw [forUpE_succ, forUpE_succ, ih fun k s hk hlt => h k s hk (by omega)]
    cases forUpE a n f s with
    | error r => rfl
    | ok t => exact h (a + n) t (by omega) (by omega)

end Simulation

/-! ### Loops over an array

An array is a function of the index; a store is `Function.update`. -/

section Store

variable {α : Type*} {a n : Nat} {x : Nat → Nat} {w : Nat → (Nat → α) → α} {v : Nat → α}

/-- A loop that stores into cell `x k` a value computed from cells it has not stored
into yet: every cell passed holds the value computed from the array at the start. -/
theorem forUp_store
    (inj : ∀ k k', a ≤ k → k < k' → k' < a + n → x k ≠ x k')
    (fresh : ∀ k u, a ≤ k → k < a + n →
      (∀ c, (∀ k', a ≤ k' → k' < k → x k' ≠ c) → u c = v c) → w k u = w k v) :
    (∀ k, a ≤ k → k < a + n →
      forUp a n (fun k u => Function.update u (x k) (w k u)) v (x k) = w k v) ∧
    ∀ c, (∀ k, a ≤ k → k < a + n → x k ≠ c) →
      forUp a n (fun k u => Function.update u (x k) (w k u)) v c = v c := by
  refine forUp_invariant
    (P := fun m (u : Nat → α) => (∀ k, a ≤ k → k < m → u (x k) = w k v) ∧
      ∀ c, (∀ k, a ≤ k → k < m → x k ≠ c) → u c = v c) ?_ ?_
  · exact ⟨fun k hk hlt => absurd hlt (by omega), fun c _ => rfl⟩
  · rintro m u hm hlt ⟨hdone, hkeep⟩
    refine ⟨fun k hk hkm => ?_, fun c hc => ?_⟩
    · rcases Nat.eq_or_lt_of_le (Nat.le_of_lt_succ hkm) with rfl | hkm
      · rw [Function.update_self, fresh k u hk hlt hkeep]
      · rw [Function.update_of_ne (inj k m hk hkm hlt), hdone k hk hkm]
    · rw [Function.update_of_ne (hc m hm (by omega)).symm]
      exact hkeep c fun k hk hkm => hc k hk (by omega)

end Store

end Loop
