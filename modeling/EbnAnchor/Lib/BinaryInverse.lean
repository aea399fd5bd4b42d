import Mathlib.Data.Nat.ModEq
import Mathlib.Data.Nat.Size
import Mathlib.Data.Nat.GCD.Basic
import Mathlib.Tactic.Ring

/-!
Inverses modulo an odd number by the binary Euclidean algorithm.

`step` halves an even number or the difference of two odd ones, and does the same to the
coefficients modulo `m`. Main results:

* `Inverts.step`: what a step preserves;
* `Inverts.size_step`: a step takes a bit off one of the two numbers;
* `run_spec`: the run ends within the bits it starts with, with the greatest common divisor
  as a multiple of the number inverted.
-/

namespace BinaryInverse

/-- The two numbers of Euclid's algorithm and their coefficients. -/
structure State where
  a : Nat
  b : Nat
  u : Nat
  v : Nat

/-- Half of `u` modulo the odd number `m`. -/
def half (m u : Nat) : Nat := if u % 2 = 0 then u / 2 else (u + m) / 2

/-- `u - v` modulo `m`. -/
def sub (m u v : Nat) : Nat := (if u < v then u + m else u) - v

def step (m : Nat) (s : State) : State :=
  if s.a % 2 = 0 then { s with a := s.a / 2, u := half m s.u }
  else if s.b % 2 = 0 then { s with b := s.b / 2, v := half m s.v }
  else if s.b < s.a then { s with a := (s.a - s.b) / 2, u := half m (sub m s.u s.v) }
  else { s with b := (s.b - s.a) / 2, v := half m (sub m s.v s.u) }

/-- Steps until the two numbers are equal: the coefficient of the first, if that happens
within `time` steps. -/
def run (m : Nat) : Nat → State → Option Nat
  | 0, s => if s.a = s.b then some s.u else none
  | time + 1, s => if s.a = s.b then some s.u else run m time (step m s)

def start (m x : Nat) : State := ⟨x, m, 1, 0⟩

/-! ### Coefficients -/

section Coefficients

variable {m u v x c d : Nat}

theorem half_lt (hu : u < m) : half m u < m := by
  rw [half]
  split_ifs <;> omega

theorem two_mul_half (hm : m % 2 = 1) : 2 * half m u ≡ u [MOD m] := by
  rw [half]
  split_ifs with heven
  · have h : 2 * (u / 2) = u := by omega
    rw [h]
  · have h : 2 * ((u + m) / 2) = u + m := by omega
    rw [h]
    exact Nat.add_modEq_right

theorem sub_lt (hu : u < m) (hv : v < m) : sub m u v < m := by
  rw [sub]
  split_ifs <;> omega

theorem sub_add (hv : v < m) : sub m u v + v ≡ u [MOD m] := by
  rw [sub]
  split_ifs with hlt
  · have h : u + m - v + v = u + m := by omega
    rw [h]
    exact Nat.add_modEq_right
  · have h : u - v + v = u := by omega
    rw [h]

/-- Halving a number and its coefficient. -/
theorem half_mul (hm : m % 2 = 1) (hu : u * x ≡ 2 * c [MOD m]) : half m u * x ≡ c [MOD m] := by
  have hcoprime : Nat.gcd m 2 = 1 := by
    rw [Nat.gcd_comm, Nat.gcd_rec, hm, Nat.gcd_one_left]
  apply Nat.ModEq.cancel_left_of_coprime hcoprime
  have hmul := (two_mul_half hm (u := u)).mul_right x
  rw [Nat.mul_assoc] at hmul
  exact hmul.trans hu

theorem sub_mul (hv : v < m) (hu : u * x ≡ c [MOD m]) (hvx : v * x ≡ d [MOD m]) (hle : d ≤ c) :
    sub m u v * x ≡ c - d [MOD m] := by
  apply Nat.ModEq.add_right_cancel hvx
  have hmul := (sub_add hv (u := u)).mul_right x
  rw [Nat.add_mul] at hmul
  rw [Nat.sub_add_cancel hle]
  exact hmul.trans hu

end Coefficients

/-! ### What a step preserves -/

/-- `u` and `v` are the coefficients of `a` and `b`, as multiples of `x` modulo `m`. -/
structure Inverts (m x : Nat) (s : State) : Prop where
  u_lt : s.u < m
  v_lt : s.v < m
  a_pos : 0 < s.a
  b_pos : 0 < s.b
  u_mul : s.u * x ≡ s.a [MOD m]
  v_mul : s.v * x ≡ s.b [MOD m]
  gcd_eq : Nat.gcd s.a s.b = Nat.gcd x m

variable {m x : Nat} {s : State}

theorem Inverts.start (hm : 1 < m) (hx : 0 < x) : Inverts m x (start m x) where
  u_lt := hm
  v_lt := by
    simp only [BinaryInverse.start]
    omega
  a_pos := hx
  b_pos := by
    simp only [BinaryInverse.start]
    omega
  u_mul := by rw [BinaryInverse.start, Nat.one_mul]
  v_mul := by
    rw [BinaryInverse.start, Nat.zero_mul]
    exact (Nat.modEq_zero_iff_dvd.mpr dvd_rfl).symm
  gcd_eq := rfl

/-- Not both numbers are even. -/
theorem Inverts.odd (h : Inverts m x s) (hm : m % 2 = 1) : s.a % 2 = 1 ∨ s.b % 2 = 1 := by
  by_contra hboth
  push Not at hboth
  have hdvd : 2 ∣ Nat.gcd s.a s.b := Nat.dvd_gcd (by omega) (by omega)
  rw [h.gcd_eq] at hdvd
  have hdvd' := hdvd.trans (Nat.gcd_dvd_right x m)
  omega

theorem gcd_half {a b : Nat} (ha : a % 2 = 0) (hb : b % 2 = 1) :
    Nat.gcd (a / 2) b = Nat.gcd a b := by
  have hsplit : a = 2 * (a / 2) := by omega
  have hcoprime : Nat.Coprime 2 b := by
    rw [Nat.coprime_iff_gcd_eq_one, Nat.gcd_rec, hb, Nat.gcd_one_left]
  conv_rhs => rw [hsplit]
  exact (Nat.Coprime.gcd_mul_left_cancel (a / 2) hcoprime).symm

/-- The same with the two numbers exchanged. -/
theorem Inverts.swap (h : Inverts m x s) : Inverts m x ⟨s.b, s.a, s.v, s.u⟩ where
  u_lt := h.v_lt
  v_lt := h.u_lt
  a_pos := h.b_pos
  b_pos := h.a_pos
  u_mul := h.v_mul
  v_mul := h.u_mul
  gcd_eq := (Nat.gcd_comm s.b s.a).trans h.gcd_eq

theorem Inverts.halve (h : Inverts m x s) (hm : m % 2 = 1) (ha : s.a % 2 = 0) :
    Inverts m x { s with a := s.a / 2, u := half m s.u } where
  u_lt := half_lt h.u_lt
  v_lt := h.v_lt
  a_pos := by
    have hpos := h.a_pos
    dsimp only
    omega
  b_pos := h.b_pos
  u_mul := by
    have hsplit : 2 * (s.a / 2) = s.a := by omega
    apply half_mul hm
    rw [hsplit]
    exact h.u_mul
  v_mul := h.v_mul
  gcd_eq := by
    have hb : s.b % 2 = 1 := (h.odd hm).resolve_left (by omega)
    exact (gcd_half ha hb).trans h.gcd_eq

theorem Inverts.subtract (h : Inverts m x s) (hm : m % 2 = 1) (ha : s.a % 2 = 1)
    (hb : s.b % 2 = 1) (hlt : s.b < s.a) :
    Inverts m x { s with a := (s.a - s.b) / 2, u := half m (sub m s.u s.v) } where
  u_lt := half_lt (sub_lt h.u_lt h.v_lt)
  v_lt := h.v_lt
  a_pos := by
    dsimp only
    omega
  b_pos := h.b_pos
  u_mul := by
    have hsplit : 2 * ((s.a - s.b) / 2) = s.a - s.b := by omega
    apply half_mul hm
    rw [hsplit]
    exact sub_mul h.v_lt h.u_mul h.v_mul hlt.le
  v_mul := h.v_mul
  gcd_eq := by
    have hgcd := gcd_half (a := s.a - s.b) (by omega) hb
    rw [Nat.gcd_sub_self_left hlt.le] at hgcd
    exact hgcd.trans h.gcd_eq

/-- A step preserves the coefficients. -/
theorem Inverts.step (h : Inverts m x s) (hm : m % 2 = 1) (hne : s.a ≠ s.b) :
    Inverts m x (step m s) := by
  rw [BinaryInverse.step]
  split_ifs with ha hb hlt
  · exact h.halve hm ha
  · exact (h.swap.halve hm hb).swap
  · exact h.subtract hm (by omega) (by omega) hlt
  · exact (h.swap.subtract hm (by simpa using hb) (by simpa using ha) (by dsimp only; omega)).swap

/-! ### How long it takes -/

/-- The bits of both numbers. -/
def State.size (s : State) : Nat := Nat.size s.a + Nat.size s.b

/-- A number of at most half the size has a bit less. -/
theorem size_lt {n k : Nat} (hk : 0 < k) (hn : 2 * n ≤ k) : Nat.size n < Nat.size k := by
  by_cases hpos : 0 < n
  · have hsize := Nat.size_pos.mpr hpos
    have hlow : 2 ^ (Nat.size n - 1) ≤ n := by
      rw [← Nat.lt_size]
      omega
    have hsplit : Nat.size n = Nat.size n - 1 + 1 := by omega
    rw [hsplit, Nat.lt_size, pow_succ]
    omega
  · have hzero : n = 0 := by omega
    rw [hzero, Nat.size_zero]
    exact Nat.size_pos.mpr hk

theorem Inverts.size_step (h : Inverts m x s) :
    (BinaryInverse.step m s).size < s.size := by
  have ha := h.a_pos
  have hb := h.b_pos
  rw [BinaryInverse.step]
  split_ifs with heven heven' hlt
  · exact Nat.add_lt_add_right (size_lt ha (by dsimp only; omega)) _
  · exact Nat.add_lt_add_left (size_lt hb (by dsimp only; omega)) _
  · exact Nat.add_lt_add_right (size_lt ha (by dsimp only; omega)) _
  · exact Nat.add_lt_add_left (size_lt hb (by dsimp only; omega)) _

/-! ### The run -/

theorem Inverts.run (h : Inverts m x s) (hm : m % 2 = 1) {time : Nat} (htime : s.size ≤ time) :
    ∃ u, run m time s = some u ∧ u < m ∧ u * x ≡ Nat.gcd x m [MOD m] := by
  induction time generalizing s with
  | zero =>
    have hsize := Nat.size_pos.mpr h.a_pos
    rw [State.size] at htime
    omega
  | succ time ih =>
    rw [BinaryInverse.run]
    by_cases heq : s.a = s.b
    · have hgcd := h.gcd_eq
      rw [heq, Nat.gcd_self] at hgcd
      have hmul := h.u_mul
      rw [heq, hgcd] at hmul
      exact ⟨s.u, if_pos heq, h.u_lt, hmul⟩
    · rw [if_neg heq]
      have hsize := h.size_step
      exact ih (h.step hm heq) (by omega)

/-- The run returns, within as many steps as the two numbers have bits. -/
theorem run_spec (hm : 1 < m) (hodd : m % 2 = 1) (hx : 0 < x) {time : Nat}
    (htime : Nat.size x + Nat.size m ≤ time) :
    ∃ u, run m time (start m x) = some u ∧ u < m ∧ u * x ≡ Nat.gcd x m [MOD m] :=
  (Inverts.start hm hx).run hodd htime

end BinaryInverse
