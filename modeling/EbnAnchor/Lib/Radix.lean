import Mathlib.Algebra.BigOperators.Intervals
import Mathlib.Algebra.BigOperators.Ring.Finset
import Mathlib.Algebra.Order.BigOperators.Group.Finset
import Mathlib.Tactic.Linarith
import Mathlib.Tactic.Ring

/-!
Numbers in a fixed radix: `value b d n` is the number whose `n` digits, lowest first, are
`d 0`, `d 1`, ... in base `b`.

* `value_lt_value`: the highest differing digit decides a comparison;
* `value_mul`: a product is the sum of its columns, which is how product scanning
  computes it, and `column_self` is the shorter form of a column of a square.
-/

namespace Radix

open Finset

variable {b : Nat} {d e : Nat → Nat} {n : Nat}

/-- The number with the digits `d 0, .., d (n - 1)` in base `b`. -/
def value (b : Nat) (d : Nat → Nat) (n : Nat) : Nat := ∑ i ∈ range n, d i * b ^ i

@[simp] theorem value_zero : value b d 0 = 0 := rfl

theorem value_succ : value b d (n + 1) = value b d n + d n * b ^ n := sum_range_succ ..

theorem value_congr (h : ∀ i < n, d i = e i) : value b d n = value b e n :=
  sum_congr rfl fun i hi => by rw [h i (mem_range.mp hi)]

theorem value_lt (hd : ∀ i < n, d i < b) : value b d n < b ^ n := by
  induction n with
  | zero => exact Nat.one_pos
  | succ n ih =>
    have hlow := ih fun i hi => hd i (by omega)
    have htop : (d n + 1) * b ^ n ≤ b * b ^ n := Nat.mul_le_mul_right _ (hd n (by omega))
    rw [value_succ, pow_succ']
    calc value b d n + d n * b ^ n < b ^ n + d n * b ^ n := by omega
      _ = (d n + 1) * b ^ n := by ring
      _ ≤ b * b ^ n := htop

/-- The top digit decides, whatever is below. -/
theorem value_lt_value (hd : ∀ i < n, d i < b) (htop : d n < e n) :
    value b d (n + 1) < value b e (n + 1) := by
  have hlow := value_lt hd
  have hdigit : (d n + 1) * b ^ n ≤ e n * b ^ n := Nat.mul_le_mul_right _ htop
  rw [value_succ, value_succ]
  calc value b d n + d n * b ^ n < b ^ n + d n * b ^ n := by omega
    _ = (d n + 1) * b ^ n := by ring
    _ ≤ e n * b ^ n := hdigit
    _ ≤ value b e n + e n * b ^ n := Nat.le_add_left ..

theorem digit_eq_of_value_eq (hd : ∀ i < n, d i < b) (he : ∀ i < n, e i < b)
    (h : value b d n = value b e n) : ∀ i < n, d i = e i := by
  induction n with
  | zero => exact fun i hi => absurd hi (Nat.not_lt_zero i)
  | succ n ih =>
    have hdlow : ∀ i < n, d i < b := fun i hi => hd i (by omega)
    have helow : ∀ i < n, e i < b := fun i hi => he i (by omega)
    have htop : d n = e n := by
      rcases Nat.lt_trichotomy (d n) (e n) with hlt | heq | hgt
      · exact absurd h (value_lt_value hdlow hlt).ne
      · exact heq
      · exact absurd h (value_lt_value helow hgt).ne'
    rw [value_succ, value_succ, htop] at h
    intro i hi
    rcases Nat.lt_succ_iff_lt_or_eq.mp hi with hlt | rfl
    · exact ih hdlow helow (Nat.add_right_cancel h) i hlt
    · exact htop

/-- A digit of a number, by division. -/
theorem value_div_mod (hd : ∀ i < n, d i < b) {k : Nat} (hk : k < n) :
    value b d n / b ^ k % b = d k := by
  induction n with
  | zero => exact absurd hk (Nat.not_lt_zero k)
  | succ n ih =>
    have hlow : ∀ i < n, d i < b := fun i hi => hd i (by omega)
    have hb : 0 < b := lt_of_le_of_lt (Nat.zero_le _) (hd k hk)
    rcases Nat.lt_succ_iff_lt_or_eq.mp hk with hlt | rfl
    · have hpow : b ^ n = b ^ k * (b * b ^ (n - k - 1)) := by
        rw [← pow_succ', ← pow_add]
        congr 1
        omega
      have htop : d n * b ^ n = b ^ k * (b * (d n * b ^ (n - k - 1))) := by
        rw [hpow]
        ring
      rw [value_succ, htop, Nat.add_mul_div_left _ _ (by positivity), Nat.add_mul_mod_self_left]
      exact ih hlow hlt
    · rw [value_succ, Nat.add_mul_div_right _ _ (by positivity),
        Nat.div_eq_of_lt (value_lt hlow), Nat.zero_add]
      exact Nat.mod_eq_of_lt (hd k hk)

/-- Halving digit by digit: the lowest bit of a digit goes to the top of the one below. -/
theorem value_halve {h : Nat} (r : Nat → Nat) (hr : ∀ i < n, r i = d i / 2 + d (i + 1) % 2 * h) :
    2 * value (2 * h) r n + d 0 % 2 = value (2 * h) d n + d n % 2 * (2 * h) ^ n := by
  induction n with
  | zero => simp
  | succ n ih =>
    have hlow := ih fun i hi => hr i (by omega)
    have hdigit : 2 * r n + d n % 2 = d n + d (n + 1) % 2 * (2 * h) := by
      have hn := hr n (by omega)
      have hmul : d (n + 1) % 2 * (2 * h) = 2 * (d (n + 1) % 2 * h) := by ring
      rw [hmul]
      omega
    have hscaled : (2 * r n + d n % 2) * (2 * h) ^ n =
        (d n + d (n + 1) % 2 * (2 * h)) * (2 * h) ^ n := by rw [hdigit]
    rw [value_succ, value_succ, pow_succ']
    linarith

/-! ### Carries -/

/-- A digit of a sum, with the carry `c` into it and the carry `c'` out of it. -/
theorem add_digit {f : Nat → Nat} {c c' s : Nat}
    (hlow : value b f n + c * b ^ n = value b d n + value b e n)
    (hdigit : s + c' * b = d n + e n + c) :
    value b f n + s * b ^ n + c' * b ^ (n + 1) = value b d (n + 1) + value b e (n + 1) := by
  have hmul : (s + c' * b) * b ^ n = (d n + e n + c) * b ^ n := by rw [hdigit]
  rw [value_succ, value_succ, pow_succ']
  linarith

/-- A digit of a difference; `c` and `c'` are 1 where nothing is borrowed. -/
theorem sub_digit {f : Nat → Nat} {c c' s : Nat}
    (hlow : value b f n + value b e n + c * b ^ n = value b d n + b ^ n)
    (hdigit : s + e n + 1 + c' * b = d n + b + c) :
    value b f n + s * b ^ n + value b e (n + 1) + c' * b ^ (n + 1) =
      value b d (n + 1) + b ^ (n + 1) := by
  have hmul : (s + e n + 1 + c' * b) * b ^ n = (d n + b + c) * b ^ n := by rw [hdigit]
  rw [value_succ, value_succ, pow_succ']
  linarith

/-! ### Products -/

/-- The sum of the digit products that weigh `b ^ k` in a product of `n`-digit numbers. -/
def column (d e : Nat → Nat) (n k : Nat) : Nat :=
  ∑ i ∈ Ico (k + 1 - n) (min (k + 1) n), d i * e (k - i)

theorem value_mul (b : Nat) (d e : Nat → Nat) (n : Nat) :
    value b d n * value b e n = value b (column d e n) (2 * n - 1) := by
  have hswap : ∀ k i, k ∈ range (2 * n - 1) ∧ i ∈ Ico (k + 1 - n) (min (k + 1) n) ↔
      k ∈ Ico i (i + n) ∧ i ∈ range n := by
    intro k i
    simp only [mem_range, mem_Ico]
    omega
  calc value b d n * value b e n
      = ∑ i ∈ range n, ∑ j ∈ range n, d i * b ^ i * (e j * b ^ j) := sum_mul_sum ..
    _ = ∑ i ∈ range n, ∑ k ∈ Ico i (i + n), d i * e (k - i) * b ^ k := by
        refine sum_congr rfl fun i _ => ?_
        rw [sum_Ico_eq_sum_range, Nat.add_sub_cancel_left]
        refine sum_congr rfl fun j _ => ?_
        rw [Nat.add_sub_cancel_left, pow_add]
        ring
    _ = ∑ k ∈ range (2 * n - 1), ∑ i ∈ Ico (k + 1 - n) (min (k + 1) n),
          d i * e (k - i) * b ^ k := (sum_comm' hswap).symm
    _ = value b (column d e n) (2 * n - 1) :=
        sum_congr rfl fun k _ => (sum_mul ..).symm

/-- A column of a square needs the products up to the middle only, the ones before the
middle twice. -/
theorem column_self (d : Nat → Nat) {n k : Nat} (hk : k < 2 * n - 1) :
    column d d n k =
      ∑ i ∈ Ico (k + 1 - n) (k / 2 + 1), (if i < k - i then 2 else 1) * (d i * d (k - i)) := by
  have hsplit : column d d n k = ∑ i ∈ Ico (k + 1 - n) (k / 2 + 1), d i * d (k - i) +
      ∑ i ∈ Ico (k / 2 + 1) (min (k + 1) n), d i * d (k - i) :=
    (sum_Ico_consecutive _ (by omega) (by omega)).symm
  -- the upper half is the lower half read backwards, without the middle
  have hreflect : ∑ i ∈ Ico (k / 2 + 1) (min (k + 1) n), d i * d (k - i) =
      ∑ i ∈ (Ico (k + 1 - n) (k / 2 + 1)).filter (fun i => i < k - i), d i * d (k - i) := by
    refine sum_nbij' (fun i => k - i) (fun i => k - i) ?_ ?_ ?_ ?_ ?_
    · intro i hi
      simp only [mem_filter, mem_Ico] at hi ⊢
      omega
    · intro i hi
      simp only [mem_filter, mem_Ico] at hi ⊢
      omega
    · intro i hi
      simp only [mem_Ico] at hi
      omega
    · intro i hi
      simp only [mem_filter, mem_Ico] at hi
      omega
    · intro i hi
      simp only [mem_Ico] at hi
      rw [Nat.sub_sub_self (by omega), Nat.mul_comm]
  rw [hsplit, hreflect, sum_filter, ← sum_add_distrib]
  refine sum_congr rfl fun i _ => ?_
  by_cases hi : i < k - i
  · rw [if_pos hi, if_pos hi]
    ring
  · rw [if_neg hi, if_neg hi]
    ring

end Radix
