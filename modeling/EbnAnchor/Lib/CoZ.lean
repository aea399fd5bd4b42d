import Mathlib.AlgebraicGeometry.EllipticCurve.Affine.Point
import Mathlib.Tactic.LinearCombination

/-!
Points of a short Weierstrass curve with a denominator of their own.

`Rep P Z X Y` says that `P` is the point with coordinates `X / Z ^ 2` and `Y / Z ^ 3`. Main
results:

* `Rep.double`: doubling, on a curve whose linear coefficient is -3;
* `Rep.add`, `Rep.sub`, `Rep.rescale`: sum and difference of two points over one
  denominator, and the first point over the denominator of the sum;
* `Rep.X_ne_iff`: the sum and the difference need different `X`, which is what the points
  being neither equal nor opposite comes to;
* `Over.step`: a step of the ladder takes `m • P` and `(m + 1) • P` to the next two
  multiples, and `Over.apart` says when it can be taken;
* `Over.ladder`: the steps for all bits of a number end with that multiple;
* `Over.denominator`: how the denominator is got back after the last step;
* `smul_eq_zero_of_climbs`: a ladder that ends with equal `X` bounds the order of a point.
-/

namespace CoZ

open WeierstrassCurve.Affine

variable {F : Type*} [Field F] {a b : F}

/-- `y ^ 2 = x ^ 3 + a * x + b`. -/
abbrev shortCurve (a b : F) : WeierstrassCurve.Affine F := ⟨0, 0, 0, a, b⟩

theorem equation_iff {x y : F} : (shortCurve a b).Equation x y ↔ y ^ 2 = x ^ 3 + a * x + b := by
  rw [WeierstrassCurve.Affine.equation_iff]
  simp

theorem negY_eq (x y : F) : (shortCurve a b).negY x y = -y := by simp [negY]

/-- `P` has coordinates `X / Z ^ 2` and `Y / Z ^ 3`. -/
structure Rep (P : (shortCurve a b).Point) (Z X Y : F) : Prop where
  ne : Z ≠ 0
  coords : ∃ x y h, P = .some x y h ∧ X = x * Z ^ 2 ∧ Y = y * Z ^ 3

theorem Rep.of_coords {x y : F} (h : (shortCurve a b).Nonsingular x y) :
    Rep (.some x y h) 1 x y :=
  ⟨one_ne_zero, x, y, h, rfl, by ring, by ring⟩

/-- Over the denominator one the coordinates are those of the point. -/
theorem Rep.to_coords {P : (shortCurve a b).Point} {X Y : F} (h : Rep P 1 X Y) :
    ∃ h, P = .some X Y h := by
  obtain ⟨-, x, y, h, hP, hX, hY⟩ := h
  rw [one_pow, mul_one] at hX hY
  subst hX hY
  exact ⟨h, hP⟩

variable {P Q : (shortCurve a b).Point} {Z X₁ Y₁ X₂ Y₂ : F}

theorem Rep.ne_zero (h : Rep P Z X₁ Y₁) : P ≠ 0 := by
  obtain ⟨-, x, y, hxy, rfl, -⟩ := h
  exact Point.some_ne_zero hxy

/-- A factor of the denominator. -/
theorem Rep.scale (h : Rep P Z X₁ Y₁) {t : F} (ht : t ≠ 0) :
    Rep P (Z * t) (X₁ * t ^ 2) (Y₁ * t ^ 3) := by
  obtain ⟨hZ, x, y, hxy, hP, hX, hY⟩ := h
  refine ⟨mul_ne_zero hZ ht, x, y, hxy, hP, ?_, ?_⟩
  · rw [hX]
    ring
  · rw [hY]
    ring

theorem Rep.neg (h : Rep P Z X₁ Y₁) : Rep (-P) Z X₁ (-Y₁) := by
  obtain ⟨hZ, x, y, hxy, rfl, hX, hY⟩ := h
  refine ⟨hZ, x, _, _, Point.neg_some hxy, hX, ?_⟩
  rw [negY_eq, hY, neg_mul]

/-- Over one denominator, `X` tells points apart up to sign. -/
theorem Rep.X_ne_iff (hP : Rep P Z X₁ Y₁) (hQ : Rep Q Z X₂ Y₂) :
    X₁ ≠ X₂ ↔ P ≠ Q ∧ P ≠ -Q := by
  obtain ⟨hZ, x₁, y₁, h₁, rfl, rfl, rfl⟩ := hP
  obtain ⟨-, x₂, y₂, h₂, rfl, rfl, rfl⟩ := hQ
  rw [← not_or, ← Point.X_eq_iff, not_iff_not]
  exact ⟨fun h => mul_right_cancel₀ (pow_ne_zero 2 hZ) h, fun h => by rw [h]⟩

/-- The coordinates over a denominator are determined. -/
theorem Rep.unique (h : Rep P Z X₁ Y₁) (h' : Rep P Z X₂ Y₂) : X₁ = X₂ ∧ Y₁ = Y₂ := by
  obtain ⟨-, x, y, hxy, rfl, rfl, rfl⟩ := h
  obtain ⟨-, x', y', hxy', heq, rfl, rfl⟩ := h'
  obtain ⟨rfl, rfl⟩ := Point.some.inj heq
  exact ⟨rfl, rfl⟩

/-- The first point over the denominator of the sum. -/
theorem Rep.rescale (hP : Rep P Z X₁ Y₁) (hX : X₁ ≠ X₂) :
    Rep P (Z * (X₂ - X₁)) (X₁ * (X₂ - X₁) ^ 2)
      (Y₁ * (X₂ * (X₂ - X₁) ^ 2 - X₁ * (X₂ - X₁) ^ 2)) := by
  have h := hP.scale (sub_ne_zero.mpr hX.symm)
  have hY : Y₁ * (X₂ * (X₂ - X₁) ^ 2 - X₁ * (X₂ - X₁) ^ 2) = Y₁ * (X₂ - X₁) ^ 3 := by ring
  rwa [hY]

/-! ### Sum and difference -/

variable [DecidableEq F]

/-- The sum of two points over one denominator. -/
theorem Rep.add (hP : Rep P Z X₁ Y₁) (hQ : Rep Q Z X₂ Y₂) (hX : X₁ ≠ X₂) {A B C X₃ : F}
    (hA : A = (X₂ - X₁) ^ 2) (hB : B = X₁ * A) (hC : C = X₂ * A)
    (hX₃ : X₃ = (Y₂ - Y₁) ^ 2 - B - C) :
    Rep (P + Q) (Z * (X₂ - X₁)) X₃ ((Y₂ - Y₁) * (B - X₃) - Y₁ * (C - B)) := by
  obtain ⟨hZ, x₁, y₁, h₁, rfl, rfl, rfl⟩ := hP
  obtain ⟨-, x₂, y₂, h₂, rfl, rfl, rfl⟩ := hQ
  have hx : x₁ ≠ x₂ := fun h => hX (by rw [h])
  have hslope : (y₁ - y₂) / (x₁ - x₂) * (x₁ - x₂) = y₁ - y₂ :=
    div_mul_cancel₀ _ (sub_ne_zero.mpr hx)
  have hsum : Point.some x₁ y₁ h₁ + Point.some x₂ y₂ h₂ = .some _ _ _ := Point.add_of_X_ne hx
  refine ⟨mul_ne_zero hZ (sub_ne_zero.mpr hX.symm), _, _, _, hsum, ?_, ?_⟩
  · rw [slope_of_X_ne hx]
    simp only [addX]
    generalize (y₁ - y₂) / (x₁ - x₂) = l at hslope
    subst hA hB hC hX₃
    linear_combination (-(l * (x₁ - x₂) + (y₁ - y₂)) * Z ^ 6) * hslope
  · rw [slope_of_X_ne hx, addY, negY_eq]
    simp only [negAddY, addX]
    generalize (y₁ - y₂) / (x₁ - x₂) = l at hslope
    have hX₃' : X₃ = (l ^ 2 - x₁ - x₂) * (Z * (x₂ * Z ^ 2 - x₁ * Z ^ 2)) ^ 2 := by
      subst hA hB hC hX₃
      linear_combination (-(l * (x₁ - x₂) + (y₁ - y₂)) * Z ^ 6) * hslope
    rw [hX₃']
    subst hA hB hC
    have hy : y₂ = y₁ - l * (x₁ - x₂) := by rw [hslope]; ring
    rw [hy]
    ring

/-- The difference, with the products the sum has computed. -/
theorem Rep.sub (hP : Rep P Z X₁ Y₁) (hQ : Rep Q Z X₂ Y₂) (hX : X₁ ≠ X₂) {A B C X₃ : F}
    (hA : A = (X₂ - X₁) ^ 2) (hB : B = X₁ * A) (hC : C = X₂ * A)
    (hX₃ : X₃ = (Y₂ + Y₁) ^ 2 - (B + C)) :
    Rep (P - Q) (Z * (X₂ - X₁)) X₃ ((X₃ - B) * (Y₂ + Y₁) - Y₁ * (C - B)) := by
  have hX₃' : X₃ = (-Y₂ - Y₁) ^ 2 - B - C := by rw [hX₃]; ring
  have h := hP.add hQ.neg hX hA hB hC hX₃'
  have hY : (-Y₂ - Y₁) * (B - X₃) - Y₁ * (C - B) = (X₃ - B) * (Y₂ + Y₁) - Y₁ * (C - B) := by
    ring
  rwa [hY, ← sub_eq_add_neg] at h

/-! ### Doubling -/

/-- Doubling on `y ^ 2 = x ^ 3 - 3 * x + b`. -/
theorem Rep.double {P : (shortCurve (-3) b).Point} {Z X Y : F} (h2 : (2 : F) ≠ 0)
    (hP : Rep P Z X Y) (hY : Y ≠ 0) {A B X₃ : F} (hA : A = X * Y ^ 2)
    (hB : 2 * B = 3 * (X ^ 2 - Z ^ 4)) (hX₃ : X₃ = B ^ 2 - 2 * A) :
    Rep (P + P) (Y * Z) X₃ (B * (A - X₃) - Y ^ 4) := by
  obtain ⟨hZ, x, y, h, rfl, rfl, rfl⟩ := hP
  have hy : y ≠ 0 := fun h0 => hY (by rw [h0, zero_mul])
  have hneg : y ≠ (shortCurve (-3) b).negY x y := by
    rw [negY_eq]
    intro heq
    have : 2 * y = 0 := by linear_combination heq
    exact (mul_ne_zero h2 hy) this
  have hsum : Point.some x y h + Point.some x y h = .some _ _ _ := Point.add_self_of_Y_ne hneg
  have hslope : (shortCurve (-3) b).slope x x y y * (2 * y) = 3 * x ^ 2 - 3 := by
    rw [slope_of_Y_ne rfl hneg, negY_eq]
    have hden : y - -y = 2 * y := by ring
    rw [hden, div_mul_cancel₀ _ (mul_ne_zero h2 hy)]
    simp only
    ring
  refine ⟨mul_ne_zero hY hZ, _, _, _, hsum, ?_, ?_⟩
  · simp only [addX]
    generalize (shortCurve (-3) b).slope x x y y = l at hslope
    have hBl : B = l * y * Z ^ 4 := by
      refine mul_left_cancel₀ h2 ?_
      rw [hB]
      linear_combination (-Z ^ 4) * hslope
    rw [hX₃, hA, hBl]
    ring
  · rw [addY, negY_eq]
    simp only [negAddY, addX]
    generalize (shortCurve (-3) b).slope x x y y = l at hslope
    have hBl : B = l * y * Z ^ 4 := by
      refine mul_left_cancel₀ h2 ?_
      rw [hB]
      linear_combination (-Z ^ 4) * hslope
    rw [hX₃, hA, hBl]
    ring

/-! ### Two points over one denominator -/

structure Pair (R : Type*) where
  X₁ : R
  Y₁ : R
  X₂ : R
  Y₂ : R

namespace Pair

variable {R : Type*} [CommRing R]

def swap (s : Pair R) : Pair R := ⟨s.X₂, s.Y₂, s.X₁, s.Y₁⟩

/-- `(x, y)` and its double over the denominator `y`; `h` is half of one. -/
def start (h x y : R) : Pair R :=
  let t := x ^ 2 - 1
  let A := x * y ^ 2
  let B := h * (t + t + t)
  let X₃ := B ^ 2 - A - A
  ⟨x * y ^ 2, y * y ^ 3, X₃, B * (A - X₃) - y ^ 4⟩

/-- `P` and `P + Q`. -/
def sum (s : Pair R) : Pair R :=
  let A := (s.X₂ - s.X₁) ^ 2
  let B := s.X₁ * A
  let C := s.X₂ * A
  let X₃ := (s.Y₂ - s.Y₁) ^ 2 - B - C
  ⟨B, s.Y₁ * (C - B), X₃, (s.Y₂ - s.Y₁) * (B - X₃) - s.Y₁ * (C - B)⟩

/-- `P - Q` and `P + Q`. -/
def diffSum (s : Pair R) : Pair R :=
  let A := (s.X₂ - s.X₁) ^ 2
  let B := s.X₁ * A
  let C := s.X₂ * A
  let X₃ := (s.Y₂ - s.Y₁) ^ 2 - (B + C)
  let X₄ := (s.Y₂ + s.Y₁) ^ 2 - (B + C)
  ⟨X₄, (X₄ - B) * (s.Y₂ + s.Y₁) - s.Y₁ * (C - B),
    X₃, (s.Y₂ - s.Y₁) * (B - X₃) - s.Y₁ * (C - B)⟩

/-- The pair in the order a step of the ladder takes it for a bit. -/
def turned (bit : Bool) (s : Pair R) : Pair R := bif bit then s.swap else s

/-- From `m • P` and `(m + 1) • P` to the same for `2 * m` and the bit. -/
def step (bit : Bool) (s : Pair R) : Pair R := ((s.turned bit).diffSum.swap.sum).turned !bit

/-- The step does not add or subtract equal or opposite points. -/
def Apart (bit : Bool) (s : Pair R) : Prop :=
  (s.turned bit).X₁ ≠ (s.turned bit).X₂ ∧
    (s.turned bit).diffSum.X₁ ≠ (s.turned bit).diffSum.X₂

instance [DecidableEq R] (bit : Bool) (s : Pair R) : Decidable (s.Apart bit) :=
  inferInstanceAs (Decidable (_ ∧ _))

/-- The ladder for the lowest `i` bits of `n`. -/
def ladder (n : Nat) : Nat → Pair R → Pair R
  | 0, s => s
  | i + 1, s => ladder n i (s.step (n.testBit i))

/-- The ladder can be climbed for the lowest `i` bits of `n`, and ends with equal `X`. -/
def Climbs [DecidableEq R] (n : Nat) : Nat → Pair R → Bool
  | 0, s => s.X₁ = s.X₂
  | i + 1, s => decide (s.Apart (n.testBit i)) && Climbs n i (s.step (n.testBit i))

end Pair

/-- The two points over the denominator `Z`. -/
structure Over (P Q : (shortCurve a b).Point) (Z : F) (s : Pair F) : Prop where
  fst : Rep P Z s.X₁ s.Y₁
  snd : Rep Q Z s.X₂ s.Y₂

variable {s : Pair F}

omit [DecidableEq F] in
theorem Over.swap (h : Over P Q Z s) : Over Q P Z s.swap := ⟨h.snd, h.fst⟩

theorem Over.sum (h : Over P Q Z s) (hX : s.X₁ ≠ s.X₂) :
    Over P (P + Q) (Z * (s.X₂ - s.X₁)) s.sum := by
  constructor
  · have hY : s.Y₁ * (s.X₂ * (s.X₂ - s.X₁) ^ 2 - s.X₁ * (s.X₂ - s.X₁) ^ 2) = s.sum.Y₁ := rfl
    have hfst := h.fst.rescale hX
    rwa [hY] at hfst
  · exact h.fst.add h.snd hX rfl rfl rfl rfl

theorem Over.diffSum (h : Over P Q Z s) (hX : s.X₁ ≠ s.X₂) :
    Over (P - Q) (P + Q) (Z * (s.X₂ - s.X₁)) s.diffSum :=
  ⟨h.fst.sub h.snd hX rfl rfl rfl rfl, h.fst.add h.snd hX rfl rfl rfl (sub_sub ..).symm⟩

omit [DecidableEq F] in
theorem Over.turned_true (h : Over P Q Z s) : Over Q P Z (s.turned true) := h.swap

omit [DecidableEq F] in
theorem Over.X_ne (h : Over P Q Z s) : s.X₁ ≠ s.X₂ ↔ P ≠ Q ∧ P ≠ -Q := h.fst.X_ne_iff h.snd

variable {m : Nat}

theorem smul_add_smul_succ (m : Nat) : m • P + (m + 1) • P = (2 * m + 1) • P := by
  rw [← add_nsmul]
  congr 1
  ring

/-- The first half of a step: `P` or `-P`, by the bit, and the odd multiple. -/
theorem Over.first (h : Over (m • P) ((m + 1) • P) Z s) (bit : Bool)
    (hne : (s.turned bit).X₁ ≠ (s.turned bit).X₂) :
    ∃ Z', Over (bif bit then P else -P) ((2 * m + 1) • P) Z' (s.turned bit).diffSum := by
  cases bit with
  | false =>
    have hpair := h.diffSum hne
    have hdiff : m • P - (m + 1) • P = -P := by
      rw [succ_nsmul]
      abel
    rw [hdiff, smul_add_smul_succ] at hpair
    exact ⟨_, hpair⟩
  | true =>
    have hpair := h.turned_true.diffSum hne
    have hdiff : (m + 1) • P - m • P = P := by rw [succ_nsmul, add_sub_cancel_left]
    rw [hdiff, add_comm, smul_add_smul_succ] at hpair
    exact ⟨_, hpair⟩

/-- The second half: the two multiples for the bit, in order. -/
theorem Over.second {bit : Bool} (h : Over (bif bit then P else -P) ((2 * m + 1) • P) Z s)
    (hne : s.X₁ ≠ s.X₂) :
    Over ((2 * m + bit.toNat) • P) ((2 * m + bit.toNat + 1) • P) (Z * (s.X₁ - s.X₂))
      (s.swap.sum.turned !bit) := by
  have hpair := h.swap.sum hne.symm
  cases bit with
  | false =>
    have heven : (2 * m + 1) • P + -P = (2 * m) • P := by
      rw [succ_nsmul]
      abel
    rw [cond_false, heven] at hpair
    exact hpair.swap
  | true =>
    rw [cond_true, ← succ_nsmul] at hpair
    exact hpair

/-- A step takes `m • P` and `(m + 1) • P` to the multiples for one more bit. -/
theorem Over.step (h : Over (m • P) ((m + 1) • P) Z s) (bit : Bool) (hne : s.Apart bit) :
    ∃ Z', Over ((2 * m + bit.toNat) • P) ((2 * m + bit.toNat + 1) • P) Z' (s.step bit) := by
  obtain ⟨Z', hfirst⟩ := h.first bit hne.1
  exact ⟨_, hfirst.second hne.2⟩

/-- The step can be taken when none of the multiples it goes through is the zero point. -/
theorem Over.apart (h : Over (m • P) ((m + 1) • P) Z s) (bit : Bool) (hP : P ≠ 0)
    (heven : (2 * m) • P ≠ 0) (hodd : (2 * m + 1) • P ≠ 0) (hnext : (2 * m + 2) • P ≠ 0) :
    s.Apart bit := by
  have hX : s.X₁ ≠ s.X₂ := by
    rw [h.X_ne]
    constructor
    · intro heq
      apply hP
      rwa [succ_nsmul, left_eq_add] at heq
    · intro heq
      apply hodd
      rw [← smul_add_smul_succ, heq, neg_add_cancel]
  have hturned : (s.turned bit).X₁ ≠ (s.turned bit).X₂ := by
    cases bit with
    | false => exact hX
    | true => exact hX.symm
  have hsame : P ≠ (2 * m + 1) • P := by
    intro heq
    apply heven
    rwa [succ_nsmul, right_eq_add] at heq
  have hopposite : P ≠ -((2 * m + 1) • P) := by
    intro heq
    apply hnext
    rwa [eq_neg_iff_add_eq_zero, add_comm, ← succ_nsmul] at heq
  obtain ⟨Z', hfirst⟩ := h.first bit hturned
  refine ⟨hturned, hfirst.X_ne.mpr ?_⟩
  cases bit with
  | false =>
    constructor
    · intro heq
      exact hopposite (by rw [← heq, cond_false, neg_neg])
    · intro heq
      exact hsame (neg_injective heq)
  | true => exact ⟨hsame, hopposite⟩

omit [DecidableEq F] in
/-- The denominator of the last step, from the coordinates of `P`: the inverse of the
coordinates it is computed from is the inverse of the denominator. -/
theorem Over.denominator {x y : F} {hxy : (shortCurve a b).Nonsingular x y} {bit : Bool}
    (h : Over (bif bit then .some x y hxy else -.some x y hxy) Q Z s) (hx : x ≠ 0) (hy : y ≠ 0)
    (hX : s.X₁ ≠ s.X₂) {d : F} (hd : d = bif bit then s.X₁ - s.X₂ else s.X₂ - s.X₁) :
    d * s.Y₁ * x ≠ 0 ∧ Z * (s.X₁ - s.X₂) * (y * s.X₁) = d * s.Y₁ * x := by
  have hZ := h.fst.ne
  have hrep := (Rep.of_coords hxy).scale hZ
  rw [one_mul] at hrep
  cases bit with
  | false =>
    obtain ⟨hX₁, hY₁⟩ := h.fst.unique hrep.neg
    rw [cond_false] at hd
    rw [hd, hY₁]
    constructor
    · have hpow := pow_ne_zero 3 hZ
      have hsub := sub_ne_zero.mpr hX.symm
      exact mul_ne_zero (mul_ne_zero hsub (neg_ne_zero.mpr (mul_ne_zero hy hpow))) hx
    · rw [hX₁]
      ring
  | true =>
    obtain ⟨hX₁, hY₁⟩ := h.fst.unique hrep
    rw [cond_true] at hd
    rw [hd, hY₁]
    constructor
    · have hpow := pow_ne_zero 3 hZ
      exact mul_ne_zero (mul_ne_zero (sub_ne_zero.mpr hX) (mul_ne_zero hy hpow)) hx
    · rw [hX₁]
      ring

/-- The number that the bits from `i` up make. -/
theorem shiftRight_eq_bit (n i : Nat) :
    n >>> i = 2 * (n >>> (i + 1)) + (n.testBit i).toNat := by
  rw [Nat.shiftRight_succ, Nat.toNat_testBit, ← Nat.shiftRight_eq_div_pow]
  omega

/-- The ladder ends with `n • P` and `(n + 1) • P`, while none of the multiples up to two
beyond is the zero point. -/
theorem Over.ladder {n i : Nat} (hn : n + 2 < addOrderOf P) (hpos : 0 < n >>> i)
    (h : Over ((n >>> i) • P) ((n >>> i + 1) • P) Z s) :
    ∃ Z', Over (n • P) ((n + 1) • P) Z' (s.ladder n i) := by
  induction i generalizing s Z with
  | zero => exact ⟨Z, h⟩
  | succ i ih =>
    have hbits := shiftRight_eq_bit n i
    have hle : n >>> i ≤ n := by
      rw [Nat.shiftRight_eq_div_pow]
      exact Nat.div_le_self n _
    have hne : ∀ j, 0 < j → j ≤ n + 2 → j • P ≠ 0 := fun j hj hjn =>
      nsmul_ne_zero_of_lt_addOrderOf hj.ne' (Nat.lt_of_le_of_lt hjn hn)
    have hP : P ≠ 0 := by
      rw [← one_nsmul P]
      exact hne 1 one_pos (by omega)
    have hapart := h.apart (n.testBit i) hP (hne _ (by omega) (by omega))
      (hne _ (by omega) (by omega)) (hne _ (by omega) (by omega))
    obtain ⟨Z', hnext⟩ := h.step (n.testBit i) hapart
    rw [← hbits] at hnext
    exact ih (by omega) hnext

/-- When the ladder for `n` ends with `n • P` and `(n + 1) • P` equal or opposite, the order
of `P` divides `2 * n + 1`. -/
theorem smul_eq_zero_of_climbs {n i : Nat} (hP : P ≠ 0)
    (h : Over ((n >>> i) • P) ((n >>> i + 1) • P) Z s) (hclimbs : s.Climbs n i) :
    (2 * n + 1) • P = 0 := by
  induction i generalizing s Z with
  | zero =>
    rw [Pair.Climbs, decide_eq_true_iff] at hclimbs
    rw [Nat.shiftRight_zero] at h
    have heq := mt h.X_ne.mpr (not_not.mpr hclimbs)
    rw [not_and_or, not_not, not_not] at heq
    rcases heq with hsame | hopposite
    · rw [succ_nsmul, left_eq_add] at hsame
      exact absurd hsame hP
    · rw [two_mul, add_assoc, add_nsmul, hopposite, neg_add_cancel]
  | succ i ih =>
    rw [Pair.Climbs, Bool.and_eq_true, decide_eq_true_iff] at hclimbs
    obtain ⟨Z', hnext⟩ := h.step (n.testBit i) hclimbs.1
    rw [← shiftRight_eq_bit] at hnext
    exact ih hnext hclimbs.2

end CoZ
