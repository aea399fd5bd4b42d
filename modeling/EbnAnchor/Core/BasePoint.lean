import EbnAnchor.Core.PointMult

/-!
The generator of the curve and its order.

What has to be computed is computed once, in `computed`: the ladder of the generator for half
its order ends with opposite points, so the order divides `2 * (order / 2) + 1`, which is
prime.

* `addOrderOf_basePoint`: the generator has prime order;
* `represents_of_valid`, `Represents.valid`: the accepted public keys are the points.
-/

namespace EbnAnchor.Core

open CoZ Primality

/-- `Curve_N_6`. -/
def curveN : Vli :=
  #v[0xB4D22831, 0x146BC9B1, 0x99DEF836, 0xFFFFFFFF, 0xFFFFFFFF, 0xFFFFFFFF]

/-- The order of the generator. -/
abbrev order : Nat := 6277101735386680763835789423176059013767194773182842284081

theorem val_curveN : val curveN = order := by decide

theorem prime_order : Nat.Prime order := by
  have h₁ : Nat.Prime 7244839476697597 :=
    prime_of_factors 2 53 [2, 2, 3, 239, 54623, 46245989]
      (by
        simp only [List.forall_mem_cons, List.not_mem_nil, false_implies, implies_true, and_true]
        norm_num)
      (by decide) (by decide) (by decide) (by decide +kernel) (by decide +kernel)
  have h₂ : Nat.Prime 9564682313913860059195669 :=
    prime_of_factors 2 84 [2, 2, 3, 7, 15716741, 7244839476697597]
      (by
        simp only [List.forall_mem_cons, List.not_mem_nil, false_implies, implies_true, and_true,
          h₁]
        norm_num)
      (by decide) (by decide) (by decide) (by decide +kernel) (by decide +kernel)
  have h₃ : Nat.Prime 7532705587894727 :=
    prime_of_factors 5 53 [2, 29, 43, 43, 331, 4127, 51419]
      (by
        simp only [List.forall_mem_cons, List.not_mem_nil, false_implies, implies_true, and_true]
        norm_num)
      (by decide) (by decide) (by decide) (by decide +kernel) (by decide +kernel)
  have h₄ : Nat.Prime 3433859179316188682119986911 :=
    prime_of_factors 13 92 [2, 5, 439, 103840547, 7532705587894727]
      (by
        simp only [List.forall_mem_cons, List.not_mem_nil, false_implies, implies_true, and_true,
          h₃]
        norm_num)
      (by decide) (by decide) (by decide) (by decide +kernel) (by decide +kernel)
  exact prime_of_factors 3 192
    [2, 2, 2, 2, 5, 2389, 9564682313913860059195669, 3433859179316188682119986911]
    (by
      simp only [List.forall_mem_cons, List.not_mem_nil, false_implies, implies_true, and_true,
        h₂, h₄]
      norm_num)
    (by decide) (by decide) (by decide) (by decide +kernel) (by decide +kernel)

/-! ### The numbers of the curve -/

abbrev coefficientB : ZMod prime := 2455155546008943817740293915197451784769108058161191238065

abbrev baseX : ZMod prime := 602046282375688656758213480587526111916698976636884684818

abbrev baseY : ZMod prime := 174050332293622031404857552280219410364023488927386650641

/-- Half of one. -/
abbrev half : ZMod prime := 3138550867693340381917894711603833208041954350195162480640

/-- The ladder starts with the generator and its double. -/
def basePair : Pair (ZMod prime) := .start half baseX baseY

/-- What is computed about them. -/
theorem computed :
    (coefficientB ≠ 0 ∧ 1728 - 432 * coefficientB ^ 2 ≠ 0) ∧
      (baseX ≠ 0 ∧ baseY ≠ 0 ∧ baseY ^ 2 = baseX ^ 3 + -3 * baseX + coefficientB) ∧
      2 * half = 1 ∧ basePair.Climbs (order / 2) 190 = true ∧
      basePair.X₁ ≠ basePair.X₂ ∧ basePair.X₂ ≠ 0 ∧ basePair.diffSum.X₂ ≠ 0 := by
  decide +kernel

theorem fp_curveB : fp curveB = coefficientB := by
  have hval : val curveB = 2455155546008943817740293915197451784769108058161191238065 := by
    decide
  rw [fp, hval]
  exact Nat.cast_ofNat

theorem fp_curveG : fp curveG.x = baseX ∧ fp curveG.y = baseY := by
  have hx : val curveG.x = 602046282375688656758213480587526111916698976636884684818 := by decide
  have hy : val curveG.y = 174050332293622031404857552280219410364023488927386650641 := by decide
  rw [fp, fp, hx, hy]
  exact ⟨Nat.cast_ofNat, Nat.cast_ofNat⟩

/-! ### The generator -/

/-- A solution of the curve equation is a point: the curve has no singular ones. -/
theorem nonsingular_of_equation {x y : ZMod prime} (h : y ^ 2 = x ^ 3 + -3 * x + fp curveB) :
    curve.Nonsingular x y := by
  have hΔ : curve.Δ = 1728 - 432 * fp curveB ^ 2 := by
    simp only [WeierstrassCurve.Δ, WeierstrassCurve.b₂, WeierstrassCurve.b₄,
      WeierstrassCurve.b₆, WeierstrassCurve.b₈]
    ring
  rw [← WeierstrassCurve.Affine.equation_iff_nonsingular_of_Δ_ne_zero]
  · exact equation_iff.mpr h
  · rw [hΔ, fp_curveB]
    exact computed.1.2

theorem basePoint_equation : baseY ^ 2 = baseX ^ 3 + -3 * baseX + fp curveB := by
  rw [fp_curveB]
  exact computed.2.1.2.2

/-- The generator. -/
def basePoint : curve.Point :=
  .some baseX baseY (nonsingular_of_equation basePoint_equation)

theorem represents_basePoint : Represents curveG basePoint := by
  obtain ⟨hx, hy⟩ := fp_curveG
  refine ⟨by decide, by decide, ?_⟩
  rw [hx, hy]
  exact ⟨_, rfl⟩

theorem over_basePair : Over basePoint (basePoint + basePoint) baseY basePair := by
  have hy := computed.2.1.2.1
  have hrep : Rep basePoint 1 baseX baseY := Rep.of_coords _
  constructor
  · have hscale := hrep.scale hy
    rw [one_mul] at hscale
    exact hscale
  · have hB : 2 * (half * (baseX ^ 2 - 1 + (baseX ^ 2 - 1) + (baseX ^ 2 - 1))) =
        3 * (baseX ^ 2 - 1 ^ 4) := by
      rw [← mul_assoc, computed.2.2.1]
      ring
    have hdouble := Rep.double two_ne_zero_fp hrep hy rfl hB rfl
    rw [mul_one, two_mul (baseX * baseY ^ 2), ← sub_sub] at hdouble
    exact hdouble

/-- The generator has prime order. -/
theorem addOrderOf_basePoint : addOrderOf basePoint = order := by
  have hover : Over (((order / 2) >>> 190) • basePoint) (((order / 2) >>> 190 + 1) • basePoint)
      baseY basePair := by
    have hone : (order / 2) >>> 190 = 1 := by decide
    rw [hone, one_nsmul, two_nsmul]
    exact over_basePair
  have hne : basePoint ≠ 0 := represents_basePoint.rep.ne_zero
  have hzero := smul_eq_zero_of_climbs hne hover computed.2.2.2.1
  have hodd : 2 * (order / 2) + 1 = order := by decide
  rw [hodd] at hzero
  have := Fact.mk prime_order
  exact addOrderOf_eq_prime hzero hne

theorem order_odd : order % 2 = 1 := by decide

/-- So have its multiples, but the zero point. -/
theorem addOrderOf_smul {d : Nat} (hpos : 0 < d) (hlt : d < order) :
    addOrderOf (d • basePoint) = order := by
  have := Fact.mk prime_order
  have hzero : order • (d • basePoint) = 0 := by
    rw [← mul_nsmul, mul_comm, mul_nsmul, ← addOrderOf_basePoint, addOrderOf_nsmul_eq_zero,
      nsmul_zero]
  apply addOrderOf_eq_prime hzero
  apply nsmul_ne_zero_of_lt_addOrderOf hpos.ne'
  rwa [addOrderOf_basePoint]

/-! ### Accepted keys -/

/-- The coordinates of a point other than zero are an accepted public key. -/
theorem Represents.valid {point : EccPoint} {P : curve.Point} (h : Represents point P) :
    eccValidPublicKey point = 1 := by
  obtain ⟨hxy, -⟩ := h.coords
  have hequation := equation_iff.mp hxy.1
  rw [eccValidPublicKey_eq_one_iff, curveEquation_iff]
  refine ⟨?_, h.x_lt, h.y_lt, ?_⟩
  · rintro ⟨hx, hy⟩
    rw [fp, fp, hx, hy, fp_curveB, Nat.cast_zero] at hequation
    apply computed.1.1
    linear_combination -hequation
  · rw [fp, fp] at hequation
    rw [hequation]
    rw [fp]
    ring

/-- An accepted public key is a point of the curve. -/
theorem represents_of_valid {point : EccPoint} (h : eccValidPublicKey point = 1) :
    ∃ P, Represents point P := by
  rw [eccValidPublicKey_eq_one_iff, curveEquation_iff] at h
  obtain ⟨-, hx, hy, hequation⟩ := h
  have hpoint : fp point.y ^ 2 = fp point.x ^ 3 + -3 * fp point.x + fp curveB := by
    rw [fp, fp, fp, hequation]
    ring
  exact ⟨.some _ _ (nonsingular_of_equation hpoint), hx, hy, _, rfl⟩

/-- The numbers of a point are determined. -/
theorem Represents.unique {p q : EccPoint} {P : curve.Point} (hp : Represents p P)
    (hq : Represents q P) : p = q := by
  obtain ⟨hxy, hP⟩ := hp.coords
  obtain ⟨hxy', hP'⟩ := hq.coords
  rw [hP] at hP'
  obtain ⟨hx, hy⟩ := WeierstrassCurve.Affine.Point.some.inj hP'
  have hcast : ∀ u v : Vli, val u < prime → val v < prime → fp u = fp v → u = v := by
    intro u v hu hv heq
    rw [fp, fp, ZMod.natCast_eq_natCast_iff', Nat.mod_eq_of_lt hu, Nat.mod_eq_of_lt hv] at heq
    exact eq_of_val_eq heq
  obtain ⟨px, py⟩ := p
  obtain ⟨qx, qy⟩ := q
  rw [EccPoint.mk.injEq]
  exact ⟨hcast _ _ hp.x_lt hq.x_lt hx, hcast _ _ hp.y_lt hq.y_lt hy⟩

/-- The coordinates of a point are not both zero. -/
theorem Represents.not_isZero {point : EccPoint} {P : curve.Point} (h : Represents point P) :
    eccPointIsZero point = false := by
  have hvalid := (eccValidPublicKey_eq_one_iff point).mp h.valid
  rw [eccPointIsZero, decide_eq_false_iff_not, vliIsZero_ne_zero_iff, vliIsZero_ne_zero_iff]
  exact hvalid.1

end EbnAnchor.Core
