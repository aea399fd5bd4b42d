import EbnAnchor.Core.CurvePoints

/-!
`ecc.c`: `EccPoint_mult`, the ladder over the bits of the scalar.

The ladder keeps `m • P` and `(m + 1) • P` for the number `m` that the bits read so far
make, and the denominator of the last step is recovered from the coordinates of the point.
-/

namespace EbnAnchor.Core

open CoZ

/-! ### The ladder -/

/-- `Rx` and `Ry`: `R0` at `false`, `R1` at `true`. -/
abbrev Registers := Bool → EccPoint

/-- Store the two points of an operation on `R[i]` and `R[1-i]`. -/
def Registers.store (r : Registers) (i : Bool) (s : EccPoint × EccPoint) : Registers :=
  Function.update (Function.update r i s.1) (!i) s.2

/-- `XYcZ_addC(Rx[1-nb], Ry[1-nb], Rx[nb], Ry[nb]);`. -/
def ladderAddC (nb : Bool) (r : Registers) : Registers :=
  r.store (!nb) (xyczAddC (r !nb) (r nb))

/-- `XYcZ_add(Rx[nb], Ry[nb], Rx[1-nb], Ry[1-nb]);`. -/
def ladderAdd (nb : Bool) (r : Registers) : Registers :=
  r.store nb (xyczAdd (r nb) (r !nb))

/-- `for(i = ..; i > 0; --i)`, from `i`. -/
def ladderLoop (scalar : Vli) : Nat → Registers → Except Stop Registers
  | 0, r => .ok r
  | i + 1, r => do
    let bit ← vliTestBit scalar (i + 1)
    let nb := decide (bit = 0)
    ladderLoop scalar i (ladderAdd nb (ladderAddC nb r))

/-- `1/Z` in `EccPoint_mult`, up to the call of `vli_modInv`. -/
def finalProduct (nb : Bool) (point : EccPoint) (r : Registers) : Vli :=
  let z := vliModSub (r true).x (r false).x curveP
  let z := vliModMultFast z (r !nb).y
  vliModMultFast z point.x

/-- `vli_numBits(p_scalar) - 2`. The counter is a `uint`, so it wraps around. -/
def firstBit (scalar : Vli) : Nat := (vliNumBits scalar + 2 ^ 32 - 2) % 2 ^ 32

/-- `R0` and `R1` before the loop. -/
def startRegisters (point : EccPoint) (initialZ : Option Vli) : Registers :=
  let (R1, R0) := xyczInitialDouble point initialZ
  fun i => if i then R1 else R0

/-- `EccPoint_mult`. -/
def eccPointMult (time : Nat) (point : EccPoint) (scalar : Vli) (initialZ : Option Vli) :
    Except Stop EccPoint := do
  let r ← ladderLoop scalar (firstBit scalar) (startRegisters point initialZ)
  let bit ← vliTestBit scalar 0
  let nb := decide (bit = 0)
  let r := ladderAddC nb r
  let z ← vliModInv time (finalProduct nb point r) curveP
  let z := vliModMultFast z point.y
  let z := vliModMultFast z (r !nb).x
  return applyZ (ladderAdd nb r false) z

/-! ### The registers -/

section Registers

variable {r : Registers} {s : Pair (ZMod prime)} {bit : Bool}

/-- `R0` and `R1` stand for `s`. -/
def Registers.Stand (r : Registers) (s : Pair (ZMod prime)) : Prop :=
  StandsPair (r false) (r true) s

theorem Registers.Stand.turned (h : r.Stand s) (bit : Bool) :
    StandsPair (r bit) (r !bit) (s.turned bit) := by
  cases bit with
  | false => exact h
  | true => exact h.swap

theorem ladderAddC_stands (h : r.Stand s) (bit : Bool) :
    StandsPair (ladderAddC (!bit) r bit) (ladderAddC (!bit) r !bit) (s.turned bit).diffSum := by
  have hpair := xyczAddC_pair (h.turned bit)
  cases bit with
  | false => exact hpair
  | true => exact hpair

theorem ladderAdd_stands (h : StandsPair (r bit) (r !bit) s) :
    (ladderAdd (!bit) r).Stand (s.swap.sum.turned !bit) := by
  have hpair := xyczAdd_pair h.swap
  cases bit with
  | false => exact hpair.swap
  | true => exact hpair

/-- What the loop does for a bit. -/
theorem ladder_step (h : r.Stand s) (bit : Bool) :
    (ladderAdd (!bit) (ladderAddC (!bit) r)).Stand (s.step bit) :=
  ladderAdd_stands (ladderAddC_stands h bit)

theorem finalProduct_stands (h : StandsPair (r bit) (r !bit) s) (point : EccPoint) :
    Stands (finalProduct (!bit) point r)
      ((bif bit then s.X₁ - s.X₂ else s.X₂ - s.X₁) * s.Y₁ * fp point.x) := by
  have hmul : ∀ d, Stands (vliModSub (r true).x (r false).x curveP) d →
      Stands (finalProduct (!bit) point r) (d * s.Y₁ * fp point.x) := by
    intro d hd
    have hy := hd.mult h.y₁
    have hx := stands_mult (vliModMultFast (vliModSub (r true).x (r false).x curveP) (r bit).y)
      point.x
    rw [hy.fp_eq] at hx
    rw [finalProduct, Bool.not_not]
    exact hx
  apply hmul
  cases bit with
  | false => exact h.x₂.sub h.x₁
  | true => exact h.x₁.sub h.x₂

/-- The bits below the length of the scalar are read within it. -/
theorem testBit_nb (scalar : Vli) {i : Nat} (hi : i < 192) :
    ∃ bit, vliTestBit scalar i = .ok bit ∧ decide (bit = 0) = !(val scalar).testBit i := by
  obtain ⟨bit, hrun, hbit⟩ := vliTestBit_of_lt scalar hi
  refine ⟨bit, hrun, ?_⟩
  cases htest : (val scalar).testBit i with
  | false =>
    have hzero : ¬ bit ≠ 0 := by rw [hbit, htest]; decide
    exact decide_eq_true (not_not.mp hzero)
  | true => exact decide_eq_false (hbit.mpr htest)

end Registers

/-! ### The loop -/

section Loop

variable {P : curve.Point} {scalar : Vli}

/-- The loop ends with the multiples for all bits but the last. -/
theorem ladderLoop_spec (hP : P ≠ 0) (hlt : val scalar < addOrderOf P) {i : Nat}
    (hi : i < 192) (hpos : 0 < val scalar >>> (i + 1)) {r : Registers} {Z : ZMod prime}
    {s : Pair (ZMod prime)} (hr : r.Stand s)
    (hover : Over ((val scalar >>> (i + 1)) • P) ((val scalar >>> (i + 1) + 1) • P) Z s) :
    ∃ r' Z' s', ladderLoop scalar i r = .ok r' ∧ r'.Stand s' ∧
      Over ((val scalar >>> 1) • P) ((val scalar >>> 1 + 1) • P) Z' s' := by
  induction i generalizing r Z s with
  | zero => exact ⟨r, Z, s, rfl, hr, hover⟩
  | succ i ih =>
    obtain ⟨bit, hrun, hbit⟩ := testBit_nb scalar hi
    have hnb := shiftRight_eq_bit (val scalar) (i + 1)
    have hhalf : 2 * (val scalar >>> (i + 1)) ≤ val scalar := by
      have hdiv := Nat.div_mul_le_self (val scalar) (2 ^ (i + 1))
      rw [Nat.shiftRight_eq_div_pow]
      have hpow : 2 ≤ 2 ^ (i + 1) := by
        rw [pow_succ]
        have := Nat.two_pow_pos i
        omega
      calc 2 * (val scalar / 2 ^ (i + 1)) ≤ 2 ^ (i + 1) * (val scalar / 2 ^ (i + 1)) :=
            Nat.mul_le_mul_right _ hpow
        _ ≤ val scalar := by rwa [Nat.mul_comm]
    have hbound := Bool.toNat_le ((val scalar).testBit (i + 1))
    have hne : ∀ j, 0 < j → j < addOrderOf P → j • P ≠ 0 := fun j hj hjlt =>
      nsmul_ne_zero_of_lt_addOrderOf hj.ne' hjlt
    have hapart := hover.apart ((val scalar).testBit (i + 1)) hP (hne _ (by omega) (by omega))
      (hne _ (by omega) (by omega)) (hne _ (by omega) (by omega))
    obtain ⟨Z', hnext⟩ := hover.step ((val scalar).testBit (i + 1)) hapart
    rw [← hnb] at hnext
    have hstep := ladder_step hr ((val scalar).testBit (i + 1))
    have hloop : ladderLoop scalar (i + 1) r =
        ladderLoop scalar i (ladderAdd (decide (bit = 0)) (ladderAddC (decide (bit = 0)) r)) := by
      rw [ladderLoop, hrun]
      rfl
    rw [hloop, hbit]
    exact ih (by omega) (by omega) hstep hnext

end Loop

/-! ### The multiple -/

theorem shiftRight_size {k : Nat} (hk : 0 < k) : k >>> (Nat.size k - 1) = 1 := by
  have hsize := Nat.size_pos.mpr hk
  have hlow : 2 ^ (Nat.size k - 1) ≤ k := by
    rw [← Nat.lt_size]
    omega
  have hhigh := Nat.lt_size_self k
  have hsplit : Nat.size k = Nat.size k - 1 + 1 := by omega
  rw [hsplit, pow_succ] at hhigh
  rw [Nat.shiftRight_eq_div_pow]
  exact Nat.div_eq_of_lt_le (by omega) (by omega)

section Multiple

variable {point : EccPoint} {P : curve.Point} {scalar : Vli} {initialZ : Option Vli}

theorem Represents.y_ne (h : Represents point P) (hodd : addOrderOf P % 2 = 1)
    (hP : 1 < addOrderOf P) : fp point.y ≠ 0 := by
  intro hy
  obtain ⟨hxy, rfl⟩ := h.coords
  have hneg : (.some _ _ hxy : curve.Point) = -.some _ _ hxy := by
    rw [WeierstrassCurve.Affine.Point.neg_some]
    simp [hy]
  have hdouble : 2 • (.some _ _ hxy : curve.Point) = 0 := by
    rw [two_nsmul]
    nth_rewrite 1 [hneg]
    exact neg_add_cancel _
  have hdvd := addOrderOf_dvd_of_nsmul_eq_zero hdouble
  have hle := Nat.le_of_dvd (by decide) hdvd
  have htwo : addOrderOf (.some _ _ hxy : curve.Point) = 2 := by omega
  omega

/-- The counter of the loop, for a scalar of at least two bits. -/
theorem ladder_counter (hlow : 2 ≤ val scalar) :
    ∃ i, firstBit scalar = i ∧ i + 1 < 192 ∧
      val scalar >>> (i + 1) = 1 := by
  have hsize : 2 ≤ Nat.size (val scalar) := by
    have h : 1 < Nat.size (val scalar) := Nat.lt_size.mpr (by omega)
    omega
  have hle := Nat.size_le.mpr scalar.val_lt
  refine ⟨Nat.size (val scalar) - 2, ?_, by omega, ?_⟩
  · rw [firstBit, vliNumBits_eq]
    omega
  · have hpred : Nat.size (val scalar) - 2 + 1 = Nat.size (val scalar) - 1 := by omega
    rw [hpred]
    exact shiftRight_size (by omega)

/-- The registers before the last bit. -/
theorem ladder_before_last (h : Represents point P) (hodd : addOrderOf P % 2 = 1)
    (hz : ∀ z ∈ initialZ, fp z ≠ 0) (hlow : 2 ≤ val scalar)
    (hhigh : val scalar < addOrderOf P) :
    ∃ r Z s, ladderLoop scalar (firstBit scalar) (startRegisters point initialZ) = .ok r ∧
      r.Stand s ∧
      Over ((val scalar >>> 1) • P) ((val scalar >>> 1 + 1) • P) Z s := by
  obtain ⟨Z, s, hover, hstand⟩ := over_initialDouble h (h.y_ne hodd (by omega)) hz
  obtain ⟨i, hi, hlt, hone⟩ := ladder_counter hlow
  have hstart : (startRegisters point initialZ).Stand s := hstand
  rw [hi]
  apply ladderLoop_spec h.rep.ne_zero hhigh (by omega) (by omega) hstart
  rw [hone, one_nsmul, two_nsmul]
  exact hover

/-- `EccPoint_mult` after the loop. -/
theorem eccPointMult_last (time : Nat) {r : Registers} {bit : Bool}
    (hbit : (val scalar).testBit 0 = bit)
    (hloop : ladderLoop scalar (firstBit scalar) (startRegisters point initialZ) = .ok r) :
    eccPointMult time point scalar initialZ =
      (vliModInv time (finalProduct (!bit) point (ladderAddC (!bit) r)) curveP).map fun z =>
        applyZ (ladderAdd (!bit) (ladderAddC (!bit) r) false)
          (vliModMultFast (vliModMultFast z point.y) (ladderAddC (!bit) r bit).x) := by
  obtain ⟨w, hrun, hw⟩ := testBit_nb scalar (by decide : 0 < 192)
  have hcall : eccPointMult time point scalar initialZ =
      (vliTestBit scalar 0).bind fun w =>
        (vliModInv time (finalProduct (decide (w = 0)) point
          (ladderAddC (decide (w = 0)) r)) curveP).bind fun z =>
            .ok (applyZ (ladderAdd (decide (w = 0)) (ladderAddC (decide (w = 0)) r) false)
              (vliModMultFast (vliModMultFast z point.y)
                (ladderAddC (decide (w = 0)) r !decide (w = 0)).x)) := by
    rw [eccPointMult, hloop]
    rfl
  rw [hcall, hrun, Except.bind, hw, hbit, Bool.not_not]
  cases vliModInv time (finalProduct (!bit) point (ladderAddC (!bit) r)) curveP with
  | error stop => rfl
  | ok z => rfl

theorem val_curveP_odd : val curveP % 2 = 1 := by
  rw [val_curveP]
  decide

/-- The inverse of a number that is not a multiple of the prime. -/
theorem vliModInv_fp {z : Vli} (hlt : val z < prime) (hz : fp z ≠ 0) {time : Nat}
    (htime : 384 ≤ time) : ∃ r, vliModInv time z curveP = .ok r ∧ fp r * fp z = 1 := by
  have hpos : 0 < val z := by
    rw [Ne, fp_eq_zero_iff hlt] at hz
    omega
  obtain ⟨r, hrun, -, hmul⟩ := vliModInv_spec val_curveP_odd (by rw [val_curveP]; decide) hpos htime
  refine ⟨r, hrun, ?_⟩
  have hgcd : Nat.gcd (val z) (val curveP) = 1 := by
    rw [val_curveP]
    exact (Nat.coprime_of_lt_prime hpos.ne' hlt prime_prime).symm
  rw [hgcd, val_curveP, ← ZMod.natCast_eq_natCast_iff, Nat.cast_mul, Nat.cast_one] at hmul
  exact hmul

/-- `EccPoint_mult` returns the multiple of a point of odd order, for every scalar but the
smallest and the largest ones. -/
theorem eccPointMult_spec (h : Represents point P) (hx : fp point.x ≠ 0)
    (hodd : addOrderOf P % 2 = 1) (hz : ∀ z ∈ initialZ, fp z ≠ 0) (hlow : 2 ≤ val scalar)
    (hhigh : val scalar + 1 < addOrderOf P) {time : Nat} (htime : 384 ≤ time) :
    ∃ result, eccPointMult time point scalar initialZ = .ok result ∧
      Represents result (val scalar • P) := by
  obtain ⟨r, Z, s, hloop, hr, hover⟩ :=
    ladder_before_last h hodd hz hlow (Nat.lt_of_succ_lt hhigh)
  have hy := h.y_ne hodd (by omega)
  obtain ⟨hxy, hP⟩ := h.coords
  have hbits := shiftRight_eq_bit (val scalar) 0
  rw [Nat.shiftRight_zero, Nat.zero_add] at hbits
  generalize hbit : (val scalar).testBit 0 = bit at hbits
  have hne : ∀ j, 0 < j → j < addOrderOf P → j • P ≠ 0 := fun j hj hjlt =>
    nsmul_ne_zero_of_lt_addOrderOf hj.ne' hjlt
  have hbound := bit.toNat_le
  have hapart := hover.apart bit h.rep.ne_zero (hne _ (by omega) (by omega))
    (hne _ (by omega) (by omega)) (hne _ (by omega) (by omega))
  obtain ⟨Z', hfirst⟩ := hover.first bit hapart.1
  have hX : (s.turned bit).diffSum.X₁ ≠ (s.turned bit).diffSum.X₂ := hapart.2
  have hsecond := hfirst.second hX
  have hr' := ladderAddC_stands hr bit
  have hr'' := ladderAdd_stands hr'
  generalize (s.turned bit).diffSum = t at hX hfirst hsecond hr' hr''
  rw [← hbits] at hsecond
  rw [hP] at hfirst
  -- the product that is inverted is not zero, and its inverse gives that of the denominator
  obtain ⟨hproduct, hback⟩ := hfirst.denominator hx hy hX rfl
  have hstand := finalProduct_stands hr' point
  rw [← hstand.fp_eq] at hproduct hback
  obtain ⟨z, hrun, hz'⟩ := vliModInv_fp hstand.lt hproduct htime
  have hlast := stands_mult (vliModMultFast z point.y) (ladderAddC (!bit) r bit).x
  have hyz := stands_mult z point.y
  rw [hyz.fp_eq, hr'.x₁.fp_eq] at hlast
  have hone : Z' * (t.X₁ - t.X₂) *
      fp (vliModMultFast (vliModMultFast z point.y) (ladderAddC (!bit) r bit).x) = 1 := by
    rw [hlast.fp_eq, ← hz', ← hback]
    ring
  have hzne := right_ne_zero_of_mul (hone.trans_ne one_ne_zero)
  obtain ⟨hrep, hltx, hlty⟩ := rep_applyZ hsecond.fst hr''.x₁ hr''.y₁ hzne
  rw [hone] at hrep
  refine ⟨_, ?_, hltx, hlty, hrep.to_coords⟩
  rw [eccPointMult_last time hbit hloop, hrun]
  rfl

/-! ### Where there is no multiple -/

theorem ladderLoop_outOfBounds {i : Nat} (hi : 192 ≤ i) (r : Registers) :
    ladderLoop scalar i r = .error .outOfBounds := by
  cases i with
  | zero => omega
  | succ i =>
    rw [ladderLoop, vliTestBit_of_le scalar hi]
    rfl

theorem ladderLoop_returns (scalar : Vli) {i : Nat} (hi : i < 192) (r : Registers) :
    ∃ r', ladderLoop scalar i r = .ok r' := by
  induction i generalizing r with
  | zero => exact ⟨r, rfl⟩
  | succ i ih =>
    obtain ⟨bit, hrun, -⟩ := vliTestBit_of_lt scalar hi
    rw [ladderLoop, hrun]
    exact ih (by omega) _

/-- For the scalars 0 and 1 the counter wraps around, and the first bit looked at is outside
the array. -/
theorem eccPointMult_short (time : Nat) (hlow : val scalar ≤ 1) :
    eccPointMult time point scalar initialZ = .error .outOfBounds := by
  have hfirst : 192 ≤ firstBit scalar := by
    have hsize : Nat.size (val scalar) ≤ 1 := Nat.size_le.mpr (by omega)
    rw [firstBit, vliNumBits_eq]
    omega
  rw [eccPointMult, ladderLoop_outOfBounds hfirst]
  rfl

/-- When the product to invert is zero, `vli_modInv` does not return. -/
theorem eccPointMult_stuck (time : Nat) {r : Registers} {bit : Bool}
    (hbit : (val scalar).testBit 0 = bit)
    (hloop : ladderLoop scalar (firstBit scalar) (startRegisters point initialZ) = .ok r)
    (hzero : val (finalProduct (!bit) point (ladderAddC (!bit) r)) = 0) :
    eccPointMult time point scalar initialZ = .error .outOfTime := by
  rw [eccPointMult_last time hbit hloop, vliModInv_zero val_curveP_odd hzero]
  rfl

/-- For a point with x-coordinate 0 no call returns. -/
theorem eccPointMult_x_zero (time : Nat) (hlow : 2 ≤ val scalar) (hx : val point.x = 0) :
    eccPointMult time point scalar initialZ = .error .outOfTime := by
  obtain ⟨i, hi, hlt, -⟩ := ladder_counter hlow
  obtain ⟨r, hloop⟩ := ladderLoop_returns scalar (by omega : i < 192)
    (startRegisters point initialZ)
  rw [← hi] at hloop
  apply eccPointMult_stuck time rfl hloop
  rw [finalProduct, val_vliModMultFast, hx, Nat.mul_zero, Nat.zero_mod]

/-- For the scalar before the order of the point no call returns: the last two multiples are
opposite. -/
theorem eccPointMult_opposite (time : Nat) (h : Represents point P)
    (hodd : addOrderOf P % 2 = 1) (hz : ∀ z ∈ initialZ, fp z ≠ 0) (hlow : 2 ≤ val scalar)
    (hhigh : val scalar + 1 = addOrderOf P) :
    eccPointMult time point scalar initialZ = .error .outOfTime := by
  obtain ⟨r, Z, s, hloop, hr, hover⟩ := ladder_before_last h hodd hz hlow (by omega)
  have hbits := shiftRight_eq_bit (val scalar) 0
  rw [Nat.shiftRight_zero, Nat.zero_add] at hbits
  have hlast : (val scalar).testBit 0 = false := by
    cases hbit : (val scalar).testBit 0 with
    | false => rfl
    | true =>
      rw [hbit, Bool.toNat_true] at hbits
      omega
  rw [hlast, Bool.toNat_false, Nat.add_zero] at hbits
  have hopposite : (val scalar >>> 1 + 1) • P = -((val scalar >>> 1) • P) := by
    rw [eq_neg_iff_add_eq_zero, add_comm, smul_add_smul_succ, ← hbits, hhigh]
    exact addOrderOf_nsmul_eq_zero P
  rw [hopposite] at hover
  obtain ⟨hX, hY⟩ := hover.snd.unique hover.fst.neg
  have hstand := finalProduct_stands (ladderAddC_stands hr false) point
  have hzero : (s.turned false).diffSum.Y₁ = 0 := by
    change ((s.Y₂ + s.Y₁) ^ 2 - (s.X₁ * (s.X₂ - s.X₁) ^ 2 + s.X₂ * (s.X₂ - s.X₁) ^ 2) -
      s.X₁ * (s.X₂ - s.X₁) ^ 2) * (s.Y₂ + s.Y₁) -
        s.Y₁ * (s.X₂ * (s.X₂ - s.X₁) ^ 2 - s.X₁ * (s.X₂ - s.X₁) ^ 2) = 0
    rw [hX, hY]
    ring
  apply eccPointMult_stuck time hlast hloop
  rw [← fp_eq_zero_iff hstand.lt, hstand.fp_eq, hzero, mul_zero, zero_mul]

end Multiple

end EbnAnchor.Core
