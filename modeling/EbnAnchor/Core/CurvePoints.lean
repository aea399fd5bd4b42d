import EbnAnchor.Core.KeyCompression
import EbnAnchor.Core.ModInv
import EbnAnchor.Lib.CoZ

/-!
`ecc.c`, the point operations in co-Z coordinates.

The functions work on coordinates alone; the denominator of the two points is nowhere
stored. The lemmas say what they do to the points, in terms of the group law of the curve:

* `xyczAdd_pair`, `xyczAddC_pair`: the coordinates are those of `CoZ.Pair.sum` and
  `CoZ.Pair.diffSum`;
* `over_initialDouble`: doubling, with the point brought to the denominator of the double;
* `rep_applyZ`: from a denominator back to the plain coordinates.
-/

namespace EbnAnchor.Core

open CoZ

/-! ### The functions -/

/-- `vli_testBit(X1, 0)` and the two branches on it: half of `X1` modulo the prime. -/
def halfB (X1 : Vli) : Vli :=
  if even X1 then vliRshift1 X1
  else
    let (X1, carry) := vliAdd X1 curveP
    orTop (vliRshift1 X1) (carry <<< 31)

/-- `EccPoint_double_jacobian`. -/
def eccPointDoubleJacobian (X1 Y1 Z1 : Vli) : Vli × Vli × Vli :=
  if vliIsZero Z1 ≠ 0 then (X1, Y1, Z1)
  else
    let t4 := vliModSquareFast Y1
    let t5 := vliModMultFast X1 t4
    let t4 := vliModSquareFast t4
    let Y1 := vliModMultFast Y1 Z1
    let Z1 := vliModSquareFast Z1
    let X1 := vliModAdd X1 Z1 curveP
    let Z1 := vliModAdd Z1 Z1 curveP
    let Z1 := vliModSub X1 Z1 curveP
    let X1 := vliModMultFast X1 Z1
    let Z1 := vliModAdd X1 X1 curveP
    let X1 := vliModAdd X1 Z1 curveP
    let X1 := halfB X1
    let Z1 := vliModSquareFast X1
    let Z1 := vliModSub Z1 t5 curveP
    let Z1 := vliModSub Z1 t5 curveP
    let t5 := vliModSub t5 Z1 curveP
    let X1 := vliModMultFast X1 t5
    let t4 := vliModSub X1 t4 curveP
    (Z1, t4, Y1)

/-- `apply_z`. -/
def applyZ (p : EccPoint) (Z : Vli) : EccPoint :=
  let t1 := vliModSquareFast Z
  let X1 := vliModMultFast p.x t1
  let t1 := vliModMultFast t1 Z
  let Y1 := vliModMultFast p.y t1
  ⟨X1, Y1⟩

/-- `XYcZ_initial_double`: the double and the point. -/
def xyczInitialDouble (p : EccPoint) (initialZ : Option Vli) : EccPoint × EccPoint :=
  let z := initialZ.getD vliOne
  let double := applyZ p z
  let double := eccPointDoubleJacobian double.x double.y z
  (⟨double.1, double.2.1⟩, applyZ p double.2.2)

/-- `XYcZ_add`. -/
def xyczAdd (p q : EccPoint) : EccPoint × EccPoint :=
  let t5 := vliModSub q.x p.x curveP
  let t5 := vliModSquareFast t5
  let X1 := vliModMultFast p.x t5
  let X2 := vliModMultFast q.x t5
  let Y2 := vliModSub q.y p.y curveP
  let t5 := vliModSquareFast Y2
  let t5 := vliModSub t5 X1 curveP
  let t5 := vliModSub t5 X2 curveP
  let X2 := vliModSub X2 X1 curveP
  let Y1 := vliModMultFast p.y X2
  let X2 := vliModSub X1 t5 curveP
  let Y2 := vliModMultFast Y2 X2
  let Y2 := vliModSub Y2 Y1 curveP
  (⟨X1, Y1⟩, ⟨t5, Y2⟩)

/-- `XYcZ_addC`. -/
def xyczAddC (p q : EccPoint) : EccPoint × EccPoint :=
  let t5 := vliModSub q.x p.x curveP
  let t5 := vliModSquareFast t5
  let X1 := vliModMultFast p.x t5
  let X2 := vliModMultFast q.x t5
  let t5 := vliModAdd q.y p.y curveP
  let Y2 := vliModSub q.y p.y curveP
  let t6 := vliModSub X2 X1 curveP
  let Y1 := vliModMultFast p.y t6
  let t6 := vliModAdd X1 X2 curveP
  let X2 := vliModSquareFast Y2
  let X2 := vliModSub X2 t6 curveP
  let t7 := vliModSub X1 X2 curveP
  let Y2 := vliModMultFast Y2 t7
  let Y2 := vliModSub Y2 Y1 curveP
  let t7 := vliModSquareFast t5
  let t7 := vliModSub t7 t6 curveP
  let t6 := vliModSub t7 X1 curveP
  let t6 := vliModMultFast t6 t5
  let Y1 := vliModSub t6 Y1 curveP
  (⟨t7, Y1⟩, ⟨X2, Y2⟩)

/-! ### The field -/

/-- The element of the field a number stands for. -/
def fp (v : Vli) : ZMod prime := (val v : ZMod prime)

/-- `v` is reduced and stands for `x`. -/
structure Stands (v : Vli) (x : ZMod prime) : Prop where
  lt : val v < prime
  fp_eq : fp v = x

theorem Stands.lt_curveP {v : Vli} {x : ZMod prime} (h : Stands v x) : val v < val curveP := by
  rw [val_curveP]
  exact h.lt

theorem fp_eq_zero_iff {v : Vli} (h : val v < prime) : fp v = 0 ↔ val v = 0 := by
  rw [fp, ZMod.natCast_eq_zero_iff]
  exact ⟨fun hdvd => Nat.eq_zero_of_dvd_of_lt hdvd h, fun hzero => by rw [hzero]; exact dvd_zero _⟩

theorem stands_of_mod {v : Vli} {n : Nat} (h : val v = n % prime) :
    Stands v (n : ZMod prime) := by
  constructor
  · rw [h]
    exact Nat.mod_lt _ (by decide)
  · rw [fp, h, ZMod.natCast_mod]

section Arithmetic

variable {u v : Vli} {x y : ZMod prime}

theorem stands_mult (u v : Vli) : Stands (vliModMultFast u v) (fp u * fp v) := by
  have h := stands_of_mod (val_vliModMultFast u v)
  rwa [Nat.cast_mul] at h

theorem stands_square (u : Vli) : Stands (vliModSquareFast u) (fp u ^ 2) := by
  have h := stands_of_mod (val_vliModSquareFast u)
  rwa [Nat.cast_mul, ← pow_two] at h

theorem Stands.mult (hu : Stands u x) (hv : Stands v y) :
    Stands (vliModMultFast u v) (x * y) := by
  have h := stands_mult u v
  rwa [hu.fp_eq, hv.fp_eq] at h

theorem Stands.square (hu : Stands u x) : Stands (vliModSquareFast u) (x ^ 2) := by
  have h := stands_square u
  rwa [hu.fp_eq] at h

theorem Stands.add (hu : Stands u x) (hv : Stands v y) :
    Stands (vliModAdd u v curveP) (x + y) := by
  have hval := val_vliModAdd hu.lt_curveP hv.lt_curveP
  rw [val_curveP] at hval
  have h := stands_of_mod hval
  rw [Nat.cast_add] at h
  rw [← hu.fp_eq, ← hv.fp_eq]
  exact h

theorem Stands.sub (hu : Stands u x) (hv : Stands v y) :
    Stands (vliModSub u v curveP) (x - y) := by
  have hval := val_vliModSub hu.lt_curveP hv.lt_curveP
  rw [val_curveP] at hval
  have h := stands_of_mod hval
  rw [Nat.cast_add, Nat.cast_sub hv.lt.le, ZMod.natCast_self, zero_sub, ← sub_eq_add_neg] at h
  rw [← hu.fp_eq, ← hv.fp_eq]
  exact h

/-- Half of an element: the number or the number plus the prime is even. -/
theorem Stands.half (hu : Stands u x) : ∃ y, 2 * y = x ∧ Stands (halfB u) y := by
  have hval : val (halfB u) = BinaryInverse.half prime (val u) := by
    rw [halfB, BinaryInverse.half]
    by_cases heven : even u
    · rw [if_pos heven, if_pos ((even_iff u).mp heven), val_vliRshift1]
    · rw [if_neg heven, if_neg (mt (even_iff u).mpr heven)]
      obtain ⟨hsum, hcarry⟩ := val_vliAdd u curveP
      have hhalve := val_halve (vliAdd u curveP) hcarry
      rw [hsum, val_curveP] at hhalve
      exact hhalve
  have hlt : val (halfB u) < prime := by
    rw [hval]
    exact BinaryInverse.half_lt hu.lt
  refine ⟨fp (halfB u), ?_, hlt, rfl⟩
  have hmod := BinaryInverse.two_mul_half (m := prime) (u := val u) (by decide)
  rw [← hval, ← ZMod.natCast_eq_natCast_iff, Nat.cast_mul] at hmod
  rw [← hu.fp_eq]
  exact hmod

end Arithmetic

/-! ### Two points -/

/-- The coordinates of the two points are reduced and stand for `s`. -/
structure StandsPair (p q : EccPoint) (s : Pair (ZMod prime)) : Prop where
  x₁ : Stands p.x s.X₁
  y₁ : Stands p.y s.Y₁
  x₂ : Stands q.x s.X₂
  y₂ : Stands q.y s.Y₂

variable {p q : EccPoint} {s : Pair (ZMod prime)}

theorem StandsPair.swap (h : StandsPair p q s) : StandsPair q p s.swap :=
  ⟨h.x₂, h.y₂, h.x₁, h.y₁⟩

theorem xyczAdd_pair (h : StandsPair p q s) :
    StandsPair (xyczAdd p q).1 (xyczAdd p q).2 s.sum := by
  have hA := (h.x₂.sub h.x₁).square
  have hB := h.x₁.mult hA
  have hC := h.x₂.mult hA
  have hd := h.y₂.sub h.y₁
  have hX₃ := (hd.square.sub hB).sub hC
  have hY₁ := h.y₁.mult (hC.sub hB)
  have hY₃ := (hd.mult (hB.sub hX₃)).sub hY₁
  exact ⟨hB, hY₁, hX₃, hY₃⟩

theorem xyczAddC_pair (h : StandsPair p q s) :
    StandsPair (xyczAddC p q).1 (xyczAddC p q).2 s.diffSum := by
  have hA := (h.x₂.sub h.x₁).square
  have hB := h.x₁.mult hA
  have hC := h.x₂.mult hA
  have hadd := h.y₂.add h.y₁
  have hd := h.y₂.sub h.y₁
  have hY₁ := h.y₁.mult (hC.sub hB)
  have hBC := hB.add hC
  have hX₃ := hd.square.sub hBC
  have hY₃ := (hd.mult (hB.sub hX₃)).sub hY₁
  have hX₄ := hadd.square.sub hBC
  have hY₄ := ((hX₄.sub hB).mult hadd).sub hY₁
  exact ⟨hX₄, hY₄, hX₃, hY₃⟩

/-! ### Points of the curve -/

/-- The curve. -/
abbrev curve : WeierstrassCurve.Affine (ZMod prime) := shortCurve (-3) (fp curveB)

/-- The reduced coordinates of a point of the curve. -/
structure Represents (point : EccPoint) (P : curve.Point) : Prop where
  x_lt : val point.x < prime
  y_lt : val point.y < prime
  coords : ∃ h, P = .some (fp point.x) (fp point.y) h

theorem two_ne_zero_fp : (2 : ZMod prime) ≠ 0 := by
  have h := (fp_eq_zero_iff (v := #v[2, 0, 0, 0, 0, 0]) (by decide)).not.mpr (by decide)
  have hval : val (#v[2, 0, 0, 0, 0, 0] : Vli) = 2 := by decide
  rwa [fp, hval] at h

theorem Represents.rep {point : EccPoint} {P : curve.Point} (h : Represents point P) :
    Rep P 1 (fp point.x) (fp point.y) := by
  obtain ⟨hxy, rfl⟩ := h.coords
  exact Rep.of_coords hxy

/-- `apply_z` multiplies the denominator. -/
theorem rep_applyZ {P : curve.Point} {Z X Y : ZMod prime} (h : Rep P Z X Y) (hx : Stands p.x X)
    (hy : Stands p.y Y) {z : Vli} (hz : fp z ≠ 0) :
    Rep P (Z * fp z) (fp (applyZ p z).x) (fp (applyZ p z).y) ∧
      val (applyZ p z).x < prime ∧ val (applyZ p z).y < prime := by
  have hX : Stands (applyZ p z).x (X * fp z ^ 2) := hx.mult (stands_square z)
  have hsquare := stands_square z
  have hcube : Stands (vliModMultFast (vliModSquareFast z) z) (fp z ^ 2 * fp z) := by
    have h := stands_mult (vliModSquareFast z) z
    rwa [hsquare.fp_eq] at h
  have hY : Stands (applyZ p z).y (Y * (fp z ^ 2 * fp z)) := hy.mult hcube
  have hscale := h.scale hz
  rw [pow_succ (fp z) 2, ← hX.fp_eq, ← hY.fp_eq] at hscale
  exact ⟨hscale, hX.lt, hY.lt⟩

/-- `EccPoint_double_jacobian` doubles a point that is not its own opposite. -/
theorem rep_double {P : curve.Point} {X1 Y1 Z1 : Vli} {X Y : ZMod prime}
    (h : Rep P (fp Z1) X Y) (hX : Stands X1 X) (hY : Stands Y1 Y) (hne : Y ≠ 0) :
    let double := eccPointDoubleJacobian X1 Y1 Z1
    Rep (P + P) (fp double.2.2) (fp double.1) (fp double.2.1) ∧
      fp double.2.2 = Y * fp Z1 ∧ val double.1 < prime ∧ val double.2.1 < prime := by
  have hzero : ¬ vliIsZero Z1 ≠ 0 := by
    rw [vliIsZero_ne_zero_iff]
    intro hval
    apply h.ne
    rw [fp, hval, Nat.cast_zero]
  have ht4 := hY.square
  have hA := hX.mult ht4
  have hY4 := ht4.square
  have hZ3 : Stands (vliModMultFast Y1 Z1) (Y * fp Z1) := by
    have hmul := stands_mult Y1 Z1
    rwa [hY.fp_eq] at hmul
  have hZ2 := stands_square Z1
  have hsum := hX.add hZ2
  have hM := hsum.mult (hsum.sub (hZ2.add hZ2))
  obtain ⟨B, hB, hhalf⟩ := (hM.add (hM.add hM)).half
  have hX3 := (hhalf.square.sub hA).sub hA
  have hY3 := (hhalf.mult (hA.sub hX3)).sub hY4
  have hdouble : eccPointDoubleJacobian X1 Y1 Z1 = (_, _, vliModMultFast Y1 Z1) := if_neg hzero
  have hB' : 2 * B = 3 * (X ^ 2 - fp Z1 ^ 4) := by
    rw [hB]
    ring
  have hrep := Rep.double two_ne_zero_fp h hne rfl hB' rfl
  rw [hdouble]
  dsimp only
  rw [hZ3.fp_eq, hX3.fp_eq, hY3.fp_eq]
  have hX3' : B ^ 2 - X * Y ^ 2 - X * Y ^ 2 = B ^ 2 - 2 * (X * Y ^ 2) := by ring
  have hY4' : (Y ^ 2) ^ 2 = Y ^ 4 := by ring
  rw [hX3', hY4']
  rw [hX3'] at hX3
  exact ⟨hrep, rfl, hX3.lt, hY3.lt⟩

/-- `XYcZ_initial_double`: the point and its double over one denominator. -/
theorem over_initialDouble {point : EccPoint} {P : curve.Point} (h : Represents point P)
    (hy : fp point.y ≠ 0) {initialZ : Option Vli} (hz : ∀ z ∈ initialZ, fp z ≠ 0) :
    ∃ Z s, Over P (P + P) Z s ∧
      StandsPair (xyczInitialDouble point initialZ).2 (xyczInitialDouble point initialZ).1 s := by
  have hx : Stands point.x (fp point.x) := ⟨h.x_lt, rfl⟩
  have hy' : Stands point.y (fp point.y) := ⟨h.y_lt, rfl⟩
  have hz' : fp (initialZ.getD vliOne) ≠ 0 := by
    cases initialZ with
    | none =>
      rw [Option.getD_none, Ne, fp_eq_zero_iff (by decide)]
      decide
    | some z => exact hz z rfl
  rw [xyczInitialDouble]
  generalize initialZ.getD vliOne = z at hz'
  obtain ⟨hrep, hltx, hlty⟩ := rep_applyZ h.rep hx hy' hz'
  rw [one_mul] at hrep
  have hne : fp (applyZ point z).y ≠ 0 := by
    have hscale := h.rep.scale hz'
    rw [one_mul] at hscale
    rw [(hrep.unique hscale).2]
    exact mul_ne_zero hy (pow_ne_zero 3 hz')
  obtain ⟨hdouble, hZ, hltX, hltY⟩ := rep_double hrep ⟨hltx, rfl⟩ ⟨hlty, rfl⟩ hne
  have hZne : fp (eccPointDoubleJacobian (applyZ point z).x (applyZ point z).y z).2.2 ≠ 0 := by
    rw [hZ]
    exact mul_ne_zero hne hz'
  obtain ⟨hback, hltx', hlty'⟩ := rep_applyZ h.rep hx hy' hZne
  rw [one_mul] at hback
  dsimp only
  exact ⟨_, ⟨_, _, _, _⟩, ⟨hback, hdouble⟩, ⟨hltx', rfl⟩, ⟨hlty', rfl⟩, ⟨hltX, rfl⟩, ⟨hltY, rfl⟩⟩

end EbnAnchor.Core
