import Mathlib.Algebra.Group.Pi.Units
import Mathlib.LinearAlgebra.Matrix.Block
import Mathlib.LinearAlgebra.Matrix.NonsingularInverse
import Mathlib.LinearAlgebra.Matrix.Swap
import Mathlib.LinearAlgebra.Matrix.Transvection

/-!
Row reduction of a square matrix over a field, with the operations recorded.

`Reaches A M N` says that the operations collected in `N` take `A` to `M`. Main results:

* `Reaches.swapRows`, `Reaches.scaleRow`, `Reaches.addRow`: the three row operations,
  applied to both matrices, keep it;
* `Reaches.inverse`: when `M` is the unit matrix, `N` is the inverse of `A`;
* `UpperTo.not_isUnit`: a column without a pivot shows that there is none.
-/

namespace RowReduction

open Matrix

variable {F : Type*} [Field F] {n : Nat} {A M N M' N' : Matrix (Fin n) (Fin n) F}

/-- `N` takes `A` to `M` and can be undone. -/
structure Reaches (A M N : Matrix (Fin n) (Fin n) F) : Prop where
  mul_eq : N * A = M
  isUnit : IsUnit N

theorem Reaches.refl (A : Matrix (Fin n) (Fin n) F) : Reaches A A 1 :=
  ⟨one_mul A, isUnit_one⟩

theorem Reaches.mul (h : Reaches A M N) {E : Matrix (Fin n) (Fin n) F} (hE : IsUnit E) :
    Reaches A (E * M) (E * N) :=
  ⟨by rw [Matrix.mul_assoc, h.mul_eq], hE.mul h.isUnit⟩

/-- The matrix reached is invertible when the one started from is. -/
theorem Reaches.isUnit_iff (h : Reaches A M N) : IsUnit M ↔ IsUnit A := by
  rw [← h.mul_eq]
  exact IsUnit.mul_left_iff h.isUnit

theorem Reaches.inverse (h : Reaches A 1 N) : N = A⁻¹ := (inv_eq_left_inv h.mul_eq).symm

/-! ### Row operations -/

theorem Reaches.swapRows (h : Reaches A M N) (i j : Fin n)
    (hM : ∀ r c, M' r c = M (Equiv.swap i j r) c)
    (hN : ∀ r c, N' r c = N (Equiv.swap i j r) c) : Reaches A M' N' := by
  have hrow : ∀ {X X' : Matrix (Fin n) (Fin n) F},
      (∀ r c, X' r c = X (Equiv.swap i j r) c) → X' = swap F i j * X := by
    intro X X' hX
    ext r c
    rw [hX, swap, PEquiv.toMatrix_toPEquiv_mul, submatrix_apply, id]
  have hunit : IsUnit (swap F i j) := (GeneralLinearGroup.swap F i j).isUnit
  rw [hrow hM, hrow hN]
  exact h.mul hunit

theorem Reaches.scaleRow (h : Reaches A M N) (i : Fin n) {d : F} (hd : d ≠ 0)
    (hM : ∀ r c, M' r c = if r = i then d * M r c else M r c)
    (hN : ∀ r c, N' r c = if r = i then d * N r c else N r c) : Reaches A M' N' := by
  let D : Fin n → F := fun r => if r = i then d else 1
  have hrow : ∀ {X X' : Matrix (Fin n) (Fin n) F},
      (∀ r c, X' r c = if r = i then d * X r c else X r c) → X' = diagonal D * X := by
    intro X X' hX
    ext r c
    rw [hX, diagonal_mul]
    by_cases hr : r = i
    · simp [D, hr]
    · simp [D, hr]
  have hunit : IsUnit (diagonal D) := by
    rw [isUnit_diagonal, Pi.isUnit_iff]
    intro r
    by_cases hr : r = i
    · simpa [D, hr] using hd
    · simp [D, hr]
  rw [hrow hM, hrow hN]
  exact h.mul hunit

/-- Add `t` times row `i` to row `j`. -/
theorem Reaches.addRow (h : Reaches A M N) {i j : Fin n} (hij : j ≠ i) (t : F)
    (hM : ∀ r c, M' r c = if r = j then M r c + t * M i c else M r c)
    (hN : ∀ r c, N' r c = if r = j then N r c + t * N i c else N r c) :
    Reaches A M' N' := by
  have hrow : ∀ {X X' : Matrix (Fin n) (Fin n) F},
      (∀ r c, X' r c = if r = j then X r c + t * X i c else X r c) →
        X' = transvection j i t * X := by
    intro X X' hX
    ext r c
    rw [hX]
    by_cases hr : r = j
    · rw [if_pos hr, hr, transvection_mul_apply_same]
    · rw [if_neg hr, transvection_mul_apply_of_ne _ _ _ _ hr]
  have hunit : IsUnit (transvection j i t) := by
    rw [isUnit_iff_isUnit_det, det_transvection_of_ne _ _ hij]
    exact isUnit_one
  rw [hrow hM, hrow hN]
  exact h.mul hunit

/-! ### Upper triangular form -/

/-- The columns before `i` are those of an upper triangular matrix with a unit diagonal. -/
structure UpperTo (i : Nat) (M : Matrix (Fin n) (Fin n) F) : Prop where
  diag : ∀ c : Fin n, (c : Nat) < i → M c c = 1
  below : ∀ r c : Fin n, (c : Nat) < i → c < r → M r c = 0

theorem UpperTo.zero (M : Matrix (Fin n) (Fin n) F) : UpperTo 0 M :=
  ⟨fun _ hc => absurd hc (Nat.not_lt_zero _), fun _ _ hc => absurd hc (Nat.not_lt_zero _)⟩

/-- Column `i` has no pivot: the rows from `i` on do not see the columns up to `i`. -/
theorem UpperTo.not_isUnit {i : Fin n} (h : UpperTo i M) (hcol : ∀ r, i ≤ r → M r i = 0) :
    ¬ IsUnit M := by
  rw [isUnit_iff_isUnit_det, isUnit_iff_ne_zero, not_not]
  rw [twoBlockTriangular_det M (fun r => r < i) fun r hr c hc =>
    h.below r c hc (lt_of_lt_of_le hc (le_of_not_gt hr))]
  apply mul_eq_zero_of_right
  refine det_eq_zero_of_column_eq_zero ⟨i, lt_irrefl i⟩ fun r => ?_
  exact hcol r (le_of_not_gt r.property)

/-- The columns from `i` on are unit columns, those before are as in `UpperTo`. -/
structure UnitFrom (i : Nat) (M : Matrix (Fin n) (Fin n) F) : Prop where
  upper : UpperTo n M
  unit : ∀ r c : Fin n, i ≤ (c : Nat) → M r c = if r = c then 1 else 0

/-- The row whose turn it is, is a unit row already. -/
theorem UnitFrom.unitRow {i : Fin n} (h : UnitFrom (i + 1) M) (c : Fin n) :
    M i c = if i = c then 1 else 0 := by
  rcases lt_trichotomy c i with hlt | heq | hgt
  · rw [h.upper.below i c c.isLt hlt, if_neg hlt.ne']
  · rw [heq, h.upper.diag i i.isLt, if_pos rfl]
  · exact h.unit i c hgt

theorem UnitFrom.eq_one (h : UnitFrom 0 M) : M = 1 := by
  ext r c
  rw [h.unit r c (Nat.zero_le _), one_apply]

end RowReduction
