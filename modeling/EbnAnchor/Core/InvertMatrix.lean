import EbnAnchor.Core.ReedSolomon
import EbnAnchor.Lib.RowReduction

/-!
`jerasure.c`: `jerasure_invert_matrix` and `jerasure_invertible_matrix` at `w = 32`.

Both bring `mat` into upper triangular form; the first does to `inv` what it does to
`mat`, then clears what is above the diagonal. The two arrays are different regions, so
the loops that work on both are written as one loop for each.

Main results:

* `invertMatrix_spec`: the call returns, with 0 and the inverse in `inv` when there is an
  inverse, with -1 when there is none;
* `invertibleMatrix_spec`: the second function returns, and answers the same question.
-/

namespace EbnAnchor.Core

open Loop RowReduction

/-! ### Row operations -/

/-- Multiply the row at `rowStart` by `inverse`. -/
def scaleRow (cols rowStart : Nat) (inverse : Word) (a : IntArray) : IntArray :=
  forUp 0 cols (fun j a => Function.update a (rowStart + j)
    (galoisSingleMultiply (a (rowStart + j)) inverse)) a

/-- Add the row at `rowStart` to the row at `rs2`. -/
def xorRow (cols rs2 rowStart : Nat) (a : IntArray) : IntArray :=
  forUp 0 cols (fun x a => Function.update a (rs2 + x)
    (a (rs2 + x) ^^^ a (rowStart + x))) a

/-- Add `tmp` times the row at `rowStart` to the row at `rs2`. -/
def addRow (cols rs2 rowStart : Nat) (tmp : Word) (a : IntArray) : IntArray :=
  forUp 0 cols (fun x a => Function.update a (rs2 + x)
    (a (rs2 + x) ^^^ galoisSingleMultiply tmp (a (rowStart + x)))) a

/-! ### Upper triangular form

The first loop of both functions. `σ` holds the arrays, `mat` is the one that is looked
at, `both` applies an operation to all of them. An error ends the function: `some` when no
row can be swapped in, `none` when a division does not return. -/

section Upper

variable {σ : Type} (mat : σ → IntArray) (both : (IntArray → IntArray) → σ → σ)

/-- `for (j = i+1; j < rows && mat[cols*j+i] == 0; j++) ;` -/
def findRow (rows i : Nat) (a : IntArray) : Option Nat :=
  (List.range' (i + 1) (rows - (i + 1))).find? fun j => a (j * rows + i) ≠ 0

/-- Swap rows if the `i,i` element is zero. -/
def swapPivot (rows i : Nat) (s : σ) : Except (Option σ) σ :=
  if mat s (i * rows + i) = 0 then
    match findRow rows i (mat s) with
    | none => .error (some s)
    | some j => .ok (both (swapRows rows (i * rows) (j * rows)) s)
  else .ok s

/-- Multiply the row by 1/element `i,i`. -/
def unitRow (rows i : Nat) (s : σ) : Except (Option σ) σ :=
  let tmp := mat s (i * rows + i)
  if tmp ≠ 1 then
    match galoisSingleDivide 1 tmp with
    | none => .error none
    | some inverse => .ok (both (scaleRow rows (i * rows) inverse) s)
  else .ok s

/-- For each `j > i`, add `A_ji*Ai` to `Aj`. -/
def clearBelow (rows i : Nat) (s : σ) : σ :=
  forUp (i + 1) (rows - (i + 1)) (fun j s =>
    let tmp := mat s (j * rows + i)
    if tmp ≠ 0 then
      if tmp = 1 then both (xorRow rows (j * rows) (i * rows)) s
      else both (addRow rows (j * rows) (i * rows) tmp) s
    else s) s

def upperColumn (rows i : Nat) (s : σ) : Except (Option σ) σ :=
  ((swapPivot mat both rows i s).bind (unitRow mat both rows i)).map
    (clearBelow mat both rows i)

end Upper

/-! ### The two functions -/

/-- The arguments `mat` and `inv`. -/
structure Augmented where
  mat : IntArray
  inv : IntArray

def Augmented.both (f : IntArray → IntArray) (s : Augmented) : Augmented :=
  ⟨f s.mat, f s.inv⟩

@[simp] theorem Augmented.both_mat (f : IntArray → IntArray) (s : Augmented) :
    (s.both f).mat = f s.mat := rfl

@[simp] theorem Augmented.both_inv (f : IntArray → IntArray) (s : Augmented) :
    (s.both f).inv = f s.inv := rfl

/-- `inv[k] = (i == j) ? 1 : 0`, where `k` runs through the rows. -/
def unitMatrix (rows : Nat) (inv : IntArray) : IntArray :=
  forUp 0 rows (fun i inv => forUp 0 rows (fun j inv =>
    Function.update inv (i * rows + j) (if i = j then 1 else 0)) inv) inv

/-- Clear what is above element `i,i`. -/
def clearAbove (rows i : Nat) (s : Augmented) : Augmented :=
  forUp 0 i (fun j s =>
    let tmp := s.mat (j * rows + i)
    if tmp ≠ 0 then
      ⟨Function.update s.mat (j * rows + i) 0, addRow rows (j * rows) (i * rows) tmp s.inv⟩
    else s) s

/-- `jerasure_invert_matrix(mat, inv, rows, 32)`: what it returns and the arrays it leaves;
`none` when it does not return. -/
def jerasureInvertMatrix (rows : Nat) (mat inv : IntArray) : Option (Int × Augmented) :=
  match forUpE 0 rows (upperColumn Augmented.mat Augmented.both rows)
      ⟨mat, unitMatrix rows inv⟩ with
  | .error none => none
  | .error (some s) => some (-1, s)
  | .ok s => some (0, forDown rows (clearAbove rows) s)

/-- `jerasure_invertible_matrix(mat, rows, 32)`. -/
def jerasureInvertibleMatrix (rows : Nat) (mat : IntArray) : Option Int :=
  match forUpE 0 rows (upperColumn id (fun f => f) rows) mat with
  | .error none => none
  | .error (some _) => some 0
  | .ok _ => some 1

/-! ### What an operation leaves -/

section Entries

variable {cols : Nat} {a : IntArray}

theorem scaleRow_entry {i : Nat} (inverse : Word) {r c : Nat} (hc : c < cols) :
    scaleRow cols (i * cols) inverse a (r * cols + c)
      = if r = i then galoisSingleMultiply (a (r * cols + c)) inverse
        else a (r * cols + c) := by
  rw [scaleRow, forUp_row (by omega)
    (w := fun j u => galoisSingleMultiply (u (i * cols + j)) inverse) ?_ hc]
  · by_cases hr : r = i
    · rw [if_pos ⟨hr, by omega, by omega⟩, if_pos hr, hr]
    · rw [if_neg (by tauto), if_neg hr]
  · intro j u hj hu
    rw [hu i j (by omega) (by omega)]

/-- A row operation that changes row `j` with the help of another row `i`. -/
theorem forUp_addRow {i j : Nat} (hij : i ≠ j) (f : Word → Word → Word) {r c : Nat}
    (hc : c < cols) :
    forUp 0 cols (fun x a => Function.update a (j * cols + x)
        (f (a (j * cols + x)) (a (i * cols + x)))) a (r * cols + c)
      = if r = j then f (a (r * cols + c)) (a (i * cols + c)) else a (r * cols + c) := by
  rw [forUp_row (by omega) (w := fun x u => f (u (j * cols + x)) (u (i * cols + x))) ?_ hc]
  · by_cases hr : r = j
    · rw [if_pos ⟨hr, by omega, by omega⟩, if_pos hr, hr]
    · rw [if_neg (by tauto), if_neg hr]
  · intro x u hx hu
    rw [hu j x (by omega) (by omega), hu i x (by omega) fun hall => hij hall.1]

theorem gf_xorRow_entry {i j : Nat} (hij : i ≠ j) {r c : Nat} (hc : c < cols) :
    gf (xorRow cols (j * cols) (i * cols) a (r * cols + c))
      = if r = j then gf (a (r * cols + c)) + 1 * gf (a (i * cols + c))
        else gf (a (r * cols + c)) := by
  rw [xorRow, forUp_addRow hij (fun x y => x ^^^ y) hc]
  split_ifs
  · rw [gf_xor, one_mul]
  · rfl

theorem gf_addRow_entry {i j : Nat} (hij : i ≠ j) (tmp : Word) {r c : Nat} (hc : c < cols) :
    gf (addRow cols (j * cols) (i * cols) tmp a (r * cols + c))
      = if r = j then gf (a (r * cols + c)) + gf tmp * gf (a (i * cols + c))
        else gf (a (r * cols + c)) := by
  rw [addRow, forUp_addRow hij (fun x y => x ^^^ galoisSingleMultiply tmp y) hc]
  split_ifs
  · exact gf_addMul ..
  · rfl

/-- A loop that stores into one row of the matrix stores nowhere else. -/
theorem forUp_row_outside {rows i : Nat} (hi : i < rows) (w : Nat → IntArray → Word)
    {x : Nat} (hx : rows * cols ≤ x) :
    forUp 0 cols (fun j a => Function.update a (i * cols + j) (w j a)) a x = a x := by
  refine forUp_invariant (P := fun _ (u : IntArray) => u x = a x) rfl ?_
  rintro j u - hj hu
  have hcell : i * cols + j < rows * cols := by
    calc i * cols + j < (i + 1) * cols := by rw [Nat.add_mul]; omega
      _ ≤ rows * cols := Nat.mul_le_mul_right cols hi
  rw [Function.update_of_ne (by omega), hu]

theorem scaleRow_outside {rows i : Nat} (hi : i < rows) (inverse : Word) {x : Nat}
    (hx : rows * cols ≤ x) : scaleRow cols (i * cols) inverse a x = a x :=
  forUp_row_outside hi _ hx

theorem xorRow_outside {rows j : Nat} (hj : j < rows) (rowStart : Nat) {x : Nat}
    (hx : rows * cols ≤ x) : xorRow cols (j * cols) rowStart a x = a x :=
  forUp_row_outside hj _ hx

theorem addRow_outside {rows j : Nat} (hj : j < rows) (rowStart : Nat) (tmp : Word) {x : Nat}
    (hx : rows * cols ≤ x) : addRow cols (j * cols) rowStart tmp a x = a x :=
  forUp_row_outside hj _ hx

theorem swapRows_outside {rows i j : Nat} (hi : i < rows) (hj : j < rows) {x : Nat}
    (hx : rows * cols ≤ x) : swapRows cols (i * cols) (j * cols) a x = a x := by
  refine forUp_invariant (P := fun _ (u : IntArray) => u x = a x) rfl ?_
  rintro k u - hk hu
  have hcell : ∀ r < rows, r * cols + k < rows * cols := fun r hr => by
    calc r * cols + k < (r + 1) * cols := by rw [Nat.add_mul]; omega
      _ ≤ rows * cols := Nat.mul_le_mul_right cols hr
  have := hcell i hi
  have := hcell j hj
  rw [Function.update_of_ne (by omega), Function.update_of_ne (by omega), hu]

end Entries

theorem gf_unitMatrix (rows : Nat) (inv : IntArray) :
    gfMatrix rows rows (unitMatrix rows inv) = 1 := by
  have h := forUp_invariant (a := 0) (n := rows) (s := inv)
    (f := fun i inv => forUp 0 rows (fun j inv =>
      Function.update inv (i * rows + j) (if i = j then 1 else 0)) inv)
    (P := fun i u => ∀ r < i, ∀ c < rows,
      u (r * rows + c) = if r = c then (1 : Word) else 0)
    (by simp)
    (by
      rintro i u - hi ih r hr c hc
      rw [forUp_row (by omega) (w := fun j _ => if i = j then (1 : Word) else 0)
        (fun _ _ _ _ => rfl) hc]
      by_cases hri : r = i
      · rw [if_pos ⟨hri, by omega, by omega⟩, hri]
      · rw [if_neg (by tauto), ih r (by omega) c hc])
  ext r c
  rw [gfMatrix, unitMatrix, h r (by omega) c c.isLt, Matrix.one_apply]
  simp only [Fin.ext_iff]
  split_ifs
  · exact gf_ofNat_one
  · exact gf_ofNat_zero

theorem unitMatrix_outside {rows : Nat} {inv : IntArray} {x : Nat} (hx : rows * rows ≤ x) :
    unitMatrix rows inv x = inv x := by
  refine forUp_invariant (P := fun _ (u : IntArray) => u x = inv x) rfl ?_
  rintro i u - hi hu
  exact (forUp_row_outside (by omega : i < rows) _ hx).trans hu

/-! ### The invariant -/

section Invariant

variable {rows : Nat} {mat₀ inv₀ : IntArray}

/-- The operations so far, collected in `inv`, take the matrix to what is in `mat`, and
nothing is stored beyond the two matrices. -/
structure RowOps (rows : Nat) (mat₀ inv₀ : IntArray) (s : Augmented) : Prop where
  reaches : Reaches (gfMatrix rows rows mat₀) (gfMatrix rows rows s.mat)
    (gfMatrix rows rows s.inv)
  outside : ∀ x, rows * rows ≤ x → s.mat x = mat₀ x ∧ s.inv x = inv₀ x

/-- The columns before `i` are done. -/
structure Triangular (rows : Nat) (mat₀ inv₀ : IntArray) (i : Nat) (s : Augmented) : Prop
    extends RowOps rows mat₀ inv₀ s where
  upper : UpperTo i (gfMatrix rows rows s.mat)

variable {s : Augmented}

theorem RowOps.swapRows (h : RowOps rows mat₀ inv₀ s) {i j : Nat} (hi : i < rows)
    (hj : j < rows) (hij : j ≠ i) :
    RowOps rows mat₀ inv₀ (s.both (swapRows rows (i * rows) (j * rows))) := by
  have hswap : ∀ (a : IntArray) (r c : Fin rows),
      gfMatrix rows rows (Core.swapRows rows (i * rows) (j * rows) a) r c
        = gfMatrix rows rows a (Equiv.swap ⟨j, hj⟩ ⟨i, hi⟩ r) c := by
    intro a r c
    rw [gfMatrix, gfMatrix, swapRows_entry hij c.isLt]
    congr 4
    rw [Equiv.swap_apply_def, Equiv.swap_apply_def]
    simp only [Fin.ext_iff]
    split_ifs <;> rfl
  constructor
  · exact h.reaches.swapRows _ _ (hswap s.mat) (hswap s.inv)
  · intro x hx
    rw [Augmented.both_mat, Augmented.both_inv]
    exact ⟨(swapRows_outside hi hj hx).trans (h.outside x hx).1,
      (swapRows_outside hi hj hx).trans (h.outside x hx).2⟩

theorem RowOps.scaleRow (h : RowOps rows mat₀ inv₀ s) {i : Nat} (hi : i < rows)
    {inverse : Word} (hne : gf inverse ≠ 0) :
    RowOps rows mat₀ inv₀ (s.both (scaleRow rows (i * rows) inverse)) := by
  have hscale : ∀ (a : IntArray) (r c : Fin rows),
      gfMatrix rows rows (Core.scaleRow rows (i * rows) inverse a) r c
        = if r = ⟨i, hi⟩ then gf inverse * gfMatrix rows rows a r c
          else gfMatrix rows rows a r c := by
    intro a r c
    rw [gfMatrix, gfMatrix, scaleRow_entry inverse c.isLt]
    simp only [Fin.ext_iff]
    split_ifs
    · rw [gf_galoisSingleMultiply, mul_comm]
    · rfl
  constructor
  · exact h.reaches.scaleRow _ hne (hscale s.mat) (hscale s.inv)
  · intro x hx
    rw [Augmented.both_mat, Augmented.both_inv]
    exact ⟨(scaleRow_outside hi _ hx).trans (h.outside x hx).1,
      (scaleRow_outside hi _ hx).trans (h.outside x hx).2⟩

/-- Row `j` takes `t` times row `i`, by whichever loop does it. -/
theorem RowOps.addRow (h : RowOps rows mat₀ inv₀ s) {i j : Nat} (hi : i < rows)
    (hj : j < rows) (hij : i ≠ j) (t : GF) {s' : Augmented}
    (hmat : ∀ r, ∀ c < rows, gf (s'.mat (r * rows + c)) =
      if r = j then gf (s.mat (r * rows + c)) + t * gf (s.mat (i * rows + c))
      else gf (s.mat (r * rows + c)))
    (hinv : ∀ r, ∀ c < rows, gf (s'.inv (r * rows + c)) =
      if r = j then gf (s.inv (r * rows + c)) + t * gf (s.inv (i * rows + c))
      else gf (s.inv (r * rows + c)))
    (houtside : ∀ x, rows * rows ≤ x → s'.mat x = s.mat x ∧ s'.inv x = s.inv x) :
    RowOps rows mat₀ inv₀ s' := by
  constructor
  · refine h.reaches.addRow (i := ⟨i, hi⟩) (j := ⟨j, hj⟩) ?_ t ?_ ?_
    · simpa using hij.symm
    · intro r c
      simp only [gfMatrix, hmat r c c.isLt, Fin.ext_iff]
    · intro r c
      simp only [gfMatrix, hinv r c c.isLt, Fin.ext_iff]
  · intro x hx
    have hsame := houtside x hx
    exact ⟨hsame.1.trans (h.outside x hx).1, hsame.2.trans (h.outside x hx).2⟩

/-! ### One column -/

/-- The swap finds a pivot, or the columns up to `i` show that there is no inverse. -/
theorem Triangular.swapPivot {i : Nat} (h : Triangular rows mat₀ inv₀ i s) (hi : i < rows) :
    (∃ s', swapPivot Augmented.mat Augmented.both rows i s = .ok s' ∧
      Triangular rows mat₀ inv₀ i s' ∧ s'.mat (i * rows + i) ≠ 0#32) ∨
    swapPivot Augmented.mat Augmented.both rows i s = .error (some s) ∧
      ¬ IsUnit (gfMatrix rows rows mat₀) := by
  rw [Core.swapPivot]
  by_cases hpivot : s.mat (i * rows + i) = 0
  · rw [if_pos hpivot]
    cases hfind : findRow rows i s.mat with
    | none =>
      right
      refine ⟨rfl, ?_⟩
      rw [← h.reaches.isUnit_iff]
      refine h.upper.not_isUnit (i := ⟨i, hi⟩) fun r hr => gf_eq_zero_iff.mpr ?_
      rcases Nat.eq_or_lt_of_le (Fin.le_def.mp hr) with heq | hlt
      · dsimp only at heq
        rw [← heq]
        exact hpivot
      · have hnot := List.find?_eq_none.mp hfind r (by
          rw [List.mem_range'_1]
          dsimp only at hlt
          omega)
        rw [decide_eq_true_iff, not_not] at hnot
        exact hnot
    | some j =>
      have hrange := List.mem_of_find?_eq_some hfind
      have hne := List.find?_some hfind
      rw [List.mem_range'_1] at hrange
      rw [decide_eq_true_iff] at hne
      left
      refine ⟨_, rfl, ⟨h.toRowOps.swapRows hi (by omega) (by omega), ?_⟩, ?_⟩
      · have hentry : ∀ r c : Fin rows, (c : Nat) < i →
            gfMatrix rows rows (s.both (swapRows rows (i * rows) (j * rows))).mat r c
              = if (r : Nat) < i then gfMatrix rows rows s.mat r c else 0 := by
          intro r c hc
          rw [gfMatrix, Augmented.both_mat, swapRows_entry (by omega) c.isLt,
            Equiv.swap_apply_def]
          by_cases hr : (r : Nat) < i
          · rw [if_neg (by omega), if_neg (by omega), if_pos hr, gfMatrix]
          · rw [if_neg hr]
            have hzero : ∀ r' : Nat, (hr' : r' < rows) → i ≤ r' →
                gf (s.mat (r' * rows + c)) = 0 := fun r' hr' hge =>
              h.upper.below ⟨r', hr'⟩ c hc (Fin.lt_def.mpr (by dsimp only; omega))
            split_ifs
            · exact hzero i hi le_rfl
            · exact hzero j (by omega) (by omega)
            · exact hzero r r.isLt (by omega)
        constructor
        · intro c hc
          rw [hentry c c hc, if_pos hc, h.upper.diag c hc]
        · intro r c hc hlt
          rw [hentry r c hc]
          split_ifs
          · exact h.upper.below r c hc hlt
          · rfl
      · rw [Augmented.both_mat, swapRows_entry (by omega) hi, Equiv.swap_apply_right]
        exact hne
  · rw [if_neg hpivot]
    exact Or.inl ⟨s, rfl, h, hpivot⟩

/-- The pivot becomes one. -/
theorem Triangular.unitRow {i : Nat} (h : Triangular rows mat₀ inv₀ i s) (hi : i < rows)
    (hne : s.mat (i * rows + i) ≠ 0#32) :
    ∃ s', unitRow Augmented.mat Augmented.both rows i s = .ok s' ∧
      Triangular rows mat₀ inv₀ i s' ∧ gf (s'.mat (i * rows + i)) = 1 := by
  rw [Core.unitRow]
  by_cases hone : s.mat (i * rows + i) = 1
  · rw [if_neg (not_not.mpr hone)]
    exact ⟨s, rfl, h, (congrArg gf hone).trans gf_ofNat_one⟩
  · obtain ⟨q, hq, hgf⟩ := galoisSingleDivide_one hne
    have hq0 : gf q ≠ 0 := by
      rw [hgf]
      exact inv_ne_zero (gf_ne_zero hne)
    rw [if_pos hone, hq]
    have hentry : ∀ r, ∀ c < rows,
        gf ((s.both (scaleRow rows (i * rows) q)).mat (r * rows + c))
          = if r = i then gf (s.mat (r * rows + c)) * gf q else gf (s.mat (r * rows + c)) := by
      intro r c hc
      rw [Augmented.both_mat, scaleRow_entry q hc]
      split_ifs
      · exact gf_galoisSingleMultiply ..
      · rfl
    refine ⟨_, rfl, ⟨h.toRowOps.scaleRow hi hq0, ?_⟩, ?_⟩
    · constructor
      · intro c hc
        rw [gfMatrix, hentry c c c.isLt, if_neg (by omega)]
        exact h.upper.diag c hc
      · intro r c hc hlt
        have hzero : gf (s.mat (r * rows + c)) = 0 := h.upper.below r c hc hlt
        rw [gfMatrix, hentry r c c.isLt, hzero, zero_mul, ite_self]
    · rw [hentry i i hi, if_pos rfl, hgf, mul_inv_cancel₀ (gf_ne_zero hne)]

/-- Row `j` loses its entry in column `i`. -/
theorem Triangular.clearEntry {i j : Nat} (h : Triangular rows mat₀ inv₀ i s) (hij : i < j)
    (hj : j < rows) (hunit : gf (s.mat (i * rows + i)) = 1) {s' : Augmented}
    (hops : RowOps rows mat₀ inv₀ s')
    (hmat : ∀ r, ∀ c < rows, gf (s'.mat (r * rows + c)) =
      if r = j then gf (s.mat (r * rows + c)) +
        gf (s.mat (j * rows + i)) * gf (s.mat (i * rows + c))
      else gf (s.mat (r * rows + c))) :
    Triangular rows mat₀ inv₀ i s' ∧ gf (s'.mat (i * rows + i)) = 1 ∧
      gf (s'.mat (j * rows + i)) = 0 ∧
      ∀ r ≠ j, gf (s'.mat (r * rows + i)) = gf (s.mat (r * rows + i)) := by
  have hi : i < rows := by omega
  refine ⟨⟨hops, ?_⟩, ?_, ?_, ?_⟩
  · have hrow : ∀ c : Fin rows, (c : Nat) < i → gf (s.mat (i * rows + c)) = 0 :=
      fun c hc => h.upper.below ⟨i, hi⟩ c hc hc
    have hsame : ∀ r c : Fin rows, (c : Nat) < i →
        gfMatrix rows rows s'.mat r c = gfMatrix rows rows s.mat r c := by
      intro r c hc
      rw [gfMatrix, hmat r c c.isLt, hrow c hc, mul_zero, add_zero, ite_self, gfMatrix]
    constructor
    · intro c hc
      rw [hsame c c hc, h.upper.diag c hc]
    · intro r c hc hlt
      rw [hsame r c hc, h.upper.below r c hc hlt]
  · rw [hmat i i hi, if_neg (by omega), hunit]
  · rw [hmat j i hi, if_pos rfl, hunit, mul_one, CharTwo.add_self_eq_zero]
  · intro r hr
    rw [hmat r i hi, if_neg hr]

theorem Triangular.clearBelow {i : Nat} (h : Triangular rows mat₀ inv₀ i s) (hi : i < rows)
    (hunit : gf (s.mat (i * rows + i)) = 1) :
    Triangular rows mat₀ inv₀ (i + 1) (clearBelow Augmented.mat Augmented.both rows i s) := by
  rw [Core.clearBelow]
  have hloop := forUp_invariant (a := i + 1) (n := rows - (i + 1)) (s := s)
    (f := fun j s =>
      let tmp := s.mat (j * rows + i)
      if tmp ≠ 0 then
        if tmp = 1 then s.both (xorRow rows (j * rows) (i * rows))
        else s.both (Core.addRow rows (j * rows) (i * rows) tmp)
      else s)
    (P := fun j u => Triangular rows mat₀ inv₀ i u ∧ gf (u.mat (i * rows + i)) = 1 ∧
      ∀ r, i < r → r < j → gf (u.mat (r * rows + i)) = 0)
    ⟨h, hunit, fun r _ _ => by omega⟩
    (by
      rintro j u hij hj ⟨hu, hone, hzero⟩
      have hjr : j < rows := by omega
      -- however row `j` is cleared, the entries above it in the column stay
      have hnext : ∀ u' : Augmented, RowOps rows mat₀ inv₀ u' →
          (∀ r, ∀ c < rows, gf (u'.mat (r * rows + c)) =
            if r = j then gf (u.mat (r * rows + c)) +
              gf (u.mat (j * rows + i)) * gf (u.mat (i * rows + c))
            else gf (u.mat (r * rows + c))) →
          Triangular rows mat₀ inv₀ i u' ∧ gf (u'.mat (i * rows + i)) = 1 ∧
            ∀ r, i < r → r < j + 1 → gf (u'.mat (r * rows + i)) = 0 := by
        intro u' hops hmat
        obtain ⟨htri, hone', hclear, hkeep⟩ := hu.clearEntry (by omega) hjr hone hops hmat
        refine ⟨htri, hone', fun r hr hrj => ?_⟩
        rcases Nat.eq_or_lt_of_le (Nat.le_of_lt_succ hrj) with rfl | hlt
        · exact hclear
        · rw [hkeep r (by omega), hzero r hr hlt]
      dsimp only
      by_cases h0 : u.mat (j * rows + i) = 0
      · rw [if_neg (not_not.mpr h0)]
        refine ⟨hu, hone, fun r hr hrj => ?_⟩
        rcases Nat.eq_or_lt_of_le (Nat.le_of_lt_succ hrj) with rfl | hlt
        · rw [h0, gf_ofNat_zero]
        · exact hzero r hr hlt
      · rw [if_pos h0]
        by_cases h1 : u.mat (j * rows + i) = 1
        · rw [if_pos h1]
          have hmat : ∀ (a : IntArray) (r c : Nat), c < rows →
              gf (xorRow rows (j * rows) (i * rows) a (r * rows + c)) =
                if r = j then gf (a (r * rows + c)) +
                  gf (u.mat (j * rows + i)) * gf (a (i * rows + c))
                else gf (a (r * rows + c)) := fun a r c hc => by
            rw [gf_xorRow_entry (by omega) hc, h1, gf_ofNat_one]
          exact hnext _ (hu.toRowOps.addRow hi hjr (by omega) (gf (u.mat (j * rows + i)))
            (hmat u.mat) (hmat u.inv) fun x hx =>
              ⟨xorRow_outside hjr _ hx, xorRow_outside hjr _ hx⟩) (hmat u.mat)
        · rw [if_neg h1]
          have hmat : ∀ (a : IntArray) (r c : Nat), c < rows →
              gf (Core.addRow rows (j * rows) (i * rows) (u.mat (j * rows + i)) a
                (r * rows + c)) = if r = j then gf (a (r * rows + c)) +
                  gf (u.mat (j * rows + i)) * gf (a (i * rows + c))
                else gf (a (r * rows + c)) := fun a r c hc => gf_addRow_entry (by omega) _ hc
          exact hnext _ (hu.toRowOps.addRow hi hjr (by omega) (gf (u.mat (j * rows + i)))
            (hmat u.mat) (hmat u.inv) fun x hx =>
              ⟨addRow_outside hjr _ _ hx, addRow_outside hjr _ _ hx⟩) (hmat u.mat))
  obtain ⟨htri, hone, hzero⟩ := hloop
  refine ⟨htri.toRowOps, ?_, ?_⟩
  · intro c hc
    rcases Nat.eq_or_lt_of_le (Nat.le_of_lt_succ hc) with heq | hlt
    · rw [gfMatrix, heq]
      exact hone
    · exact htri.upper.diag c hlt
  · intro r c hc hlt
    rcases Nat.eq_or_lt_of_le (Nat.le_of_lt_succ hc) with heq | hci
    · rw [gfMatrix, heq]
      exact hzero r (by omega) (by omega)
    · exact htri.upper.below r c hci hlt

/-- One turn of the first loop. -/
theorem Triangular.upperColumn {i : Nat} (h : Triangular rows mat₀ inv₀ i s)
    (hi : i < rows) :
    (∃ s', upperColumn Augmented.mat Augmented.both rows i s = .ok s' ∧
      Triangular rows mat₀ inv₀ (i + 1) s') ∨
    ∃ e, upperColumn Augmented.mat Augmented.both rows i s = .error e ∧
      ∃ s', e = some s' ∧ ¬ IsUnit (gfMatrix rows rows mat₀) ∧ RowOps rows mat₀ inv₀ s' := by
  rw [Core.upperColumn]
  rcases h.swapPivot hi with ⟨s₁, hswap, h₁, hne⟩ | ⟨hswap, hnot⟩
  · obtain ⟨s₂, hunit, h₂, hone⟩ := h₁.unitRow hi hne
    left
    refine ⟨_, ?_, h₂.clearBelow hi hone⟩
    rw [hswap, Except.bind, hunit, Except.map]
  · right
    rw [hswap]
    exact ⟨_, rfl, s, rfl, hnot, h.toRowOps⟩

/-! ### The way back -/

/-- The columns from `i` on are unit columns. -/
structure Cleared (rows : Nat) (mat₀ inv₀ : IntArray) (i : Nat) (s : Augmented) : Prop
    extends RowOps rows mat₀ inv₀ s where
  unit : UnitFrom i (gfMatrix rows rows s.mat)

theorem Cleared.clearAbove {i : Nat} (h : Cleared rows mat₀ inv₀ (i + 1) s) (hi : i < rows) :
    Cleared rows mat₀ inv₀ i (clearAbove rows i s) := by
  rw [Core.clearAbove]
  have hloop := forUp_invariant (a := 0) (n := i) (s := s)
    (f := fun j s =>
      let tmp := s.mat (j * rows + i)
      if tmp ≠ 0 then
        ⟨Function.update s.mat (j * rows + i) 0,
          Core.addRow rows (j * rows) (i * rows) tmp s.inv⟩
      else s)
    (P := fun j u => Cleared rows mat₀ inv₀ (i + 1) u ∧
      ∀ r < j, gf (u.mat (r * rows + i)) = 0)
    ⟨h, by simp⟩
    (by
      rintro j u - hj ⟨hu, hzero⟩
      have hrow : ∀ c < rows, gf (u.mat (i * rows + c)) = if i = c then 1 else 0 := by
        intro c hc
        have := UnitFrom.unitRow (i := ⟨i, hi⟩) hu.unit ⟨c, hc⟩
        simpa only [gfMatrix, Fin.mk.injEq] using this
      dsimp only
      by_cases h0 : u.mat (j * rows + i) = 0
      · rw [if_neg (not_not.mpr h0)]
        refine ⟨hu, fun r hr => ?_⟩
        rcases Nat.eq_or_lt_of_le (Nat.le_of_lt_succ hr) with rfl | hlt
        · rw [h0, gf_ofNat_zero]
        · exact hzero r hlt
      · rw [if_pos h0]
        -- storing a zero is adding the row: row `i` is a unit row
        have hcell : ∀ r, ∀ c < rows,
            gf (Function.update u.mat (j * rows + i) 0 (r * rows + c)) =
              if r = j ∧ c = i then 0 else gf (u.mat (r * rows + c)) := by
          intro r c hc
          by_cases hrc : r = j ∧ c = i
          · rw [if_pos hrc, hrc.1, hrc.2, Function.update_self, gf_ofNat_zero]
          · rw [if_neg hrc, Function.update_of_ne fun heq => hrc (flat_inj hc hi heq)]
        refine ⟨⟨hu.toRowOps.addRow hi (by omega) (by omega) (gf (u.mat (j * rows + i)))
          ?_ (fun r c hc => gf_addRow_entry (by omega) _ hc) ?_, ?_, ?_⟩, ?_⟩
        · intro r c hc
          rw [hcell r c hc, hrow c hc]
          by_cases hrj : r = j
          · by_cases hci : c = i
            · rw [if_pos ⟨hrj, hci⟩, if_pos hrj, if_pos hci.symm, hrj, hci, mul_one,
                CharTwo.add_self_eq_zero]
            · rw [if_neg (by tauto), if_pos hrj, if_neg (Ne.symm hci), mul_zero, add_zero]
          · rw [if_neg (by tauto), if_neg hrj]
        · intro x hx
          refine ⟨Function.update_of_ne ?_ _ _, addRow_outside (by omega : j < rows) _ _ hx⟩
          have : j * rows + i < rows * rows := by
            calc j * rows + i < (j + 1) * rows := by rw [Nat.add_mul]; omega
              _ ≤ rows * rows := Nat.mul_le_mul_right rows (by omega)
          omega
        · constructor
          · intro c hc
            rw [gfMatrix, hcell c c c.isLt, if_neg (by omega)]
            exact hu.unit.upper.diag c hc
          · intro r c hc hlt
            rw [gfMatrix, hcell r c c.isLt]
            split_ifs
            · rfl
            · exact hu.unit.upper.below r c hc hlt
        · intro r c hc
          rw [gfMatrix, hcell r c c.isLt, if_neg (by omega)]
          exact hu.unit.unit r c hc
        · intro r hr
          rw [hcell r i hi]
          by_cases hrj : r = j
          · rw [if_pos ⟨hrj, rfl⟩]
          · rw [if_neg (by tauto)]
            exact hzero r (by omega))
  rw [Nat.zero_add] at hloop
  obtain ⟨hcl, hzero⟩ := hloop
  refine ⟨hcl.toRowOps, hcl.unit.upper, fun r c hc => ?_⟩
  rcases Nat.eq_or_lt_of_le hc with heq | hlt
  · rcases lt_trichotomy r c with hrc | hrc | hrc
    · rw [if_neg hrc.ne, gfMatrix, ← heq]
      exact hzero r (by omega)
    · rw [if_pos hrc, hrc]
      exact hcl.unit.upper.diag c c.isLt
    · rw [if_neg hrc.ne']
      exact hcl.unit.upper.below r c c.isLt hrc
  · exact hcl.unit.unit r c hlt

end Invariant

/-! ### What the functions answer -/

/-- `jerasure_invert_matrix` returns. It answers 0 when the matrix has an inverse, which is
then in `inv`, with the unit matrix in `mat`; it answers -1 when there is none. In both
cases nothing is stored beyond the two matrices. -/
theorem invertMatrix_spec (rows : Nat) (mat inv : IntArray) :
    ∃ code s, jerasureInvertMatrix rows mat inv = some (code, s) ∧
      (IsUnit (gfMatrix rows rows mat) ∧ code = 0 ∧ gfMatrix rows rows s.mat = 1 ∧
          gfMatrix rows rows s.inv = (gfMatrix rows rows mat)⁻¹ ∨
        ¬ IsUnit (gfMatrix rows rows mat) ∧ code = -1) ∧
      ∀ x, rows * rows ≤ x → s.mat x = mat x ∧ s.inv x = inv x := by
  have hstart : Triangular rows mat inv 0 ⟨mat, unitMatrix rows inv⟩ := by
    refine ⟨⟨?_, fun x hx => ⟨rfl, unitMatrix_outside hx⟩⟩, UpperTo.zero _⟩
    rw [gf_unitMatrix]
    exact Reaches.refl _
  have hloop := forUpE_invariant (n := rows) hstart fun i s _ hi h =>
    h.upperColumn (by omega)
  rw [jerasureInvertMatrix]
  rw [Nat.zero_add] at hloop
  rcases hloop with ⟨s, hrun, htri⟩ | ⟨e, hrun, s, rfl, hnot, hops⟩
  · have hback := forDown_invariant (P := Cleared rows mat inv) (f := clearAbove rows)
      ⟨htri.toRowOps, htri.upper, fun r c hc => absurd c.isLt (by omega)⟩
      fun i s hi h => h.clearAbove hi
    have hone := hback.unit.eq_one
    have hreach := hback.reaches
    rw [hone] at hreach
    rw [hrun]
    refine ⟨0, _, rfl, Or.inl ⟨?_, rfl, hone, hreach.inverse⟩, hback.outside⟩
    exact hreach.isUnit_iff.mp isUnit_one
  · rw [hrun]
    exact ⟨-1, s, rfl, Or.inr ⟨hnot, rfl⟩, hops.outside⟩

/-- A column of `jerasure_invertible_matrix` is a column of `jerasure_invert_matrix` without
its second array. -/
theorem upperColumn_mat (rows i : Nat) (s : Augmented) :
    upperColumn id (fun f => f) rows i s.mat =
      ((upperColumn Augmented.mat Augmented.both rows i s).map Augmented.mat).mapError
        (Option.map Augmented.mat) := by
  have hclear : ∀ s : Augmented, clearBelow id (fun f => f) rows i s.mat =
      (clearBelow Augmented.mat Augmented.both rows i s).mat := by
    intro s
    refine (forUp_hom fun j s _ _ => ?_).symm
    dsimp only [id]
    split_ifs <;> rfl
  have hunit : ∀ s : Augmented, (unitRow id (fun f => f) rows i s.mat).map
        (clearBelow id (fun f => f) rows i) =
      (((unitRow Augmented.mat Augmented.both rows i s).map
        (clearBelow Augmented.mat Augmented.both rows i)).map Augmented.mat).mapError
        (Option.map Augmented.mat) := by
    intro s
    rw [unitRow, unitRow, id]
    split_ifs
    · cases galoisSingleDivide 1 (s.mat (i * rows + i)) with
      | none => rfl
      | some inverse => exact congrArg Except.ok (hclear (s.both (scaleRow rows _ inverse)))
    · exact congrArg Except.ok (hclear s)
  rw [upperColumn, upperColumn, swapPivot, swapPivot, id]
  split_ifs
  · cases findRow rows i s.mat with
    | none => rfl
    | some j => exact hunit (s.both (swapRows rows (i * rows) (j * rows)))
  · exact hunit s

/-- `jerasure_invertible_matrix` returns, and says whether the matrix has an inverse. -/
theorem invertibleMatrix_spec (rows : Nat) (mat : IntArray) :
    ∃ code, jerasureInvertibleMatrix rows mat = some code ∧
      (code = 1 ∧ IsUnit (gfMatrix rows rows mat) ∨
        code = 0 ∧ ¬ IsUnit (gfMatrix rows rows mat)) := by
  obtain ⟨code, s, hrun, hcode, -⟩ := invertMatrix_spec rows mat mat
  have hsame := forUpE_hom (a := 0) (n := rows) (s := ⟨mat, unitMatrix rows mat⟩)
    fun i s _ _ => upperColumn_mat rows i s
  rw [jerasureInvertMatrix] at hrun
  rw [jerasureInvertibleMatrix]
  dsimp only at hsame
  rw [hsame]
  cases hloop : forUpE 0 rows (upperColumn Augmented.mat Augmented.both rows)
      ⟨mat, unitMatrix rows mat⟩ with
  | error e =>
    cases e with
    | none =>
      rw [hloop] at hrun
      exact absurd hrun (by simp)
    | some s' =>
      rw [hloop] at hrun
      simp only [Option.some.injEq, Prod.mk.injEq] at hrun
      rcases hcode with ⟨-, h0, -⟩ | ⟨hnot, -⟩
      · omega
      · exact ⟨0, rfl, Or.inr ⟨rfl, hnot⟩⟩
  | ok s' =>
    rw [hloop] at hrun
    simp only [Option.some.injEq, Prod.mk.injEq] at hrun
    rcases hcode with ⟨hunit, -⟩ | ⟨-, h1⟩
    · exact ⟨1, rfl, Or.inl ⟨rfl, hunit⟩⟩
    · omega


/-- The two functions give the same answer: whether the matrix has an inverse. Only then
does `jerasure_invert_matrix` answer 0, with an inverse from both sides in `inv`; it stores
nothing beyond the two matrices. -/
theorem invertMatrix_answers (rows : Nat) (mat inv : IntArray) :
    ∃ code s invertible, jerasureInvertMatrix rows mat inv = some (code, s) ∧
      jerasureInvertibleMatrix rows mat = some invertible ∧
      (code = 0 ∧ invertible = 1 ∧
          gfMatrix rows rows s.inv * gfMatrix rows rows mat = 1 ∧
          gfMatrix rows rows mat * gfMatrix rows rows s.inv = 1 ∨
        code = -1 ∧ invertible = 0 ∧
          ∀ b, b * gfMatrix rows rows mat ≠ 1 ∧ gfMatrix rows rows mat * b ≠ 1) ∧
      ∀ x, rows * rows ≤ x → s.mat x = mat x ∧ s.inv x = inv x := by
  obtain ⟨code, s, hrun, hcode, hkeep⟩ := invertMatrix_spec rows mat inv
  obtain ⟨invertible, hrun', hinvertible⟩ := invertibleMatrix_spec rows mat
  refine ⟨code, s, invertible, hrun, hrun', ?_, hkeep⟩
  rcases hcode with ⟨hunit, hzero, -, hinv⟩ | ⟨hnot, hone⟩
  · rcases hinvertible with ⟨hone, -⟩ | ⟨-, hnot⟩
    · have hdet := (Matrix.isUnit_iff_isUnit_det _).mp hunit
      refine Or.inl ⟨hzero, hone, ?_, ?_⟩
      · rw [hinv, Matrix.nonsing_inv_mul _ hdet]
      · rw [hinv, Matrix.mul_nonsing_inv _ hdet]
    · exact absurd hunit hnot
  · rcases hinvertible with ⟨-, hunit⟩ | ⟨hzero, -⟩
    · exact absurd hunit hnot
    · refine Or.inr ⟨hone, hzero, fun b => ⟨fun h => hnot ?_, fun h => hnot ?_⟩⟩
      · exact IsUnit.of_mul_eq_one_right _ h
      · exact IsUnit.of_mul_eq_one _ h

end EbnAnchor.Core
