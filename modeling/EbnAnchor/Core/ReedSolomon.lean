import EbnAnchor.Core.GaloisInverse
import EbnAnchor.Lib.Mds

/-!
`reed_sol.c`: the coding matrix.

An `int` array is a function of the index; a matrix is stored row by row, so row
`r`, column `c` is at `r*cols+c`. A step that may loop forever (no pivot) or
that may return `NULL` yields an `Option`; memory from `malloc` is assumed to be
there and holds anything.

Main results:

* `vandermonde_isMds`: the extended Vandermonde matrix is MDS;
* `distributionMatrix_spec`: the elimination returns, and leaves an MDS matrix
  whose first rows are the unit matrix;
* `codingMatrix_spec`: so does `reed_sol_vandermonde_coding_matrix`, whose matrix
  is the part below.
-/

namespace EbnAnchor.Core

open Loop Mds

abbrev IntArray := Nat → Word

/-! ### The extended Vandermonde matrix -/

/-- `vdm[0] = 1`, and zeros in the rest of the first row. -/
def firstRow (cols : Nat) (vdm : IntArray) : IntArray :=
  forUp 1 (cols - 1) (fun j vdm => Function.update vdm j 0) (Function.update vdm 0 1)

/-- Zeros from index `i` on, and a one in the last column. -/
def lastRow (cols i : Nat) (vdm : IntArray) : IntArray :=
  Function.update (forUp 0 (cols - 1) (fun j vdm => Function.update vdm (i + j) 0) vdm)
    (i + (cols - 1)) 1

/-- Row `i` takes the powers of `i`. -/
def powerRow (cols i : Nat) (vdm : IntArray) : IntArray :=
  (forUp 0 cols (fun j (p : IntArray × Word) =>
    (Function.update p.1 (i * cols + j) p.2,
      galoisSingleMultiply p.2 (BitVec.ofNat 32 i))) (vdm, 1)).1

/-- `reed_sol_extended_vandermonde_matrix(rows, cols, 32)`, filling `vdm`. -/
def reedSolExtendedVandermondeMatrix (rows cols : Nat) (vdm : IntArray) : IntArray :=
  let vdm := firstRow cols vdm
  if rows = 1 then vdm else
  let i := (rows - 1) * cols
  let vdm := lastRow cols i vdm
  if rows = 2 then vdm else
  forUp 1 (rows - 2) (powerRow cols) vdm

/-! ### The distribution matrix -/

/-- The search for a row `j` from `i` on where `dist[j,i] != 0`. -/
def findPivot (rows cols i : Nat) (dist : IntArray) : Option Nat :=
  (List.range' i (rows - i)).find? fun j => dist (j * cols + i) ≠ 0

/-- Exchange the rows that start at `srindex` and `sindex`. -/
def swapRows (cols srindex sindex : Nat) (dist : IntArray) : IntArray :=
  forUp 0 cols (fun k dist =>
    let tmp := dist (srindex + k)
    Function.update (Function.update dist (srindex + k) (dist (sindex + k))) (sindex + k) tmp)
    dist

/-- Multiply the column `j` by `tmp`, in the rows `a .. a+n-1`. -/
def scaleColumn (cols a n j : Nat) (tmp : Word) (dist : IntArray) : IntArray :=
  forUp a n (fun r dist => Function.update dist (r * cols + j)
    (galoisSingleMultiply tmp (dist (r * cols + j)))) dist

/-- Add `tmp` times column `i` to column `j`. -/
def addColumn (rows cols i j : Nat) (tmp : Word) (dist : IntArray) : IntArray :=
  forUp 0 rows (fun r dist => Function.update dist (r * cols + j)
    (dist (r * cols + j) ^^^ galoisSingleMultiply tmp (dist (r * cols + i)))) dist

/-- If element `i,i` is not 1, multiply the column by its inverse. -/
def unitPivot (rows cols i : Nat) (dist : IntArray) : Option IntArray :=
  if dist (i * cols + i) ≠ 1 then
    (galoisSingleDivide 1 (dist (i * cols + i))).map fun tmp =>
      scaleColumn cols 0 rows i tmp dist
  else some dist

/-- Make the other elements of row `i` zero. -/
def clearRow (rows cols i : Nat) (dist : IntArray) : IntArray :=
  forUp 0 cols (fun j dist =>
    let tmp := dist (i * cols + j)
    if j ≠ i ∧ tmp ≠ 0 then addColumn rows cols i j tmp dist else dist) dist

/-- One turn of the elimination; `none` is the `while (1)` or a division that does not
return. -/
def eliminateColumn (rows cols i : Nat) (dist : IntArray) : Option IntArray :=
  (findPivot rows cols i dist).bind fun j =>
    let dist := if j ≠ i then swapRows cols (j * cols) (i * cols) dist else dist
    (unitPivot rows cols i dist).map (clearRow rows cols i)

/-- Row `cols` is to be all ones: scale column `j` below the unit matrix. -/
def onesRow (rows cols j : Nat) (dist : IntArray) : Option IntArray :=
  let tmp := dist (cols * cols + j)
  if tmp ≠ 1 then
    (galoisSingleDivide 1 tmp).map fun tmp => scaleColumn cols cols (rows - cols) j tmp dist
  else some dist

/-- The first column is to be all ones: scale row `i`. -/
def onesColumn (cols i : Nat) (dist : IntArray) : Option IntArray :=
  let tmp := dist (i * cols)
  if tmp ≠ 1 then
    (galoisSingleDivide 1 tmp).map fun tmp =>
      forUp 0 cols (fun j dist => Function.update dist (i * cols + j)
        (galoisSingleMultiply (dist (i * cols + j)) tmp)) dist
  else some dist

/-- `reed_sol_big_vandermonde_distribution_matrix(rows, cols, 32)`; `none` when it
returns `NULL` or does not return. -/
def reedSolBigVandermondeDistributionMatrix (rows cols : Nat) (vdm : IntArray) :
    Option IntArray :=
  if cols ≥ rows then none else
  let dist := reedSolExtendedVandermondeMatrix rows cols vdm
  (forUpM 1 (cols - 1) (eliminateColumn rows cols) dist).bind fun dist =>
  (forUpM 0 cols (onesRow rows cols) dist).bind fun dist =>
  forUpM (cols + 1) (rows - (cols + 1)) (onesColumn cols) dist

/-- `reed_sol_vandermonde_coding_matrix(k, m, 32)`. -/
def reedSolVandermondeCodingMatrix (k m : Nat) (vdm dist : IntArray) : Option IntArray :=
  (reedSolBigVandermondeDistributionMatrix (k + m) k vdm).map fun vdm =>
    forUp 0 (m * k) (fun j dist => Function.update dist j (vdm (k * k + j))) dist

/-! ### Loops over a row or a column -/

/-- An index below `cols` and a row are read off the flat index. -/
theorem flat_inj {cols r r' c c' : Nat} (hc : c < cols) (hc' : c' < cols)
    (h : r * cols + c = r' * cols + c') : r = r' ∧ c = c' := by
  have hr : r = r' := by
    have hdiv := congrArg (· / cols) h
    simpa [Nat.mul_comm _ cols, Nat.mul_add_div (by omega : 0 < cols),
      Nat.div_eq_of_lt hc, Nat.div_eq_of_lt hc'] using hdiv
  subst hr
  exact ⟨rfl, by omega⟩

section Entries

variable {cols : Nat} {dist : IntArray}

/-- A loop down column `j` whose value for row `r` only needs that row. -/
theorem forUp_column {a n j : Nat} (hj : j < cols) {w : Nat → IntArray → Word}
    (hval : ∀ r u, (∀ c < cols, u (r * cols + c) = dist (r * cols + c)) → w r u = w r dist)
    {r c : Nat} (hc : c < cols) :
    forUp a n (fun r u => Function.update u (r * cols + j) (w r u)) dist (r * cols + c)
      = if c = j ∧ a ≤ r ∧ r < a + n then w r dist else dist (r * cols + c) := by
  obtain ⟨hdone, hkeep⟩ := forUp_store (a := a) (n := n) (x := fun r => r * cols + j)
    (w := w) (v := dist)
    (fun k k' _ hlt _ heq => by
      have := (flat_inj hj hj heq).1
      omega)
    (fun k u _ _ hsame => hval k u fun c hc => hsame _ fun k' _ hlt heq => by
      have := (flat_inj hj hc heq).1
      omega)
  by_cases hpass : c = j ∧ a ≤ r ∧ r < a + n
  · rw [if_pos hpass, hpass.1]
    exact hdone r hpass.2.1 hpass.2.2
  · rw [if_neg hpass]
    refine hkeep _ fun k hk hlt heq => hpass ?_
    obtain ⟨rfl, rfl⟩ := flat_inj hj hc heq
    exact ⟨rfl, hk, hlt⟩

theorem scaleColumn_entry {a n j : Nat} (hj : j < cols) (tmp : Word) {r c : Nat}
    (hc : c < cols) :
    scaleColumn cols a n j tmp dist (r * cols + c)
      = if c = j ∧ a ≤ r ∧ r < a + n then galoisSingleMultiply tmp (dist (r * cols + c))
        else dist (r * cols + c) := by
  rw [scaleColumn, forUp_column hj (fun r u hu => by rw [hu j hj]) hc]
  by_cases hpass : c = j ∧ a ≤ r ∧ r < a + n
  · rw [if_pos hpass, if_pos hpass, hpass.1]
  · rw [if_neg hpass, if_neg hpass]

theorem addColumn_entry {rows i j : Nat} (hi : i < cols) (hj : j < cols) (tmp : Word)
    {r c : Nat} (hr : r < rows) (hc : c < cols) :
    addColumn rows cols i j tmp dist (r * cols + c)
      = if c = j then dist (r * cols + j) ^^^ galoisSingleMultiply tmp (dist (r * cols + i))
        else dist (r * cols + c) := by
  rw [addColumn, forUp_column hj (fun r u hu => by rw [hu j hj, hu i hi]) hc]
  simp only [Nat.zero_le, Nat.zero_add, hr, and_true]

/-- A loop along row `i` whose value for column `c` only needs cells not stored into. -/
theorem forUp_row {a n i : Nat} (han : a + n ≤ cols) {w : Nat → IntArray → Word}
    (hval : ∀ c u, c < a + n → (∀ r', ∀ c' < cols, ¬ (r' = i ∧ a ≤ c' ∧ c' < c) →
      u (r' * cols + c') = dist (r' * cols + c')) → w c u = w c dist)
    {r c : Nat} (hc : c < cols) :
    forUp a n (fun c u => Function.update u (i * cols + c) (w c u)) dist (r * cols + c)
      = if r = i ∧ a ≤ c ∧ c < a + n then w c dist else dist (r * cols + c) := by
  obtain ⟨hdone, hkeep⟩ := forUp_store (a := a) (n := n) (x := fun c => i * cols + c)
    (w := w) (v := dist)
    (fun k k' _ hlt _ heq => by omega)
    (fun k u hk hlt hsame => hval k u hlt fun r' c' hc' hnot => hsame _ fun k' hk' hlt' heq =>
      hnot (by
        obtain ⟨hr', hkc⟩ := flat_inj (by omega : k' < cols) hc' heq
        exact ⟨hr'.symm, by omega, by omega⟩))
  by_cases hpass : r = i ∧ a ≤ c ∧ c < a + n
  · rw [if_pos hpass, hpass.1]
    exact hdone c hpass.2.1 hpass.2.2
  · rw [if_neg hpass]
    refine hkeep _ fun k hk hlt heq => hpass ?_
    obtain ⟨rfl, rfl⟩ := flat_inj (by omega : k < cols) hc heq
    exact ⟨rfl, hk, hlt⟩

theorem swapRows_entry {i j : Nat} (hij : i ≠ j) {r c : Nat} (hc : c < cols) :
    swapRows cols (j * cols) (i * cols) dist (r * cols + c)
      = dist (Equiv.swap i j r * cols + c) := by
  have h := forUp_invariant (a := 0) (n := cols) (s := dist)
    (f := fun k dist => Function.update (Function.update dist (j * cols + k)
      (dist (i * cols + k))) (i * cols + k) (dist (j * cols + k)))
    (P := fun k u => ∀ r, ∀ c < cols, u (r * cols + c) =
      if c < k then dist (Equiv.swap i j r * cols + c) else dist (r * cols + c))
    (fun r c _ => by rw [if_neg (by omega)])
    (by
      intro k u _ hk ih r c hc
      have hki := ih i k (by omega)
      have hkj := ih j k (by omega)
      rw [if_neg (by omega)] at hki hkj
      by_cases hck : c = k
      · subst hck
        rw [if_pos (by omega)]
        by_cases hri : r = i
        · rw [hri, Function.update_self, hkj, Equiv.swap_apply_left]
        · by_cases hrj : r = j
          · rw [hrj, Function.update_of_ne (fun heq => hij.symm (flat_inj hc hc heq).1),
              Function.update_self, hki, Equiv.swap_apply_right]
          · rw [Function.update_of_ne (fun heq => hri (flat_inj hc hc heq).1),
              Function.update_of_ne (fun heq => hrj (flat_inj hc hc heq).1),
              ih r c hc, if_neg (by omega), Equiv.swap_apply_of_ne_of_ne hri hrj]
      · rw [Function.update_of_ne (fun heq => hck (flat_inj hc (by omega) heq).2),
          Function.update_of_ne (fun heq => hck (flat_inj hc (by omega) heq).2), ih r c hc]
        have hnext : c < k + 1 ↔ c < k := by omega
        simp only [hnext])
  rw [Nat.zero_add] at h
  rw [swapRows, h r c hc, if_pos hc]

end Entries

/-! ### The matrix over the field -/

/-- The residues of a stored matrix. -/
noncomputable def gfMatrix (rows cols : Nat) (dist : IntArray) :
    Matrix (Fin rows) (Fin cols) GF :=
  fun r c => gf (dist (r * cols + c))

section Vandermonde

variable {rows cols : Nat}

theorem firstRow_entry (vdm : IntArray) {c : Nat} (hc : c < cols) :
    gf (firstRow cols vdm c) = 0 ^ c := by
  have hrow := @forUp_row cols (Function.update vdm 0 1) 1 (cols - 1) 0 (by omega)
    (fun _ _ => (0 : Word)) (fun _ _ _ _ => rfl) 0 c hc
  simp only [Nat.zero_mul, Nat.zero_add, true_and] at hrow
  rw [firstRow, hrow]
  by_cases hc0 : c = 0
  · rw [if_neg (by omega), hc0, Function.update_self, pow_zero]
    exact gf_one
  · rw [if_pos (by omega), zero_pow hc0]
    exact gf_zero

theorem lastRow_entry (i : Nat) (vdm : IntArray) {r c : Nat} (hc : c < cols) :
    gf (lastRow cols (i * cols) vdm (r * cols + c)) =
      if r = i then (if c + 1 = cols then 1 else 0) else gf (vdm (r * cols + c)) := by
  rw [lastRow]
  by_cases hcell : r = i ∧ c + 1 = cols
  · obtain ⟨rfl, hlast⟩ := hcell
    have hcol : cols - 1 = c := by omega
    rw [if_pos rfl, if_pos hlast, hcol, Function.update_self]
    exact gf_one
  · have hne : r * cols + c ≠ i * cols + (cols - 1) := fun heq => hcell (by
      obtain ⟨hr, hlast⟩ := flat_inj hc (by omega) heq
      exact ⟨hr, by omega⟩)
    rw [Function.update_of_ne hne, @forUp_row cols vdm 0 (cols - 1) i (by omega)
      (fun _ _ => (0 : Word)) (fun _ _ _ _ => rfl) r c hc]
    by_cases hr : r = i
    · rw [if_pos ⟨hr, by omega, by omega⟩, if_pos hr, if_neg (by tauto)]
      exact gf_zero
    · rw [if_neg (by tauto), if_neg hr]

theorem powerRow_entry (i : Nat) (vdm : IntArray) {r c : Nat} (hc : c < cols) :
    gf (powerRow cols i vdm (r * cols + c))
      = if r = i then gf (BitVec.ofNat 32 i) ^ c else gf (vdm (r * cols + c)) := by
  have h := forUp_invariant (a := 0) (n := cols) (s := (vdm, (1 : Word)))
    (f := fun j (p : IntArray × Word) =>
      (Function.update p.1 (i * cols + j) p.2, galoisSingleMultiply p.2 (BitVec.ofNat 32 i)))
    (P := fun j p => gf p.2 = gf (BitVec.ofNat 32 i) ^ j ∧ ∀ r, ∀ c < cols,
      gf (p.1 (r * cols + c)) =
        if r = i ∧ c < j then gf (BitVec.ofNat 32 i) ^ c else gf (vdm (r * cols + c)))
    ⟨by rw [pow_zero]; exact gf_one, fun r c _ => by rw [if_neg (by omega)]⟩
    (by
      rintro j ⟨u, k⟩ - hj ⟨hk, hu⟩
      refine ⟨by rw [gf_galoisSingleMultiply, hk, pow_succ], fun r c hc => ?_⟩
      dsimp only at hk hu ⊢
      by_cases hcell : r = i ∧ c = j
      · obtain ⟨rfl, rfl⟩ := hcell
        rw [Function.update_self, hk, if_pos ⟨rfl, by omega⟩]
      · rw [Function.update_of_ne (fun heq => hcell (flat_inj hc (by omega) heq)), hu r c hc]
        congr 1
        rw [eq_iff_iff]
        constructor
        · rintro ⟨rfl, hlt⟩
          exact ⟨rfl, by omega⟩
        · rintro ⟨rfl, hlt⟩
          exact ⟨rfl, by_contra fun hge => hcell ⟨rfl, by omega⟩⟩)
  rw [Nat.zero_add] at h
  rw [powerRow, h.2 r c hc]
  simp only [hc, and_true]

theorem powerRows_entry (n : Nat) (vdm : IntArray) {r c : Nat} (hc : c < cols) :
    gf (forUp 1 n (powerRow cols) vdm (r * cols + c)) =
      if 1 ≤ r ∧ r < 1 + n then gf (BitVec.ofNat 32 r) ^ c
      else gf (vdm (r * cols + c)) := by
  refine forUp_invariant (P := fun m (u : IntArray) => ∀ r, ∀ c < cols,
    gf (u (r * cols + c)) =
      if 1 ≤ r ∧ r < m then gf (BitVec.ofNat 32 r) ^ c else gf (vdm (r * cols + c)))
    ?_ ?_ r c hc
  · intro r c _
    rw [if_neg (by omega)]
  · intro m u hm _ ih r c hc
    rw [powerRow_entry m u hc]
    by_cases hrm : r = m
    · rw [if_pos hrm, if_pos (by omega), hrm]
    · have hnext : r < m + 1 ↔ r < m := by omega
      rw [if_neg hrm, ih r c hc]
      simp only [hnext]

/-- Row `0` holds the powers of zero, the last row is the last unit row, every row
between them holds the powers of its number. -/
theorem extendedVandermonde_entry (hrows : 2 ≤ rows) (vdm : IntArray)
    {r c : Nat} (hr : r < rows) (hc : c < cols) :
    gf (reedSolExtendedVandermondeMatrix rows cols vdm (r * cols + c))
      = if r + 1 = rows then (if c + 1 = cols then 1 else 0)
        else gf (BitVec.ofNat 32 r) ^ c := by
  -- after the first and the last row
  have hends : r = 0 ∨ r + 1 = rows →
      gf (lastRow cols ((rows - 1) * cols) (firstRow cols vdm) (r * cols + c)) =
        if r + 1 = rows then (if c + 1 = cols then 1 else 0)
          else gf (BitVec.ofNat 32 r) ^ c := by
    intro hcase
    rw [lastRow_entry (rows - 1) _ hc]
    by_cases hlast : r + 1 = rows
    · rw [if_pos hlast, if_pos (by omega)]
    · have hr0 : r = 0 := by omega
      rw [if_neg hlast, if_neg (by omega), hr0, Nat.zero_mul, Nat.zero_add,
        firstRow_entry vdm hc]
      exact congrArg (· ^ c) gf_zero.symm
  have hmany : ¬ rows = 1 := by omega
  rw [reedSolExtendedVandermondeMatrix]
  simp only [hmany, if_false]
  by_cases h2 : rows = 2
  · rw [if_pos h2]
    exact hends (by omega)
  · rw [if_neg h2, powerRows_entry (rows - 2) _ hc]
    by_cases hmid : 1 ≤ r ∧ r < 1 + (rows - 2)
    · rw [if_pos hmid, if_neg (by omega)]
    · rw [if_neg hmid]
      exact hends (by omega)

/-- The points of the rows are distinct words. -/
theorem vandermonde_isMds (hcols : 1 ≤ cols) (hrows : 2 ≤ rows)
    (hrows' : rows ≤ 2 ^ 32) (vdm : IntArray) :
    IsMds (gfMatrix rows cols (reedSolExtendedVandermondeMatrix rows cols vdm)) := by
  obtain ⟨n, rfl⟩ : ∃ n, rows = n + 1 := ⟨rows - 1, by omega⟩
  obtain ⟨k, rfl⟩ : ∃ k, cols = k + 1 := ⟨cols - 1, by omega⟩
  refine isMds_extendedVandermonde (a := fun r : Fin n => gf (BitVec.ofNat 32 r)) ?_ ?_ ?_
  · intro r r' heq
    have hword := congrArg BitVec.toNat (gf_injective heq)
    rw [BitVec.toNat_ofNat, BitVec.toNat_ofNat, Nat.mod_eq_of_lt (by omega),
      Nat.mod_eq_of_lt (by omega)] at hword
    exact Fin.ext hword
  · intro r c
    have hr := r.isLt
    rw [gfMatrix, extendedVandermonde_entry hrows vdm r.castSucc.isLt c.isLt,
      Fin.val_castSucc, if_neg (by omega)]
  · intro c
    rw [gfMatrix, extendedVandermonde_entry hrows vdm (Fin.last n).isLt c.isLt, Fin.val_last,
      if_pos rfl]
    simp only [Fin.ext_iff, Fin.val_last, Nat.add_right_cancel_iff]

end Vandermonde

/-- The rows below `i` are unit rows. -/
def UnitRows (cols i : Nat) (dist : IntArray) : Prop :=
  ∀ r < i, ∀ c < cols, dist (r * cols + c) = if c = r then 1#32 else 0#32

/-- What the elimination keeps: the matrix is MDS, the rows below `i` are unit rows. -/
structure Reduced (rows cols i : Nat) (dist : IntArray) : Prop where
  isMds : IsMds (gfMatrix rows cols dist)
  unitRows : UnitRows cols i dist

section Elimination

variable {rows cols i : Nat} {dist : IntArray}

theorem gf_addMul (a t b : Word) :
    gf (a ^^^ galoisSingleMultiply t b) = gf a + gf t * gf b := by
  rw [gf_xor, gf_galoisSingleMultiply]

theorem gf_unitRow (h : UnitRows cols i dist) {r c : Nat} (hr : r < i) (hc : c < cols) :
    gf (dist (r * cols + c)) = if c = r then 1 else 0 := by
  rw [h r hr c hc]
  split_ifs
  · exact gf_one
  · exact gf_zero

/-- Unit rows are known by their residues. -/
theorem unitRows_of_gf (h : ∀ r < i, ∀ c < cols,
    gf (dist (r * cols + c)) = if c = r then 1 else 0) : UnitRows cols i dist := by
  intro r hr c hc
  apply gf_injective
  rw [h r hr c hc]
  split_ifs
  · exact gf_one.symm
  · exact gf_zero.symm

/-- The pivot search finds a row: no column of an MDS matrix is zero. -/
theorem Reduced.findPivot (h : Reduced rows cols i dist) (hi : i < cols)
    (hrows : cols < rows) :
    ∃ j, findPivot rows cols i dist = some j ∧ i ≤ j ∧ j < rows ∧
      dist (j * cols + i) ≠ 0#32 := by
  obtain ⟨r, _, hr⟩ := h.isMds.exists_row_ne (v := Pi.single ⟨i, hi⟩ 1) (by simp)
    (s := Finset.univ) (by rw [Finset.card_univ, Fintype.card_fin]; omega)
  rw [Matrix.mulVec, dotProduct_single, mul_one] at hr
  have hne : dist (r * cols + i) ≠ 0#32 := fun h0 => hr (gf_eq_zero_iff.mpr h0)
  have hir : i ≤ r := by
    by_contra hlt
    exact hne (by rw [h.unitRows r (by omega) i hi, if_neg (by omega)])
  rw [Core.findPivot]
  cases hfind : (List.range' i (rows - i)).find? fun j => dist (j * cols + i) ≠ 0 with
  | none =>
    have hnot := List.find?_eq_none.mp hfind r (by rw [List.mem_range'_1]; omega)
    rw [decide_eq_true_iff] at hnot
    exact absurd hne hnot
  | some j =>
    have hj := List.mem_of_find?_eq_some hfind
    have hjne := List.find?_some hfind
    rw [List.mem_range'_1] at hj
    rw [decide_eq_true_iff] at hjne
    exact ⟨j, rfl, by omega, by omega, hjne⟩

theorem Reduced.swapRows (h : Reduced rows cols i dist) {j : Nat} (hij : i < j)
    (hj : j < rows) : Reduced rows cols i (swapRows cols (j * cols) (i * cols) dist) := by
  constructor
  · refine h.isMds.permuteRows (Equiv.swap ⟨i, by omega⟩ ⟨j, hj⟩) fun r c => ?_
    rw [gfMatrix, gfMatrix, swapRows_entry (by omega) c.isLt]
    congr 4
    rw [Equiv.swap_apply_def, Equiv.swap_apply_def]
    simp only [Fin.ext_iff]
    split_ifs <;> rfl
  · intro r hr c hc
    rw [swapRows_entry (by omega) hc, Equiv.swap_apply_of_ne_of_ne (by omega) (by omega)]
    exact h.unitRows r hr c hc

theorem galoisSingleDivide_one {b : Word} (hb : b ≠ 0#32) :
    ∃ q, galoisSingleDivide 1 b = some q ∧ gf q = (gf b)⁻¹ := by
  obtain ⟨q, hq, hgf⟩ := galoisSingleDivide_spec 1 hb
  exact ⟨q, hq, by rw [hgf, gf_ofNat_one, one_div]⟩

theorem Reduced.unitPivot (h : Reduced rows cols i dist) (hi : i < cols) (hrows : cols < rows)
    (hne : dist (i * cols + i) ≠ 0#32) :
    ∃ dist', unitPivot rows cols i dist = some dist' ∧ Reduced rows cols i dist' ∧
      gf (dist' (i * cols + i)) = 1 := by
  rw [Core.unitPivot]
  by_cases hone : dist (i * cols + i) = 1
  · rw [if_neg (not_not.mpr hone)]
    exact ⟨dist, rfl, h, (congrArg gf hone).trans gf_one⟩
  · obtain ⟨q, hq, hgf⟩ := galoisSingleDivide_one hne
    rw [if_pos hone, hq, Option.map_some]
    refine ⟨_, rfl, ⟨?_, ?_⟩, ?_⟩
    · refine h.isMds.scaleColumn ⟨i, hi⟩ (d := gf q)
        (by rw [hgf]; exact inv_ne_zero (gf_ne_zero hne)) fun r c => ?_
      rw [gfMatrix, gfMatrix, scaleColumn_entry hi q c.isLt]
      simp only [Fin.ext_iff, Nat.zero_le, Nat.zero_add, r.isLt, and_true]
      split_ifs
      · exact gf_galoisSingleMultiply ..
      · rfl
    · refine unitRows_of_gf fun r hr c hc => ?_
      rw [scaleColumn_entry hi q hc]
      by_cases hci : c = i
      · rw [if_pos ⟨hci, by omega, by omega⟩, gf_galoisSingleMultiply,
          gf_unitRow h.unitRows hr hc, if_neg (by omega), mul_zero]
      · rw [if_neg (by tauto), gf_unitRow h.unitRows hr hc]
    · rw [scaleColumn_entry hi q hi, if_pos ⟨rfl, by omega, by omega⟩,
        gf_galoisSingleMultiply, hgf, inv_mul_cancel₀ (gf_ne_zero hne)]

theorem Reduced.addColumn (h : Reduced rows cols i dist) (hi : i < cols) (hrows : cols < rows)
    {j : Nat} (hj : j < cols) (hij : i ≠ j) (tmp : Word) :
    Reduced rows cols i (addColumn rows cols i j tmp dist) := by
  constructor
  · refine h.isMds.addColumn (i := ⟨i, hi⟩) (j := ⟨j, hj⟩) (by simpa using hij) (gf tmp)
      fun r c => ?_
    rw [gfMatrix, gfMatrix, addColumn_entry hi hj tmp r.isLt c.isLt]
    simp only [Fin.ext_iff]
    split_ifs
    · exact gf_addMul ..
    · rfl
  · refine unitRows_of_gf fun r hr c hc => ?_
    rw [addColumn_entry hi hj tmp (by omega) hc]
    by_cases hcj : c = j
    · rw [if_pos hcj, gf_addMul, gf_unitRow h.unitRows hr hj, gf_unitRow h.unitRows hr hi,
        if_neg (by omega : ¬ i = r), mul_zero, add_zero, hcj]
    · rw [if_neg hcj, gf_unitRow h.unitRows hr hc]

theorem Reduced.clearRow (h : Reduced rows cols i dist) (hi : i < cols) (hrows : cols < rows)
    (hunit : gf (dist (i * cols + i)) = 1) :
    Reduced rows cols (i + 1) (clearRow rows cols i dist) := by
  have hloop := forUp_invariant (a := 0) (n := cols) (s := dist)
    (f := fun j dist =>
      let tmp := dist (i * cols + j)
      if j ≠ i ∧ tmp ≠ 0 then Core.addColumn rows cols i j tmp dist else dist)
    (P := fun j u => Reduced rows cols i u ∧ gf (u (i * cols + i)) = 1 ∧
      ∀ c < j, c ≠ i → gf (u (i * cols + c)) = 0)
    ⟨h, hunit, by simp⟩
    (by
      rintro j u - hj ⟨hu, hpiv, hzero⟩
      rw [Nat.zero_add] at hj
      dsimp only
      by_cases hcase : j ≠ i ∧ u (i * cols + j) ≠ 0
      · rw [if_pos hcase]
        have hji := hcase.1
        refine ⟨hu.addColumn hi hrows hj hji.symm _, ?_, fun c hc hci => ?_⟩
        · rw [addColumn_entry hi hj _ (by omega) hi, if_neg hji.symm, hpiv]
        · rw [addColumn_entry hi hj _ (by omega) (by omega)]
          by_cases hcj : c = j
          · rw [if_pos hcj, gf_addMul, hpiv, mul_one, CharTwo.add_self_eq_zero]
          · rw [if_neg hcj, hzero c (by omega) hci]
      · rw [if_neg hcase]
        refine ⟨hu, hpiv, fun c hc hci => ?_⟩
        by_cases hcj : c = j
        · subst hcj
          exact gf_eq_zero_iff.mpr (by_contra fun hne => hcase ⟨hci, hne⟩)
        · exact hzero c (by omega) hci)
  rw [Nat.zero_add] at hloop
  obtain ⟨hred, hpiv, hzero⟩ := hloop
  refine ⟨hred.isMds, unitRows_of_gf fun r hr c hc => ?_⟩
  rcases Nat.eq_or_lt_of_le (Nat.le_of_lt_succ hr) with rfl | hlt
  · by_cases hci : c = r
    · rw [if_pos hci, hci]
      exact hpiv
    · rw [if_neg hci]
      exact hzero c hc hci
  · exact gf_unitRow hred.unitRows hlt hc

theorem Reduced.eliminateColumn (h : Reduced rows cols i dist) (hi : i < cols)
    (hrows : cols < rows) :
    ∃ dist', eliminateColumn rows cols i dist = some dist' ∧
      Reduced rows cols (i + 1) dist' := by
  obtain ⟨j, hfind, hij, hj, hne⟩ := h.findPivot hi hrows
  rw [Core.eliminateColumn, hfind, Option.bind_some]
  have hswap : Reduced rows cols i
      (if j ≠ i then Core.swapRows cols (j * cols) (i * cols) dist else dist) ∧
      (if j ≠ i then Core.swapRows cols (j * cols) (i * cols) dist else dist) (i * cols + i)
        ≠ 0#32 := by
    by_cases hji : j = i
    · rw [if_neg (not_not.mpr hji)]
      exact ⟨h, hji ▸ hne⟩
    · rw [if_pos hji]
      refine ⟨h.swapRows (by omega) hj, ?_⟩
      rw [swapRows_entry (by omega) hi, Equiv.swap_apply_left]
      exact hne
  obtain ⟨dist', hpivot, hred, hunit⟩ := hswap.1.unitPivot hi hrows hswap.2
  dsimp only
  rw [hpivot, Option.map_some]
  exact ⟨_, rfl, hred.clearRow hi hrows hunit⟩

/-! ### The rows below the unit matrix -/

theorem Reduced.entry_ne (h : Reduced rows cols cols dist) (hrows : cols < rows) {r j : Nat}
    (hr : cols ≤ r) (hr' : r < rows) (hj : j < cols) : dist (r * cols + j) ≠ 0#32 := by
  intro hzero
  refine h.isMds.systematic_ne hrows.le (r := ⟨r, hr'⟩) ?_ hr ⟨j, hj⟩
    (gf_eq_zero_iff.mpr hzero)
  intro i c
  simp only [Fin.ext_iff]
  exact gf_unitRow h.unitRows i.isLt c.isLt

/-- Below the unit matrix, scaling column `j` is scaling the column and then scaling
the unit row `j` back. -/
theorem Reduced.onesRow (h : Reduced rows cols cols dist) (hrows : cols < rows) {j : Nat}
    (hj : j < cols) :
    ∃ dist', onesRow rows cols j dist = some dist' ∧ Reduced rows cols cols dist' := by
  rw [Core.onesRow]
  by_cases hone : dist (cols * cols + j) = 1
  · rw [if_neg (not_not.mpr hone)]
    exact ⟨dist, rfl, h⟩
  · have hne := h.entry_ne hrows le_rfl hrows hj
    obtain ⟨q, hq, hgf⟩ := galoisSingleDivide_one hne
    have hq0 : gf q ≠ 0 := by rw [hgf]; exact inv_ne_zero (gf_ne_zero hne)
    rw [if_pos hone, hq, Option.map_some]
    refine ⟨_, rfl, ⟨?_, ?_⟩⟩
    · let scaled : Matrix (Fin rows) (Fin cols) GF := fun r c =>
        if c = ⟨j, hj⟩ then gf q * gfMatrix rows cols dist r c
        else gfMatrix rows cols dist r c
      have hscaled : IsMds scaled := h.isMds.scaleColumn ⟨j, hj⟩ hq0 fun r c => rfl
      refine hscaled.scaleRows (d := fun r => if (r : Nat) = j then (gf q)⁻¹ else 1) ?_ ?_
      · intro r
        split_ifs
        · exact inv_ne_zero hq0
        · exact one_ne_zero
      · intro r c
        have hr := r.isLt
        simp only [scaled, gfMatrix, Fin.ext_iff]
        rw [scaleColumn_entry hj q c.isLt]
        by_cases hrj : (r : Nat) = j
        · have hrow : gf (dist (r * cols + c)) = if (c : Nat) = r then 1 else 0 :=
            gf_unitRow h.unitRows (by omega) c.isLt
          rw [if_neg (by omega), if_pos hrj, hrow]
          by_cases hcj : (c : Nat) = j
          · rw [if_pos (by omega), if_pos hcj, mul_one, inv_mul_cancel₀ hq0]
          · rw [if_neg (by omega), if_neg hcj, mul_zero]
        · rw [if_neg hrj, one_mul]
          by_cases hcj : (c : Nat) = j
          · rw [if_pos hcj]
            by_cases hrc : cols ≤ (r : Nat)
            · rw [if_pos ⟨hcj, hrc, by omega⟩, gf_galoisSingleMultiply]
            · rw [if_neg (by omega), gf_unitRow h.unitRows (by omega) c.isLt,
                if_neg (by omega), mul_zero]
          · rw [if_neg hcj, if_neg (by tauto)]
    · intro r hr c hc
      rw [scaleColumn_entry hj q hc, if_neg (by omega)]
      exact h.unitRows r hr c hc

theorem Reduced.onesColumn (h : Reduced rows cols cols dist) (hcols : 0 < cols)
    (hrows : cols < rows) (hi : cols < i) (hi' : i < rows) :
    ∃ dist', onesColumn cols i dist = some dist' ∧ Reduced rows cols cols dist' := by
  rw [Core.onesColumn]
  by_cases hone : dist (i * cols) = 1
  · rw [if_neg (not_not.mpr hone)]
    exact ⟨dist, rfl, h⟩
  · have hne : dist (i * cols) ≠ 0#32 := h.entry_ne hrows hi.le hi' hcols
    obtain ⟨q, hq, hgf⟩ := galoisSingleDivide_one hne
    rw [if_pos hone, hq, Option.map_some]
    have hentry : ∀ r, ∀ c < cols, forUp 0 cols (fun j dist => Function.update dist
        (i * cols + j) (galoisSingleMultiply (dist (i * cols + j)) q)) dist (r * cols + c)
        = if r = i then galoisSingleMultiply (dist (r * cols + c)) q
          else dist (r * cols + c) := by
      intro r c hc
      rw [forUp_row (by omega) (w := fun j u => galoisSingleMultiply (u (i * cols + j)) q)
        ?_ hc]
      · by_cases hr : r = i
        · rw [if_pos ⟨hr, by omega, by omega⟩, if_pos hr, hr]
        · rw [if_neg (by tauto), if_neg hr]
      · intro c u hc hu
        rw [hu i c (by omega) (by omega)]
    refine ⟨_, rfl, ⟨?_, ?_⟩⟩
    · refine h.isMds.scaleRows (d := fun r => if (r : Nat) = i then gf q else 1) ?_ ?_
      · intro r
        split_ifs
        · rw [hgf]
          exact inv_ne_zero (gf_ne_zero hne)
        · exact one_ne_zero
      · intro r c
        simp only [gfMatrix]
        rw [hentry r c c.isLt]
        split_ifs
        · rw [gf_galoisSingleMultiply, mul_comm]
        · rw [one_mul]
    · intro r hr c hc
      rw [hentry r c hc, if_neg (by omega)]
      exact h.unitRows r hr c hc

end Elimination

/-! ### The matrix the encoder uses -/

/-- The elimination returns, and leaves an MDS matrix that starts with the unit matrix. -/
theorem distributionMatrix_spec {rows cols : Nat} (hcols : 0 < cols) (hrows : cols < rows)
    (hrows' : rows ≤ 2 ^ 32) (vdm : IntArray) :
    ∃ dist, reedSolBigVandermondeDistributionMatrix rows cols vdm = some dist ∧
      Reduced rows cols cols dist := by
  have hstart : Reduced rows cols 1 (reedSolExtendedVandermondeMatrix rows cols vdm) := by
    refine ⟨vandermonde_isMds hcols (by omega) hrows' vdm, unitRows_of_gf fun r hr c hc => ?_⟩
    have hzero : gf (BitVec.ofNat 32 0) = 0 := gf_zero
    obtain rfl : r = 0 := by omega
    rw [extendedVandermonde_entry (by omega) vdm (by omega) hc, if_neg (by omega), hzero,
      zero_pow_eq]
  obtain ⟨dist₁, hrun₁, h₁⟩ := forUpM_invariant (a := 1) (n := cols - 1)
    (f := eliminateColumn rows cols) hstart
    fun i u _ hi hu => hu.eliminateColumn (by omega) hrows
  have hall : 1 + (cols - 1) = cols := by omega
  rw [hall] at h₁
  obtain ⟨dist₂, hrun₂, h₂⟩ := forUpM_invariant (a := 0) (n := cols)
    (f := onesRow rows cols) (P := fun _ u => Reduced rows cols cols u) h₁
    fun j u _ hj hu => hu.onesRow hrows (by omega)
  obtain ⟨dist₃, hrun₃, h₃⟩ := forUpM_invariant (a := cols + 1) (n := rows - (cols + 1))
    (f := onesColumn cols) (P := fun _ u => Reduced rows cols cols u) h₂
    fun i u hi hi' hu => hu.onesColumn hcols hrows (by omega) (by omega)
  refine ⟨dist₃, ?_, h₃⟩
  rw [reedSolBigVandermondeDistributionMatrix, if_neg (by omega)]
  dsimp only
  rw [hrun₁, Option.bind_some, hrun₂, Option.bind_some, hrun₃]

/-- The generator of a systematic code: the unit matrix over a coding matrix. -/
noncomputable def generator (k m : Nat) (matrix : IntArray) :
    Matrix (Fin (k + m)) (Fin k) GF := fun r c =>
  if (r : Nat) < k then (if (c : Nat) = r then 1 else 0)
  else gf (matrix ((r - k) * k + c))

/-- `reed_sol_vandermonde_coding_matrix` returns, and the symbols it yields together
with the data are an MDS code. -/
theorem codingMatrix_spec {k m : Nat} (hk : 0 < k) (hm : 0 < m) (hkm : k + m ≤ 2 ^ 32)
    (vdm dist : IntArray) :
    ∃ matrix, reedSolVandermondeCodingMatrix k m vdm dist = some matrix ∧
      IsMds (generator k m matrix) := by
  obtain ⟨full, hrun, hfull⟩ := distributionMatrix_spec hk (by omega : k < k + m) hkm vdm
  rw [reedSolVandermondeCodingMatrix, hrun, Option.map_some]
  refine ⟨_, rfl, ?_⟩
  have hcopy : ∀ j < m * k,
      forUp 0 (m * k) (fun j dist => Function.update dist j (full (k * k + j))) dist j
        = full (k * k + j) := fun j hj =>
    (forUp_store (x := id) (w := fun j _ => full (k * k + j))
      (fun _ _ _ hlt _ heq => by simp only [id] at heq; omega)
      (fun _ _ _ _ _ => rfl)).1 j (by omega) (by omega)
  refine hfull.isMds.permuteRows (Equiv.refl _) fun r c => ?_
  rw [generator, Equiv.refl_apply, gfMatrix]
  by_cases hr : (r : Nat) < k
  · rw [if_pos hr, gf_unitRow hfull.unitRows hr c.isLt]
  · have hlt : ((r : Nat) - k) * k + c < m * k := by
      calc ((r : Nat) - k) * k + c < ((r : Nat) - k) * k + k := by omega
        _ = ((r : Nat) - k + 1) * k := by ring
        _ ≤ m * k := Nat.mul_le_mul_right k (by have := r.isLt; omega)
    have hindex : k * k + (((r : Nat) - k) * k + c) = r * k + c := by
      rw [← Nat.add_assoc, ← Nat.add_mul]
      congr 2
      omega
    rw [if_neg hr, hcopy _ hlt, hindex]

end EbnAnchor.Core
