import EbnAnchor.Core.GaloisField

/-!
`galois_shift_inverse` inverts every nonzero word, so `galois_single_divide`
divides residues.

The proof follows `galois_invert_binary_matrix`. Row operations keep every row
of `mat` equal to the matching row of `inv` times `y` (`Tracks`), and keep the
rows spanning (`Spans`), so each column has a pivot and the `exit` is not
reached (`pivot_isSome`). Back substitution then clears the first row of `inv`
one column at a time (`cleared_backSubstitute`).
-/

namespace EbnAnchor.Core

open BinaryField Loop

/-- A map of words to bits that carries `^^^` to `+`. -/
def IsAdditive (φ : Word → ZMod 2) : Prop := ∀ x y, φ (x ^^^ y) = φ x + φ y

theorem IsAdditive.zero {φ : Word → ZMod 2} (h : IsAdditive φ) : φ 0#32 = 0 := by
  have h0 := h 0#32 0#32
  rw [BitVec.xor_self] at h0
  exact left_eq_add.mp h0

namespace BinaryMatrix

/-- Every row of `mat` is the matching row of `inv` times `y`. -/
def Tracks (y : Word) (m : BinaryMatrix) : Prop :=
  ∀ r < 32, gf (m.mat r) = gf (m.inv r) * gf y

/-- No additive map but zero vanishes on all the rows. -/
def Spans (m : BinaryMatrix) : Prop :=
  ∀ φ, IsAdditive φ → (∀ r < 32, φ (m.mat r) = 0) → ∀ x, φ x = 0

/-- Columns below `i` are done: unit diagonal, nothing below it. -/
structure Echelon (y : Word) (i : Nat) (m : BinaryMatrix) : Prop where
  tracks : m.Tracks y
  spans : m.Spans
  diagonal : ∀ r < i, (m.mat r).getLsbD r = true
  cleared : ∀ r < 32, ∀ c < i, c < r → (m.mat r).getLsbD c = false

theorem test_iff (x : Word) {i : Nat} (hi : i < 32) :
    x &&& (1#32 <<< i) ≠ 0 ↔ x.getLsbD i = true := by
  rw [ne_eq, and_bit_eq_zero_iff x hi, Bool.not_eq_false]

/-! ### Row operations -/

theorem swapRows_mat (m : BinaryMatrix) (i j r : Nat) :
    (m.swapRows i j).mat r = m.mat (Equiv.swap i j r) := by
  rw [swapRows, Equiv.swap_apply_def]
  dsimp only
  by_cases hj : r = j
  · subst hj
    by_cases hi : r = i
    · simp [hi]
    · simp [hi]
  · by_cases hi : r = i
    · rw [if_pos hi, Function.update_of_ne hj, hi, Function.update_self]
    · rw [if_neg hi, if_neg hj, Function.update_of_ne hj, Function.update_of_ne hi]

theorem swapRows_inv (m : BinaryMatrix) (i j r : Nat) :
    (m.swapRows i j).inv r = m.inv (Equiv.swap i j r) :=
  swapRows_mat ⟨m.inv, m.mat⟩ i j r

theorem swap_lt {i j r n : Nat} (hi : i < n) (hj : j < n) (hr : r < n) :
    Equiv.swap i j r < n := by
  rw [Equiv.swap_apply_def]
  split_ifs <;> assumption

theorem Tracks.swapRows {y : Word} {m : BinaryMatrix} (h : m.Tracks y) {i j : Nat}
    (hi : i < 32) (hj : j < 32) : (m.swapRows i j).Tracks y := by
  intro r hr
  rw [swapRows_mat, swapRows_inv]
  exact h _ (swap_lt hi hj hr)

theorem Spans.swapRows {m : BinaryMatrix} (h : m.Spans) {i j : Nat}
    (hi : i < 32) (hj : j < 32) : (m.swapRows i j).Spans := by
  intro φ hφ hrows
  refine h φ hφ fun r hr => ?_
  have hr' := hrows _ (swap_lt hi hj hr)
  rwa [swapRows_mat, Equiv.swap_apply_self] at hr'

/-- Row `i` is added to every later row below `n` that has bit `i` set. -/
theorem eliminate_loop (m : BinaryMatrix) (i n : Nat) (hi : i < 32) :
    let m' := forUp (i + 1) n (fun j (m : BinaryMatrix) =>
      if m.mat j &&& (1#32 <<< i) ≠ 0 then m.addRow i j else m) m
    ∀ r, (m'.mat r, m'.inv r) =
      if i < r ∧ r < i + 1 + n ∧ (m.mat r).getLsbD i = true then
        (m.mat r ^^^ m.mat i, m.inv r ^^^ m.inv i)
      else (m.mat r, m.inv r) := by
  refine forUp_invariant (P := fun k (m' : BinaryMatrix) => ∀ r, (m'.mat r, m'.inv r) =
    if i < r ∧ r < k ∧ (m.mat r).getLsbD i = true then
      (m.mat r ^^^ m.mat i, m.inv r ^^^ m.inv i)
    else (m.mat r, m.inv r)) ?_ ?_
  · intro r
    rw [if_neg (by omega)]
  · intro k m' hk _ ih r
    have hrowi := ih i
    have hrowk := ih k
    rw [if_neg (by omega)] at hrowi hrowk
    simp only [Prod.mk.injEq] at hrowi hrowk
    simp only [test_iff _ hi, hrowk.1]
    by_cases hr : r = k
    · subst hr
      by_cases hbit : (m.mat r).getLsbD i = true
      · rw [if_pos hbit, if_pos ⟨by omega, by omega, hbit⟩]
        simp [addRow, hrowi, hrowk]
      · rw [if_neg hbit, if_neg (by tauto)]
        simp [hrowk]
    · have hsame : ((if (m.mat k).getLsbD i = true then m'.addRow i k else m').mat r,
          (if (m.mat k).getLsbD i = true then m'.addRow i k else m').inv r)
          = (m'.mat r, m'.inv r) := by
        split_ifs <;> simp [addRow, hr]
      have hnext : r < k + 1 ↔ r < k := by omega
      rw [hsame, ih r]
      simp only [hnext]

/-! ### The pivot exists -/

/-- If no row from `i` on has bit `i`, a nonzero map vanishes on all the rows: the
bits below `i` are weighted so that the rows above cancel, from the last one up. -/
theorem exists_weights (m : BinaryMatrix) (i : Nat) (hi : i < 32)
    (diagonal : ∀ r < i, (m.mat r).getLsbD r = true) :
    ∃ a : Nat → ZMod 2, a i = 1 ∧ (∀ c, i < c → a c = 0) ∧
      ∀ r < i, ∑ c ∈ Finset.Ico r 32, a c * coeff (m.mat r) c = 0 := by
  have hdown : ∀ k ≤ i, ∃ a : Nat → ZMod 2, a i = 1 ∧ (∀ c, i < c → a c = 0) ∧
      ∀ r < i, i - k ≤ r → ∑ c ∈ Finset.Ico r 32, a c * coeff (m.mat r) c = 0 := by
    intro k hk
    induction k with
    | zero =>
      refine ⟨fun c => if c = i then 1 else 0, if_pos rfl, fun c hc => if_neg (by omega), ?_⟩
      intro r hr hir
      omega
    | succ k ih =>
      obtain ⟨a, hai, hagt, ha⟩ := ih (by omega)
      let s := i - (k + 1)
      have hs : s + 1 = i - k := by omega
      let rest := ∑ c ∈ Finset.Ico (s + 1) 32, a c * coeff (m.mat s) c
      have hupdate : ∀ r, s < r → ∑ c ∈ Finset.Ico r 32,
          Function.update a s rest c * coeff (m.mat r) c
            = ∑ c ∈ Finset.Ico r 32, a c * coeff (m.mat r) c := by
        intro r hr
        refine Finset.sum_congr rfl fun c hc => ?_
        rw [Finset.mem_Ico] at hc
        rw [Function.update_of_ne (by omega)]
      refine ⟨Function.update a s rest, ?_, ?_, ?_⟩
      · rw [Function.update_of_ne (by omega), hai]
      · intro c hc
        rw [Function.update_of_ne (by omega), hagt c hc]
      · intro r hr hsr
        have hle : s ≤ r := hsr
        rcases Nat.eq_or_lt_of_le hle with rfl | hlt
        · have hdiag : coeff (m.mat s) s = 1 := by simp [coeff, diagonal s hr]
          rw [Finset.sum_eq_sum_Ico_succ_bot (by omega), Function.update_self, hdiag, mul_one]
          have hrest : ∑ c ∈ Finset.Ico (s + 1) 32,
              Function.update a s rest c * coeff (m.mat s) c = rest := by
            refine Finset.sum_congr rfl fun c hc => ?_
            rw [Finset.mem_Ico] at hc
            rw [Function.update_of_ne (by omega)]
          rw [hrest]
          exact CharTwo.add_self_eq_zero rest
        · rw [hupdate r hlt]
          exact ha r hr (by omega)
  obtain ⟨a, hai, hagt, ha⟩ := hdown i le_rfl
  exact ⟨a, hai, hagt, fun r hr => ha r hr (by omega)⟩

theorem exists_pivot {y : Word} {i : Nat} {m : BinaryMatrix} (hi : i < 32)
    (h : m.Echelon y i) : ∃ j, i ≤ j ∧ j < 32 ∧ (m.mat j).getLsbD i = true := by
  by_contra hnone
  push Not at hnone
  obtain ⟨a, hai, hagt, ha⟩ := exists_weights m i hi h.diagonal
  let φ : Word → ZMod 2 := fun x => ∑ c ∈ Finset.range 32, a c * coeff x c
  have hφ : IsAdditive φ := by
    intro x z
    simp only [φ, coeff_xor, mul_add, Finset.sum_add_distrib]
  have hrows : ∀ r < 32, φ (m.mat r) = 0 := by
    intro r hr
    rcases Nat.lt_or_ge r i with hlt | hge
    · have hlow : ∑ c ∈ Finset.range r, a c * coeff (m.mat r) c = 0 := by
        refine Finset.sum_eq_zero fun c hc => ?_
        rw [Finset.mem_range] at hc
        rw [coeff, h.cleared r hr c (by omega) hc]
        simp
      have hsum : φ (m.mat r) = ∑ c ∈ Finset.range 32, a c * coeff (m.mat r) c := rfl
      rw [hsum, ← Finset.sum_range_add_sum_Ico _ (by omega : r ≤ 32), hlow, ha r hlt, add_zero]
    · refine Finset.sum_eq_zero fun c hc => ?_
      rcases Nat.lt_trichotomy c i with hc | rfl | hc
      · rw [coeff, h.cleared r hr c hc (by omega)]
        simp
      · rw [coeff, if_neg (hnone r hge hr), mul_zero]
      · rw [hagt c hc, zero_mul]
  have hbit := h.spans φ hφ hrows (BitVec.twoPow 32 i)
  have hsingle : φ (BitVec.twoPow 32 i) = a i := by
    have hsum : φ (BitVec.twoPow 32 i) =
        ∑ c ∈ Finset.range 32, a c * coeff (BitVec.twoPow 32 i) c := rfl
    rw [hsum, Finset.sum_eq_single i]
    · simp [coeff, hi]
    · intro c _ hc
      simp [coeff, BitVec.getLsbD_twoPow, Ne.symm hc]
    · intro hmem
      exact absurd (Finset.mem_range.mpr hi) hmem
  rw [hsingle, hai] at hbit
  exact one_ne_zero hbit

/-! ### Elimination -/

theorem pivot_isSome {y : Word} {i : Nat} {m : BinaryMatrix} (hi : i < 32)
    (h : m.Echelon y i) :
    ∃ m', m.pivot 32 i = some m' ∧ m'.Echelon y i ∧ (m'.mat i).getLsbD i = true := by
  rw [pivot]
  by_cases hbit : (m.mat i).getLsbD i = true
  · rw [if_neg (by rw [← ne_eq, test_iff _ hi]; exact hbit)]
    exact ⟨m, rfl, h, hbit⟩
  · rw [if_pos (by_contra fun hne => hbit ((test_iff _ hi).mp hne))]
    cases hfind : (List.range' (i + 1) (32 - (i + 1))).find?
        fun j => m.mat j &&& (1#32 <<< i) ≠ 0 with
    | none =>
      obtain ⟨j, hij, hj, hjbit⟩ := exists_pivot hi h
      have hne : i ≠ j := fun hij => hbit (hij ▸ hjbit)
      have hnot := List.find?_eq_none.mp hfind j (by rw [List.mem_range'_1]; omega)
      rw [decide_eq_true_iff, test_iff _ hi] at hnot
      exact absurd hjbit hnot
    | some j =>
      have hj := List.mem_of_find?_eq_some hfind
      have hjbit := List.find?_some hfind
      rw [List.mem_range'_1] at hj
      rw [decide_eq_true_iff, test_iff _ hi] at hjbit
      refine ⟨_, rfl, ⟨h.tracks.swapRows hi (by omega), h.spans.swapRows hi (by omega), ?_, ?_⟩,
        ?_⟩
      · intro r hr
        rw [swapRows_mat, Equiv.swap_apply_of_ne_of_ne (by omega) (by omega)]
        exact h.diagonal r hr
      · intro r hr c hc hcr
        rw [swapRows_mat]
        refine h.cleared _ (swap_lt hi (by omega) hr) c hc ?_
        rw [Equiv.swap_apply_def]
        split_ifs <;> omega
      · rw [swapRows_mat, Equiv.swap_apply_left]
        exact hjbit

theorem eliminate_echelon {y : Word} {i : Nat} {m : BinaryMatrix} (hi : i < 32)
    (h : m.Echelon y i) : ∃ m', m.eliminate 32 i = some m' ∧ m'.Echelon y (i + 1) := by
  obtain ⟨m₁, hpivot, h₁, hdiag⟩ := pivot_isSome hi h
  refine ⟨_, by rw [eliminate, hpivot, Option.map_some], ?_⟩
  have hloop := eliminate_loop m₁ i (32 - (i + 1)) hi
  generalize forUp (i + 1) (32 - (i + 1)) _ m₁ = m' at hloop
  simp only at hloop
  -- what the loop leaves in a row that it does not reach, and in one that it does
  have hkeep : ∀ r, ¬ (i < r ∧ r < i + 1 + (32 - (i + 1)) ∧ (m₁.mat r).getLsbD i = true) →
      m'.mat r = m₁.mat r ∧ m'.inv r = m₁.inv r := fun r hr => by
    have hrow := hloop r
    rw [if_neg hr] at hrow
    exact Prod.mk.inj hrow
  have hadd : ∀ r, i < r → r < 32 → (m₁.mat r).getLsbD i = true →
      m'.mat r = m₁.mat r ^^^ m₁.mat i ∧ m'.inv r = m₁.inv r ^^^ m₁.inv i :=
    fun r hir hr hbit => by
      have hrow := hloop r
      rw [if_pos ⟨hir, by omega, hbit⟩] at hrow
      exact Prod.mk.inj hrow
  have hrow : ∀ r < 32, (m'.mat r = m₁.mat r ∧ m'.inv r = m₁.inv r ∧
        ¬ (i < r ∧ (m₁.mat r).getLsbD i = true)) ∨
      (m'.mat r = m₁.mat r ^^^ m₁.mat i ∧ m'.inv r = m₁.inv r ^^^ m₁.inv i ∧ i < r ∧
        (m₁.mat r).getLsbD i = true) := by
    intro r hr
    by_cases hcase : i < r ∧ (m₁.mat r).getLsbD i = true
    · obtain ⟨hmat, hinv⟩ := hadd r hcase.1 hr hcase.2
      exact Or.inr ⟨hmat, hinv, hcase⟩
    · obtain ⟨hmat, hinv⟩ := hkeep r fun hall => hcase ⟨hall.1, hall.2.2⟩
      exact Or.inl ⟨hmat, hinv, hcase⟩
  have hrowi := (hkeep i (by omega)).1
  constructor
  · intro r hr
    rcases hrow r hr with ⟨hmat, hinv, -⟩ | ⟨hmat, hinv, -⟩
    · rw [hmat, hinv]
      exact h₁.tracks r hr
    · rw [hmat, hinv, gf_xor, gf_xor, add_mul, h₁.tracks r hr, h₁.tracks i hi]
  · intro φ hφ hzero
    refine h₁.spans φ hφ fun r hr => ?_
    have hpiv : φ (m₁.mat i) = 0 := by rw [← hrowi]; exact hzero i hi
    have hr0 := hzero r hr
    rcases hrow r hr with ⟨hmat, -⟩ | ⟨hmat, -⟩
    · rwa [hmat] at hr0
    · rwa [hmat, hφ, hpiv, add_zero] at hr0
  · intro r hr
    rw [(hkeep r (by omega)).1]
    rcases Nat.eq_or_lt_of_le (Nat.le_of_lt_succ hr) with rfl | hlt
    · exact hdiag
    · exact h₁.diagonal r hlt
  · intro r hr c hc hcr
    rcases Nat.eq_or_lt_of_le (Nat.le_of_lt_succ hc) with rfl | hlt
    · rcases hrow r hr with ⟨hmat, -, hcase⟩ | ⟨hmat, -, -, hbit⟩
      · rw [hmat]
        exact Bool.not_eq_true _ |>.mp fun hbit => hcase ⟨hcr, hbit⟩
      · rw [hmat, BitVec.getLsbD_xor, hbit, hdiag]
        rfl
    · rcases hrow r hr with ⟨hmat, -⟩ | ⟨hmat, -⟩
      · rw [hmat]
        exact h₁.cleared r hr c hlt hcr
      · rw [hmat, BitVec.getLsbD_xor, h₁.cleared r hr c hlt hcr,
          h₁.cleared i hi c hlt hlt]
        rfl

/-! ### Back substitution -/

theorem backSubstitute_eq (m : BinaryMatrix) {i : Nat} (hi : i < 32) :
    (m.backSubstitute i).mat = m.mat ∧ ∀ r, (m.backSubstitute i).inv r =
      if r < i ∧ (m.mat r).getLsbD i = true then m.inv r ^^^ m.inv i else m.inv r := by
  have h := forUp_invariant (a := 0) (n := i) (s := m)
    (f := fun j (m : BinaryMatrix) =>
      if m.mat j &&& (1#32 <<< i) ≠ 0 then
        { m with inv := Function.update m.inv j (m.inv j ^^^ m.inv i) }
      else m)
    (P := fun k m' => m'.mat = m.mat ∧ ∀ r, m'.inv r =
      if r < k ∧ (m.mat r).getLsbD i = true then m.inv r ^^^ m.inv i else m.inv r)
    ⟨rfl, fun r => by rw [if_neg (by omega)]⟩
    (by
      rintro k m' - hk ⟨hmat, hinv⟩
      have hinvi := hinv i
      have hinvk := hinv k
      rw [if_neg (by omega)] at hinvi hinvk
      simp only [hmat, test_iff _ hi]
      by_cases hbit : (m.mat k).getLsbD i = true
      · rw [if_pos hbit]
        refine ⟨rfl, fun r => ?_⟩
        dsimp only
        by_cases hr : r = k
        · subst hr
          rw [Function.update_self, hinvk, hinvi, if_pos ⟨by omega, hbit⟩]
        · have hnext : r < k + 1 ↔ r < k := by omega
          rw [Function.update_of_ne hr, hinv r]
          simp only [hnext]
      · rw [if_neg hbit]
        refine ⟨hmat, fun r => ?_⟩
        rw [hinv r]
        by_cases hr : r = k
        · subst hr
          rw [if_neg (by tauto), if_neg (by tauto)]
        · have hnext : r < k + 1 ↔ r < k := by omega
          simp only [hnext])
  rw [Nat.zero_add] at h
  exact h

/-- With columns from `k` on cleared, `inv r` times `y` is the part of row `r` below
column `k`, the diagonal included. -/
def Cleared (u : Nat → Word) (y : Word) (k : Nat) (m : BinaryMatrix) : Prop :=
  m.mat = u ∧ ∀ r < 32, gf (m.inv r) * gf y =
    ∑ c ∈ Finset.range (max k (r + 1)), if (u r).getLsbD c then gfX ^ c else 0

theorem cleared_backSubstitute {u : Nat → Word} {y : Word} {k : Nat} {m : BinaryMatrix}
    (hk : k < 32) (diagonal : ∀ r < 32, (u r).getLsbD r = true)
    (below : ∀ r < 32, ∀ c < r, (u r).getLsbD c = false) (h : Cleared u y (k + 1) m) :
    Cleared u y k (m.backSubstitute k) := by
  obtain ⟨hmat, hinv⟩ := h
  obtain ⟨hmat', hinv'⟩ := backSubstitute_eq m hk
  refine ⟨hmat'.trans hmat, fun r hr => ?_⟩
  rw [hinv' r, hmat]
  by_cases hrk : r < k
  · have hpivot : gf (m.inv k) * gf y = gfX ^ k := by
      rw [hinv k hk, max_self, Finset.sum_range_succ, if_pos (diagonal k hk),
        Finset.sum_eq_zero, zero_add]
      intro c hc
      rw [below k hk c (Finset.mem_range.mp hc)]
      rfl
    have hrow := hinv r hr
    rw [max_eq_left (by omega), Finset.sum_range_succ] at hrow
    rw [max_eq_left (by omega)]
    by_cases hbit : (u r).getLsbD k = true
    · rw [if_pos hbit] at hrow
      rw [if_pos ⟨hrk, hbit⟩, gf_xor, add_mul, hpivot, hrow, add_assoc,
        CharTwo.add_self_eq_zero, add_zero]
    · rw [if_neg hbit, add_zero] at hrow
      rw [if_neg (by tauto), hrow]
  · have hrow := hinv r hr
    rw [max_eq_right (by omega)] at hrow ⊢
    rw [if_neg (by tauto), hrow]

end BinaryMatrix

open BinaryMatrix

/-- The rows `y, X y, .., X^31 y` span when `y` is not zero. -/
theorem spans_mulXPow {y : Word} (hy : y ≠ 0#32) (inv : Nat → Word) :
    Spans ⟨fun i => mulXPow primPoly i y, inv⟩ := by
  intro φ hφ hrows x
  obtain ⟨z, hz⟩ := (elem_bijective primPoly).2 (gf x * (gf y)⁻¹)
  have hx : x = mul primPoly z y := by
    apply gf_injective
    calc gf x = gf x * (gf y)⁻¹ * gf y := (inv_mul_cancel_right₀ (gf_ne_zero hy) (gf x)).symm
      _ = elem primPoly z * gf y := by rw [hz]
      _ = gf (mul primPoly z y) := (elem_mul primPoly z y).symm
  rw [hx]
  have h := forUp_invariant (a := 0) (n := 32) (s := 0#32)
    (f := fun i prod => if z.getLsbD i then prod ^^^ mulXPow primPoly i y else prod)
    (P := fun _ prod => φ prod = 0) hφ.zero
    (by
      intro k prod _ hk hprod
      split_ifs with hbit
      · rw [hφ, hprod, hrows k (by omega), add_zero]
      · exact hprod)
  rw [mul]
  simpa only [forUp, Nat.zero_add] using h

theorem inverseStep_eq : inverseStep = mulX primPoly := funext scratchStep_eq

/-- `galois_shift_inverse` returns the inverse of a nonzero word. -/
theorem galoisShiftInverse_spec {y : Word} (hy : y ≠ 0#32) :
    ∃ x, galoisShiftInverse y = some x ∧ gf x * gf y = 1 := by
  let start : BinaryMatrix := ⟨fun i => mulXPow primPoly i y, fun i => 1#32 <<< i⟩
  have hstart : start.Echelon y 0 := by
    refine ⟨?_, spans_mulXPow hy _, by simp, by simp⟩
    intro r hr
    have hshift : gf (1#32 <<< r) = gfX ^ r := by
      rw [gf_shiftLeft (by omega) (Nat.one_lt_two_pow (by omega)), gf_one, mul_one]
    have hinv : start.inv r = 1#32 <<< r := rfl
    rw [hinv, hshift]
    exact elem_mulXPow primPoly r y
  obtain ⟨m, hrun, h⟩ := forUpM_invariant (a := 0) (n := 32) hstart
    fun i m _ hi h => eliminate_echelon (by omega) h
  rw [Nat.zero_add] at h
  have hback := forDown_invariant (n := 32) (s := m)
    (f := fun i (m : BinaryMatrix) => m.backSubstitute i) (P := Cleared m.mat y)
    ⟨rfl, fun r hr => by rw [← h.tracks r hr, gf_eq_sum, max_eq_left (by omega)]⟩
    (fun k m' hk h' => cleared_backSubstitute hk h.diagonal
      (fun r hr c hc => h.cleared r hr c (by omega) hc) h')
  refine ⟨(forDown 32 (fun i m => m.backSubstitute i) m).inv 0, ?_, ?_⟩
  · have hrows : (⟨fun i => (mulX primPoly)^[i] y, fun i => 1#32 <<< i⟩ : BinaryMatrix) = start :=
      rfl
    rw [galoisShiftInverse, galoisInvertBinaryMatrix, inverseStep_eq, hrows, hrun]
    rfl
  · have hrow := hback.2 0 (by decide)
    rw [hrow, max_eq_right (by omega), Finset.sum_range_one, if_pos (h.diagonal 0 (by decide)),
      pow_zero]

/-- `galois_single_divide` divides residues. -/
theorem galoisSingleDivide_spec (a : Word) {b : Word} (hb : b ≠ 0#32) :
    ∃ q, galoisSingleDivide a b = some q ∧ gf q = gf a / gf b := by
  have hne : ¬ b = 0 := hb
  rw [galoisSingleDivide, if_neg hne]
  by_cases ha : a = 0
  · rw [if_pos ha]
    exact ⟨0#32, rfl, by rw [gf_zero, ha, gf_ofNat_zero, zero_div]⟩
  · obtain ⟨x, hx, hxb⟩ := galoisShiftInverse_spec hb
    rw [if_neg ha, galoisInverse, if_neg hne, hx, Option.map_some]
    refine ⟨_, rfl, ?_⟩
    rw [gf_galoisSingleMultiply, eq_div_iff (gf_ne_zero hb), mul_assoc, hxb, mul_one]

end EbnAnchor.Core
