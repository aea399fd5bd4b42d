import Mathlib.Data.Matrix.Mul
import Mathlib.LinearAlgebra.Lagrange
import Mathlib.Tactic.LinearCombination

/-!
Maximum distance separable matrices over a field.

A matrix with `n` rows and `k` columns generates a code of length `n`; it is MDS
when a combination of the columns that vanishes on `k` rows is the zero
combination. Main results:

* `IsMds.eq_of_agree`: any `k` symbols determine the message;
* `IsMds.permuteRows`, `IsMds.scaleRows`, `IsMds.scaleColumn`, `IsMds.addColumn`: the
  operations of an elimination keep a matrix MDS;
* `IsMds.systematic_ne`: below a systematic part no entry is zero;
* `isMds_extendedVandermonde`: powers of distinct points, with one more row that
  takes the last coefficient;
* `isMds_twoParities`: the unit matrix over a row of ones and a row of distinct points.
-/

namespace Mds

open Finset Matrix Polynomial

variable {F : Type*} [Field F] {n k : Nat}

/-- A nonzero message has fewer than `k` zero symbols. -/
def IsMds (G : Matrix (Fin n) (Fin k) F) : Prop :=
  ∀ (v : Fin k → F) (s : Finset (Fin n)), k ≤ #s → (∀ r ∈ s, (G *ᵥ v) r = 0) → v = 0

theorem IsMds.exists_row_ne {G : Matrix (Fin n) (Fin k) F} (h : IsMds G)
    {v : Fin k → F} (hv : v ≠ 0) {s : Finset (Fin n)} (hs : k ≤ #s) :
    ∃ r ∈ s, (G *ᵥ v) r ≠ 0 := by
  by_contra hzero
  push Not at hzero
  exact hv (h v s hs hzero)

/-- Any `k` symbols determine the message. -/
theorem IsMds.eq_of_agree {G : Matrix (Fin n) (Fin k) F} (h : IsMds G)
    {v v' : Fin k → F} {s : Finset (Fin n)} (hs : k ≤ #s)
    (hagree : ∀ r ∈ s, (G *ᵥ v) r = (G *ᵥ v') r) : v = v' := by
  refine sub_eq_zero.mp (h (v - v') s hs fun r hr => ?_)
  rw [mulVec_sub, Pi.sub_apply, hagree r hr, sub_self]

/-- What elimination needs to know of an operation: the zero rows of the new matrix on
`v` are, up to a permutation, zero rows of the old one on a nonzero `T v`. -/
theorem IsMds.transport {G G' : Matrix (Fin n) (Fin k) F} (h : IsMds G)
    (σ : Equiv.Perm (Fin n)) (T : (Fin k → F) → Fin k → F)
    (hT : ∀ v, T v = 0 → v = 0)
    (hzero : ∀ v r, (G' *ᵥ v) r = 0 → (G *ᵥ T v) (σ r) = 0) : IsMds G' := by
  intro v s hs hrows
  refine hT v (h (T v) (s.map σ.toEmbedding) (by rwa [card_map]) ?_)
  intro r hr
  obtain ⟨r', hr', rfl⟩ := mem_map.mp hr
  exact hzero v r' (hrows r' hr')

/-! ### Elimination -/

theorem IsMds.permuteRows {G G' : Matrix (Fin n) (Fin k) F} (h : IsMds G)
    (σ : Equiv.Perm (Fin n)) (hrow : ∀ r c, G' r c = G (σ r) c) : IsMds G' := by
  refine h.transport σ id (fun v hv => hv) fun v r hzero => ?_
  rw [← hzero, mulVec, mulVec]
  exact congrArg (· ⬝ᵥ v) (funext fun c => (hrow r c).symm)

theorem IsMds.scaleRows {G G' : Matrix (Fin n) (Fin k) F} (h : IsMds G) {d : Fin n → F}
    (hd : ∀ r, d r ≠ 0) (hrow : ∀ r c, G' r c = d r * G r c) : IsMds G' := by
  refine h.transport (Equiv.refl _) id (fun v hv => hv) fun v r hzero => ?_
  have hscale : (G' *ᵥ v) r = d r * (G *ᵥ v) r := by
    simp only [mulVec, dotProduct, hrow, mul_sum, mul_assoc]
  rw [hscale] at hzero
  exact (mul_eq_zero.mp hzero).resolve_left (hd r)

/-- Scaling a column scales one coefficient of every message. -/
theorem IsMds.scaleColumn {G G' : Matrix (Fin n) (Fin k) F} (h : IsMds G) (j : Fin k) {d : F}
    (hd : d ≠ 0) (hcol : ∀ r c, G' r c = if c = j then d * G r c else G r c) : IsMds G' := by
  refine h.transport (Equiv.refl _) (fun v => Function.update v j (d * v j)) ?_ ?_
  · intro v hv
    funext c
    have hc := congrFun hv c
    by_cases hcj : c = j
    · subst hcj
      rw [Function.update_self] at hc
      exact (mul_eq_zero.mp hc).resolve_left hd
    · rwa [Function.update_of_ne hcj] at hc
  · intro v r hzero
    rw [← hzero, mulVec, mulVec, dotProduct, dotProduct]
    refine sum_congr rfl fun c _ => ?_
    rw [Equiv.refl_apply, hcol]
    by_cases hcj : c = j
    · subst hcj
      rw [Function.update_self, if_pos rfl]
      ring
    · rw [Function.update_of_ne hcj, if_neg hcj]

/-- Adding `t` times column `i` to column `j` adds `t` times coefficient `j` to
coefficient `i`. -/
theorem IsMds.addColumn {G G' : Matrix (Fin n) (Fin k) F} (h : IsMds G) {i j : Fin k}
    (hij : i ≠ j) (t : F)
    (hcol : ∀ r c, G' r c = if c = j then G r j + t * G r i else G r c) : IsMds G' := by
  refine h.transport (Equiv.refl _) (fun v => v + Pi.single i (t * v j)) ?_ ?_
  · intro v hv
    have hvj : v j = 0 := by
      have hc := congrFun hv j
      rwa [Pi.add_apply, Pi.single_eq_of_ne hij.symm, add_zero] at hc
    rwa [hvj, mul_zero, Pi.single_zero, add_zero] at hv
  · intro v r hzero
    have hrow : G' r = G r + Pi.single j (t * G r i) := by
      funext c
      rw [hcol, Pi.add_apply]
      by_cases hcj : c = j
      · rw [if_pos hcj, hcj, Pi.single_eq_same]
      · rw [if_neg hcj, Pi.single_eq_of_ne hcj, add_zero]
    rw [mulVec, hrow, add_dotProduct, single_dotProduct] at hzero
    rw [Equiv.refl_apply, mulVec, dotProduct_add, dotProduct_single, ← hzero]
    ring

/-- Below a systematic part no entry is zero: with the other unit rows it would make a
unit message vanish `k` times. -/
theorem IsMds.systematic_ne {G : Matrix (Fin n) (Fin k) F} (h : IsMds G) (hkn : k ≤ n)
    (hsys : ∀ i c : Fin k, G (Fin.castLE hkn i) c = if c = i then 1 else 0)
    {r : Fin n} (hr : k ≤ (r : Nat)) (j : Fin k) : G r j ≠ 0 := by
  intro hzero
  let others := (univ.erase j).map (Fin.castLEEmb hkn)
  have hnot : r ∉ others := by
    intro hmem
    obtain ⟨i, _, rfl⟩ := mem_map.mp hmem
    exact absurd hr (by simp)
  have hcard : k ≤ #(insert r others) := by
    rw [card_insert_of_notMem hnot, card_map, card_erase_of_mem (mem_univ j), card_univ,
      Fintype.card_fin]
    have := j.pos
    omega
  have hcolumn : ∀ r', (G *ᵥ Pi.single j 1) r' = G r' j := fun r' => by
    rw [mulVec, dotProduct_single, mul_one]
  obtain ⟨r', hr', hne⟩ := h.exists_row_ne (v := Pi.single j 1) (by simp) hcard
  rw [hcolumn] at hne
  rcases mem_insert.mp hr' with rfl | hmem
  · exact hne hzero
  · obtain ⟨i, hi, rfl⟩ := mem_map.mp hmem
    exact hne ((hsys i j).trans (if_neg (ne_of_mem_erase hi).symm))

/-! ### Two parities -/

/-- Below the unit matrix a row of ones and a row of distinct points. A message of one
coefficient has no zero parity, one of two coefficients at most one. -/
theorem isMds_twoParities {G : Matrix (Fin (k + 2)) (Fin k) F} {a : Fin k → F}
    (ha : Function.Injective a) (ha0 : ∀ c, a c ≠ 0)
    (hsys : ∀ i c : Fin k, G (Fin.castAdd 2 i) c = if c = i then 1 else 0)
    (hones : ∀ c, G (Fin.natAdd k 0) c = 1) (hpoints : ∀ c, G (Fin.natAdd k 1) c = a c) :
    IsMds G := by
  classical
  intro v s hs hrows
  have hunit : ∀ i : Fin k, (G *ᵥ v) (Fin.castAdd 2 i) = v i := by
    intro i
    rw [mulVec, dotProduct, sum_eq_single i]
    · rw [hsys, if_pos rfl, one_mul]
    · intro c _ hc
      rw [hsys, if_neg hc, zero_mul]
    · intro hmem
      exact absurd (mem_univ i) hmem
  have hsum : (G *ᵥ v) (Fin.natAdd k 0) = ∑ c, v c := by
    simp only [mulVec, dotProduct, hones, one_mul]
  have hweighted : (G *ᵥ v) (Fin.natAdd k 1) = ∑ c, a c * v c := by
    simp only [mulVec, dotProduct, hpoints]
  let zeros : Finset (Fin k) := univ.filter fun c => v c = 0
  let rest : Finset (Fin k) := univ.filter fun c => ¬ v c = 0
  let parities : Finset (Fin 2) := univ.filter fun j => Fin.natAdd k j ∈ s
  have hsplit : zeros.card + rest.card = k := by
    rw [card_filter_add_card_filter_not, card_univ, Fintype.card_fin]
  have hsub : s ⊆ zeros.map (Fin.castAddEmb 2) ∪ parities.map (Fin.natAddEmb k) := by
    intro r hr
    induction r using Fin.addCases with
    | left i =>
      refine mem_union_left _ (mem_map.mpr ⟨i, mem_filter.mpr ⟨mem_univ i, ?_⟩, rfl⟩)
      rw [← hunit i]
      exact hrows _ hr
    | right j =>
      exact mem_union_right _ (mem_map.mpr ⟨j, mem_filter.mpr ⟨mem_univ j, hr⟩, rfl⟩)
  have hcard : rest.card ≤ parities.card := by
    have hle := (card_le_card hsub).trans (card_union_le _ _)
    rw [card_map, card_map] at hle
    omega
  have houtside : ∀ (f : Fin k → F), ∑ c, f c * v c = ∑ c ∈ rest, f c * v c := by
    intro f
    refine (sum_filter_of_ne ?_).symm
    intro c _ hne hzero
    rw [hzero, mul_zero] at hne
    exact hne rfl
  have hrest : ∀ c ∈ rest, v c ≠ 0 := fun c hc => (mem_filter.mp hc).2
  have hparity : ∀ j ∈ parities, (G *ᵥ v) (Fin.natAdd k j) = 0 := fun j hj =>
    hrows _ (mem_filter.mp hj).2
  have hsmall : parities.card ≤ 2 := by
    simpa using card_le_univ parities
  by_contra hne
  have hpos : rest.card ≠ 0 := by
    intro h0
    rw [card_eq_zero, filter_eq_empty_iff] at h0
    exact hne (funext fun c => not_not.mp (h0 (mem_univ c)))
  have hcases : rest.card = 1 ∨ rest.card = 2 ∧ parities.card = 2 := by omega
  rcases hcases with hone | ⟨htwo, hboth⟩
  · obtain ⟨i, hi⟩ := card_eq_one.mp hone
    have hvi : v i ≠ 0 := hrest i (hi ▸ mem_singleton_self i)
    obtain ⟨j, hj⟩ := card_pos.mp (by omega : 0 < parities.card)
    have hzero := hparity j hj
    fin_cases j
    · have h := houtside fun _ => 1
      simp only [one_mul, hi, sum_singleton] at h
      exact hvi (h.symm.trans (hsum.symm.trans hzero))
    · have h := houtside a
      rw [hi, sum_singleton] at h
      exact mul_ne_zero (ha0 i) hvi (h.symm.trans (hweighted.symm.trans hzero))
  · have hall : parities = univ := (card_eq_iff_eq_univ _).mp (by simpa using hboth)
    obtain ⟨i, j, hij, hpair⟩ := card_eq_two.mp htwo
    have hvi : v i ≠ 0 := hrest i (hpair ▸ mem_insert_self i _)
    have hzero₀ := hparity 0 (hall ▸ mem_univ _)
    have hzero₁ := hparity 1 (hall ▸ mem_univ _)
    have h₀ := houtside fun _ => 1
    have h₁ := houtside a
    simp only [one_mul, hpair, sum_pair hij] at h₀
    rw [hpair, sum_pair hij] at h₁
    have hs₀ : v i + v j = 0 := h₀.symm.trans (hsum.symm.trans hzero₀)
    have hs₁ : a i * v i + a j * v j = 0 := h₁.symm.trans (hweighted.symm.trans hzero₁)
    have hprod : (a i - a j) * v i = 0 := by linear_combination hs₁ - a j * hs₀
    rcases mul_eq_zero.mp hprod with hdiff | hv
    · exact hij (ha (sub_eq_zero.mp hdiff))
    · exact hvi hv

/-! ### The extended Vandermonde matrix -/

/-- The polynomial a message spells. -/
noncomputable def messagePoly (v : Fin k → F) : F[X] := ∑ c, C (v c) * X ^ (c : Nat)

theorem messagePoly_coeff (v : Fin k → F) (c : Fin k) : (messagePoly v).coeff c = v c := by
  rw [messagePoly, finsetSum_coeff, sum_eq_single c]
  · simp
  · intro b _ hb
    simp [coeff_X_pow, Fin.val_ne_of_ne hb.symm]
  · intro hmem
    exact absurd (mem_univ c) hmem

theorem messagePoly_degree_lt (v : Fin k → F) : (messagePoly v).degree < k :=
  degree_sum_fin_lt v

theorem messagePoly_eval (v : Fin k → F) (a : F) :
    (messagePoly v).eval a = ∑ c : Fin k, a ^ (c : Nat) * v c := by
  rw [messagePoly, eval_finsetSum]
  exact sum_congr rfl fun c _ => by rw [eval_mul, eval_C, eval_X_pow, mul_comm]

theorem messagePoly_eq_zero {v : Fin k → F} (h : messagePoly v = 0) : v = 0 := by
  funext c
  rw [← messagePoly_coeff v c, h, coeff_zero, Pi.zero_apply]

/-- Without the last coefficient the degree drops. -/
theorem messagePoly_degree_lt_pred {v : Fin (k + 1) → F} (hlast : v (Fin.last k) = 0) :
    (messagePoly v).degree < k := by
  rw [degree_lt_iff_coeff_zero]
  intro m hm
  rcases Nat.eq_or_lt_of_le hm with rfl | hlt
  · rw [← hlast, ← messagePoly_coeff v (Fin.last k), Fin.val_last]
  · exact coeff_eq_zero_of_degree_lt
      ((messagePoly_degree_lt v).trans_le (by exact_mod_cast hlt))

/-- Row `r` holds the powers of `a r`, the last row the unit vector of the last column. -/
theorem isMds_extendedVandermonde {G : Matrix (Fin (n + 1)) (Fin (k + 1)) F} {a : Fin n → F}
    (ha : Function.Injective a) (hpow : ∀ r c, G r.castSucc c = a r ^ (c : Nat))
    (hlast : ∀ c, G (Fin.last n) c = if c = Fin.last k then 1 else 0) : IsMds G := by
  intro v s hs hrows
  have heval : ∀ r : Fin n, r.castSucc ∈ s → (messagePoly v).eval (a r) = 0 := by
    intro r hr
    rw [messagePoly_eval, ← hrows _ hr, mulVec, dotProduct]
    exact sum_congr rfl fun c _ => by rw [hpow]
  let t : Finset (Fin n) := univ.filter fun r => r.castSucc ∈ s
  have hroots : ∀ x ∈ t.map ⟨a, ha⟩, (messagePoly v).eval x = 0 := by
    intro x hx
    obtain ⟨r, hr, rfl⟩ := mem_map.mp hx
    exact heval r (mem_filter.mp hr).2
  apply messagePoly_eq_zero
  by_cases hmem : Fin.last n ∈ s
  · -- the last coefficient is zero, and all but one of the rows are roots
    have hv : v (Fin.last k) = 0 := by
      rw [← hrows _ hmem, mulVec, dotProduct, sum_eq_single (Fin.last k)]
      · rw [hlast, if_pos rfl, one_mul]
      · intro c _ hc
        rw [hlast, if_neg hc, zero_mul]
      · intro habs
        exact absurd (mem_univ _) habs
    have hsub : s ⊆ insert (Fin.last n) (t.map Fin.castSuccEmb) := by
      intro r hr
      induction r using Fin.lastCases with
      | last => exact mem_insert_self _ _
      | cast r =>
        exact mem_insert_of_mem (mem_map.mpr ⟨r, mem_filter.mpr ⟨mem_univ r, hr⟩, rfl⟩)
    have hk : k ≤ #t := by
      have hle := (card_le_card hsub).trans (card_insert_le _ _)
      rw [card_map] at hle
      omega
    refine Polynomial.eq_zero_of_degree_lt_of_eval_finset_eq_zero (t.map ⟨a, ha⟩) ?_ hroots
    exact (messagePoly_degree_lt_pred hv).trans_le (by rw [card_map]; exact_mod_cast hk)
  · have hsub : s ⊆ t.map Fin.castSuccEmb := by
      intro r hr
      induction r using Fin.lastCases with
      | last => exact absurd hr hmem
      | cast r => exact mem_map.mpr ⟨r, mem_filter.mpr ⟨mem_univ r, hr⟩, rfl⟩
    have hk : k + 1 ≤ #t := by
      have hle := card_le_card hsub
      rw [card_map] at hle
      omega
    refine Polynomial.eq_zero_of_degree_lt_of_eval_finset_eq_zero (t.map ⟨a, ha⟩) ?_ hroots
    exact (messagePoly_degree_lt v).trans_le (by rw [card_map]; exact_mod_cast hk)

end Mds
