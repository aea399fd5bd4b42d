import Mathlib.RingTheory.AdjoinRoot
import Mathlib.Algebra.Field.ZMod
import Mathlib.Algebra.CharP.Two
import Mathlib.GroupTheory.OrderOfElement

/-!
Words as residues: `BitVec w` read as the polynomials of degree below `w` over
GF(2), modulo `X ^ w + poly`.

* `mulX` and `mul` are the shift-and-reduce operations a program performs.
* `elem` sends a word to its residue in `AdjoinRoot (modulus poly)`. It is a
  bijection (`elem_bijective`), carries `^^^` to `+` (`elem_xor`), `mulX` to the
  multiplication by the root (`elem_mulX`) and `mul` to `*` (`elem_mul`).
* `isUnit_of_primitive`: when `X` has order `2 ^ w - 1` every nonzero residue
  is a power of `X`, so the quotient is a field (`irreducible_modulus`). The
  order is checked on words, through `pow`.
-/

namespace BinaryField

open Polynomial Finset

variable {w : Nat}

/-- The coefficient of `X ^ i` in a word. -/
def coeff (y : BitVec w) (i : Nat) : ZMod 2 := if y.getLsbD i then 1 else 0

theorem coeff_xor (x y : BitVec w) (i : Nat) :
    coeff (x ^^^ y) i = coeff x i + coeff y i := by
  simp only [coeff, BitVec.getLsbD_xor]
  cases x.getLsbD i <;> cases y.getLsbD i <;> decide

@[simp] theorem coeff_zero (i : Nat) : coeff (0#w) i = 0 := by
  simp [coeff]

theorem coeff_of_ge {y : BitVec w} {i : Nat} (h : w ≤ i) : coeff y i = 0 := by
  simp [coeff, BitVec.getLsbD_of_ge y i h]

/-- The polynomial a word spells. -/
noncomputable def toPoly (y : BitVec w) : (ZMod 2)[X] :=
  ∑ i ∈ range w, C (coeff y i) * X ^ i

theorem toPoly_coeff (y : BitVec w) (i : Nat) : (toPoly y).coeff i = coeff y i := by
  by_cases h : i < w
  · simp [toPoly, coeff_X_pow, h]
  · rw [coeff_of_ge (Nat.le_of_not_lt h)]
    simp [toPoly, coeff_X_pow, h]

theorem toPoly_xor (x y : BitVec w) : toPoly (x ^^^ y) = toPoly x + toPoly y := by
  ext i
  simp only [toPoly_coeff, coeff_add, coeff_xor]

theorem toPoly_degree_lt (y : BitVec w) : (toPoly y).degree < w := by
  rw [degree_lt_iff_coeff_zero]
  intro i hi
  rw [toPoly_coeff, coeff_of_ge hi]

theorem toPoly_injective : Function.Injective (toPoly : BitVec w → (ZMod 2)[X]) := by
  intro x y h
  apply BitVec.eq_of_getLsbD_eq
  intro i _
  have hc : coeff x i = coeff y i := by rw [← toPoly_coeff, ← toPoly_coeff, h]
  unfold coeff at hc
  cases hx : x.getLsbD i <;> cases hy : y.getLsbD i <;> simp_all

/-- Every polynomial of degree below `w` is spelt by a word. -/
theorem exists_toPoly_eq {f : (ZMod 2)[X]} (h : f.degree < w) :
    ∃ y : BitVec w, toPoly y = f := by
  let bits := (List.range w).map fun i => decide (f.coeff i = 1)
  refine ⟨(BitVec.ofBoolListLE bits).setWidth w, ?_⟩
  ext i
  rw [toPoly_coeff]
  by_cases hi : i < w
  · have hbit : ∀ c : ZMod 2, (if c = 1 then (1 : ZMod 2) else 0) = c := by decide
    rw [coeff, BitVec.getLsbD_setWidth, BitVec.getLsbD_ofBoolListLE]
    simp [bits, hi, hbit]
  · have hi := Nat.le_of_not_lt hi
    rw [coeff_of_ge hi, coeff_eq_zero_of_degree_lt (h.trans_le (by exact_mod_cast hi))]

/-! ### The modulus and the quotient -/

variable (poly : BitVec w)

/-- `X ^ w` plus the low coefficients `poly`. -/
noncomputable def modulus : (ZMod 2)[X] := X ^ w + toPoly poly

theorem modulus_monic : (modulus poly).Monic :=
  monic_X_pow_add (toPoly_degree_lt poly)

theorem modulus_degree : (modulus poly).degree = w := by
  rw [modulus, degree_add_eq_left_of_degree_lt] <;> rw [degree_X_pow]
  exact toPoly_degree_lt poly

/-- The residue a word stands for. -/
noncomputable def elem (y : BitVec w) : AdjoinRoot (modulus poly) :=
  AdjoinRoot.mk (modulus poly) (toPoly y)

theorem elem_xor (x y : BitVec w) : elem poly (x ^^^ y) = elem poly x + elem poly y := by
  simp [elem, toPoly_xor]

@[simp] theorem elem_zero : elem poly (0#w) = 0 := by
  have h : toPoly (0#w) = 0 := by ext i; simp [toPoly_coeff]
  rw [elem, h, map_zero]

theorem elem_injective : Function.Injective (elem poly) := by
  intro x y h
  rw [elem, elem, AdjoinRoot.mk_eq_mk] at h
  apply toPoly_injective
  by_contra hne
  have hlt : (toPoly x - toPoly y).degree < (modulus poly).degree := by
    rw [modulus_degree]
    exact (degree_sub_le _ _).trans_lt
      (max_lt (toPoly_degree_lt x) (toPoly_degree_lt y))
  exact (modulus_monic poly).not_dvd_of_degree_lt (sub_ne_zero.mpr hne) hlt h

theorem elem_surjective : Function.Surjective (elem poly) := by
  intro r
  obtain ⟨f, rfl⟩ := AdjoinRoot.mk_surjective r
  have hlt : (f %ₘ modulus poly).degree < w := by
    rw [← modulus_degree poly]
    exact degree_modByMonic_lt f (modulus_monic poly)
  obtain ⟨y, hy⟩ := exists_toPoly_eq hlt
  refine ⟨y, ?_⟩
  rw [elem, hy, AdjoinRoot.mk_eq_mk]
  have hdvd : modulus poly ∣ f - f %ₘ modulus poly :=
    ⟨f /ₘ modulus poly, by rw [sub_eq_iff_eq_add', modByMonic_add_div]⟩
  exact (dvd_sub_comm).mp hdvd

theorem elem_bijective : Function.Bijective (elem poly) :=
  ⟨elem_injective poly, elem_surjective poly⟩

@[simp] theorem elem_eq_zero_iff {y : BitVec w} : elem poly y = 0 ↔ y = 0#w := by
  rw [← elem_zero poly, (elem_injective poly).eq_iff]

/-! ### Shift-and-reduce multiplication -/

/-- Multiplication by `X`: shift left, and reduce when a bit falls out. -/
def mulX (y : BitVec w) : BitVec w := if y.msb then y <<< 1 ^^^ poly else y <<< 1

/-- Multiplication by `X ^ n`. -/
def mulXPow (n : Nat) (y : BitVec w) : BitVec w := (mulX poly)^[n] y

/-- The exclusive or of `X ^ i * y` over the set bits `i` of `x`. -/
def mul (x y : BitVec w) : BitVec w :=
  Nat.fold w (fun i _ acc => if x.getLsbD i then acc ^^^ mulXPow poly i y else acc) 0#w

theorem coeff_shiftLeft_succ (y : BitVec w) {i : Nat} (h : i + 1 < w) :
    coeff (y <<< 1) (i + 1) = coeff y i := by
  rw [coeff, coeff, BitVec.getLsbD_shiftLeft]
  simp [h]

/-- Shifting a word left multiplies by `X` and drops the bit that falls out. -/
theorem toPoly_shiftLeft (y : BitVec w) :
    toPoly (y <<< 1) + C (if y.msb then 1 else 0) * X ^ w = X * toPoly y := by
  rcases w with _ | w
  · simp [toPoly, BitVec.msb, BitVec.getMsbD]
  have hmsb : (if y.msb then (1 : ZMod 2) else 0) = coeff y w := by
    rw [coeff, BitVec.msb_eq_getLsbD_last]
    simp
  have hlow : coeff (y <<< 1) 0 = 0 := by simp [coeff]
  rw [hmsb, toPoly, sum_range_succ', hlow, toPoly, sum_range_succ, mul_add, mul_sum]
  have hsum : ∑ i ∈ range w, C (coeff (y <<< 1) (i + 1)) * X ^ (i + 1)
      = ∑ i ∈ range w, X * (C (coeff y i) * X ^ i) := by
    apply sum_congr rfl
    intro i hi
    rw [coeff_shiftLeft_succ y (by have := mem_range.mp hi; omega)]
    ring
  rw [hsum]
  simp only [map_zero, zero_mul, add_zero]
  ring

theorem root_pow_width : (AdjoinRoot.root (modulus poly)) ^ w = elem poly poly := by
  have h : AdjoinRoot.mk (modulus poly) (X ^ w + toPoly poly) = 0 := AdjoinRoot.mk_self
  rw [map_add, map_pow, AdjoinRoot.mk_X] at h
  have h2 : elem poly poly + elem poly poly = 0 := by
    rw [← elem_xor, BitVec.xor_self]; exact elem_zero poly
  exact add_right_cancel (h.trans h2.symm)

theorem elem_mulX (y : BitVec w) :
    elem poly (mulX poly y) = AdjoinRoot.root (modulus poly) * elem poly y := by
  have hshift := congrArg (AdjoinRoot.mk (modulus poly)) (toPoly_shiftLeft y)
  rw [map_add, map_mul, map_mul, map_pow, AdjoinRoot.mk_X, root_pow_width] at hshift
  change elem poly (y <<< 1) + _ = _ * elem poly y at hshift
  rw [← hshift, mulX]
  cases y.msb with
  | false => simp
  | true => simp [elem_xor]

theorem elem_mulXPow (n : Nat) (y : BitVec w) :
    elem poly (mulXPow poly n y) = AdjoinRoot.root (modulus poly) ^ n * elem poly y := by
  induction n with
  | zero => simp [mulXPow]
  | succ n ih =>
    have hstep : mulXPow poly (n + 1) y = mulX poly (mulXPow poly n y) :=
      Function.iterate_succ_apply' _ _ _
    rw [hstep, elem_mulX, ih, pow_succ']
    ring

theorem elem_eq_sum (x : BitVec w) :
    elem poly x = ∑ i ∈ range w,
      if x.getLsbD i then AdjoinRoot.root (modulus poly) ^ i else 0 := by
  rw [elem, toPoly, map_sum]
  apply sum_congr rfl
  intro i _
  rw [map_mul, map_pow, AdjoinRoot.mk_X, coeff]
  cases x.getLsbD i <;> simp

theorem elem_mul (x y : BitVec w) :
    elem poly (mul poly x y) = elem poly x * elem poly y := by
  have hpart : ∀ n (hn : n ≤ w),
      elem poly (Nat.fold n (fun i _ acc =>
        if x.getLsbD i then acc ^^^ mulXPow poly i y else acc) 0#w)
      = (∑ i ∈ range n, if x.getLsbD i then AdjoinRoot.root (modulus poly) ^ i else 0)
          * elem poly y := by
    intro n
    induction n with
    | zero => intro _; simp
    | succ n ih =>
      intro hn
      rw [Nat.fold_succ, sum_range_succ, add_mul, ← ih (by omega)]
      cases x.getLsbD n with
      | false => simp
      | true => simp [elem_xor, elem_mulXPow]
  rw [mul, hpart w le_rfl, ← elem_eq_sum]

/-- A word that stands for a product spells the remainder of the product. -/
theorem toPoly_eq_modByMonic {x y z : BitVec w} (h : elem poly z = elem poly x * elem poly y) :
    toPoly z = (toPoly x * toPoly y) %ₘ modulus poly := by
  rw [elem, elem, elem, ← map_mul, AdjoinRoot.mk_eq_mk] at h
  have hlt : (toPoly z).degree < (modulus poly).degree := by
    rw [modulus_degree]
    exact toPoly_degree_lt z
  calc toPoly z = toPoly z %ₘ modulus poly :=
        ((modByMonic_eq_self_iff (modulus_monic poly)).mpr hlt).symm
    _ = (toPoly x * toPoly y) %ₘ modulus poly := modByMonic_eq_of_dvd_sub (modulus_monic poly) h

/-! ### A primitive modulus gives a field

The order of `X` is a statement about words: `pow` computes the word of a power
of `X`, by squaring along the bits of the exponent. -/

/-- `X ^ n`, the bits of `n` given from the highest down. -/
def pow (bits : List Bool) : BitVec w :=
  bits.foldl (fun acc b =>
    let sq := mul poly acc acc
    if b then mulX poly sq else sq) 1#w

/-- The number a list of bits spells, from the highest down. -/
def exponent (bits : List Bool) : Nat :=
  bits.foldl (fun n b => 2 * n + b.toNat) 0

theorem elem_one (hw : 0 < w) : elem poly 1#w = 1 := by
  have h : toPoly (1#w) = 1 := by
    ext i
    rw [toPoly_coeff, coeff, Polynomial.coeff_one, BitVec.getLsbD_one]
    by_cases hi : i = 0 <;> simp [hi, hw]
  rw [elem, h, map_one]

theorem elem_pow (hw : 0 < w) (bits : List Bool) :
    elem poly (pow poly bits) = AdjoinRoot.root (modulus poly) ^ exponent bits := by
  induction bits using List.reverseRecOn with
  | nil => simpa [pow, exponent] using elem_one poly hw
  | append_singleton bits b ih =>
    simp only [pow, exponent, List.foldl_append, List.foldl_cons, List.foldl_nil] at ih ⊢
    cases b with
    | false => simp [elem_mul, ih, ← pow_add, two_mul]
    | true => simp [elem_mul, elem_mulX, ih, ← pow_add, two_mul, pow_succ']

/-- Words and residues correspond. -/
noncomputable def wordEquiv : Fin (2 ^ w) ≃ AdjoinRoot (modulus poly) :=
  Equiv.ofBijective (fun i => elem poly ⟨i⟩)
    ((elem_bijective poly).comp
      ⟨fun _ _ h => congrArg BitVec.toFin h, fun y => ⟨y.toFin, rfl⟩⟩)

instance : Finite (AdjoinRoot (modulus poly)) := Finite.of_equiv _ (wordEquiv poly)

theorem card_quotient : Nat.card (AdjoinRoot (modulus poly)) = 2 ^ w := by
  rw [← Nat.card_congr (wordEquiv poly), Nat.card_fin]

/-- If `X` has order `2 ^ w - 1`, every nonzero residue is a unit: the powers of
`X` already exhaust them. -/
theorem isUnit_of_primitive (hw : 2 ≤ w)
    (horder : orderOf (AdjoinRoot.root (modulus poly)) = 2 ^ w - 1)
    {r : AdjoinRoot (modulus poly)} (hr : r ≠ 0) : IsUnit r := by
  have hpow : 2 ^ 2 ≤ 2 ^ w := Nat.pow_le_pow_right (by decide) hw
  have : Nontrivial (AdjoinRoot (modulus poly)) := by
    rw [← Finite.one_lt_card_iff_nontrivial, card_quotient]
    omega
  have hroot : IsUnit (AdjoinRoot.root (modulus poly)) :=
    IsUnit.of_pow_eq_one (pow_orderOf_eq_one _) (by rw [horder]; omega)
  obtain ⟨u, hu⟩ := hroot
  have hunits : 2 ^ w - 1 ≤ Nat.card (AdjoinRoot (modulus poly))ˣ := by
    rw [← horder, ← hu, orderOf_units]
    exact orderOf_le_card
  have hnonzero : Nat.card {r : AdjoinRoot (modulus poly) // r ≠ 0} = 2 ^ w - 1 := by
    have := Nat.card_congr (Equiv.optionSubtypeNe (0 : AdjoinRoot (modulus poly)))
    rw [Finite.card_option, card_quotient] at this
    omega
  let toNonzero : (AdjoinRoot (modulus poly))ˣ → {r : AdjoinRoot (modulus poly) // r ≠ 0} :=
    fun v => ⟨v, v.ne_zero⟩
  have hinj : Function.Injective toNonzero := fun v v' h =>
    Units.ext (congrArg Subtype.val h)
  have hbij := hinj.bijective_of_nat_card_le (by rw [hnonzero]; exact hunits)
  obtain ⟨v, hv⟩ := hbij.surjective ⟨r, hr⟩
  exact ⟨v, congrArg Subtype.val hv⟩

/-- A modulus whose `X` is primitive is irreducible. -/
theorem irreducible_modulus (hw : 2 ≤ w)
    (horder : orderOf (AdjoinRoot.root (modulus poly)) = 2 ^ w - 1) :
    Irreducible (modulus poly) := by
  have hpow : 2 ^ 1 < 2 ^ w := Nat.pow_lt_pow_right (by decide) (by omega)
  have hfield : IsField (AdjoinRoot (modulus poly)) :=
    { exists_pair_ne := by
        have : Nontrivial (AdjoinRoot (modulus poly)) := by
          rw [← Finite.one_lt_card_iff_nontrivial, card_quotient]
          omega
        exact exists_pair_ne _
      mul_comm := mul_comm
      mul_inv_cancel := fun hr => (isUnit_of_primitive poly hw horder hr).exists_right_inv }
  have hmax : (Ideal.span {modulus poly}).IsMaximal :=
    (Ideal.Quotient.maximal_ideal_iff_isField_quotient _).mpr hfield
  exact ((Ideal.span_singleton_prime (modulus_monic poly).ne_zero).mp hmax.isPrime).irreducible

end BinaryField
