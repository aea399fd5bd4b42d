import EbnAnchor.Core.Galois
import Mathlib.Algebra.CharP.Algebra
import Mathlib.Tactic.NormNum.Prime
import Mathlib.Tactic.LinearCombination

/-!
`galois.c` computes in the field GF(2)[X] / (X^32 + X^22 + X^2 + X + 1).

`gf` sends a word to its residue; it is a bijection that carries `^^^` to `+`.
The modulus is irreducible because `X` has order `2^32 - 1`
(`orderOf_root`), so the quotient `GF` is a field and every division the
coding matrix needs is defined. `gf_galoisShiftMultiply` and
`gf_galoisSingleMultiply` say that the two multiplications are the product of
residues.
-/

namespace EbnAnchor.Core

open BinaryField Loop

/-! ### The field -/

/-- GF(2)[X] modulo `X^32 + X^22 + X^2 + X + 1`. -/
abbrev GF : Type := AdjoinRoot (modulus primPoly)

/-- The bits of an exponent below `2^32`, from the highest down. -/
def exponentBits (n : Nat) : List Bool := (List.range 32).reverse.map n.testBit

theorem root_pow_ne_one {n : Nat} (hbits : exponent (exponentBits n) = n)
    (hpow : BinaryField.pow primPoly (exponentBits n) ≠ 1#32) :
    AdjoinRoot.root (modulus primPoly) ^ n ≠ 1 := by
  intro h
  rw [← hbits, ← elem_pow primPoly (by decide), ← elem_one primPoly (by decide)] at h
  exact hpow (elem_injective primPoly h)

theorem orderOf_root : orderOf (AdjoinRoot.root (modulus primPoly)) = 2 ^ 32 - 1 := by
  refine orderOf_eq_of_pow_and_pow_div_prime (by decide) ?_ ?_
  · have hbits : exponent (exponentBits (2 ^ 32 - 1)) = 2 ^ 32 - 1 := by decide
    rw [← hbits, ← elem_pow primPoly (by decide), ← elem_one primPoly (by decide)]
    exact congrArg _ (by decide +kernel)
  · intro p hp hdvd
    have hfactors : 2 ^ 32 - 1 = 3 * 5 * 17 * 257 * 65537 := by norm_num
    rw [hfactors, hp.dvd_mul, hp.dvd_mul, hp.dvd_mul, hp.dvd_mul,
      Nat.prime_dvd_prime_iff_eq hp (by norm_num), Nat.prime_dvd_prime_iff_eq hp (by norm_num),
      Nat.prime_dvd_prime_iff_eq hp (by norm_num), Nat.prime_dvd_prime_iff_eq hp (by norm_num),
      Nat.prime_dvd_prime_iff_eq hp (by norm_num)] at hdvd
    rcases hdvd with (((rfl | rfl) | rfl) | rfl) | rfl <;>
      exact root_pow_ne_one (by decide) (by decide +kernel)

instance : Fact (Irreducible (modulus primPoly)) :=
  ⟨irreducible_modulus primPoly (by decide) orderOf_root⟩

/-- The residue of a word. -/
noncomputable def gf (x : Word) : GF := elem primPoly x

theorem gf_injective : Function.Injective gf := elem_injective primPoly

theorem gf_xor (x y : Word) : gf (x ^^^ y) = gf x + gf y := elem_xor primPoly x y

@[simp] theorem gf_zero : gf 0#32 = 0 := elem_zero primPoly

@[simp] theorem gf_one : gf 1#32 = 1 := elem_one primPoly (by decide)

/-- `gf_zero`, for the literal of the source. -/
theorem gf_ofNat_zero : gf 0 = 0 := gf_zero

theorem gf_ofNat_one : gf 1 = 1 := gf_one

theorem gf_eq_zero_iff {x : Word} : gf x = 0 ↔ x = 0#32 := elem_eq_zero_iff primPoly

theorem gf_ne_zero {x : Word} (h : x ≠ 0#32) : gf x ≠ 0 := fun h0 => h (gf_eq_zero_iff.mp h0)

instance : CharP GF 2 :=
  charP_of_injective_algebraMap (FaithfulSMul.algebraMap_injective (ZMod 2) GF) 2

/-- The residue of `X`. -/
noncomputable abbrev gfX : GF := AdjoinRoot.root (modulus primPoly)

theorem gf_eq_sum (x : Word) :
    gf x = ∑ i ∈ Finset.range 32, if x.getLsbD i then gfX ^ i else 0 :=
  elem_eq_sum primPoly x

/-! ### Shift multiplication -/

/-- The C test of bit `i`. -/
theorem and_bit_eq_zero_iff (x : Word) {i : Nat} (hi : i < 32) :
    x &&& (1#32 <<< i) = 0 ↔ x.getLsbD i = false := by
  rw [← BitVec.twoPow_eq, BitVec.and_twoPow]
  cases x.getLsbD i with
  | false => simp
  | true =>
    have hne : BitVec.twoPow 32 i ≠ 0 := fun h => by
      have hbit := congrArg (fun z => z.getLsbD i) h
      simp [hi] at hbit
    simpa using hne

theorem scratchStep_eq (y : Word) : scratchStep y = mulX primPoly y := by
  have hmsb : y &&& (1#32 <<< 31) ≠ 0 ↔ y.msb = true := by
    rw [ne_eq, and_bit_eq_zero_iff y (by decide), BitVec.msb_eq_getLsbD_last]
    simp
  have hones : nwm1 = BitVec.allOnes 32 := rfl
  have hmask : ∀ z : Word, z &&& nwm1 = z := fun z => by
    rw [hones, BitVec.and_allOnes]
  unfold scratchStep mulX
  by_cases h : y.msb
  · rw [if_pos (hmsb.mpr h), if_pos h, hmask]
  · rw [if_neg (mt hmsb.mp h), if_neg h]

theorem scratch_eq (y : Word) (i : Nat) : scratch y i = mulXPow primPoly i y := by
  have hstep : scratchStep = mulX primPoly := funext scratchStep_eq
  rw [scratch, mulXPow, hstep]

/-- The inner loop of `galois_shift_multiply` adds `scratch[i]` one bit at a time. -/
theorem addScratch_eq (prod s : Word) : addScratch prod s = prod ^^^ s := by
  have h := forUp_invariant (a := 0) (n := 32) (s := (prod, 1#32))
    (f := fun _ (p : Word × Word) => (p.1 ^^^ (p.2 &&& s), p.2 <<< 1))
    (P := fun k p => p.2 = 1#32 <<< k ∧
      ∀ b < 32, p.1.getLsbD b = (prod.getLsbD b ^^ (decide (b < k) && s.getLsbD b)))
    ⟨by simp, by simp⟩
    (by
      rintro k ⟨p, j⟩ - - ⟨hj, hp⟩
      simp only at hj hp ⊢
      subst hj
      refine ⟨by rw [← BitVec.shiftLeft_add], ?_⟩
      intro b hb
      rw [BitVec.getLsbD_xor, hp b hb, BitVec.getLsbD_and, ← BitVec.twoPow_eq,
        BitVec.getLsbD_twoPow]
      rcases Nat.lt_trichotomy b k with hlt | rfl | hgt
      · have hnext : b < k + 1 := Nat.lt_succ_of_lt hlt
        simp [hlt, hnext, (Nat.ne_of_lt hlt).symm]
      · simp [hb]
      · have hnext : ¬ b < k + 1 := Nat.not_lt.mpr hgt
        simp [Nat.lt_asymm hgt, hnext, Nat.ne_of_lt hgt])
  apply BitVec.eq_of_getLsbD_eq
  intro b hb
  rw [addScratch, h.2 b hb, BitVec.getLsbD_xor]
  simp [hb]

theorem galoisShiftMultiply_eq (x y : Word) : galoisShiftMultiply x y = mul primPoly x y := by
  unfold galoisShiftMultiply mul forUp
  refine congrArg (fun body => Nat.fold 32 body 0#32) ?_
  funext i hi prod
  have htest : 1#32 <<< i &&& x ≠ 0 ↔ x.getLsbD i = true := by
    rw [BitVec.and_comm, ne_eq, and_bit_eq_zero_iff x hi, Bool.not_eq_false]
  simp only [Nat.zero_add, htest, addScratch_eq, scratch_eq]

theorem gf_galoisShiftMultiply (x y : Word) :
    gf (galoisShiftMultiply x y) = gf x * gf y := by
  rw [galoisShiftMultiply_eq]
  exact elem_mul primPoly x y

/-! ### Split multiplication -/

/-- A shift that drops no bit multiplies by a power of `X`. -/
theorem gf_shiftLeft {y : Word} {n : Nat} (hn : n ≤ 32) (hy : y.toNat < 2 ^ (32 - n)) :
    gf (y <<< n) = gfX ^ n * gf y := by
  induction n with
  | zero => simp
  | succ n ih =>
    have hlt : y.toNat * 2 ^ n < 2 ^ 31 := by
      calc y.toNat * 2 ^ n < 2 ^ (32 - (n + 1)) * 2 ^ n :=
            Nat.mul_lt_mul_of_pos_right hy (by positivity)
        _ = 2 ^ 31 := by rw [← pow_add]; congr 1; omega
    have hmsb : (y <<< n).msb = false := by
      rw [BitVec.msb_eq_decide, BitVec.toNat_shiftLeft, Nat.shiftLeft_eq,
        Nat.mod_eq_of_lt (by omega)]
      simpa using hlt
    have hstep : mulX primPoly (y <<< n) = y <<< (n + 1) := by
      rw [mulX, hmsb, BitVec.shiftLeft_add]
      simp
    have hy' : y.toNat < 2 ^ (32 - n) :=
      hy.trans_le (Nat.pow_le_pow_right (by decide) (by omega))
    rw [gf, ← hstep, elem_mulX, ← gf, ih (by omega) hy', pow_succ']
    ring

/-- Byte `i` of a word, as the split multiplication takes it. -/
def byteOf (x : Word) (i : Nat) : Word := (x.sshiftRight (8 * i)) &&& 255

theorem byteOf_toNat_lt (x : Word) (i : Nat) : (byteOf x i).toNat < 2 ^ 8 := by
  rw [byteOf, BitVec.toNat_and]
  exact Nat.and_lt_two_pow _ (by decide)

theorem getLsbD_byteMask (b : Nat) : (255 : Word).getLsbD b = decide (b < 8) := by
  have h : (255 : Word) = (BitVec.allOnes 8).setWidth 32 := by decide
  rw [h, BitVec.getLsbD_setWidth, BitVec.getLsbD_allOnes]
  by_cases hb : b < 8
  · simp [hb]
    omega
  · simp [hb]

theorem getLsbD_byteOf (x : Word) {i : Nat} (hi : i < 4) (b : Nat) :
    (byteOf x i).getLsbD b = (decide (b < 8) && x.getLsbD (8 * i + b)) := by
  rw [byteOf, BitVec.getLsbD_and, getLsbD_byteMask, BitVec.getLsbD_sshiftRight]
  by_cases hb : b < 8
  · rw [if_pos (by omega)]
    have hbit : ¬ 32 ≤ b := by omega
    simp [hb, hbit]
  · simp [hb]

/-- A byte in place holds eight bits of the word. -/
theorem getLsbD_byteOf_shiftLeft (x : Word) {i b : Nat} (hi : i < 4) (hb : b < 32) :
    (byteOf x i <<< (8 * i)).getLsbD b =
      (decide (8 * i ≤ b ∧ b < 8 * i + 8) && x.getLsbD b) := by
  rw [BitVec.getLsbD_shiftLeft, getLsbD_byteOf x hi, decide_eq_true hb, Bool.true_and]
  by_cases hle : 8 * i ≤ b
  · have hpos : 8 * i + (b - 8 * i) = b := Nat.add_sub_cancel' hle
    have hwidth : b - 8 * i < 8 ↔ b < 8 * i + 8 := Nat.sub_lt_iff_lt_add' hle
    simp [hpos, hwidth, hle]
  · have hlt : b < 8 * i := Nat.lt_of_not_le hle
    simp [hle, hlt]

/-- A word is the exclusive or of its bytes in place. -/
theorem eq_xor_bytes (x : Word) :
    x = byteOf x 0 <<< 0 ^^^ byteOf x 1 <<< 8 ^^^ byteOf x 2 <<< 16 ^^^ byteOf x 3 <<< 24 := by
  apply BitVec.eq_of_getLsbD_eq
  intro b hb
  have hzero := getLsbD_byteOf_shiftLeft x (i := 0) (by decide) hb
  have hone := getLsbD_byteOf_shiftLeft x (i := 1) (by decide) hb
  have htwo := getLsbD_byteOf_shiftLeft x (i := 2) (by decide) hb
  have hthree := getLsbD_byteOf_shiftLeft x (i := 3) (by decide) hb
  simp only [BitVec.getLsbD_xor]
  -- exactly one of the four bytes holds bit `b`
  have hcases : b < 8 ∨ (8 ≤ b ∧ b < 16) ∨ (16 ≤ b ∧ b < 24) ∨ 24 ≤ b := by omega
  grind

theorem gf_eq_bytes (x : Word) :
    gf x = gf (byteOf x 0) + gfX ^ 8 * gf (byteOf x 1) + gfX ^ 16 * gf (byteOf x 2)
      + gfX ^ 24 * gf (byteOf x 3) := by
  have hbyte : ∀ i n, n ≤ 24 → gf (byteOf x i <<< n) = gfX ^ n * gf (byteOf x i) :=
    fun i n hn => gf_shiftLeft (by omega) ((byteOf_toNat_lt x i).trans_le
      (Nat.pow_le_pow_right (by decide) (by omega)))
  conv_lhs => rw [eq_xor_bytes x]
  rw [gf_xor, gf_xor, gf_xor, hbyte 0 0 (by decide), hbyte 1 8 (by decide),
    hbyte 2 16 (by decide), hbyte 3 24 (by decide), pow_zero, one_mul]

theorem getLsbD_high {v : Word} (hv : v.toNat < 2 ^ 8) {b : Nat} (hb : 8 ≤ b) :
    v.getLsbD b = false := by
  rw [BitVec.getLsbD, Nat.testBit_lt_two_pow]
  exact hv.trans_le (Nat.pow_le_pow_right (by decide) hb)

/-- The two bytes packed into the table index come out again. -/
theorem unpack_high {u v : Word} (hu : u.toNat < 2 ^ 8) (hv : v.toNat < 2 ^ 8) :
    ((u <<< 8 ||| v).sshiftRight 8) &&& 255 = u := by
  apply BitVec.eq_of_getLsbD_eq
  intro b hb
  simp only [BitVec.getLsbD_and, BitVec.getLsbD_sshiftRight, BitVec.getLsbD_or,
    BitVec.getLsbD_shiftLeft, getLsbD_byteMask]
  by_cases h : b < 8
  · rw [getLsbD_high hv (by omega : 8 ≤ 8 + b), if_pos (by omega)]
    simp [h, show ¬ 32 ≤ b by omega, show 8 + b < 32 by omega]
  · simp [h, getLsbD_high hu (by omega : 8 ≤ b)]

theorem unpack_low {u v : Word} (hv : v.toNat < 2 ^ 8) : (u <<< 8 ||| v) &&& 255 = v := by
  apply BitVec.eq_of_getLsbD_eq
  intro b hb
  simp only [BitVec.getLsbD_and, BitVec.getLsbD_or, BitVec.getLsbD_shiftLeft, getLsbD_byteMask]
  by_cases h : b < 8
  · simp [h]
  · simp [h, getLsbD_high hv (by omega : 8 ≤ b)]

/-- The table for bytes `i + j` yields the product of the two bytes in place. -/
theorem gf_galoisSplitW8 {i j : Nat} (hi : i < 4) (hj : j < 4) {u v : Word}
    (hu : u.toNat < 2 ^ 8) (hv : v.toNat < 2 ^ 8) :
    gf (galoisSplitW8 (i + j) (u <<< 8 ||| v)) = gfX ^ (8 * (i + j)) * (gf u * gf v) := by
  have hshift : ∀ {w : Word}, w.toNat < 2 ^ 8 → ∀ n, n < 4 →
      gf (w <<< (n * 8)) = gfX ^ (n * 8) * gf w := fun hw n hn =>
    gf_shiftLeft (by omega) (hw.trans_le (Nat.pow_le_pow_right (by decide) (by omega)))
  rw [galoisSplitW8, unpack_high hu hv, unpack_low hv]
  simp only [galoisSplitW8Long, gf_galoisShiftMultiply]
  by_cases h : i + j < 4
  · rw [if_pos h, if_pos h, hshift hu 0 (by decide), hshift hv (i + j) h]
    ring
  · rw [if_neg h, if_neg h, hshift hu 3 (by decide), hshift hv (i + j - 3) (by omega)]
    obtain ⟨n, hn⟩ : ∃ n, i + j = n + 3 := ⟨i + j - 3, by omega⟩
    rw [hn, Nat.add_sub_cancel]
    ring

/-- The sixteen table entries of a split multiplication. -/
theorem gf_splitSum (x y : Word) :
    gf (forUp 0 4 (fun i accumulator =>
      forUp 0 4 (fun j accumulator =>
        accumulator ^^^ galoisSplitW8 (i + j) (byteOf x i <<< 8 ||| byteOf y j)) accumulator)
      0#32) = gf x * gf y := by
  have hentry : ∀ i j, i < 4 → j < 4 →
      gf (galoisSplitW8 (i + j) (byteOf x i <<< 8 ||| byteOf y j))
        = gfX ^ (8 * (i + j)) * (gf (byteOf x i) * gf (byteOf y j)) := fun i j hi hj =>
    gf_galoisSplitW8 hi hj (byteOf_toNat_lt x i) (byteOf_toNat_lt y j)
  have hinner : ∀ i, i < 4 → ∀ acc,
      gf (forUp 0 4 (fun j accumulator =>
        accumulator ^^^ galoisSplitW8 (i + j) (byteOf x i <<< 8 ||| byteOf y j)) acc)
        = gf acc + gfX ^ (8 * i) * gf (byteOf x i) * gf y := by
    intro i hi acc
    simp only [forUp_succ, forUp_zero, Nat.zero_add, gf_xor]
    rw [hentry i 0 hi (by decide), hentry i 1 hi (by decide), hentry i 2 hi (by decide),
      hentry i 3 hi (by decide), gf_eq_bytes y]
    ring
  simp only [forUp_succ 0 3, forUp_succ 0 2, forUp_succ 0 1, forUp_succ 0 0, forUp_zero,
    Nat.zero_add] at hinner ⊢
  rw [hinner 3 (by decide), hinner 2 (by decide), hinner 1 (by decide), hinner 0 (by decide),
    gf_zero, gf_eq_bytes x]
  ring

theorem gf_galoisSplitW8Multiply (x y : Word) :
    gf (galoisSplitW8Multiply x y) = gf x * gf y :=
  gf_splitSum x y

/-- The region loop takes the bytes of its word by an unsigned shift. -/
theorem ushiftRight_byteMask (x : Word) {i : Nat} (hi : i < 4) :
    (x >>> (8 * i)) &&& 255 = byteOf x i := by
  apply BitVec.eq_of_getLsbD_eq
  intro b _
  rw [getLsbD_byteOf x hi, BitVec.getLsbD_and, getLsbD_byteMask, BitVec.getLsbD_ushiftRight,
    Bool.and_comm]

theorem gf_regionProduct (multby word : Word) :
    gf (regionProduct multby word) = gf multby * gf word := by
  rw [← gf_splitSum, regionProduct]
  refine congrArg gf ?_
  refine forUp_congr fun i acc _ _ => forUp_congr fun j acc _ hj => ?_
  dsimp only
  rw [ushiftRight_byteMask word (by omega), ← byteOf]

/-- `galois_single_multiply` multiplies residues. -/
theorem gf_galoisSingleMultiply (x y : Word) :
    gf (galoisSingleMultiply x y) = gf x * gf y := by
  rw [galoisSingleMultiply]
  by_cases h : x = 0 ∨ y = 0
  · rw [if_pos h]
    rcases h with rfl | rfl
    · rw [gf_ofNat_zero, zero_mul]
    · rw [gf_ofNat_zero, mul_zero]
  · rw [if_neg h, gf_galoisSplitW8Multiply]

end EbnAnchor.Core
