import EbnAnchor.Core.Ecc
import EbnAnchor.Lib.Primality
import Mathlib.Tactic.LinearCombination
import Mathlib.Tactic.NormNum.Prime

/-!
What the x-coordinate and the bit of `ecc_compress_y_coord` say about a public key.

The points of the curve with one x-coordinate are `y` and `p - y`. The bit is the highest
of the 192 bits, and `p` is less than `2 ^ 192`: near the middle both have the bit clear.

* `prime_prime`: the modulus of the curve is prime;
* `eccValidPublicKey_eq_one_iff`: the accepted points are the points of the curve;
* `compressed_key_unique_iff`: the key is determined exactly outside the middle.
-/

namespace EbnAnchor.Core

open Primality

/-! ### The prime -/

theorem prime_455827231987 : Nat.Prime 455827231987 :=
  prime_of_factors 2 39 [2, 3, 7, 43, 252396031]
    (by
      simp only [List.forall_mem_cons, List.not_mem_nil, false_implies, implies_true, and_true]
      norm_num)
    (by decide) (by decide) (by decide) (by decide +kernel) (by decide +kernel)

theorem prime_5933177618131140283 : Nat.Prime 5933177618131140283 :=
  prime_of_factors 2 63 [2, 3, 3, 723127, 455827231987]
    (by
      simp only [List.forall_mem_cons, List.not_mem_nil, false_implies, implies_true, and_true,
        prime_455827231987]
      norm_num)
    (by decide) (by decide) (by decide) (by decide +kernel) (by decide +kernel)

theorem prime_288626509448065367648032903 : Nat.Prime 288626509448065367648032903 :=
  prime_of_factors 6 88 [2, 3, 19, 19, 37, 607, 5933177618131140283]
    (by
      simp only [List.forall_mem_cons, List.not_mem_nil, false_implies, implies_true, and_true,
        prime_5933177618131140283]
      norm_num)
    (by decide) (by decide) (by decide) (by decide +kernel) (by decide +kernel)

theorem prime_108341181769254293 : Nat.Prime 108341181769254293 :=
  prime_of_factors 2 57 [2, 2, 17, 43, 2477, 54251, 275729]
    (by
      simp only [List.forall_mem_cons, List.not_mem_nil, false_implies, implies_true, and_true]
      norm_num)
    (by decide) (by decide) (by decide) (by decide +kernel) (by decide +kernel)

theorem prime_prime : Nat.Prime prime :=
  prime_of_factors 11 192
    [2, 59, 149309, 11393611, 108341181769254293, 288626509448065367648032903]
    (by
      simp only [List.forall_mem_cons, List.not_mem_nil, false_implies, implies_true, and_true,
        prime_108341181769254293, prime_288626509448065367648032903]
      norm_num)
    (by decide) (by decide) (by decide) (by decide +kernel) (by decide +kernel)

instance : Fact (Nat.Prime prime) := ⟨prime_prime⟩

/-! ### The points accepted -/

/-- Both sides of the curve equation as `ecc_valid_public_key` computes them. -/
def curveEquation (x y : Nat) : Prop :=
  y * y % prime = ((x * x % prime + (prime - 3)) % prime * x % prime + val curveB) % prime

instance (x y : Nat) : Decidable (curveEquation x y) := inferInstanceAs (Decidable (_ = _))

theorem curveEquation_iff (x y : Nat) :
    curveEquation x y ↔ (y : ZMod prime) ^ 2 = (x : ZMod prime) ^ 3 - 3 * x + val curveB := by
  have hthree : ((prime - 3 : Nat) : ZMod prime) = -3 := by
    rw [Nat.cast_sub (by decide), ZMod.natCast_self]
    norm_num
  have hcast : curveEquation x y ↔ ((y * y : Nat) : ZMod prime) =
      ((x * x % prime + (prime - 3)) % prime * x % prime + val curveB : Nat) :=
    (ZMod.natCast_eq_natCast_iff' ..).symm
  rw [hcast]
  simp only [Nat.cast_add, Nat.cast_mul, ZMod.natCast_mod, hthree]
  constructor
  · intro h
    linear_combination h
  · intro h
    linear_combination h

theorem val_three : val (#v[3, 0, 0, 0, 0, 0] : Vli) = 3 := by decide

theorem val_curveB_lt : val curveB < prime := by decide

/-- The two values `ecc_valid_public_key` compares. -/
theorem val_curveSides (key : EccPoint) :
    val (vliModSquareFast key.y) = val key.y * val key.y % prime ∧
      val (vliModAdd (vliModMultFast (vliModSub (vliModSquareFast key.x) #v[3, 0, 0, 0, 0, 0]
        curveP) key.x) curveB curveP) =
        ((val key.x * val key.x % prime + (prime - 3)) % prime * val key.x % prime +
          val curveB) % prime := by
  have hpos : 0 < prime := by decide
  refine ⟨val_vliModSquareFast key.y, ?_⟩
  rw [val_vliModAdd, val_vliModMultFast, val_vliModSub, val_vliModSquareFast, val_three, val_curveP]
  · rw [val_vliModSquareFast, val_curveP]
    exact Nat.mod_lt _ hpos
  · rw [val_three, val_curveP]
    decide
  · rw [val_vliModMultFast, val_curveP]
    exact Nat.mod_lt _ hpos
  · rw [val_curveP]
    exact val_curveB_lt

/-- The check accepts the pairs of reduced coordinates that satisfy the equation, except
`(0, 0)`. -/
theorem eccValidPublicKey_eq_one_iff (key : EccPoint) :
    eccValidPublicKey key = 1 ↔ ¬ (val key.x = 0 ∧ val key.y = 0) ∧
      val key.x < prime ∧ val key.y < prime ∧ curveEquation (val key.x) (val key.y) := by
  obtain ⟨hleft, hright⟩ := val_curveSides key
  have hzero : eccPointIsZero key = true ↔ val key.x = 0 ∧ val key.y = 0 := by
    rw [eccPointIsZero, decide_eq_true_iff, vliIsZero_ne_zero_iff, vliIsZero_ne_zero_iff]
  have hx := vliCmp_eq_one_iff curveP key.x
  have hy := vliCmp_eq_one_iff curveP key.y
  rw [val_curveP] at hx hy
  rw [eccValidPublicKey, curveEquation, ← hleft, ← hright, ← hzero, ← hx, ← hy]
  by_cases hisZero : eccPointIsZero key = true
  · rw [if_pos hisZero]
    exact ⟨fun h => absurd h (by decide), fun h => absurd hisZero h.1⟩
  · rw [if_neg hisZero]
    by_cases hrange : vliCmp curveP key.x ≠ 1 ∨ vliCmp curveP key.y ≠ 1
    · rw [if_pos hrange]
      refine ⟨fun h => absurd h (by decide), fun h => ?_⟩
      exact absurd h.2.1 (hrange.resolve_right (not_not.mpr h.2.2.1))
    · rw [if_neg hrange]
      push Not at hrange
      simp only
      constructor
      · intro h
        split_ifs at h with hne
        · exact absurd h (by decide)
        · refine ⟨hisZero, hrange.1, hrange.2, ?_⟩
          rw [(vliCmp_eq_zero_iff _ _).mp (not_not.mp hne)]
      · rintro ⟨-, -, -, heq⟩
        rw [if_neg (not_not.mpr ((vliCmp_eq_zero_iff _ _).mpr (eq_of_val_eq heq)))]

/-! ### The bit -/

/-- The bit is the highest bit of the coordinate. -/
theorem eccCompressYCoord_eq (key : EccPoint) :
    eccCompressYCoord key = if 2 ^ 191 ≤ val key.y then 1 else 0 := by
  have hlow : Radix.value (2 ^ 32) (fun i => (digit key.y i).toNat) 5 < (2 ^ 32) ^ 5 :=
    Radix.value_lt fun i _ => (digit key.y i).isLt
  have hval : val key.y = Radix.value (2 ^ 32) (fun i => (digit key.y i).toNat) 5 +
      (digit key.y 5).toNat * (2 ^ 32) ^ 5 := Radix.value_succ
  have htop : key.y[numEccDigits - 1] = digit key.y 5 := rfl
  have hmask : (0x80000000 &&& digit key.y 5 ≠ 0) ↔ 2 ^ 31 ≤ (digit key.y 5).toNat := by
    have hpow : (0x80000000 : Word) = BitVec.twoPow 32 31 := by decide
    have hmsb : (digit key.y 5).getLsbD 31 = decide (2 ^ 31 ≤ (digit key.y 5).toNat) :=
      BitVec.msb_eq_decide (digit key.y 5)
    rw [hpow, BitVec.twoPow_and, hmsb]
    by_cases hbit : 2 ^ 31 ≤ (digit key.y 5).toNat
    · simp only [hbit, decide_true, if_true, iff_true]
      decide
    · simp only [hbit, decide_false, Bool.false_eq_true, if_false, iff_false]
      exact fun h => h rfl
  rw [eccCompressYCoord, htop]
  simp only [hmask]
  refine if_congr ?_ rfl rfl
  rw [← pow_mul] at hlow hval
  omega

/-- The y-coordinates that have the bit clear together with their negatives. -/
def Ambiguous (y : Nat) : Prop := 2 ^ 191 - 2 ^ 64 ≤ y ∧ y < 2 ^ 191

/-- The bits agree only in the middle. -/
theorem ambiguous_of_bit_eq {y y' : Nat} (hsum : y + y' = prime)
    (hbit : 2 ^ 191 ≤ y ↔ 2 ^ 191 ≤ y') : Ambiguous y := by
  have hprime : prime = 2 ^ 192 - 2 ^ 64 - 1 := rfl
  rw [hprime] at hsum
  constructor
  · omega
  · omega

/-! ### Points with one x-coordinate -/

theorem coordinate_eq_or_add_eq {y y' : Nat} (hy : y < prime) (hy' : y' < prime)
    (h : (y : ZMod prime) ^ 2 = (y' : ZMod prime) ^ 2) : y = y' ∨ y + y' = prime := by
  rcases sq_eq_sq_iff_eq_or_eq_neg.mp h with heq | hneg
  · rw [ZMod.natCast_eq_natCast_iff', Nat.mod_eq_of_lt hy, Nat.mod_eq_of_lt hy'] at heq
    exact Or.inl heq
  · have hzero : ((y + y' : Nat) : ZMod prime) = 0 := by
      rw [Nat.cast_add, hneg]
      exact neg_add_cancel _
    rw [ZMod.natCast_eq_zero_iff] at hzero
    obtain ⟨c, hc⟩ := hzero
    -- the sum is below `2 * prime`
    have hlt : prime * c < prime * 2 := by omega
    have hc2 : c < 2 := Nat.lt_of_mul_lt_mul_left hlt
    interval_cases c
    · exact Or.inl (by omega)
    · exact Or.inr (by omega)

/-- The point with the negated y-coordinate. -/
def negate (key : EccPoint) : EccPoint := ⟨key.x, (vliSub curveP key.y).1⟩

theorem val_negate {key : EccPoint} (h : val key.y < prime) :
    val key.y + val (negate key).y = prime := by
  obtain ⟨hsub, hborrow⟩ := val_vliSub curveP key.y
  have hlt := (vliSub curveP key.y).1.val_lt
  rw [val_curveP] at hsub
  have hy : (negate key).y = (vliSub curveP key.y).1 := rfl
  rw [hy]
  omega

theorem negate_valid {key : EccPoint} (h : eccValidPublicKey key = 1) (hy : val key.y ≠ 0) :
    eccValidPublicKey (negate key) = 1 := by
  rw [eccValidPublicKey_eq_one_iff] at h ⊢
  obtain ⟨-, hx, hylt, hcurve⟩ := h
  have hneg := val_negate hylt
  have hpos : 0 < prime := by decide
  refine ⟨fun hzero => ?_, hx, by omega, ?_⟩
  · have := hzero.2
    omega
  · rw [curveEquation_iff] at hcurve ⊢
    have hcast : (val (negate key).y : ZMod prime) = -(val key.y : ZMod prime) := by
      rw [eq_neg_iff_add_eq_zero, ← Nat.cast_add, Nat.add_comm, hneg, ZMod.natCast_self]
    rw [hcast, neg_sq]
    exact hcurve

/-- A valid key is the only one with its x-coordinate and bit, unless its y-coordinate is
in the middle. -/
theorem compressed_key_unique_iff {key : EccPoint} (hkey : eccValidPublicKey key = 1) :
    (∀ other, eccValidPublicKey other = 1 → other.x = key.x →
      eccCompressYCoord other = eccCompressYCoord key → other = key) ↔
        ¬ Ambiguous (val key.y) := by
  obtain ⟨-, hx, hy, hcurve⟩ := (eccValidPublicKey_eq_one_iff key).mp hkey
  constructor
  · rintro hunique ⟨hlow, hhigh⟩
    have hsum := val_negate hy
    have hprime : prime = 2 ^ 192 - 2 ^ 64 - 1 := rfl
    have hbit : eccCompressYCoord (negate key) = eccCompressYCoord key := by
      rw [eccCompressYCoord_eq, eccCompressYCoord_eq, if_neg (by omega), if_neg (by omega)]
    have heq := hunique (negate key) (negate_valid hkey (by omega)) rfl hbit
    rw [heq] at hsum
    omega
  · intro hmiddle other hother hxeq hbit
    obtain ⟨-, -, hyother, hcurveOther⟩ := (eccValidPublicKey_eq_one_iff other).mp hother
    rw [hxeq] at hcurveOther
    have hsquare := ((curveEquation_iff _ _).mp hcurve).trans
      ((curveEquation_iff _ _).mp hcurveOther).symm
    rcases coordinate_eq_or_add_eq hy hyother hsquare with heq | hsum
    · cases other
      cases key
      cases hxeq
      cases eq_of_val_eq heq
      rfl
    · refine absurd (ambiguous_of_bit_eq hsum ?_) hmiddle
      rw [eccCompressYCoord_eq, eccCompressYCoord_eq] at hbit
      by_cases h : 2 ^ 191 ≤ val key.y
      · by_cases h' : 2 ^ 191 ≤ val other.y
        · exact ⟨fun _ => h', fun _ => h⟩
        · rw [if_pos h, if_neg h'] at hbit
          exact absurd hbit (by decide)
      · by_cases h' : 2 ^ 191 ≤ val other.y
        · rw [if_neg h, if_pos h'] at hbit
          exact absurd hbit (by decide)
        · exact ⟨fun hge => absurd hge h, fun hge => absurd hge h'⟩

/-- The base point is valid and determined. -/
theorem compressed_key_unique_curveG :
    eccValidPublicKey curveG = 1 ∧ ∀ other, eccValidPublicKey other = 1 → other.x = curveG.x →
      eccCompressYCoord other = eccCompressYCoord curveG → other = curveG := by
  have hvalid : eccValidPublicKey curveG = 1 :=
    (eccValidPublicKey_eq_one_iff curveG).mpr (by decide)
  refine ⟨hvalid, (compressed_key_unique_iff hvalid).mpr ?_⟩
  rw [Ambiguous]
  decide

/-- A point of the curve with `y = 2 ^ 191 - 1`. -/
def middleKey : EccPoint where
  x := #v[0x9871212E, 0x4F3BADD0, 0x5EC15795, 0x9D44DBD3, 0x6C92E5CA, 0xEFE3451D]
  y := #v[0xFFFFFFFF, 0xFFFFFFFF, 0xFFFFFFFF, 0xFFFFFFFF, 0xFFFFFFFF, 0x7FFFFFFF]

/-- Two different valid keys with the same x-coordinate and the same bit. -/
theorem compressed_key_collision :
    eccValidPublicKey middleKey = 1 ∧ eccValidPublicKey (negate middleKey) = 1 ∧
      (negate middleKey).x = middleKey.x ∧
      eccCompressYCoord (negate middleKey) = eccCompressYCoord middleKey ∧
      negate middleKey ≠ middleKey := by
  have hvalid : eccValidPublicKey middleKey = 1 :=
    (eccValidPublicKey_eq_one_iff middleKey).mpr (by decide)
  exact ⟨hvalid, negate_valid hvalid (by decide), rfl, by decide, by decide⟩

end EbnAnchor.Core
