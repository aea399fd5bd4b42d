import EbnAnchor.Core.Vli
import Mathlib.Data.Nat.Size

/-!
`ecc.c`, the functions that look at the bits of a number or shift it.

* `vliTestBit_of_lt`: the bit tested is the bit of the value;
* `vliNumBits_eq`: the number of bits is the binary length of the value;
* `val_vliRshift1`, `val_orTop`: a shift to the right, and the bit that is put on top.
-/

namespace EbnAnchor.Core

open Loop

/-- Why a call gives no value: it reads outside an array, or a loop goes on for longer than
it was given time. -/
inductive Stop where
  | outOfBounds
  | outOfTime
  deriving DecidableEq, Repr

/-! ### Bits -/

/-- `vli_testBit`. -/
def vliTestBit (v : Vli) (bit : Nat) : Except Stop Word :=
  if bit / 32 < numEccDigits then .ok (digit v (bit / 32) &&& (1#32 <<< (bit % 32)))
  else .error .outOfBounds

/-- `vli_numDigits`, with the digits from `n` up seen to be zero. -/
def vliNumDigitsFrom (v : Vli) : Nat → Nat
  | 0 => 0
  | n + 1 => if digit v n = 0 then vliNumDigitsFrom v n else n + 1

def vliNumDigits (v : Vli) : Nat := vliNumDigitsFrom v numEccDigits

/-- `for(i=0; l_digit; ++i) l_digit >>= 1;`. -/
def digitBits (d : Word) : Nat := if d = 0 then 0 else digitBits (d >>> 1) + 1
termination_by d.toNat
decreasing_by
  rename_i hne
  have hpos := mt (toNat_eq_zero_iff d).mp hne
  rw [BitVec.toNat_ushiftRight, Nat.shiftRight_eq_div_pow]
  omega

/-- `vli_numBits`. -/
def vliNumBits (v : Vli) : Nat :=
  let numDigits := vliNumDigits v
  if numDigits = 0 then 0
  else (numDigits - 1) * 32 + digitBits (digit v (numDigits - 1))

theorem val_testBit (v : Vli) {bit : Nat} (h : bit < 192) :
    (val v).testBit bit = (digit v (bit / 32)).getLsbD (bit % 32) := by
  have hdigit := @Radix.value_div_mod (2 ^ 32) (fun i => (digit v i).toNat) 6
    (fun i _ => (digit v i).isLt) (bit / 32) (by omega)
  have hsplit : bit % 32 + 32 * (bit / 32) = bit := by omega
  rw [← BitVec.testBit_toNat, ← hdigit, ← pow_mul, Nat.testBit_mod_two_pow,
    Nat.testBit_div_two_pow, hsplit]
  simp [val, Nat.mod_lt]

theorem and_bit_ne_zero_iff (w : Word) {j : Nat} (hj : j < 32) :
    w &&& (1#32 <<< j) ≠ 0 ↔ w.getLsbD j = true := by
  have hone : (1#32) <<< j ≠ 0 := by
    intro hzero
    have hbit : ((1#32) <<< j).getLsbD j = false := by rw [hzero]; simp
    simp [hj] at hbit
  rw [← BitVec.twoPow_eq] at hone
  have hand : w &&& (1#32 <<< j) = if w.getLsbD j then BitVec.twoPow 32 j else 0 := by
    rw [← BitVec.twoPow_eq]
    exact BitVec.and_twoPow w j
  rw [hand]
  cases w.getLsbD j with
  | false => simp
  | true => simpa using hone

/-- Within the number, `vli_testBit` tests the bit of the value. -/
theorem vliTestBit_of_lt (v : Vli) {bit : Nat} (h : bit < 192) :
    ∃ w, vliTestBit v bit = .ok w ∧ (w ≠ 0 ↔ (val v).testBit bit = true) := by
  have hdigit : bit / 32 < numEccDigits := Nat.div_lt_of_lt_mul h
  refine ⟨_, if_pos hdigit, ?_⟩
  rw [and_bit_ne_zero_iff _ (Nat.mod_lt _ (by decide)), val_testBit v h]

theorem vliTestBit_of_le (v : Vli) {bit : Nat} (h : 192 ≤ bit) :
    vliTestBit v bit = .error .outOfBounds := by
  have hdigit : numEccDigits ≤ bit / 32 := (Nat.le_div_iff_mul_le (by decide)).mpr h
  rw [vliTestBit, if_neg (Nat.not_lt.mpr hdigit)]

theorem digitBits_eq (d : Word) : digitBits d = Nat.size d.toNat := by
  induction d using digitBits.induct with
  | case1 => simp [digitBits]
  | case2 d hne ih =>
    have hpos := mt (toNat_eq_zero_iff d).mp hne
    rw [digitBits, if_neg hne, ih]
    have hbit := Nat.bit_bodd_div2 d.toNat
    have hsize := @Nat.size_bit d.toNat.bodd d.toNat.div2 (by rwa [hbit])
    rw [hbit, Nat.div2_val] at hsize
    rw [hsize, BitVec.toNat_ushiftRight, Nat.shiftRight_eq_div_pow, pow_one]

/-- What `vli_numDigits` has found: the digits from its answer up are zero. -/
theorem vliNumDigitsFrom_spec (v : Vli) (n : Nat) :
    vliNumDigitsFrom v n ≤ n ∧
      Radix.value (2 ^ 32) (fun i => (digit v i).toNat) n =
        Radix.value (2 ^ 32) (fun i => (digit v i).toNat) (vliNumDigitsFrom v n) ∧
      (vliNumDigitsFrom v n ≠ 0 → digit v (vliNumDigitsFrom v n - 1) ≠ 0) := by
  induction n with
  | zero => exact ⟨le_rfl, rfl, fun h => absurd rfl h⟩
  | succ n ih =>
    rw [vliNumDigitsFrom]
    by_cases hzero : digit v n = 0
    · rw [if_pos hzero, Radix.value_succ, hzero, word_toNat_zero, Nat.zero_mul, Nat.add_zero]
      exact ⟨by omega, ih.2⟩
    · rw [if_neg hzero]
      exact ⟨le_rfl, rfl, fun _ => hzero⟩

/-- `vli_numBits` is the binary length of the value. -/
theorem vliNumBits_eq (v : Vli) : vliNumBits v = Nat.size (val v) := by
  obtain ⟨hle, hval, htop⟩ := vliNumDigitsFrom_spec v numEccDigits
  rw [vliNumBits, val, hval, vliNumDigits]
  generalize vliNumDigitsFrom v numEccDigits = n at hle htop
  cases n with
  | zero => simp
  | succ n =>
    have htop := htop (Nat.succ_ne_zero n)
    rw [Nat.add_sub_cancel] at htop ⊢
    rw [if_neg (Nat.succ_ne_zero n), digitBits_eq, Radix.value_succ]
    have hlow := Radix.value_lt (b := 2 ^ 32) (d := fun i => (digit v i).toNat) (n := n)
      fun i _ => (digit v i).isLt
    have hpos := Nat.pos_of_ne_zero (mt (toNat_eq_zero_iff _).mp htop)
    generalize Radix.value (2 ^ 32) (fun i => (digit v i).toNat) n = low at hlow
    generalize (digit v n).toNat = top at hpos
    rw [← pow_mul] at hlow ⊢
    have hsize := Nat.lt_size_self top
    have hhalf : 2 ^ (Nat.size top - 1) ≤ top := by
      rw [← Nat.lt_size]
      have := Nat.size_pos.mpr hpos
      omega
    have hpow : 2 ^ (32 * n + Nat.size top) = 2 ^ Nat.size top * 2 ^ (32 * n) := by
      rw [Nat.add_comm, pow_add]
    have hpow' : 2 ^ (32 * n + (Nat.size top - 1)) = 2 ^ (Nat.size top - 1) * 2 ^ (32 * n) := by
      rw [Nat.add_comm, pow_add]
    apply Nat.le_antisymm
    · have hpred : n * 32 + Nat.size top = 32 * n + (Nat.size top - 1) + 1 := by
        have := Nat.size_pos.mpr hpos
        omega
      rw [hpred, Nat.succ_le_iff, Nat.lt_size, hpow']
      calc 2 ^ (Nat.size top - 1) * 2 ^ (32 * n) ≤ top * 2 ^ (32 * n) :=
            Nat.mul_le_mul_right _ hhalf
        _ ≤ low + top * 2 ^ (32 * n) := Nat.le_add_left ..
    · rw [Nat.size_le, Nat.mul_comm n 32, hpow]
      calc low + top * 2 ^ (32 * n) < 2 ^ (32 * n) + top * 2 ^ (32 * n) := by omega
        _ = (top + 1) * 2 ^ (32 * n) := by ring
        _ ≤ 2 ^ Nat.size top * 2 ^ (32 * n) := Nat.mul_le_mul_right _ hsize

/-! ### Shifts -/

/-- `vli_rshift1`. -/
def vliRshift1 (v : Vli) : Vli :=
  let (result, _) := forDown numEccDigits (fun i (s : (Nat → Word) × Word) =>
    let temp := digit v i
    (Function.update s.1 i ((temp >>> 1) ||| s.2), temp <<< 31)) (fun _ => 0, 0)
  ofDigits _ result

/-- `p_vli[NUM_ECC_DIGITS-1] |= w`. -/
def orTop (v : Vli) (w : Word) : Vli :=
  ofDigits _ (Function.update (digit v) (numEccDigits - 1) (digit v (numEccDigits - 1) ||| w))

/-- A word shifted right by one, with a bit put on top. -/
theorem toNat_shiftRight_or (w u : Word) :
    ((w >>> 1) ||| (u <<< 31)).toNat = w.toNat / 2 + u.toNat % 2 * 2 ^ 31 := by
  have hw := w.isLt
  have hhigh : (u <<< 31).toNat = 2 ^ 31 * (u.toNat % 2) := by
    rw [BitVec.toNat_shiftLeft, Nat.shiftLeft_eq]
    omega
  rw [BitVec.toNat_or, hhigh, BitVec.toNat_ushiftRight, Nat.shiftRight_eq_div_pow, pow_one,
    Nat.or_comm, ← Nat.two_pow_add_eq_or_of_lt (by omega)]
  ring

/-- Half of the value, rounded down. -/
theorem val_vliRshift1 (v : Vli) : val (vliRshift1 v) = val v / 2 := by
  have hloop := forDown_invariant (n := numEccDigits)
    (f := fun i (s : (Nat → Word) × Word) =>
      (Function.update s.1 i ((digit v i >>> 1) ||| s.2), digit v i <<< 31))
    (s := (fun _ => 0, 0))
    (P := fun k s => s.2 = digit v k <<< 31 ∧
      ∀ i, k ≤ i → i < numEccDigits → s.1 i = (digit v i >>> 1) ||| (digit v (i + 1) <<< 31))
    ⟨by simp [digit], fun i hi hlt => absurd hlt (by omega)⟩ (by
      rintro k ⟨result, carry⟩ hk ⟨hcarry, hdone⟩
      refine ⟨rfl, fun i hi hlt => ?_⟩
      dsimp only at hcarry hdone ⊢
      by_cases heq : i = k
      · rw [heq, Function.update_self, hcarry]
      · rw [Function.update_of_ne heq]
        exact hdone i (by omega) hlt)
  have hhalve := Radix.value_halve (n := numEccDigits) (h := 2 ^ 31)
    (d := fun i => (digit v i).toNat)
    (fun i => ((digit v i >>> 1) ||| (digit v (i + 1) <<< 31)).toNat)
    fun i _ => toNat_shiftRight_or _ _
  have htop : (digit v numEccDigits).toNat = 0 := by simp [digit]
  have hbase : 2 * 2 ^ 31 = 2 ^ 32 := by decide
  have hresult : val (vliRshift1 v) = Radix.value (2 ^ 32)
      (fun i => ((digit v i >>> 1) ||| (digit v (i + 1) <<< 31)).toNat) numEccDigits := by
    rw [vliRshift1]
    dsimp only
    rw [val_ofDigits]
    exact Radix.value_congr fun i hi => by rw [hloop.2 i (Nat.zero_le i) hi]
  have hbit := Nat.mod_lt (digit v 0).toNat (by decide : 0 < 2)
  rw [htop, hbase, Nat.zero_mod, Nat.zero_mul, Nat.add_zero, ← hresult] at hhalve
  have hval : val v = Radix.value (2 ^ 32) (fun i => (digit v i).toNat) numEccDigits := rfl
  rw [hval]
  omega

/-- The top bit, where it is clear. -/
theorem val_orTop (v : Vli) (hv : val v < 2 ^ 191) (flag : Bool) :
    val (orTop v (BitVec.ofNat 32 flag.toNat <<< 31)) = val v + flag.toNat * 2 ^ 191 := by
  have hsplit : val v = Radix.value (2 ^ 32) (fun i => (digit v i).toNat) 5 +
      (digit v 5).toNat * (2 ^ 32) ^ 5 := Radix.value_succ
  have htop : (digit v 5).toNat < 2 ^ 31 := by omega
  have hor : (digit v 5 ||| (BitVec.ofNat 32 flag.toNat <<< 31)).toNat =
      (digit v 5).toNat + flag.toNat * 2 ^ 31 := by
    cases flag with
    | false => simp
    | true =>
      have hpow : ((BitVec.ofNat 32 true.toNat) <<< 31).toNat = 2 ^ 31 * 1 := by decide
      rw [BitVec.toNat_or, hpow, Nat.or_comm, ← Nat.two_pow_add_eq_or_of_lt htop,
        Bool.toNat_true]
      omega
  have hupdate := value_update (digit v) 5
    (digit v 5 ||| (BitVec.ofNat 32 flag.toNat <<< 31))
  rw [orTop, val_ofDigits]
  refine hupdate.trans ?_
  rw [hor, hsplit]
  ring

end EbnAnchor.Core
