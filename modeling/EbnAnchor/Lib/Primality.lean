import Mathlib.NumberTheory.LucasPrimality

/-!
Primality of large numbers by the Lucas test, from the prime factors of `p - 1`
(`prime_of_factors`). The powers are computed by repeated squaring, so the conditions are
closed terms that evaluate quickly.
-/

namespace Primality

/-- `acc * a ^ n`, up to multiples of `m`, for an exponent of at most `bits` bits. -/
def powMod (m : Nat) : Nat → Nat → Nat → Nat → Nat
  | 0, _, _, acc => acc
  | bits + 1, a, n, acc =>
    powMod m bits (a * a % m) (n / 2) (if n % 2 = 1 then acc * a % m else acc)

theorem powMod_modEq (m bits a n acc : Nat) (hn : n < 2 ^ bits) :
    powMod m bits a n acc ≡ acc * a ^ n [MOD m] := by
  induction bits generalizing a n acc with
  | zero =>
    have hzero : n = 0 := by simpa using hn
    rw [powMod, hzero, pow_zero, Nat.mul_one]
  | succ bits ih =>
    have hhalf : n / 2 < 2 ^ bits := by
      rw [pow_succ] at hn
      omega
    have hsquare : (a * a % m) ^ (n / 2) ≡ a ^ (2 * (n / 2)) [MOD m] := by
      rw [pow_mul, pow_two]
      exact (Nat.mod_modEq (a * a) m).pow _
    rw [powMod]
    refine (ih _ _ _ hhalf).trans ?_
    by_cases hodd : n % 2 = 1
    · rw [if_pos hodd]
      have hsplit : n = 2 * (n / 2) + 1 := by omega
      calc acc * a % m * (a * a % m) ^ (n / 2)
          ≡ acc * a * a ^ (2 * (n / 2)) [MOD m] := (Nat.mod_modEq _ _).mul hsquare
        _ = acc * a ^ (2 * (n / 2) + 1) := by rw [pow_succ', Nat.mul_assoc]
        _ = acc * a ^ n := by rw [← hsplit]
    · rw [if_neg hodd]
      have hsplit : n = 2 * (n / 2) := by omega
      calc acc * (a * a % m) ^ (n / 2)
          ≡ acc * a ^ (2 * (n / 2)) [MOD m] := hsquare.mul_left _
        _ = acc * a ^ n := by rw [← hsplit]

/-- `a ^ n` is 1 modulo `p`. -/
def IsOne (p bits a n : Nat) : Prop := powMod p bits a n 1 % p = 1

instance (p bits a n : Nat) : Decidable (IsOne p bits a n) :=
  inferInstanceAs (Decidable (_ = _))

theorem isOne_iff {p bits a n : Nat} (hp : 1 < p) (hn : n < 2 ^ bits) :
    IsOne p bits a n ↔ (a : ZMod p) ^ n = 1 := by
  have hpow := powMod_modEq p bits a n 1 hn
  rw [Nat.one_mul] at hpow
  have hcast : (a : ZMod p) ^ n = 1 ↔ a ^ n ≡ 1 [MOD p] := by
    rw [← ZMod.natCast_eq_natCast_iff, Nat.cast_pow, Nat.cast_one]
  rw [IsOne, hpow, hcast, Nat.ModEq, Nat.mod_eq_of_lt hp]

/-- `p` is prime when `a` has order `p - 1` modulo `p`; it has when no division of the
exponent by a prime factor gives 1. -/
theorem prime_of_factors {p : Nat} (a bits : Nat) (factors : List Nat)
    (hprime : ∀ q ∈ factors, q.Prime) (hp : 1 < p) (hbits : p < 2 ^ bits)
    (hprod : factors.prod = p - 1) (hone : IsOne p bits a (p - 1))
    (hne : ∀ q ∈ factors, ¬ IsOne p bits a ((p - 1) / q)) : p.Prime := by
  refine lucas_primality p (a : ZMod p) ((isOne_iff hp (by omega)).mp hone) ?_
  intro q hq hdvd
  rw [← hprod] at hdvd
  obtain ⟨r, hr, hqr⟩ := (Prime.dvd_prod_iff hq.prime).mp hdvd
  have heq : q = r := (Nat.prime_dvd_prime_iff_eq hq (hprime r hr)).mp hqr
  have hlt : (p - 1) / q < 2 ^ bits := lt_of_le_of_lt (Nat.div_le_self ..) (by omega)
  exact mt (isOne_iff hp hlt).mpr (heq ▸ hne r hr)

end Primality
