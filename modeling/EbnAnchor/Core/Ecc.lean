import EbnAnchor.Core.Vli

/-!
`ecc.c` for `secp192r1`: the curve, arithmetic modulo its prime, and the functions on
public keys. `val_vliModMultFast` and `val_vliModSquareFast` say that the fast products are
products modulo the prime.
-/

namespace EbnAnchor.Core

open Loop

/-! ### The curve -/

/-- `Curve_P_6`. -/
def curveP : Vli :=
  #v[0xFFFFFFFF, 0xFFFFFFFF, 0xFFFFFFFE, 0xFFFFFFFF, 0xFFFFFFFF, 0xFFFFFFFF]

/-- `Curve_B_6`. -/
def curveB : Vli :=
  #v[0xC146B9B1, 0xFEB8DEEC, 0x72243049, 0x0FA7E9AB, 0xE59C80E7, 0x64210519]

structure EccPoint where
  x : Vli
  y : Vli
  deriving DecidableEq

/-- `Curve_G_6`. -/
def curveG : EccPoint where
  x := #v[0x82FF1012, 0xF4FF0AFD, 0x43A18800, 0x7CBF20EB, 0xB03090F6, 0x188DA80E]
  y := #v[0x1E794811, 0x73F977A1, 0x6B24CDD5, 0x631011ED, 0xFFC8DA78, 0x07192B95]

/-- The prime of the curve. -/
abbrev prime : Nat := 2 ^ 192 - 2 ^ 64 - 1

theorem val_curveP : val curveP = prime := by decide

/-! ### Arithmetic modulo the prime -/

/-- `l_tmp` in the three additions of `vli_mmod_fast`. -/
def foldedDigits (c : Nat → Word) : Vli × Vli × Vli :=
  (#v[c 6, c 7, c 8, c 9, c 10, c 11], #v[0, 0, c 6, c 7, c 8, c 9],
    #v[c 10, c 11, c 10, c 11, 0, 0])

/-- The result of the three additions of `vli_mmod_fast`, and the sum of their carries. -/
def foldProduct (product : VliProduct) : Vli × Nat :=
  let (tmp, tmp', tmp'') := foldedDigits (digit product)
  let (result, carry) := vliAdd (ofDigits _ (digit product)) tmp
  let (result, carry') := vliAdd result tmp'
  let (result, carry'') := vliAdd result tmp''
  (result, carry.toNat + carry'.toNat + carry''.toNat)

/-- The `while` loop of `vli_mmod_fast`. A borrow is always covered by `l_carry`, so the
counter does not become negative. -/
def subtractPrime (result : Vli) (carry : Nat) : Vli :=
  if carry ≠ 0 ∨ vliCmp curveP result ≠ 1 then
    subtractPrime (vliSub result curveP).1 (carry - (vliSub result curveP).2.toNat)
  else result
termination_by carry * 2 ^ 192 + val result
decreasing_by
  rename_i hmore
  have hsub := val_vliSub result curveP
  rw [vliCmp_ne_one_iff, val_curveP] at hmore
  rw [val_curveP] at hsub
  have hprime : 0 < prime := by decide
  have hlt := (vliSub result curveP).1.val_lt
  have hcover : carry = 0 → (vliSub result curveP).2.toNat = 0 := by omega
  omega

/-- `vli_mmod_fast`. -/
def vliMmodFast (product : VliProduct) : Vli :=
  let (result, carry) := foldProduct product
  subtractPrime result carry

def vliModMultFast (left right : Vli) : Vli := vliMmodFast (vliMult left right)

def vliModSquareFast (left : Vli) : Vli := vliMmodFast (vliSquare left)

theorem val_subtractPrime (result : Vli) (carry : Nat) :
    val (subtractPrime result carry) = (carry * 2 ^ 192 + val result) % prime := by
  induction result, carry using subtractPrime.induct with
  | case1 result carry hmore ih =>
    rw [subtractPrime, if_pos hmore, ih]
    obtain ⟨hsub, hborrow⟩ := val_vliSub result curveP
    rw [vliCmp_ne_one_iff, val_curveP] at hmore
    rw [val_curveP] at hsub
    have hlt := (vliSub result curveP).1.val_lt
    have hresult := result.val_lt
    have hge : prime ≤ carry * 2 ^ 192 + val result := by omega
    have hnext : (carry - (vliSub result curveP).2.toNat) * 2 ^ 192 +
        val (vliSub result curveP).1 = carry * 2 ^ 192 + val result - prime := by omega
    rw [hnext, ← Nat.mod_eq_sub_mod hge]
  | case2 result carry hdone =>
    rw [subtractPrime, if_neg hdone]
    push Not at hdone
    obtain ⟨hcarry, hcmp⟩ := hdone
    rw [vliCmp_eq_one_iff, val_curveP] at hcmp
    rw [hcarry, Nat.zero_mul, Nat.zero_add, Nat.mod_eq_of_lt hcmp]

theorem val_digits (a b c d e f : Word) : val #v[a, b, c, d, e, f] =
    a.toNat + b.toNat * 2 ^ 32 + c.toNat * 2 ^ 64 + d.toNat * 2 ^ 96 + e.toNat * 2 ^ 128 +
      f.toNat * 2 ^ 160 := by
  simp [val, Radix.value_succ, digit]

theorem val_foldProduct_sum (product : VliProduct) :
    (foldProduct product).2 * 2 ^ 192 + val (foldProduct product).1 =
      val (ofDigits numEccDigits (digit product)) + val (foldedDigits (digit product)).1 +
        val (foldedDigits (digit product)).2.1 + val (foldedDigits (digit product)).2.2 := by
  rw [foldProduct]
  generalize ofDigits numEccDigits (digit product) = low
  obtain ⟨tmp, tmp', tmp''⟩ := foldedDigits (digit product)
  obtain ⟨h1, -⟩ := val_vliAdd low tmp
  obtain ⟨h2, -⟩ := val_vliAdd (vliAdd low tmp).1 tmp'
  obtain ⟨h3, -⟩ := val_vliAdd (vliAdd (vliAdd low tmp).1 tmp').1 tmp''
  simp only
  omega

/-- The digits from `2 ^ 192` up are folded down by `2 ^ 192 = 2 ^ 64 + 1`, up to multiples
of the prime. -/
theorem val_foldProduct (product : VliProduct) :
    ∃ q, (foldProduct product).2 * 2 ^ 192 + val (foldProduct product).1 + q * prime =
      val product := by
  have hprime : prime = 0xFFFFFFFFFFFFFFFFFFFFFFFFFFFFFFFEFFFFFFFFFFFFFFFF := rfl
  have hlength : 2 * numEccDigits = 12 := rfl
  have hzero : (0 : Word).toNat = 0 := rfl
  refine ⟨val (foldedDigits (digit product)).1 + (digit product 10).toNat +
    (digit product 11).toNat * 2 ^ 32, ?_⟩
  rw [val_foldProduct_sum, val_ofDigits]
  simp only [foldedDigits, val_digits]
  rw [val]
  generalize digit product = c
  rw [hlength, hprime]
  simp only [Radix.value_succ, Radix.value_zero, ← pow_mul, hzero]
  omega

theorem val_vliMmodFast (product : VliProduct) :
    val (vliMmodFast product) = val product % prime := by
  obtain ⟨q, hq⟩ := val_foldProduct product
  rw [vliMmodFast, val_subtractPrime, ← hq, Nat.add_mul_mod_self_right]

theorem val_vliModMultFast (left right : Vli) :
    val (vliModMultFast left right) = val left * val right % prime := by
  rw [vliModMultFast, val_vliMmodFast, val_vliMult]

theorem val_vliModSquareFast (left : Vli) :
    val (vliModSquareFast left) = val left * val left % prime := by
  rw [vliModSquareFast, val_vliMmodFast, val_vliSquare]

/-! ### Public keys -/

/-- `ecc_compress_y_coord`. -/
def eccCompressYCoord (key : EccPoint) : Word :=
  if 0x80000000 &&& key.y[numEccDigits - 1] ≠ 0 then 1 else 0

/-- `EccPoint_isZero`. -/
def eccPointIsZero (point : EccPoint) : Bool := vliIsZero point.x ≠ 0 ∧ vliIsZero point.y ≠ 0

/-- `ecc_valid_public_key`. -/
def eccValidPublicKey (publicKey : EccPoint) : Word :=
  let na : Vli := #v[3, 0, 0, 0, 0, 0]
  if eccPointIsZero publicKey then 0
  else if vliCmp curveP publicKey.x ≠ 1 ∨ vliCmp curveP publicKey.y ≠ 1 then 0
  else
    let tmp1 := vliModSquareFast publicKey.y
    let tmp2 := vliModSquareFast publicKey.x
    let tmp2 := vliModSub tmp2 na curveP
    let tmp2 := vliModMultFast tmp2 publicKey.x
    let tmp2 := vliModAdd tmp2 curveB curveP
    if vliCmp tmp1 tmp2 ≠ 0 then 0 else 1

end EbnAnchor.Core
