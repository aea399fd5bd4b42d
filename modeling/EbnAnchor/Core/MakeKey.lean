import EbnAnchor.Core.BasePoint

/-!
`ecc.c`: `ecc_make_key` and `ecdh_shared_secret`.

* `eccMakeKey_outcomes`: what `ecc_make_key` does for every random number;
* `ecdh_agrees`: two parties with keys of `ecc_make_key` share a secret;
* `ecdh_accepted_stops`: with an accepted public key `ecdh_shared_secret` may not return.
-/

namespace EbnAnchor.Core

open CoZ

/-! ### The functions -/

/-- `ecc_make_key`: the value returned, the public and the private key. -/
def eccMakeKey (time : Nat) (publicKey : EccPoint) (random : Vli) :
    Except Stop (Int × EccPoint × Vli) :=
  let privateKey := if vliCmp curveN random ≠ 1 then (vliSub random curveN).1 else random
  if vliIsZero privateKey ≠ 0 then .ok (0, publicKey, privateKey)
  else (eccPointMult time curveG privateKey none).map fun publicKey => (1, publicKey, privateKey)

/-- `ecdh_shared_secret`: the value returned and the secret. -/
def ecdhSharedSecret (time : Nat) (secret : Vli) (publicKey : EccPoint) (privateKey : Vli)
    (random : Option Vli) : Except Stop (Int × Vli) :=
  (eccPointMult time publicKey privateKey random).map fun product =>
    if eccPointIsZero product then (0, secret) else (1, product.x)

/-! ### Making a key -/

/-- The private key: the random number, less the order when it is not below it. -/
theorem val_privateKey (random : Vli) :
    val (if vliCmp curveN random ≠ 1 then (vliSub random curveN).1 else random) =
      val random % order := by
  have hrandom := random.val_lt
  have hbig : 2 ^ 192 < 2 * order := by decide
  by_cases hcmp : vliCmp curveN random ≠ 1
  · have hle := (vliCmp_ne_one_iff ..).mp hcmp
    rw [if_pos hcmp, val_vliSub_of_le hle, val_curveN]
    rw [val_curveN] at hle
    rw [Nat.mod_eq_sub_mod hle, Nat.mod_eq_of_lt (by omega)]
  · have hlt := (vliCmp_eq_one_iff ..).mp (not_not.mp hcmp)
    rw [val_curveN] at hlt
    rw [if_neg hcmp, Nat.mod_eq_of_lt hlt]

/-- `ecc_make_key` multiplies the generator, unless the private key is zero. -/
theorem eccMakeKey_eq (random : Vli) :
    ∃ privateKey, val privateKey = val random % order ∧ ∀ time publicKey,
      eccMakeKey time publicKey random =
        if val privateKey = 0 then .ok (0, publicKey, privateKey)
        else (eccPointMult time curveG privateKey none).map fun publicKey =>
          (1, publicKey, privateKey) := by
  refine ⟨_, val_privateKey random, fun time publicKey => ?_⟩
  simp only [eccMakeKey, vliIsZero_ne_zero_iff]

theorem basePoint_x_ne : fp curveG.x ≠ 0 := by
  rw [fp_curveG.1]
  exact computed.2.1.1

theorem basePoint_odd : addOrderOf basePoint % 2 = 1 := by
  rw [addOrderOf_basePoint]
  exact order_odd

theorem plain_z : ∀ z ∈ (none : Option Vli), fp z ≠ 0 := fun z hz =>
  absurd hz (Option.not_mem_none z)

theorem mult_basePoint (scalar : Vli) (hlow : 2 ≤ val scalar) (hhigh : val scalar + 1 < order)
    {time : Nat} (htime : 384 ≤ time) :
    ∃ result, eccPointMult time curveG scalar none = .ok result ∧
      Represents result (val scalar • basePoint) := by
  rw [← addOrderOf_basePoint] at hhigh
  exact eccPointMult_spec represents_basePoint basePoint_x_ne basePoint_odd plain_z hlow hhigh
    htime

theorem mult_basePoint_last {scalar : Vli} (hlast : val scalar + 1 = order) (time : Nat) :
    eccPointMult time curveG scalar none = .error .outOfTime := by
  have hbig : 2 < order := by decide
  rw [← addOrderOf_basePoint] at hlast hbig
  exact eccPointMult_opposite time represents_basePoint basePoint_odd plain_z (by omega) hlast

/-- Between the extremes, `ecc_make_key` makes a key. -/
theorem eccMakeKey_made (random : Vli) (hlow : 2 ≤ val random % order)
    (hhigh : val random % order + 1 < order) {time : Nat} (htime : 384 ≤ time)
    (publicKey : EccPoint) :
    ∃ publicKey' privateKey, eccMakeKey time publicKey random = .ok (1, publicKey', privateKey) ∧
      val privateKey = val random % order ∧
      Represents publicKey' ((val random % order) • basePoint) := by
  obtain ⟨privateKey, hprivate, hcall⟩ := eccMakeKey_eq random
  obtain ⟨result, hrun, hresult⟩ := mult_basePoint privateKey (by omega) (by omega) htime
  rw [hprivate] at hresult
  refine ⟨result, privateKey, ?_, hprivate, hresult⟩
  rw [hcall, if_neg (by omega), hrun]
  rfl

/-- What `ecc_make_key` does with each random number, `d` modulo the order. For 0 it answers
0, as it says. For 1 it reads outside the private key; for the largest it does not return.
For all others it answers 1, the public key is the multiple of the generator, and
`ecc_valid_public_key` accepts it. -/
theorem eccMakeKey_outcomes (publicKey : EccPoint) (random : Vli) :
    let d := val random % order
    (d = 0 → ∀ time, ∃ privateKey,
        eccMakeKey time publicKey random = .ok (0, publicKey, privateKey)) ∧
      (d = 1 → ∀ time, eccMakeKey time publicKey random = .error .outOfBounds) ∧
      (2 ≤ d → d + 1 < order → ∀ time, 384 ≤ time → ∃ publicKey' privateKey,
        eccMakeKey time publicKey random = .ok (1, publicKey', privateKey) ∧
        val privateKey = d ∧ Represents publicKey' (d • basePoint) ∧
        eccValidPublicKey publicKey' = 1) ∧
      (d + 1 = order → ∀ time, eccMakeKey time publicKey random = .error .outOfTime) := by
  obtain ⟨privateKey, hprivate, hcall⟩ := eccMakeKey_eq random
  intro d
  have hbig : 2 < order := by decide
  refine ⟨fun h0 time => ?_, fun h1 time => ?_, fun hlow hhigh time htime => ?_,
    fun hlast time => ?_⟩
  · exact ⟨privateKey, by rw [hcall, if_pos (hprivate.trans h0)]⟩
  · rw [hcall, if_neg (by omega), eccPointMult_short time (by omega)]
    rfl
  · obtain ⟨publicKey', privateKey', hrun, hval, hmade⟩ := eccMakeKey_made random hlow hhigh htime
      publicKey
    exact ⟨publicKey', privateKey', hrun, hval, hmade, hmade.valid⟩
  · rw [hcall, if_neg (by omega), mult_basePoint_last (by omega)]
    rfl

/-! ### Sharing a secret -/

/-- The keys of a call of `ecc_make_key` that answered 1. -/
structure MadeKey (publicKey : EccPoint) (privateKey : Vli) : Prop where
  low : 2 ≤ val privateKey
  high : val privateKey + 1 < order
  represents : Represents publicKey (val privateKey • basePoint)

theorem madeKey {time : Nat} (htime : 384 ≤ time) {publicKey publicKey' : EccPoint}
    {random privateKey : Vli}
    (hrun : eccMakeKey time publicKey random = .ok (1, publicKey', privateKey)) :
    MadeKey publicKey' privateKey := by
  obtain ⟨privateKey', hprivate, hcall⟩ := eccMakeKey_eq random
  have hlt : val privateKey' < order := by
    rw [hprivate]
    exact Nat.mod_lt _ prime_order.pos
  rw [hcall] at hrun
  by_cases h0 : val privateKey' = 0
  · rw [if_pos h0] at hrun
    simp at hrun
  rw [if_neg h0] at hrun
  by_cases h1 : val privateKey' = 1
  · rw [eccPointMult_short time (by omega)] at hrun
    simp [Except.map] at hrun
  by_cases hlast : val privateKey' + 1 = order
  · rw [mult_basePoint_last hlast] at hrun
    simp [Except.map] at hrun
  obtain ⟨result, hmult, hresult⟩ := mult_basePoint privateKey' (by omega) (by omega) htime
  rw [hmult] at hrun
  simp only [Except.map, Except.ok.injEq, Prod.mk.injEq, true_and] at hrun
  obtain ⟨rfl, rfl⟩ := hrun
  exact ⟨by omega, by omega, hresult⟩

/-- What one party computes from the public key of the other. -/
theorem MadeKey.shared {publicKey₁ publicKey₂ : EccPoint} {privateKey₁ privateKey₂ : Vli}
    (h₁ : MadeKey publicKey₁ privateKey₁) (h₂ : MadeKey publicKey₂ privateKey₂)
    (hx : val publicKey₂.x ≠ 0) {random : Option Vli} (hz : ∀ z ∈ random, val z % prime ≠ 0)
    {time : Nat} (htime : 384 ≤ time) (secret : Vli) :
    ∃ product, ecdhSharedSecret time secret publicKey₂ privateKey₁ random = .ok (1, product.x) ∧
      Represents product ((val privateKey₁ * val privateKey₂) • basePoint) := by
  have hhigh := h₂.high
  have horder := addOrderOf_smul (d := val privateKey₂) (by have := h₂.low; omega) (by omega)
  have hx' : fp publicKey₂.x ≠ 0 := (fp_eq_zero_iff h₂.represents.x_lt).not.mpr hx
  have hz' : ∀ z ∈ random, fp z ≠ 0 := by
    intro z hmem hzero
    rw [fp, ZMod.natCast_eq_zero_iff] at hzero
    exact hz z hmem (Nat.mod_eq_zero_of_dvd hzero)
  obtain ⟨product, hrun, hproduct⟩ := eccPointMult_spec h₂.represents hx'
    (by rw [horder]; exact order_odd) hz' h₁.low (by rw [horder]; exact h₁.high) htime
  rw [smul_smul] at hproduct
  refine ⟨product, ?_, hproduct⟩
  rw [ecdhSharedSecret, hrun, Except.map, hproduct.not_isZero]
  rfl

/-- Two parties with keys of `ecc_make_key` compute the same secret, each from its private key
and the public key of the other, with or without random multipliers; unless one of the
x-coordinates is 0. -/
theorem ecdh_agrees {time : Nat} (htime : 384 ≤ time) {p₁ p₂ publicKey₁ publicKey₂ : EccPoint}
    {random₁ random₂ privateKey₁ privateKey₂ : Vli}
    (hmade₁ : eccMakeKey time p₁ random₁ = .ok (1, publicKey₁, privateKey₁))
    (hmade₂ : eccMakeKey time p₂ random₂ = .ok (1, publicKey₂, privateKey₂))
    {z₁ z₂ : Option Vli} (hz₁ : ∀ z ∈ z₁, val z % prime ≠ 0) (hz₂ : ∀ z ∈ z₂, val z % prime ≠ 0)
    (hx₁ : val publicKey₁.x ≠ 0) (hx₂ : val publicKey₂.x ≠ 0) (secret₁ secret₂ : Vli) :
    ∃ shared, ecdhSharedSecret time secret₁ publicKey₂ privateKey₁ z₁ = .ok (1, shared) ∧
      ecdhSharedSecret time secret₂ publicKey₁ privateKey₂ z₂ = .ok (1, shared) := by
  have h₁ := madeKey htime hmade₁
  have h₂ := madeKey htime hmade₂
  obtain ⟨product₁, hrun₁, hproduct₁⟩ := h₁.shared h₂ hx₂ hz₁ htime secret₁
  obtain ⟨product₂, hrun₂, hproduct₂⟩ := h₂.shared h₁ hx₁ hz₂ htime secret₂
  rw [Nat.mul_comm] at hproduct₂
  rw [hproduct₂.unique hproduct₁] at hrun₂
  exact ⟨product₁.x, hrun₁, hrun₂⟩

/-- The x-coordinate of a point is 0 if it is over some denominator. -/
theorem Represents.x_ne {point : EccPoint} {P : curve.Point} (h : Represents point P)
    {Z X Y : ZMod prime} (hrep : Rep P Z X Y) (hX : X ≠ 0) : val point.x ≠ 0 := by
  intro hzero
  apply hX
  have hscale := h.rep.scale hrep.ne
  rw [one_mul] at hscale
  rw [(hrep.unique hscale).1, fp, hzero, Nat.cast_zero, zero_mul]

/-- The x-coordinates of the multiples of the generator by 2 and 3 are not 0. -/
theorem small_multiples_x {d : Nat} (hd : d = 2 ∨ d = 3) {point : EccPoint}
    (h : Represents point (d • basePoint)) : val point.x ≠ 0 := by
  obtain ⟨-, -, -, -, hne, hdouble, htriple⟩ := computed
  rcases hd with rfl | rfl
  · rw [two_nsmul] at h
    exact h.x_ne over_basePair.snd hdouble
  · have hover : Over (1 • basePoint) ((1 + 1) • basePoint) baseY basePair := by
      rw [one_nsmul, two_nsmul]
      exact over_basePair
    obtain ⟨Z, hfirst⟩ := hover.first false hne
    exact h.x_ne hfirst.snd htriple

/-- The random numbers 2 and 3. -/
theorem ecdh_agrees_two_three :
    ∃ publicKey₁ publicKey₂ privateKey₁ privateKey₂ shared,
      eccMakeKey 384 curveG #v[2, 0, 0, 0, 0, 0] = .ok (1, publicKey₁, privateKey₁) ∧
      eccMakeKey 384 curveG #v[3, 0, 0, 0, 0, 0] = .ok (1, publicKey₂, privateKey₂) ∧
      ecdhSharedSecret 384 curveN publicKey₂ privateKey₁ (some #v[5, 0, 0, 0, 0, 0])
        = .ok (1, shared) ∧
      ecdhSharedSecret 384 curveN publicKey₁ privateKey₂ none = .ok (1, shared) := by
  have htwo : val (#v[2, 0, 0, 0, 0, 0] : Vli) % order = 2 := by decide
  have hthree : val (#v[3, 0, 0, 0, 0, 0] : Vli) % order = 3 := by decide
  obtain ⟨publicKey₁, privateKey₁, hrun₁, -, hmade₁⟩ :=
    eccMakeKey_made #v[2, 0, 0, 0, 0, 0] (by rw [htwo]) (by rw [htwo]; decide) le_rfl curveG
  obtain ⟨publicKey₂, privateKey₂, hrun₂, -, hmade₂⟩ :=
    eccMakeKey_made #v[3, 0, 0, 0, 0, 0] (by rw [hthree]; decide) (by rw [hthree]; decide) le_rfl
      curveG
  rw [htwo] at hmade₁
  rw [hthree] at hmade₂
  have hz₁ : ∀ z ∈ some (#v[5, 0, 0, 0, 0, 0] : Vli), val z % prime ≠ 0 := by
    intro z hz
    obtain rfl := Option.some.inj hz
    decide
  have hz₂ : ∀ z ∈ (none : Option Vli), val z % prime ≠ 0 := by simp
  obtain ⟨shared, hshared⟩ := ecdh_agrees le_rfl hrun₁ hrun₂ hz₁ hz₂
    (small_multiples_x (Or.inl rfl) hmade₁) (small_multiples_x (Or.inr rfl) hmade₂) curveN curveN
  exact ⟨publicKey₁, publicKey₂, privateKey₁, privateKey₂, shared, hrun₁, hrun₂, hshared⟩

/-- With a public key whose x-coordinate is 0 no call of `ecdh_shared_secret` answers, whatever
the private key is, and `ecc_valid_public_key` accepts such keys. -/
theorem ecdh_accepted_stops :
    (∀ publicKey : EccPoint, val publicKey.x = 0 → ∀ time secret privateKey random,
      ∃ stop, ecdhSharedSecret time secret publicKey privateKey random = .error stop) ∧
    ∃ publicKey, eccValidPublicKey publicKey = 1 ∧ val publicKey.x = 0 := by
  constructor
  · intro publicKey hx time secret privateKey random
    rw [ecdhSharedSecret]
    by_cases hlow : val privateKey ≤ 1
    · rw [eccPointMult_short time hlow]
      exact ⟨.outOfBounds, rfl⟩
    · rw [eccPointMult_x_zero time (by omega) hx]
      exact ⟨.outOfTime, rfl⟩
  · refine ⟨⟨#v[0, 0, 0, 0, 0, 0],
      #v[0x9FC9F0ED, 0xC5F5D1F1, 0xED0D44A0, 0x9C24A156, 0x119FF34C, 0x8497A9FA]⟩, ?_, by decide⟩
    rw [eccValidPublicKey_eq_one_iff]
    decide +kernel

end EbnAnchor.Core
