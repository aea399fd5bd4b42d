import EbnAnchor.Core.Mem
import EbnAnchor.Lib.Loop
import EbnAnchor.Lib.Radix

/-!
The multi-precision arithmetic of `ecc.c` for `secp192r1`, in the Thumb-2 version the
firmware compiles (`ECC_ASM` is `ecc_asm_thumb2`), with the carry flag written out.

Numbers are arrays of 32-bit digits, lowest first; an index counts digits where the
assembly counts bytes. Each function has one lemma that says what it does to the value:
`val_vliAdd`, `val_vliSub`, `val_vliMult`, `val_vliSquare`, `val_vliMmodFast`, ...
-/

namespace EbnAnchor.Core

open Loop

/-- `NUM_ECC_DIGITS` for `secp192r1`. -/
abbrev numEccDigits : Nat := 6

/-- `uint32_t [NUM_ECC_DIGITS]`. -/
abbrev Vli := Vector Word numEccDigits

/-- The double-length array `l_product`. -/
abbrev VliProduct := Vector Word (2 * numEccDigits)

section Digits

variable {n : Nat}

def digit (v : Vector Word n) (i : Nat) : Word := v[i]?.getD 0

def ofDigits (n : Nat) (d : Nat → Word) : Vector Word n := Vector.ofFn fun i => d i

/-- The number an array stands for. -/
def val (v : Vector Word n) : Nat := Radix.value (2 ^ 32) (fun i => (digit v i).toNat) n

theorem digit_ofDigits (d : Nat → Word) {i : Nat} (hi : i < n) : digit (ofDigits n d) i = d i := by
  simp [digit, ofDigits, hi]

theorem val_ofDigits (d : Nat → Word) :
    val (ofDigits n d) = Radix.value (2 ^ 32) (fun i => (d i).toNat) n :=
  Radix.value_congr fun i hi => by rw [digit_ofDigits d hi]

theorem val_lt (v : Vector Word n) : val v < (2 ^ 32) ^ n :=
  Radix.value_lt fun i _ => (digit v i).isLt

theorem eq_of_val_eq {v w : Vector Word n} (h : val v = val w) : v = w := by
  have hdigits := Radix.digit_eq_of_value_eq (fun i _ => (digit v i).isLt)
    (fun i _ => (digit w i).isLt) h
  refine Vector.ext fun i hi => ?_
  have heq := BitVec.eq_of_toNat_eq (hdigits i hi)
  simpa [digit, hi] using heq

end Digits

theorem Vli.val_lt (v : Vli) : val v < 2 ^ 192 := by
  have h := Core.val_lt v
  rwa [← pow_mul] at h

/-- Storing the next digit of a result. -/
theorem value_update (d : Nat → Word) (i : Nat) (w : Word) :
    Radix.value (2 ^ 32) (fun j => (Function.update d i w j).toNat) (i + 1) =
      Radix.value (2 ^ 32) (fun j => (d j).toNat) i + w.toNat * (2 ^ 32) ^ i := by
  rw [Radix.value_succ, Function.update_self]
  congr 1
  exact Radix.value_congr fun j hj => by rw [Function.update_of_ne (by omega)]

/-! ### Comparing -/

def vliIsZero (v : Vli) : Word :=
  if (List.range numEccDigits).any fun i => digit v i ≠ 0 then 0 else 1

/-- The loop of `vli_cmp`, with the digits below `i` to go. -/
def vliCmpFrom (left right : Vli) : Nat → Int
  | 0 => 0
  | i + 1 =>
    if digit left i > digit right i then 1
    else if digit left i < digit right i then -1
    else vliCmpFrom left right i

def vliCmp (left right : Vli) : Int := vliCmpFrom left right numEccDigits

theorem vliIsZero_ne_zero_iff (v : Vli) : vliIsZero v ≠ 0 ↔ val v = 0 := by
  rw [vliIsZero]
  have hval : val v = 0 ↔ ∀ i < numEccDigits, digit v i = 0 := by
    rw [val, Radix.value, Finset.sum_eq_zero_iff]
    constructor
    · intro h i hi
      have hmul := h i (Finset.mem_range.mpr hi)
      rcases Nat.mul_eq_zero.mp hmul with hdigit | hpow
      · exact BitVec.eq_of_toNat_eq hdigit
      · exact absurd hpow (by positivity)
    · intro h i hi
      rw [h i (Finset.mem_range.mp hi)]
      exact Nat.zero_mul _
  by_cases hany : (List.range numEccDigits).any fun i => digit v i ≠ 0
  · rw [if_pos hany]
    obtain ⟨i, hi, hne⟩ := List.any_eq_true.mp hany
    have hdigit : digit v i ≠ 0 := by simpa using hne
    constructor
    · intro h
      exact absurd rfl h
    · intro h
      exact absurd (hval.mp h i (List.mem_range.mp hi)) hdigit
  · rw [if_neg hany]
    refine ⟨fun _ => hval.mpr fun i hi => ?_, fun _ => by decide⟩
    by_contra hdigit
    exact hany (List.any_eq_true.mpr ⟨i, List.mem_range.mpr hi, by simpa using hdigit⟩)

/-- The loop compares the numbers below digit `n`. -/
theorem vliCmpFrom_cases (left right : Vli) (n : Nat) :
    let l := Radix.value (2 ^ 32) (fun i => (digit left i).toNat) n
    let r := Radix.value (2 ^ 32) (fun i => (digit right i).toNat) n
    (r < l ∧ vliCmpFrom left right n = 1) ∨ (l < r ∧ vliCmpFrom left right n = -1) ∨
      (l = r ∧ vliCmpFrom left right n = 0) := by
  induction n with
  | zero => exact Or.inr (Or.inr ⟨rfl, rfl⟩)
  | succ n ih =>
    rw [vliCmpFrom]
    by_cases hgt : digit left n > digit right n
    · rw [if_pos hgt]
      exact Or.inl ⟨Radix.value_lt_value (fun i _ => (digit right i).isLt) hgt, rfl⟩
    · rw [if_neg hgt]
      by_cases hlt : digit left n < digit right n
      · rw [if_pos hlt]
        exact Or.inr (Or.inl ⟨Radix.value_lt_value (fun i _ => (digit left i).isLt) hlt, rfl⟩)
      · rw [if_neg hlt]
        have heq : (digit left n).toNat = (digit right n).toNat :=
          Nat.le_antisymm (Nat.not_lt.mp hgt) (Nat.not_lt.mp hlt)
        simp only [Radix.value_succ, heq, Nat.add_lt_add_iff_right, Nat.add_right_cancel_iff]
        exact ih

theorem vliCmp_cases (left right : Vli) :
    (val right < val left ∧ vliCmp left right = 1) ∨
      (val left < val right ∧ vliCmp left right = -1) ∨
      (val left = val right ∧ vliCmp left right = 0) :=
  vliCmpFrom_cases left right numEccDigits

theorem vliCmp_eq_one_iff (left right : Vli) : vliCmp left right = 1 ↔ val right < val left := by
  rcases vliCmp_cases left right with ⟨h, hcmp⟩ | ⟨h, hcmp⟩ | ⟨h, hcmp⟩ <;> omega

theorem vliCmp_ne_one_iff (left right : Vli) : vliCmp left right ≠ 1 ↔ val left ≤ val right := by
  rw [Ne, vliCmp_eq_one_iff, Nat.not_lt]

theorem vliCmp_eq_zero_iff (left right : Vli) : vliCmp left right = 0 ↔ left = right := by
  constructor
  · intro hzero
    rcases vliCmp_cases left right with ⟨h, hcmp⟩ | ⟨h, hcmp⟩ | ⟨h, hcmp⟩
    · omega
    · omega
    · exact eq_of_val_eq h
  · rintro rfl
    rcases vliCmp_cases left left with ⟨h, hcmp⟩ | ⟨h, hcmp⟩ | ⟨h, hcmp⟩
    · omega
    · omega
    · exact hcmp

/-! ### Adding and subtracting -/

theorem word_toNat_zero : (0 : Word).toNat = 0 := rfl

/-- The sum of an ARM addition with the carry flag, and the flag it sets. -/
def addWithCarry (x y : Word) (carry : Bool) : Word × Bool :=
  (BitVec.ofNat 32 (x.toNat + y.toNat + carry.toNat),
    decide (2 ^ 32 ≤ x.toNat + y.toNat + carry.toNat))

theorem addWithCarry_spec (x y : Word) (carry : Bool) :
    (addWithCarry x y carry).1.toNat + (addWithCarry x y carry).2.toNat * 2 ^ 32 =
      x.toNat + y.toNat + carry.toNat := by
  have hx := x.isLt
  have hy := y.isLt
  have hc := carry.toNat_le
  rw [addWithCarry]
  by_cases hover : 2 ^ 32 ≤ x.toNat + y.toNat + carry.toNat
  · simp only [BitVec.toNat_ofNat, decide_eq_true hover, Bool.toNat_true]
    omega
  · simp only [BitVec.toNat_ofNat, decide_eq_false hover, Bool.toNat_false]
    omega

/-- `lsrs carry, #1` and, after the addition, `adcs carry, carry`. -/
def storeCarry (carry : Word) (flag : Bool) : Word :=
  (addWithCarry (carry >>> 1) (carry >>> 1) flag).1

/-- One pass of the loop of `vli_add`. -/
def addDigit (left right : Vli) (i : Nat) (s : (Nat → Word) × Word) : (Nat → Word) × Word :=
  let (result, carry) := s
  let (sum, flag) := addWithCarry (digit left i) (digit right i) (carry.getLsbD 0)
  (Function.update result i sum, storeCarry carry flag)

/-- `vli_add`: the sum and the carry it returns. -/
def vliAdd (left right : Vli) : Vli × Word :=
  let (result, carry) := forUp 0 numEccDigits (addDigit left right) (fun _ => 0, 0)
  (ofDigits _ result, carry)

/-- One pass of the loop of `vli_sub`; `sbcs` adds the complement. -/
def subDigit (left right : Vli) (i : Nat) (s : (Nat → Word) × Word) : (Nat → Word) × Word :=
  let (result, carry) := s
  let (diff, flag) := addWithCarry (digit left i) (~~~ digit right i) (carry.getLsbD 0)
  (Function.update result i diff, storeCarry carry flag)

/-- `vli_sub`: the difference and the borrow it returns. -/
def vliSub (left right : Vli) : Vli × Word :=
  let (result, carry) := forUp 0 numEccDigits (subDigit left right) (fun _ => 0, 1)
  (ofDigits _ result, if carry = 0 then 1 else 0)

/-- The carry kept between two digits is one bit. -/
theorem storeCarry_flag (flag flag' : Bool) :
    storeCarry (BitVec.ofNat 32 flag.toNat) flag' = BitVec.ofNat 32 flag'.toNat := by
  revert flag flag'
  decide

theorem getLsbD_flag (flag : Bool) : (BitVec.ofNat 32 flag.toNat).getLsbD 0 = flag := by
  revert flag
  decide

theorem val_vliAdd (left right : Vli) :
    val (vliAdd left right).1 + (vliAdd left right).2.toNat * 2 ^ 192 = val left + val right ∧
      (vliAdd left right).2.toNat ≤ 1 := by
  let value (d : Nat → Word) (i : Nat) : Nat := Radix.value (2 ^ 32) (fun j => (d j).toNat) i
  have hloop := forUp_invariant (a := 0) (n := numEccDigits) (f := addDigit left right)
    (s := (fun _ => 0, 0))
    (P := fun i s => ∃ flag : Bool, s.2 = BitVec.ofNat 32 flag.toNat ∧
      value s.1 i + flag.toNat * (2 ^ 32) ^ i = value (digit left) i + value (digit right) i)
    ⟨false, rfl, rfl⟩ (by
      rintro i ⟨result, carry⟩ - - ⟨flag, rfl, hsum⟩
      have hdigit := addWithCarry_spec (digit left i) (digit right i) flag
      simp only [addDigit, getLsbD_flag, storeCarry_flag]
      refine ⟨_, rfl, ?_⟩
      simp only [value] at hsum ⊢
      rw [value_update]
      exact Radix.add_digit hsum hdigit)
  rw [Nat.zero_add] at hloop
  obtain ⟨flag, hcarry, hsum⟩ := hloop
  have hresult : (vliAdd left right).1 = ofDigits numEccDigits
    (forUp 0 numEccDigits (addDigit left right) (fun _ => 0, 0)).1 := rfl
  have hflag : (vliAdd left right).2.toNat = flag.toNat := by
    have hlt := flag.toNat_le
    have hflag : (vliAdd left right).2 = BitVec.ofNat 32 flag.toNat := hcarry
    rw [hflag, BitVec.toNat_ofNat]
    omega
  rw [hflag, hresult, val_ofDigits]
  exact ⟨hsum, flag.toNat_le⟩

theorem val_vliSub (left right : Vli) :
    val (vliSub left right).1 + val right = val left + (vliSub left right).2.toNat * 2 ^ 192 ∧
      (vliSub left right).2.toNat ≤ 1 := by
  let value (d : Nat → Word) (i : Nat) : Nat := Radix.value (2 ^ 32) (fun j => (d j).toNat) i
  -- the flag is set as long as nothing is borrowed
  have hloop := forUp_invariant (a := 0) (n := numEccDigits) (f := subDigit left right)
    (s := (fun _ => 0, 1))
    (P := fun i s => ∃ flag : Bool, s.2 = BitVec.ofNat 32 flag.toNat ∧
      value s.1 i + value (digit right) i + flag.toNat * (2 ^ 32) ^ i =
        value (digit left) i + (2 ^ 32) ^ i)
    ⟨true, rfl, rfl⟩ (by
      rintro i ⟨result, carry⟩ - - ⟨flag, rfl, hsum⟩
      have hdigit := addWithCarry_spec (digit left i) (~~~ digit right i) flag
      have hnot : (~~~ digit right i).toNat + (digit right i).toNat + 1 = 2 ^ 32 := by
        have hlt := (digit right i).isLt
        rw [BitVec.toNat_not]
        omega
      simp only [subDigit, getLsbD_flag, storeCarry_flag]
      refine ⟨_, rfl, ?_⟩
      simp only [value] at hsum ⊢
      rw [value_update]
      exact Radix.sub_digit hsum (by omega))
  rw [Nat.zero_add] at hloop
  obtain ⟨flag, hcarry, hsum⟩ := hloop
  have hresult : (vliSub left right).1 = ofDigits numEccDigits
    (forUp 0 numEccDigits (subDigit left right) (fun _ => 0, 1)).1 := rfl
  have hborrow : (vliSub left right).2 = BitVec.ofNat 32 (!flag).toNat := by
    unfold vliSub
    dsimp only
    rw [hcarry]
    cases flag <;> rfl
  have hone : (vliSub left right).2.toNat = (!flag).toNat := by
    rw [hborrow]
    cases flag <;> rfl
  have hpow : ((2 : Nat) ^ 32) ^ numEccDigits = 2 ^ 192 := (pow_mul 2 32 6).symm
  rw [hpow] at hsum
  rw [hone, hresult, val_ofDigits, val, val]
  simp only [value] at hsum
  cases flag with
  | false =>
    rw [Bool.toNat_false] at hsum
    rw [Bool.not_false, Bool.toNat_true]
    omega
  | true =>
    rw [Bool.toNat_true] at hsum
    rw [Bool.not_true, Bool.toNat_false]
    omega

/-- `vli_modAdd`. -/
def vliModAdd (left right mod : Vli) : Vli :=
  let (result, carry) := vliAdd left right
  if carry ≠ 0 ∨ vliCmp result mod ≥ 0 then (vliSub result mod).1 else result

/-- `vli_modSub`. -/
def vliModSub (left right mod : Vli) : Vli :=
  let (result, borrow) := vliSub left right
  if borrow ≠ 0 then (vliAdd result mod).1 else result

theorem toNat_eq_zero_iff (w : Word) : w.toNat = 0 ↔ w = 0 :=
  ⟨fun h => BitVec.eq_of_toNat_eq h, fun h => by rw [h]; rfl⟩

theorem val_vliModAdd {left right mod : Vli} (hl : val left < val mod) (hr : val right < val mod) :
    val (vliModAdd left right mod) = (val left + val right) % val mod := by
  obtain ⟨hsum, hcarry⟩ := val_vliAdd left right
  rw [vliModAdd]
  generalize vliAdd left right = s at hsum hcarry ⊢
  obtain ⟨result, carry⟩ := s
  simp only at hsum hcarry ⊢
  obtain ⟨hdiff, hborrow⟩ := val_vliSub result mod
  have hresult := result.val_lt
  have hdifflt := (vliSub result mod).1.val_lt
  have hzero := toNat_eq_zero_iff carry
  by_cases hover : carry ≠ 0 ∨ vliCmp result mod ≥ 0
  · rw [if_pos hover]
    have hge : val mod ≤ val left + val right := by
      rcases hover with hne | hcmp
      · have hpos := mt hzero.mp hne
        have hmod := mod.val_lt
        omega
      · rcases vliCmp_cases result mod with ⟨h, hc⟩ | ⟨h, hc⟩ | ⟨h, hc⟩ <;> omega
    rw [Nat.mod_eq_sub_mod hge, Nat.mod_eq_of_lt (by omega)]
    omega
  · rw [if_neg hover]
    push Not at hover
    have hnone : carry.toNat = 0 := hzero.mpr hover.1
    have hlt : val result < val mod := by
      rcases vliCmp_cases result mod with ⟨h, hc⟩ | ⟨h, hc⟩ | ⟨h, hc⟩ <;> omega
    rw [hnone, Nat.zero_mul, Nat.add_zero] at hsum
    rw [← hsum, Nat.mod_eq_of_lt hlt]

theorem val_vliModSub {left right mod : Vli} (hl : val left < val mod) (hr : val right < val mod) :
    val (vliModSub left right mod) = (val left + (val mod - val right)) % val mod := by
  obtain ⟨hdiff, hborrow⟩ := val_vliSub left right
  rw [vliModSub]
  generalize vliSub left right = s at hdiff hborrow ⊢
  obtain ⟨result, borrow⟩ := s
  simp only at hdiff hborrow ⊢
  obtain ⟨hsum, hcarry⟩ := val_vliAdd result mod
  have hresult := result.val_lt
  have hsumlt := (vliAdd result mod).1.val_lt
  have hmod := mod.val_lt
  have hzero := toNat_eq_zero_iff borrow
  by_cases hne : borrow ≠ 0
  · rw [if_pos hne]
    have hpos := mt hzero.mp hne
    have hone : borrow.toNat = 1 := by omega
    rw [hone] at hdiff
    rw [Nat.mod_eq_of_lt (by omega)]
    omega
  · rw [if_neg hne]
    have hnone : borrow.toNat = 0 := hzero.mpr (not_not.mp hne)
    rw [hnone, Nat.zero_mul, Nat.add_zero] at hdiff
    have hsplit : val left + (val mod - val right) = val result + val mod := by omega
    rw [hsplit, Nat.add_mod_right, Nat.mod_eq_of_lt (by omega)]

/-! ### Multiplying -/

/-- `umull`: the low and the high word of a product. -/
def umull (x y : Word) : Word × Word :=
  (BitVec.ofNat 32 (x.toNat * y.toNat), BitVec.ofNat 32 (x.toNat * y.toNat / 2 ^ 32))

/-- `lsls x, #1`: the shifted word and the bit shifted out. -/
def lslsOne (x : Word) : Word × Bool := (x <<< 1, x.msb)

/-- The registers that collect a column of a product. -/
structure ColumnSum where
  c0 : Word
  c1 : Word
  c2 : Word

def ColumnSum.val (c : ColumnSum) : Nat :=
  c.c0.toNat + c.c1.toNat * 2 ^ 32 + c.c2.toNat * 2 ^ 64

/-- `adds c0, t0; adcs c1, t1; adcs c2, #0`. -/
def ColumnSum.add (c : ColumnSum) (t0 t1 : Word) : ColumnSum :=
  let (c0, flag) := addWithCarry c.c0 t0 false
  let (c1, flag) := addWithCarry c.c1 t1 flag
  ⟨c0, c1, (addWithCarry c.c2 0 flag).1⟩

/-- The word stored, and the registers moved down for the next column. -/
def ColumnSum.next (c : ColumnSum) : ColumnSum := ⟨c.c1, c.c2, 0⟩

/-- The first digit of the left factor in column `k`. -/
def firstDigit (k : Nat) : Nat := if k < numEccDigits then 0 else k - (numEccDigits - 1)

/-- One pass of the inner loop of `vli_mult`. -/
def multDigit (left right : Vli) (k i : Nat) (c : ColumnSum) : ColumnSum :=
  let (t0, t1) := umull (digit left i) (digit right (k - i))
  c.add t0 t1

/-- The inner loop of `vli_mult`, while `i <= k` and `i < NUM_ECC_DIGITS`. -/
def multColumn (left right : Vli) (k : Nat) : ColumnSum → ColumnSum :=
  forUp (firstDigit k) (min (k + 1) numEccDigits - firstDigit k) (multDigit left right k)

/-- The outer loop of `vli_mult` and `vli_square` for a way to compute a column. -/
def scanColumns (column : Nat → ColumnSum → ColumnSum) : VliProduct :=
  let (result, c) := forUp 0 (2 * numEccDigits - 1)
    (fun k (result, c) =>
      let c := column k c
      (Function.update result k c.c0, c.next))
    ((fun _ => 0 : Nat → Word), ⟨0, 0, 0⟩)
  ofDigits _ (Function.update result (2 * numEccDigits - 1) c.c0)

def vliMult (left right : Vli) : VliProduct := scanColumns (multColumn left right)

/-- One pass of the inner loop of `vli_square`: a product before the middle counts
twice. -/
def squareDigit (left : Vli) (k i : Nat) (c : ColumnSum) : ColumnSum :=
  let (t0, t1) := umull (digit left i) (digit left (k - i))
  if i < k - i then
    let (t1, flag) := lslsOne t1
    let c2 := (addWithCarry c.c2 0 flag).1
    let (t0, flag) := lslsOne t0
    let t1 := (addWithCarry t1 0 flag).1
    { c with c2 := c2 }.add t0 t1
  else c.add t0 t1

/-- The inner loop of `vli_square`, while `i < k` and `i <= k - i`. -/
def squareColumn (left : Vli) (k : Nat) : ColumnSum → ColumnSum :=
  forUp (firstDigit k) (k / 2 + 1 - firstDigit k) (squareDigit left k)

def vliSquare (left : Vli) : VliProduct := scanColumns (squareColumn left)

theorem umull_spec (x y : Word) :
    (umull x y).1.toNat + (umull x y).2.toNat * 2 ^ 32 = x.toNat * y.toNat := by
  have hlt : x.toNat * y.toNat < 2 ^ 32 * 2 ^ 32 := Nat.mul_lt_mul'' x.isLt y.isLt
  simp only [umull, BitVec.toNat_ofNat]
  omega

theorem lslsOne_spec (x : Word) :
    (lslsOne x).1.toNat + (lslsOne x).2.toNat * 2 ^ 32 = 2 * x.toNat := by
  have hlt := x.isLt
  simp only [lslsOne, BitVec.toNat_shiftLeft, Nat.shiftLeft_eq]
  rw [BitVec.msb_eq_decide]
  by_cases htop : 2 ^ (32 - 1) ≤ x.toNat
  · rw [decide_eq_true htop, Bool.toNat_true]
    omega
  · rw [decide_eq_false htop, Bool.toNat_false]
    omega

/-- The registers hold the sum as long as it fits in them. -/
theorem ColumnSum.val_add {c : ColumnSum} {t0 t1 : Word}
    (hfits : c.val + (t0.toNat + t1.toNat * 2 ^ 32) < 2 ^ 96) :
    (c.add t0 t1).val = c.val + (t0.toNat + t1.toNat * 2 ^ 32) := by
  have h0 := addWithCarry_spec c.c0 t0 false
  have h1 := addWithCarry_spec c.c1 t1 (addWithCarry c.c0 t0 false).2
  have h2 := addWithCarry_spec c.c2 0 (addWithCarry c.c1 t1 (addWithCarry c.c0 t0 false).2).2
  simp only [ColumnSum.add, ColumnSum.val] at hfits ⊢
  have hzero : (0 : Word).toNat = 0 := rfl
  rw [hzero] at h2
  rw [Bool.toNat_false] at h0
  generalize (addWithCarry c.c0 t0 false).2.toNat = f0 at h0 h1
  omega

theorem digit_mul_lt (x y : Word) : x.toNat * y.toNat < 2 ^ 64 :=
  lt_of_lt_of_eq (Nat.mul_lt_mul'' x.isLt y.isLt) (pow_add 2 32 32).symm

theorem val_multDigit (left right : Vli) (k i : Nat) {c : ColumnSum}
    (hfits : c.val + (digit left i).toNat * (digit right (k - i)).toNat < 2 ^ 96) :
    (multDigit left right k i c).val =
      c.val + (digit left i).toNat * (digit right (k - i)).toNat := by
  rw [← umull_spec] at hfits ⊢
  exact ColumnSum.val_add hfits

theorem val_squareDigit (left : Vli) (k i : Nat) {c : ColumnSum}
    (hfits : c.val + (if i < k - i then 2 else 1) *
      ((digit left i).toNat * (digit left (k - i)).toNat) < 2 ^ 96) :
    (squareDigit left k i c).val = c.val + (if i < k - i then 2 else 1) *
      ((digit left i).toNat * (digit left (k - i)).toNat) := by
  rw [← umull_spec] at hfits ⊢
  simp only [squareDigit]
  generalize umull (digit left i) (digit left (k - i)) = t at hfits ⊢
  obtain ⟨t0, t1⟩ := t
  simp only at hfits ⊢
  by_cases hi : i < k - i
  · rw [if_pos hi] at hfits ⊢
    rw [if_pos hi]
    have hhigh := lslsOne_spec t1
    have hlow := lslsOne_spec t0
    have hc2 := addWithCarry_spec c.c2 0 (lslsOne t1).2
    have ht1 := addWithCarry_spec (lslsOne t1).1 0 (lslsOne t0).2
    have hbit := (lslsOne t0).2.toNat_le
    rw [word_toNat_zero] at hc2 ht1
    -- the shifted word is even, so the bit shifted into it does not carry
    have hshift : (lslsOne t1).1.toNat = 2 * t1.toNat % 2 ^ 32 := by
      rw [lslsOne, BitVec.toNat_shiftLeft, Nat.shiftLeft_eq, Nat.mul_comm, pow_one]
    have hval : (⟨c.c0, c.c1, (addWithCarry c.c2 0 (lslsOne t1).2).1⟩ : ColumnSum).val =
        c.val + (lslsOne t1).2.toNat * 2 ^ 64 := by
      simp only [ColumnSum.val] at hfits ⊢
      omega
    have hdouble : (lslsOne t0).1.toNat +
        (addWithCarry (lslsOne t1).1 0 (lslsOne t0).2).1.toNat * 2 ^ 32 +
        (lslsOne t1).2.toNat * 2 ^ 64 = 2 * (t0.toNat + t1.toNat * 2 ^ 32) := by
      omega
    rw [ColumnSum.val_add (by omega), hval]
    omega
  · rw [if_neg hi] at hfits ⊢
    rw [if_neg hi]
    rw [Nat.one_mul] at hfits ⊢
    exact ColumnSum.val_add hfits

section Columns

variable {step : Nat → ColumnSum → ColumnSum} {f : Nat → Nat}

/-- A loop that adds `f i` in pass `i`. -/
theorem val_forUp_column {a n : Nat} {c : ColumnSum}
    (hstep : ∀ i s, s.val + f i < 2 ^ 96 → (step i s).val = s.val + f i)
    (hfits : c.val + ∑ i ∈ Finset.Ico a (a + n), f i < 2 ^ 96) :
    (forUp a n step c).val = c.val + ∑ i ∈ Finset.Ico a (a + n), f i := by
  refine forUp_invariant (P := fun m (s : ColumnSum) => s.val = c.val + ∑ i ∈ Finset.Ico a m, f i)
    ?_ ?_
  · rw [Finset.Ico_self, Finset.sum_empty, Nat.add_zero]
  · intro m s hm hlt hs
    have hsum : ∑ i ∈ Finset.Ico a (m + 1), f i = ∑ i ∈ Finset.Ico a m, f i + f m :=
      Finset.sum_Ico_succ_top hm f
    have hpart : ∑ i ∈ Finset.Ico a (m + 1), f i ≤ ∑ i ∈ Finset.Ico a (a + n), f i :=
      Finset.sum_le_sum_of_subset (Finset.Ico_subset_Ico_right hlt)
    rw [hstep m s (by omega), hs, hsum, Nat.add_assoc]

theorem ColumnSum.val_next (c : ColumnSum) : c.val = c.c0.toNat + c.next.val * 2 ^ 32 := by
  simp only [ColumnSum.val, ColumnSum.next]
  rw [word_toNat_zero]
  omega

theorem ColumnSum.next_lt (c : ColumnSum) : c.next.val < 2 ^ 64 := by
  have h1 := c.c1.isLt
  have h2 := c.c2.isLt
  simp only [ColumnSum.val, ColumnSum.next]
  rw [word_toNat_zero]
  omega

/-- The columns add up to the product when the product fits in the digits. -/
theorem val_scanColumns
    (hcolumn : ∀ k < 2 * numEccDigits - 1, ∀ c, c.val < 2 ^ 64 →
      (step k c).val = c.val + f k)
    (hfits : Radix.value (2 ^ 32) f (2 * numEccDigits - 1) < (2 ^ 32) ^ (2 * numEccDigits)) :
    val (scanColumns step) = Radix.value (2 ^ 32) f (2 * numEccDigits - 1) := by
  let pass (k : Nat) (s : (Nat → Word) × ColumnSum) : (Nat → Word) × ColumnSum :=
    (Function.update s.1 k (step k s.2).c0, (step k s.2).next)
  have hloop := forUp_invariant (a := 0) (n := 2 * numEccDigits - 1) (f := pass)
    (s := (fun _ => 0, ⟨0, 0, 0⟩))
    (P := fun k s => s.2.val < 2 ^ 64 ∧
      Radix.value (2 ^ 32) (fun j => (s.1 j).toNat) k + s.2.val * (2 ^ 32) ^ k =
        Radix.value (2 ^ 32) f k)
    ⟨by decide, rfl⟩ (by
      rintro k ⟨result, c⟩ - hk ⟨hlt, hsum⟩
      have hnext := (step k c).val_next
      rw [Nat.zero_add] at hk
      rw [hcolumn k hk c hlt] at hnext
      refine ⟨(step k c).next_lt, ?_⟩
      simp only [pass] at hsum ⊢
      have hmul : (c.val + f k) * (2 ^ 32) ^ k =
          ((step k c).c0.toNat + (step k c).next.val * 2 ^ 32) * (2 ^ 32) ^ k := by rw [hnext]
      rw [value_update, Radix.value_succ, pow_succ' (2 ^ 32) k]
      linarith)
  rw [Nat.zero_add] at hloop
  have hresult : scanColumns step = ofDigits (2 * numEccDigits)
      (Function.update (forUp 0 (2 * numEccDigits - 1) pass (fun _ => 0, ⟨0, 0, 0⟩)).1
        (2 * numEccDigits - 1)
        (forUp 0 (2 * numEccDigits - 1) pass (fun _ => 0, ⟨0, 0, 0⟩)).2.c0) := rfl
  rw [hresult, val_ofDigits]
  generalize forUp 0 (2 * numEccDigits - 1) pass (fun _ => 0, ⟨0, 0, 0⟩) = s at hloop
  obtain ⟨-, hsum⟩ := hloop
  -- what is left after the last column is the top digit
  have htop : s.2.val * (2 ^ 32) ^ (2 * numEccDigits - 1) <
      2 ^ 32 * (2 ^ 32) ^ (2 * numEccDigits - 1) := by
    calc s.2.val * (2 ^ 32) ^ (2 * numEccDigits - 1)
        ≤ Radix.value (2 ^ 32) f (2 * numEccDigits - 1) := by
          rw [← hsum]
          exact Nat.le_add_left ..
      _ < (2 ^ 32) ^ (2 * numEccDigits) := hfits
      _ = 2 ^ 32 * (2 ^ 32) ^ (2 * numEccDigits - 1) := (pow_succ' (2 ^ 32) 11)
  have hlow : s.2.val = s.2.c0.toNat := by
    have hlt := Nat.lt_of_mul_lt_mul_right htop
    simp only [ColumnSum.val] at hlt ⊢
    omega
  rw [← hsum, hlow]
  exact value_update s.1 (2 * numEccDigits - 1) s.2.c0

end Columns

theorem firstDigit_eq (k : Nat) : firstDigit k = k + 1 - numEccDigits := by
  simp only [firstDigit, numEccDigits]
  split_ifs <;> omega

theorem column_le (left right : Vli) (k : Nat) :
    Radix.column (fun i => (digit left i).toNat) (fun i => (digit right i).toNat)
      numEccDigits k ≤ numEccDigits * 2 ^ 64 := by
  rw [Radix.column]
  refine (Finset.sum_le_card_nsmul _ _ (2 ^ 64) fun i _ => (digit_mul_lt _ _).le).trans ?_
  rw [Nat.card_Ico]
  exact Nat.mul_le_mul_right _ (by omega)

theorem mul_fits (left right : Vli) :
    Radix.value (2 ^ 32) (Radix.column (fun i => (digit left i).toNat)
      (fun i => (digit right i).toNat) numEccDigits) (2 * numEccDigits - 1) <
      (2 ^ 32) ^ (2 * numEccDigits) := by
  rw [← Radix.value_mul, two_mul, pow_add]
  exact Nat.mul_lt_mul'' (val_lt left) (val_lt right)

theorem val_multColumn (left right : Vli) {k : Nat} (hk : k < 2 * numEccDigits - 1)
    {c : ColumnSum} (hlt : c.val < 2 ^ 64) :
    (multColumn left right k c).val = c.val + Radix.column (fun i => (digit left i).toNat)
      (fun i => (digit right i).toNat) numEccDigits k := by
  have hfits := column_le left right k
  have hrange : firstDigit k + (min (k + 1) numEccDigits - firstDigit k) =
      min (k + 1) numEccDigits := by
    rw [firstDigit_eq]
    simp only [numEccDigits] at hk ⊢
    omega
  rw [Radix.column, ← firstDigit_eq, ← hrange] at hfits ⊢
  exact val_forUp_column (fun i s => val_multDigit left right k i)
    (lt_of_le_of_lt (Nat.add_le_add hlt.le hfits) (by decide))

theorem val_squareColumn (left : Vli) {k : Nat} (hk : k < 2 * numEccDigits - 1)
    {c : ColumnSum} (hlt : c.val < 2 ^ 64) :
    (squareColumn left k c).val = c.val + Radix.column (fun i => (digit left i).toNat)
      (fun i => (digit left i).toNat) numEccDigits k := by
  have hfits := column_le left left k
  have hrange : firstDigit k + (k / 2 + 1 - firstDigit k) = k / 2 + 1 := by
    rw [firstDigit_eq]
    simp only [numEccDigits] at hk ⊢
    omega
  rw [Radix.column_self _ hk, ← firstDigit_eq, ← hrange] at hfits ⊢
  exact val_forUp_column (fun i s => val_squareDigit left k i)
    (lt_of_le_of_lt (Nat.add_le_add hlt.le hfits) (by decide))

theorem val_vliMult (left right : Vli) : val (vliMult left right) = val left * val right := by
  have hmul := Radix.value_mul (2 ^ 32) (fun i => (digit left i).toNat)
    (fun i => (digit right i).toNat) numEccDigits
  exact (val_scanColumns (fun k hk _ hlt => val_multColumn left right hk hlt)
    (mul_fits left right)).trans hmul.symm

theorem val_vliSquare (left : Vli) : val (vliSquare left) = val left * val left := by
  have hmul := Radix.value_mul (2 ^ 32) (fun i => (digit left i).toNat)
    (fun i => (digit left i).toNat) numEccDigits
  exact (val_scanColumns (fun k hk _ hlt => val_squareColumn left hk hlt)
    (mul_fits left left)).trans hmul.symm

end EbnAnchor.Core
