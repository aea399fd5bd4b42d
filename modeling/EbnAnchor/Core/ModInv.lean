import EbnAnchor.Core.VliBits
import EbnAnchor.Lib.BinaryInverse

/-!
`ecc.c`: `vli_modInv`.

* `turn_refines`: a turn of the loop is a step of the binary Euclidean algorithm;
* `vliModInv_spec`: the call returns the inverse of what has one, within 384 turns;
* `vliModInv_zero`: for zero it does not return.
-/

namespace EbnAnchor.Core

open Loop

/-! ### The loop -/

/-- `EVEN(vli)`. -/
def even (v : Vli) : Bool := digit v 0 &&& 1 = 0

/-- What `vli_modInv` does to a coefficient in every branch: halve it, with the modulus
added when it is odd. -/
def halveMod (u mod : Vli) : Vli :=
  let (u, carry) := if even u then (u, 0) else vliAdd u mod
  let u := vliRshift1 u
  if carry ≠ 0 then orTop u 0x80000000 else u

/-- What it does to a coefficient before that when the numbers are subtracted. -/
def subtractMod (u v mod : Vli) : Vli :=
  let u := if vliCmp u v < 0 then (vliAdd u mod).1 else u
  (vliSub u v).1

structure InvState where
  a : Vli
  b : Vli
  u : Vli
  v : Vli

/-- A turn of the loop of `vli_modInv`, for the `l_cmpResult` of its condition. -/
def modInvTurn (mod : Vli) (cmpResult : Int) (s : InvState) : InvState :=
  if even s.a then { s with a := vliRshift1 s.a, u := halveMod s.u mod }
  else if even s.b then { s with b := vliRshift1 s.b, v := halveMod s.v mod }
  else if cmpResult > 0 then
    { s with a := vliRshift1 (vliSub s.a s.b).1, u := halveMod (subtractMod s.u s.v mod) mod }
  else
    { s with b := vliRshift1 (vliSub s.b s.a).1, v := halveMod (subtractMod s.v s.u mod) mod }

/-- The `while` loop of `vli_modInv`, for as many turns as there is time. -/
def modInvLoop (mod : Vli) : Nat → InvState → Except Stop Vli
  | 0, s => if vliCmp s.a s.b = 0 then .ok s.u else .error .outOfTime
  | time + 1, s =>
    if vliCmp s.a s.b = 0 then .ok s.u
    else modInvLoop mod time (modInvTurn mod (vliCmp s.a s.b) s)

/-- `vli_clear`, and the lowest word set to one. -/
def vliOne : Vli := #v[1, 0, 0, 0, 0, 0]

/-- `vli_modInv`. -/
def vliModInv (time : Nat) (input mod : Vli) : Except Stop Vli :=
  modInvLoop mod time ⟨input, mod, vliOne, #v[0, 0, 0, 0, 0, 0]⟩

/-! ### The values -/

theorem even_iff (v : Vli) : even v = true ↔ val v % 2 = 0 := by
  have hbit := val_testBit v (by decide : 0 < 192)
  have hand : digit v 0 &&& 1 ≠ 0 ↔ (digit v 0).getLsbD 0 = true :=
    and_bit_ne_zero_iff (digit v 0) (by decide : 0 < 32)
  rw [Nat.testBit_zero, Nat.zero_div, Nat.zero_mod] at hbit
  rw [even, decide_eq_true_iff, ← not_iff_not, ← Ne, hand, ← hbit, decide_eq_true_iff]
  omega

theorem word_eq_flag {w : Word} (h : w.toNat ≤ 1) :
    ∃ flag : Bool, w = BitVec.ofNat 32 flag.toNat ∧ flag.toNat = w.toNat := by
  refine ⟨w.toNat = 1, ?_, ?_⟩
  · apply BitVec.eq_of_toNat_eq
    rcases Nat.le_one_iff_eq_zero_or_eq_one.mp h with h0 | h1
    · rw [h0]
      rfl
    · rw [h1]
      rfl
  · rcases Nat.le_one_iff_eq_zero_or_eq_one.mp h with h0 | h1
    · rw [h0]
      rfl
    · rw [h1]
      rfl

/-- A sum shifted right by one, with its carry on top. -/
theorem val_halve (s : Vli × Word) (hcarry : s.2.toNat ≤ 1) :
    val (orTop (vliRshift1 s.1) (s.2 <<< 31)) = (val s.1 + s.2.toNat * 2 ^ 192) / 2 := by
  obtain ⟨flag, hflag, hnat⟩ := word_eq_flag hcarry
  have hlt := s.1.val_lt
  have hhalf := val_vliRshift1 s.1
  rw [hflag, val_orTop _ (by omega), hhalf, ← hflag, hnat]
  omega

theorem val_halveMod (u mod : Vli) :
    val (halveMod u mod) = BinaryInverse.half (val mod) (val u) := by
  rw [halveMod, BinaryInverse.half]
  by_cases heven : even u
  · rw [if_pos heven, if_pos ((even_iff u).mp heven)]
    simp only [ne_eq, not_true_eq_false, if_false]
    exact val_vliRshift1 u
  · rw [if_neg heven, if_neg (mt (even_iff u).mpr heven)]
    obtain ⟨hsum, hcarry⟩ := val_vliAdd u mod
    dsimp only
    by_cases hzero : (vliAdd u mod).2 = 0
    · rw [hzero, word_toNat_zero, Nat.zero_mul, Nat.add_zero] at hsum
      simp only [hzero, ne_eq, not_true_eq_false, if_false]
      rw [val_vliRshift1, hsum]
    · have hpos := mt (toNat_eq_zero_iff _).mp hzero
      have hone : (vliAdd u mod).2 = 1 :=
        BitVec.eq_of_toNat_eq (Nat.le_antisymm hcarry (Nat.pos_of_ne_zero hpos))
      have hhalve := val_halve (vliAdd u mod) hcarry
      rw [hsum, hone] at hhalve
      rw [if_pos hzero, ← hhalve]
      rfl

/-- The subtraction does not borrow in the end. -/
theorem val_subtractMod {u v mod : Vli} (hu : val u < val mod) (hv : val v < val mod) :
    val (subtractMod u v mod) = BinaryInverse.sub (val mod) (val u) (val v) := by
  obtain ⟨hsum, hcarry⟩ := val_vliAdd u mod
  have hless : vliCmp u v < 0 ↔ val u < val v := by
    rcases vliCmp_cases u v with ⟨h, hcmp⟩ | ⟨h, hcmp⟩ | ⟨h, hcmp⟩ <;> omega
  have hmod := mod.val_lt
  rw [subtractMod, BinaryInverse.sub]
  by_cases hlt : val u < val v
  · rw [if_pos (hless.mpr hlt), if_pos hlt]
    obtain ⟨hdiff, hborrow⟩ := val_vliSub (vliAdd u mod).1 v
    have hsumlt := (vliAdd u mod).1.val_lt
    have hdifflt := (vliSub (vliAdd u mod).1 v).1.val_lt
    omega
  · rw [if_neg (mt hless.mp hlt), if_neg hlt]
    obtain ⟨hdiff, hborrow⟩ := val_vliSub u v
    have hdifflt := (vliSub u v).1.val_lt
    omega

theorem val_vliSub_of_le {left right : Vli} (h : val right ≤ val left) :
    val (vliSub left right).1 = val left - val right := by
  obtain ⟨hdiff, hborrow⟩ := val_vliSub left right
  have hleft := left.val_lt
  have hlt := (vliSub left right).1.val_lt
  omega

/-! ### The algorithm -/

/-- The numbers of a state. -/
def InvState.numbers (s : InvState) : BinaryInverse.State :=
  ⟨val s.a, val s.b, val s.u, val s.v⟩

/-- A turn is a step of the binary Euclidean algorithm. -/
theorem turn_refines {mod : Vli} {s : InvState} (hu : val s.u < val mod)
    (hv : val s.v < val mod) :
    (modInvTurn mod (vliCmp s.a s.b) s).numbers = BinaryInverse.step (val mod) s.numbers := by
  have hgreater : vliCmp s.a s.b > 0 ↔ s.numbers.b < s.numbers.a := by
    change vliCmp s.a s.b > 0 ↔ val s.b < val s.a
    rcases vliCmp_cases s.a s.b with ⟨h, hcmp⟩ | ⟨h, hcmp⟩ | ⟨h, hcmp⟩ <;> omega
  have ha : even s.a = true ↔ s.numbers.a % 2 = 0 := even_iff s.a
  have hb : even s.b = true ↔ s.numbers.b % 2 = 0 := even_iff s.b
  rw [modInvTurn, BinaryInverse.step]
  by_cases heven : s.numbers.a % 2 = 0
  · rw [if_pos (ha.mpr heven), if_pos heven]
    simp only [InvState.numbers, val_vliRshift1, val_halveMod]
  rw [if_neg (mt ha.mp heven), if_neg heven]
  by_cases heven' : s.numbers.b % 2 = 0
  · rw [if_pos (hb.mpr heven'), if_pos heven']
    simp only [InvState.numbers, val_vliRshift1, val_halveMod]
  rw [if_neg (mt hb.mp heven'), if_neg heven']
  by_cases hlt : s.numbers.b < s.numbers.a
  · rw [if_pos (hgreater.mpr hlt), if_pos hlt]
    have hsub := val_vliSub_of_le (Nat.le_of_lt hlt)
    simp only [InvState.numbers, val_vliRshift1, val_halveMod, hsub, val_subtractMod hu hv]
  · rw [if_neg (mt hgreater.mp hlt), if_neg hlt]
    have hsub := val_vliSub_of_le (Nat.not_lt.mp hlt)
    simp only [InvState.numbers, val_vliRshift1, val_halveMod, hsub, val_subtractMod hv hu]

theorem cmp_eq_zero_iff (s : InvState) : vliCmp s.a s.b = 0 ↔ s.numbers.a = s.numbers.b := by
  rw [vliCmp_eq_zero_iff]
  exact ⟨congrArg val, eq_of_val_eq⟩

/-- The loop is the run of the algorithm. -/
theorem loop_refines {mod : Vli} (hodd : val mod % 2 = 1) {x : Nat} (time : Nat) {s : InvState}
    (h : BinaryInverse.Inverts (val mod) x s.numbers) :
    (∃ r, modInvLoop mod time s = .ok r ∧
      BinaryInverse.run (val mod) time s.numbers = some (val r)) ∨
    modInvLoop mod time s = .error .outOfTime ∧
      BinaryInverse.run (val mod) time s.numbers = none := by
  induction time generalizing s with
  | zero =>
    simp only [modInvLoop, BinaryInverse.run, cmp_eq_zero_iff]
    split_ifs
    · exact Or.inl ⟨s.u, rfl, rfl⟩
    · exact Or.inr ⟨rfl, rfl⟩
  | succ time ih =>
    simp only [modInvLoop, BinaryInverse.run, cmp_eq_zero_iff]
    split_ifs with heq
    · exact Or.inl ⟨s.u, rfl, rfl⟩
    · rw [← turn_refines h.u_lt h.v_lt]
      apply ih
      rw [turn_refines h.u_lt h.v_lt]
      exact h.step hodd heq

/-- More time changes nothing. -/
theorem modInvLoop_mono {mod r : Vli} {time time' : Nat} {s : InvState}
    (h : modInvLoop mod time s = .ok r) (hle : time ≤ time') : modInvLoop mod time' s = .ok r := by
  induction time generalizing time' s with
  | zero =>
    rw [modInvLoop] at h
    split_ifs at h with heq
    cases time' with
    | zero => rwa [modInvLoop, if_pos heq]
    | succ time' => rwa [modInvLoop, if_pos heq]
  | succ time ih =>
    obtain ⟨time', rfl⟩ := Nat.exists_eq_add_of_le' (Nat.lt_of_lt_of_le (Nat.succ_pos time) hle)
    rw [modInvLoop] at h ⊢
    split_ifs at h ⊢ with heq
    · exact h
    · exact ih h (by omega)

theorem vliModInv_start (input mod : Vli) :
    (InvState.mk input mod vliOne #v[0, 0, 0, 0, 0, 0]).numbers =
      BinaryInverse.start (val mod) (val input) := by
  have hone : val vliOne = 1 := by decide
  have hzero : val (#v[0, 0, 0, 0, 0, 0] : Vli) = 0 := by decide
  rw [InvState.numbers, hone, hzero]
  rfl

/-- `vli_modInv` returns within 384 turns. For an odd modulus what it returns, times the
input, is the greatest common divisor of the input and the modulus: an inverse when there
is one. -/
theorem vliModInv_spec {input mod : Vli} (hodd : val mod % 2 = 1) (hmod : 1 < val mod)
    (hinput : 0 < val input) {time : Nat} (htime : 384 ≤ time) :
    ∃ r, vliModInv time input mod = .ok r ∧ val r < val mod ∧
      val r * val input ≡ Nat.gcd (val input) (val mod) [MOD val mod] := by
  have hsize : Nat.size (val input) + Nat.size (val mod) ≤ time := by
    have hi := Nat.size_le.mpr input.val_lt
    have hm := Nat.size_le.mpr mod.val_lt
    omega
  obtain ⟨r, hrun, hr⟩ := BinaryInverse.run_spec hmod hodd hinput hsize
  have hstart := BinaryInverse.Inverts.start hmod hinput
  rw [← vliModInv_start] at hrun hstart
  rcases loop_refines hodd time hstart with ⟨r', hloop, hrun'⟩ | ⟨-, hnone⟩
  · rw [hrun] at hrun'
    obtain rfl := Option.some.inj hrun'
    exact ⟨r', hloop, hr⟩
  · rw [hrun] at hnone
    exact absurd hnone (Option.some_ne_none r)

/-- For zero the loop goes on for ever: the first number stays zero. -/
theorem vliModInv_zero {input mod : Vli} (hodd : val mod % 2 = 1) (hinput : val input = 0)
    (time : Nat) : vliModInv time input mod = .error .outOfTime := by
  have hloop : ∀ s : InvState, val s.a = 0 → s.b = mod →
      modInvLoop mod time s = .error .outOfTime := by
    induction time with
    | zero =>
      intro s ha hb
      rw [modInvLoop, if_neg]
      rw [vliCmp_eq_zero_iff]
      intro heq
      rw [heq, hb] at ha
      omega
    | succ time ih =>
      intro s ha hb
      have hne : ¬ vliCmp s.a s.b = 0 := by
        rw [vliCmp_eq_zero_iff]
        intro heq
        rw [heq, hb] at ha
        omega
      have heven : even s.a = true := by rw [even_iff, ha]
      rw [modInvLoop, if_neg hne, modInvTurn, if_pos heven]
      apply ih
      · dsimp only
        rw [val_vliRshift1, ha]
      · exact hb
  exact hloop _ hinput rfl

/-- For an odd modulus, `vli_modInv` returns the inverse of every number that has one, below
the modulus and within 384 turns; it returns for every number but zero, and for zero never. -/
theorem vliModInv_answers (input mod : Vli) (hodd : val mod % 2 = 1) (hmod : 1 < val mod) :
    (val input ≠ 0 → ∃ r, (∀ time, 384 ≤ time → vliModInv time input mod = .ok r) ∧
      val r < val mod ∧
      (Nat.Coprime (val input) (val mod) → val r * val input % val mod = 1)) ∧
    (val input = 0 → ∀ time, vliModInv time input mod = .error .outOfTime) := by
  constructor
  · intro hne
    obtain ⟨r, hrun, hlt, hmul⟩ := vliModInv_spec hodd hmod (Nat.pos_of_ne_zero hne) le_rfl
    refine ⟨r, fun time htime => ?_, hlt, fun hcoprime => ?_⟩
    · exact modInvLoop_mono hrun htime
    · rw [hcoprime, Nat.ModEq, Nat.mod_eq_of_lt hmod] at hmul
      exact hmul
  · intro hzero time
    exact vliModInv_zero hodd hzero time

/-- Modulo 15: 7 has the inverse 13, and 0 has none. -/
theorem vliModInv_answers_fifteen :
    (∃ r, (∀ time, 384 ≤ time →
        vliModInv time #v[7, 0, 0, 0, 0, 0] #v[15, 0, 0, 0, 0, 0] = .ok r) ∧ val r * 7 % 15 = 1) ∧
      ∀ time, vliModInv time #v[0, 0, 0, 0, 0, 0] #v[15, 0, 0, 0, 0, 0] = .error .outOfTime := by
  constructor
  · obtain ⟨r, hrun, -, hmul⟩ := (vliModInv_answers #v[7, 0, 0, 0, 0, 0] #v[15, 0, 0, 0, 0, 0]
      (by decide) (by decide)).1 (by decide)
    exact ⟨r, hrun, hmul (by decide)⟩
  · exact (vliModInv_answers #v[0, 0, 0, 0, 0, 0] #v[15, 0, 0, 0, 0, 0]
      (by decide) (by decide)).2 (by decide)

end EbnAnchor.Core
