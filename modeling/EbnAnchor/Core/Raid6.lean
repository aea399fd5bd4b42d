import EbnAnchor.Core.Recovery

/-!
`reed_sol.c`: `reed_sol_r6_encode` at `w = 32`.

Coding device 0 takes the sum of the data devices, coding device 1 the sum of `2^i` times
data device `i`, by Horner's rule with a doubling of its own that works on whole words.
`prim32` is filled in by the first doubling and kept.

The devices then hold a code word of the RAID-6 code (`r6Encode_spec`), so the decoder for
matrices restores any two of them (`r6_restores`).
-/

namespace EbnAnchor.Core

open Loop Mds BinaryField

/-! ### Doubling -/

/-- `(v << 1) ^ ((v & 0x80000000) ? prim32 : 0)`. -/
def multby2 (prim32 v : Word) : Word :=
  (v <<< 1) ^^^ (if v &&& 0x80000000 ≠ 0 then prim32 else 0)

/-- `reed_sol_galois_w32_region_multby_2`; the state is `prim32` and the memory. -/
def reedSolGaloisW32RegionMultby2 (region nbytes : Nat) (s : Word × Memory) : Word × Memory :=
  let prim32 := if s.1 = -1 then galoisSingleMultiply (1#32 <<< 31) 2 else s.1
  (prim32, forUp 0 ((nbytes + 3) / 4) (fun l1 m =>
    (m.touch (region + l1)).store (region + l1) (multby2 prim32 (m.cells (region + l1)))) s.2)

/-- Double coding region 1 and add data region `i`. -/
def hornerStep (p : Pointers) (size i : Nat) (s : Word × Memory) : Word × Memory :=
  let s := reedSolGaloisW32RegionMultby2 (p.coding 1) size s
  (s.1, galoisRegionXor (p.coding 1) (p.data i) (p.coding 1) size s.2)

/-- `reed_sol_r6_encode(k, 32, ..)`. -/
def reedSolR6Encode (k : Nat) (p : Pointers) (size : Nat) (s : Word × Memory) :
    Word × Memory :=
  let m := memcpyWords (p.coding 0) (p.data 0) size s.2
  let m := forUp 1 (k - 1) (fun i m =>
    galoisRegionXor (p.coding 0) (p.data i) (p.coding 0) size m) m
  let m := memcpyWords (p.coding 1) (p.data (k - 1)) size m
  forDown (k - 1) (hornerStep p size) (s.1, m)

/-- What `prim32` may hold: nothing yet, or the polynomial. -/
def PrimOk (prim32 : Word) : Prop :=
  prim32 = -1 ∨ prim32 = galoisSingleMultiply (1#32 <<< 31) 2

theorem gf_two : gf 2 = gfX := by
  have h : (2 : Word) = mulX primPoly 1#32 := by decide
  rw [h, gf, elem_mulX, ← gf, gf_one, mul_one]

theorem prim32_eq : galoisSingleMultiply (1#32 <<< 31) 2 = primPoly := by
  apply gf_injective
  have h : primPoly = mulX primPoly (1#32 <<< 31) := by decide
  rw [gf_galoisSingleMultiply, gf_two, mul_comm]
  conv_rhs => rw [h, gf, elem_mulX]
  rfl

/-- The doubling is the multiplication by two. -/
theorem gf_multby2 (v : Word) : gf (multby2 (galoisSingleMultiply (1#32 <<< 31) 2) v)
    = gfX * gf v := by
  have hstep : multby2 primPoly v = scratchStep v := by
    rw [multby2, scratchStep]
    have hmask : (0x80000000 : Word) = 1#32 <<< 31 := by decide
    have hall : ∀ x : Word, x &&& nwm1 = x := fun x => BitVec.and_allOnes
    rw [hmask]
    split_ifs
    · rw [hall]
    · exact BitVec.xor_zero
  rw [prim32_eq, hstep, scratchStep_eq, gf, elem_mulX]
  rfl

section Regions

variable {n dst src : Nat} {m : Memory}

/-- `galois_region_xor` into its first argument. -/
theorem galoisRegionXor_left (hsep : ∀ o < n, ∀ o' < n, src + o ≠ dst + o') :
    (∀ o < n, (galoisRegionXor dst src dst (4 * n) m).cells (dst + o)
        = m.cells (dst + o) ^^^ m.cells (src + o)) ∧
      ∀ a, (∀ o < n, a ≠ dst + o) →
        (galoisRegionXor dst src dst (4 * n) m).cells a = m.cells a := by
  have hwords : (4 * n + 3) / 4 = n := by omega
  rw [galoisRegionXor, hwords]
  exact forUp_region (w := fun x y => x ^^^ y) (fun _ _ => rfl) hsep

/-- A doubling of a region, whatever is in `prim32`. -/
theorem multby2_region {s : Word × Memory} (hprim : PrimOk s.1) :
    PrimOk (reedSolGaloisW32RegionMultby2 dst (4 * n) s).1 ∧
      (∀ o < n, gf ((reedSolGaloisW32RegionMultby2 dst (4 * n) s).2.cells (dst + o))
        = gfX * gf (s.2.cells (dst + o))) ∧
      ∀ a, (∀ o < n, a ≠ dst + o) →
        (reedSolGaloisW32RegionMultby2 dst (4 * n) s).2.cells a = s.2.cells a := by
  have hset : (if s.1 = -1 then galoisSingleMultiply (1#32 <<< 31) 2 else s.1)
      = galoisSingleMultiply (1#32 <<< 31) 2 := by
    split_ifs with hfirst
    · rfl
    · exact hprim.resolve_left hfirst
  have hwords : (4 * n + 3) / 4 = n := by omega
  rw [reedSolGaloisW32RegionMultby2, hset, hwords]
  dsimp only
  refine ⟨Or.inr rfl, ?_⟩
  rw [forUp_hom (g := Memory.cells) (u := fun k u => Function.update u (dst + k)
    (multby2 (galoisSingleMultiply (1#32 <<< 31) 2) (u (dst + k)))) fun k m _ _ => rfl]
  obtain ⟨hdone, hkeep⟩ := forUp_store (a := 0) (n := n) (x := fun k => dst + k)
    (w := fun k u => multby2 (galoisSingleMultiply (1#32 <<< 31) 2) (u (dst + k)))
    (v := s.2.cells) (fun k k' _ hlt _ heq => by omega)
    (fun k u _ hk hu => by rw [hu (dst + k) fun k' _ hlt heq => by omega])
  constructor
  · intro o ho
    rw [hdone o (Nat.zero_le o) (by omega), gf_multby2]
  · intro a ha
    exact hkeep a fun k _ hk heq => ha k (by omega) heq.symm

end Regions

/-! ### The code -/

/-- The coding matrix of RAID-6: a row of ones, a row of the powers of two. -/
def r6Matrix (k : Nat) : IntArray := fun j =>
  if j < k then 1 else (fun tmp => galoisSingleMultiply tmp 2)^[j - k] 1

theorem gf_r6Matrix_ones {k c : Nat} (hc : c < k) : r6Matrix k c = 1 := if_pos hc

theorem gf_r6Matrix_powers (k c : Nat) : gf (r6Matrix k (k + c)) = gfX ^ c := by
  rw [r6Matrix, if_neg (by omega), Nat.add_sub_cancel_left]
  induction c with
  | zero => exact gf_ofNat_one
  | succ c ih => rw [Function.iterate_succ_apply', gf_galoisSingleMultiply, ih, gf_two, pow_succ]

/-- Two has order `2^32 - 1`. -/
theorem isMds_r6 {k : Nat} (hk : k ≤ 2 ^ 32 - 1) : IsMds (generator k 2 (r6Matrix k)) := by
  have hX : gfX ≠ 0 := by
    rw [← gf_two]
    exact gf_ne_zero (by decide)
  refine isMds_twoParities (a := fun c : Fin k => gfX ^ (c : Nat)) ?_
    (fun c => pow_ne_zero _ hX) ?_ ?_ ?_
  · intro c c' heq
    refine Fin.ext (pow_injOn_Iio_orderOf ?_ ?_ heq)
    · rw [orderOf_root]
      exact lt_of_lt_of_le c.isLt hk
    · rw [orderOf_root]
      exact lt_of_lt_of_le c'.isLt hk
  · intro i c
    rw [generator, Fin.val_castAdd, if_pos i.isLt]
    simp only [Fin.ext_iff]
  · intro c
    have hrow : (Fin.natAdd k (0 : Fin 2) : Nat) = k := by simp
    rw [generator, hrow, if_neg (lt_irrefl k), Nat.sub_self, Nat.zero_mul, Nat.zero_add,
      gf_r6Matrix_ones c.isLt, gf_ofNat_one]
  · intro c
    have hrow : (Fin.natAdd k (1 : Fin 2) : Nat) = k + 1 := by simp
    rw [generator, hrow, if_neg (by omega), Nat.add_sub_cancel_left, Nat.one_mul,
      gf_r6Matrix_powers]

/-! ### Encoding -/

section Encoding

variable {k n : Nat} {p : Pointers}

theorem device_data {c : Nat} (hc : c < k) : p.device k c = p.data c := if_pos hc

theorem device_coding (i : Nat) : p.device k (k + i) = p.coding i := by
  rw [Pointers.device, if_neg (by omega), Nat.add_sub_cancel_left]

theorem Separate.data_coding (h : Separate k 2 n p) {c i : Nat} (hc : c < k) (hi : i < 2) :
    ∀ o < n, ∀ o' < n, p.data c + o ≠ p.coding i + o' := by
  intro o ho o' ho'
  have := h c (by omega) (k + i) (by omega) (by omega) o ho o' ho'
  rwa [device_data hc, device_coding] at this

theorem Separate.coding_coding (h : Separate k 2 n p) :
    ∀ o < n, ∀ o' < n, p.coding 0 + o ≠ p.coding 1 + o' := by
  intro o ho o' ho'
  have := h (k + 0) (by omega) (k + 1) (by omega) (by omega) o ho o' ho'
  rwa [device_coding, device_coding] at this

/-- The first half: coding device 0 takes the sum of the data devices. -/
theorem parity_spec (hsep : Separate k 2 n p) (hk : 0 < k) (mem : Memory) :
    let m := forUp 1 (k - 1) (fun i m =>
      galoisRegionXor (p.coding 0) (p.data i) (p.coding 0) (4 * n) m)
      (memcpyWords (p.coding 0) (p.data 0) (4 * n) mem)
    (∀ o < n, gf (m.cells (p.coding 0 + o))
        = ∑ c ∈ Finset.range k, gf (mem.cells (p.data c + o))) ∧
      ∀ a, (∀ o < n, a ≠ p.coding 0 + o) → m.cells a = mem.cells a := by
  obtain ⟨hcopy, hkeep⟩ := memcpyWords_region (m := mem)
    (hsep.data_coding hk (by decide : 0 < 2))
  have hloop := forUp_invariant (a := 1) (n := k - 1)
    (s := memcpyWords (p.coding 0) (p.data 0) (4 * n) mem)
    (f := fun i m => galoisRegionXor (p.coding 0) (p.data i) (p.coding 0) (4 * n) m)
    (P := fun i m => (∀ o < n, gf (m.cells (p.coding 0 + o))
        = ∑ c ∈ Finset.range i, gf (mem.cells (p.data c + o))) ∧
      ∀ a, (∀ o < n, a ≠ p.coding 0 + o) → m.cells a = mem.cells a)
    ⟨fun o ho => by rw [hcopy o ho, Finset.sum_range_one], hkeep⟩
    (by
      rintro i m hi hik ⟨hsum, hframe⟩
      have hdata := hsep.data_coding (by omega : i < k) (by decide : 0 < 2)
      obtain ⟨hxor, hkeep'⟩ := galoisRegionXor_left (m := m) hdata
      refine ⟨fun o ho => ?_, fun a ha => (hkeep' a ha).trans (hframe a ha)⟩
      rw [hxor o ho, gf_xor, hsum o ho, Finset.sum_range_succ,
        hframe _ fun o' ho' => hdata o ho o' ho'])
  have hend : 1 + (k - 1) = k := by omega
  rw [hend] at hloop
  exact hloop

/-- One turn of Horner's rule. -/
theorem hornerStep_spec (hsep : Separate k 2 n p) {i : Nat} (hi : i < k) {s : Word × Memory}
    (hprim : PrimOk s.1) :
    PrimOk (hornerStep p (4 * n) i s).1 ∧
      (∀ o < n, gf ((hornerStep p (4 * n) i s).2.cells (p.coding 1 + o))
        = gfX * gf (s.2.cells (p.coding 1 + o)) + gf (s.2.cells (p.data i + o))) ∧
      ∀ a, (∀ o < n, a ≠ p.coding 1 + o) →
        (hornerStep p (4 * n) i s).2.cells a = s.2.cells a := by
  have hdata := hsep.data_coding hi (by decide : 1 < 2)
  obtain ⟨hprim', hdouble, hkeep⟩ := @multby2_region n (p.coding 1) s hprim
  obtain ⟨hxor, hkeep'⟩ := galoisRegionXor_left
    (m := (reedSolGaloisW32RegionMultby2 (p.coding 1) (4 * n) s).2) hdata
  refine ⟨hprim', fun o ho => ?_, fun a ha => (hkeep' a ha).trans (hkeep a ha)⟩
  rw [hornerStep]
  dsimp only
  rw [hxor o ho, gf_xor, hdouble o ho, hkeep _ fun o' ho' => hdata o ho o' ho']

/-- The second half: coding device 1 takes the sum weighted with the powers of two. -/
theorem weighted_spec (hsep : Separate k 2 n p) (hk : 0 < k) {prim32 : Word}
    (hprim : PrimOk prim32) (mem : Memory) :
    let s := forDown (k - 1) (hornerStep p (4 * n))
      (prim32, memcpyWords (p.coding 1) (p.data (k - 1)) (4 * n) mem)
    PrimOk s.1 ∧ (∀ o < n, gf (s.2.cells (p.coding 1 + o))
        = ∑ c ∈ Finset.range k, gfX ^ c * gf (mem.cells (p.data c + o))) ∧
      ∀ a, (∀ o < n, a ≠ p.coding 1 + o) → s.2.cells a = mem.cells a := by
  obtain ⟨hcopy, hkeep⟩ := memcpyWords_region (m := mem)
    (hsep.data_coding (by omega : k - 1 < k) (by decide : 1 < 2))
  have hloop := forDown_invariant (n := k - 1) (f := hornerStep p (4 * n))
    (s := (prim32, memcpyWords (p.coding 1) (p.data (k - 1)) (4 * n) mem))
    (P := fun i s => PrimOk s.1 ∧ (∀ o < n, gf (s.2.cells (p.coding 1 + o))
        = ∑ c ∈ Finset.range (k - i), gfX ^ c * gf (mem.cells (p.data (i + c) + o))) ∧
      ∀ a, (∀ o < n, a ≠ p.coding 1 + o) → s.2.cells a = mem.cells a)
    (by
      refine ⟨hprim, fun o ho => ?_, hkeep⟩
      have hone : k - (k - 1) = 1 := by omega
      rw [hone, Finset.sum_range_one, pow_zero, one_mul, Nat.add_zero]
      exact congrArg gf (hcopy o ho))
    (by
      rintro i s hi ⟨hprim', hsum, hframe⟩
      obtain ⟨hprim₂, hvalue, hkeep₂⟩ := hornerStep_spec hsep (by omega : i < k) hprim'
      refine ⟨hprim₂, fun o ho => ?_, fun a ha => (hkeep₂ a ha).trans (hframe a ha)⟩
      have hcount : k - i = k - (i + 1) + 1 := by omega
      have hdata := hsep.data_coding (by omega : i < k) (by decide : 1 < 2)
      rw [hvalue o ho, hsum o ho, hframe _ fun o' ho' => hdata o ho o' ho', hcount,
        Finset.sum_range_succ', pow_zero, one_mul, Nat.add_zero i, Finset.mul_sum, add_left_inj]
      refine Finset.sum_congr rfl fun c _ => ?_
      have hindex : i + 1 + c = i + (c + 1) := by omega
      rw [hindex, pow_succ', mul_assoc])
  simp only [Nat.sub_zero, Nat.zero_add] at hloop
  exact hloop

/-- Every device holds its symbol of the RAID-6 code word of the data. -/
theorem r6Encode_spec (hsep : Separate k 2 n p) (hk : 0 < k) {prim32 : Word}
    (hprim : PrimOk prim32) (mem : Memory) :
    let s := reedSolR6Encode k p (4 * n) (prim32, mem)
    PrimOk s.1 ∧
      ∀ id, Holds k 2 n (r6Matrix k) p (fun o c => gf (mem.cells (p.data c + o))) s.2 id := by
  rw [reedSolR6Encode]
  obtain ⟨hparity, hkeep₁⟩ := parity_spec hsep hk mem
  generalize forUp 1 (k - 1) _ (memcpyWords (p.coding 0) (p.data 0) (4 * n) mem) = m
    at hparity hkeep₁ ⊢
  obtain ⟨hprim', hweighted, hkeep₂⟩ := weighted_spec hsep hk hprim m
  refine ⟨hprim', fun id o ho => ?_⟩
  dsimp only
  generalize forDown (k - 1) (hornerStep p (4 * n))
    (prim32, memcpyWords (p.coding 1) (p.data (k - 1)) (4 * n) m) = s at hweighted hkeep₂ ⊢
  have hdata : ∀ c < k, m.cells (p.data c + o) = mem.cells (p.data c + o) := fun c hc =>
    hkeep₁ _ fun o' ho' => hsep.data_coding hc (by decide) o ho o' ho'
  by_cases hid : (id : Nat) < k
  · rw [generator_data hid, device_data hid, hkeep₂ _ fun o' ho' =>
      hsep.data_coding hid (by decide) o ho o' ho', hdata id hid]
  · rw [generator_coding (by omega)]
    have hcases : (id : Nat) = k + 0 ∨ (id : Nat) = k + 1 := by omega
    rcases hcases with h0 | h1
    · rw [h0, device_coding, Nat.add_zero, Nat.sub_self,
        hkeep₂ _ fun o' ho' => hsep.coding_coding o ho o' ho', hparity o ho, Finset.sum_range]
      refine Finset.sum_congr rfl fun c _ => ?_
      rw [Nat.zero_mul, Nat.zero_add, gf_r6Matrix_ones c.isLt, gf_ofNat_one, one_mul]
    · rw [h1, device_coding, Nat.add_sub_cancel_left, hweighted o ho, Finset.sum_range]
      refine Finset.sum_congr rfl fun c _ => ?_
      rw [Nat.one_mul, gf_r6Matrix_powers, hdata c c.isLt]

end Encoding

/-- `reed_sol_r6_encode`, any loss of up to two devices, `jerasure_matrix_decode`: every word
is back. With more than two lost the decoder says so and stores nothing. -/
theorem r6_restores {k n : Nat} (hk : 0 < k) (hk' : k ≤ 2 ^ 32 - 1) {p : Pointers}
    (hsep : Separate k 2 n p) {prim32 : Word} (hprim : PrimOk prim32) {erasures : List Nat}
    (hlt : ∀ e ∈ erasures, e < k + 2) (rowKOnes : Bool) (heap : Blocks) (mem damaged : Memory)
    (hdamaged : Damaged k n p erasures (reedSolR6Encode k p (4 * n) (prim32, mem)).2 damaged) :
    (erasures.toFinset.card ≤ 2 → ∃ mem',
      jerasureMatrixDecode k 2 (r6Matrix k) rowKOnes erasures p (4 * n) heap damaged
        = some (0, mem') ∧
      mem'.cells = (reedSolR6Encode k p (4 * n) (prim32, mem)).2.cells) ∧
    (2 < erasures.toFinset.card →
      jerasureMatrixDecode k 2 (r6Matrix k) rowKOnes erasures p (4 * n) heap damaged
        = some (-1, damaged)) :=
  decode_coded hsep (isMds_r6 hk') hk (fun _ _ hc => gf_r6Matrix_ones hc) hlt heap
    (r6Encode_spec hsep hk hprim mem).2 hdamaged

/-- Two data words; both are lost. -/
theorem r6_restores_two_words :
    let heap : Blocks := ⟨fun _ => 1, fun _ => 2, fun _ => 3, fun _ => 4, fun _ => 5⟩
    let mem : Memory := ⟨fun a => BitVec.ofNat 32 (a + 1), []⟩
    let coded := (reedSolR6Encode 2 wordDevices (4 * 1) (-1, mem)).2
    ∃ mem', jerasureMatrixDecode 2 2 (r6Matrix 2) true [0, 1] wordDevices (4 * 1) heap
        ((coded.store 0 7).store 1 9) = some (0, mem') ∧ mem'.cells = coded.cells := by
  intro heap mem coded
  refine (r6_restores (k := 2) (n := 1) (by decide) (by decide) separate_wordDevices
    (Or.inl rfl : PrimOk (-1)) (by decide : ∀ e ∈ [0, 1], e < 2 + 2) true heap mem
    ((coded.store 0 7).store 1 9) fun a ha => ?_).1 (by decide)
  have h0 : a ≠ 0 := ha 0 (by decide) 0 (by decide)
  have h1 : a ≠ 1 := ha 1 (by decide) 0 (by decide)
  simp only [Memory.store]
  rw [Function.update_of_ne h1, Function.update_of_ne h0]

end EbnAnchor.Core
