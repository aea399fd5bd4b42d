import EbnAnchor.Core.Decode

/-!
What the coding matrix and the decoder are for together.

The matrix `reed_sol_vandermonde_coding_matrix` returns has ones in its first row and in its
first column (`codingMatrix_normal`), so the parity path of the decoder applies to it.
Whatever happens to at most `m` of the devices after an encoding, decoding brings the
memory back (`decode_restores`).
-/

namespace EbnAnchor.Core

open Loop Mds

/-! ### The ones of the coding matrix -/

section Ones

variable {rows cols : Nat} {dist : IntArray}

theorem eq_one_of_gf {x : Word} (h : gf x = 1) : x = 1 :=
  gf_injective (h.trans gf_ofNat_one.symm)

/-- The column scaled has its one, the others keep theirs. -/
theorem onesRow_ones {dist' : IntArray} {j : Nat} (hrows : cols < rows) (hj : j < cols)
    (hne : dist (cols * cols + j) ≠ 0#32) (hrun : onesRow rows cols j dist = some dist')
    (hones : ∀ c < j, dist (cols * cols + c) = 1) :
    ∀ c < j + 1, dist' (cols * cols + c) = 1 := by
  rw [onesRow] at hrun
  intro c hc
  by_cases hone : dist (cols * cols + j) = 1
  · rw [if_neg (not_not.mpr hone), Option.some.injEq] at hrun
    subst hrun
    rcases Nat.eq_or_lt_of_le (Nat.le_of_lt_succ hc) with rfl | hlt
    · exact hone
    · exact hones c hlt
  · obtain ⟨q, hq, hgf⟩ := galoisSingleDivide_one hne
    rw [if_pos hone, hq, Option.map_some, Option.some.injEq] at hrun
    subst hrun
    rw [scaleColumn_entry hj q (by omega)]
    rcases Nat.eq_or_lt_of_le (Nat.le_of_lt_succ hc) with rfl | hlt
    · rw [if_pos ⟨rfl, le_rfl, by omega⟩]
      refine eq_one_of_gf ?_
      rw [gf_galoisSingleMultiply, hgf, inv_mul_cancel₀ (gf_ne_zero hne)]
    · rw [if_neg (by omega)]
      exact hones c hlt

/-- The row scaled has its one, the other rows are left alone. -/
theorem onesColumn_ones {dist' : IntArray} {i : Nat} (hcols : 0 < cols)
    (hne : dist (i * cols) ≠ 0#32) (hrun : onesColumn cols i dist = some dist') :
    dist' (i * cols) = 1 ∧
      ∀ r, r ≠ i → ∀ c < cols, dist' (r * cols + c) = dist (r * cols + c) := by
  rw [onesColumn] at hrun
  by_cases hone : dist (i * cols) = 1
  · rw [if_neg (not_not.mpr hone), Option.some.injEq] at hrun
    subst hrun
    exact ⟨hone, fun _ _ _ _ => rfl⟩
  · obtain ⟨q, hq, hgf⟩ := galoisSingleDivide_one hne
    rw [if_pos hone, hq, Option.map_some, Option.some.injEq] at hrun
    subst hrun
    constructor
    · refine eq_one_of_gf ?_
      have hentry := @scaleRow_entry cols dist i q i 0 hcols
      rw [if_pos rfl, Nat.add_zero] at hentry
      rw [scaleRow] at hentry
      rw [hentry, gf_galoisSingleMultiply, hgf, mul_inv_cancel₀ (gf_ne_zero hne)]
    · intro r hr c hc
      have hentry := @scaleRow_entry cols dist i q r c hc
      rw [if_neg hr] at hentry
      exact hentry

/-- The elimination ends with ones in row `cols` and in the first column below it. -/
theorem distributionMatrix_ones (hcols : 0 < cols) (hrows : cols < rows)
    (hrows' : rows ≤ 2 ^ 32) (vdm : IntArray) :
    ∃ dist, reedSolBigVandermondeDistributionMatrix rows cols vdm = some dist ∧
      Reduced rows cols cols dist ∧ (∀ c < cols, dist (cols * cols + c) = 1) ∧
      ∀ r, cols ≤ r → r < rows → dist (r * cols) = 1 := by
  have hstart : Reduced rows cols 1 (reedSolExtendedVandermondeMatrix rows cols vdm) := by
    refine ⟨vandermonde_isMds hcols (by omega) hrows' vdm, unitRows_of_gf fun r hr c hc => ?_⟩
    have hzero : gf (BitVec.ofNat 32 0) = 0 := gf_zero
    obtain rfl : r = 0 := by omega
    rw [extendedVandermonde_entry (by omega) vdm (by omega) hc, if_neg (by omega), hzero,
      zero_pow_eq]
  obtain ⟨dist₁, hrun₁, h₁⟩ := forUpM_invariant (a := 1) (n := cols - 1)
    (f := eliminateColumn rows cols) hstart
    fun i u _ hi hu => hu.eliminateColumn (by omega) hrows
  have hall : 1 + (cols - 1) = cols := by omega
  rw [hall] at h₁
  obtain ⟨dist₂, hrun₂, h₂, hrow₂⟩ := forUpM_invariant (a := 0) (n := cols)
    (f := onesRow rows cols)
    (P := fun j u => Reduced rows cols cols u ∧ ∀ c < j, u (cols * cols + c) = 1)
    ⟨h₁, by simp⟩ (by
      rintro j u - hj ⟨hu, hones⟩
      obtain ⟨u', hrun, hu'⟩ := hu.onesRow hrows (by omega : j < cols)
      exact ⟨u', hrun, hu', onesRow_ones hrows (by omega)
        (hu.entry_ne hrows le_rfl hrows (by omega)) hrun hones⟩)
  rw [Nat.zero_add] at hrow₂
  obtain ⟨dist₃, hrun₃, h₃, hrow₃, hcol₃⟩ := forUpM_invariant (a := cols + 1)
    (n := rows - (cols + 1)) (f := onesColumn cols)
    (P := fun i u => Reduced rows cols cols u ∧ (∀ c < cols, u (cols * cols + c) = 1) ∧
      ∀ r, cols ≤ r → r < i → u (r * cols) = 1)
    ⟨h₂, hrow₂, fun r hr hlt => by
      obtain rfl : r = cols := by omega
      exact hrow₂ 0 hcols⟩
    (by
      rintro i u hi hlt ⟨hu, hrow, hcol⟩
      obtain ⟨u', hrun, hu'⟩ := hu.onesColumn hcols hrows (by omega : cols < i) (by omega)
      obtain ⟨hone, hkeep⟩ := onesColumn_ones hcols
        (hu.entry_ne hrows (by omega : cols ≤ i) (by omega) hcols) hrun
      refine ⟨u', hrun, hu', fun c hc => ?_, fun r hr hri => ?_⟩
      · rw [hkeep cols (by omega) c hc, hrow c hc]
      · rcases Nat.eq_or_lt_of_le (Nat.le_of_lt_succ hri) with rfl | hri'
        · exact hone
        · have := hkeep r (by omega) 0 hcols
          rw [Nat.add_zero] at this
          rw [this, hcol r hr hri'])
  have hend : cols + 1 + (rows - (cols + 1)) = rows := by omega
  rw [hend] at hcol₃
  refine ⟨dist₃, ?_, h₃, hrow₃, hcol₃⟩
  rw [reedSolBigVandermondeDistributionMatrix, if_neg (by omega)]
  dsimp only
  rw [hrun₁, Option.bind_some, hrun₂, Option.bind_some, hrun₃]

end Ones

/-- The coding matrix comes with a first row and a first column of ones. -/
theorem codingMatrix_normal {k m : Nat} (hk : 0 < k) (hm : 0 < m) (hkm : k + m ≤ 2 ^ 32)
    (vdm dist : IntArray) :
    ∃ matrix, reedSolVandermondeCodingMatrix k m vdm dist = some matrix ∧
      IsMds (generator k m matrix) ∧ (∀ c < k, matrix c = 1) ∧
      ∀ i < m, matrix (i * k) = 1 := by
  obtain ⟨matrix, hrun, hmds⟩ := codingMatrix_spec hk hm hkm vdm dist
  obtain ⟨full, hfull, -, hrow, hcol⟩ :=
    distributionMatrix_ones hk (by omega : k < k + m) hkm vdm
  refine ⟨matrix, hrun, hmds, ?_⟩
  rw [reedSolVandermondeCodingMatrix, hfull, Option.map_some, Option.some.injEq] at hrun
  have hcopy : ∀ j < m * k, matrix j = full (k * k + j) := fun j hj => by
    rw [← hrun]
    exact (forUp_store (x := id) (w := fun j _ => full (k * k + j))
      (fun _ _ _ hlt _ heq => by simp only [id] at heq; omega)
      (fun _ _ _ _ _ => rfl)).1 j (by omega) (by omega)
  constructor
  · intro c hc
    rw [hcopy c (lt_of_lt_of_le hc (Nat.le_mul_of_pos_left k hm)), hrow c hc]
  · intro i hi
    have hindex : k * k + i * k = (k + i) * k := by ring
    rw [hcopy _ (Nat.mul_lt_mul_of_pos_right hi hk), hindex,
      hcol (k + i) (by omega) (by omega)]

/-! ### Encoding, damage, decoding -/

section Recovery

variable {k m n : Nat} {matrix : IntArray} {p : Pointers} {v : Nat → Fin k → GF}
  {erasures : List Nat}

/-- The memories that differ from `coded` in lost devices only. -/
def Damaged (k n : Nat) (p : Pointers) (erasures : List Nat) (coded damaged : Memory) : Prop :=
  ∀ a, (∀ e ∈ erasures, ∀ o < n, a ≠ p.device k e + o) → damaged.cells a = coded.cells a

/-- Decoding brings back a memory in which every device held its symbol. -/
theorem decode_coded (hsep : Separate k m n p) (hmds : IsMds (generator k m matrix))
    (hk : 0 < k) {rowKOnes : Bool} (hones : rowKOnes = true → ∀ c < k, matrix c = 1)
    (hlt : ∀ e ∈ erasures, e < k + m) (heap : Blocks) {coded damaged : Memory}
    (hcoded : ∀ id, Holds k m n matrix p v coded id)
    (hdamaged : Damaged k n p erasures coded damaged) :
    (erasures.toFinset.card ≤ m → ∃ mem',
      jerasureMatrixDecode k m matrix rowKOnes erasures p (4 * n) heap damaged
        = some (0, mem') ∧ mem'.cells = coded.cells) ∧
    (m < erasures.toFinset.card →
      jerasureMatrixDecode k m matrix rowKOnes erasures p (4 * n) heap damaged
        = some (-1, damaged)) := by
  have hleft : ∀ id : Fin (k + m), (id : Nat) ∉ erasures →
      Holds k m n matrix p v damaged id := by
    intro id hid o ho
    rw [hdamaged _ fun e he o' ho' =>
      hsep id id.isLt e (hlt e he) (fun heq => hid (heq ▸ he)) o ho o' ho']
    exact hcoded id o ho
  obtain ⟨hunder, hover⟩ := decode_spec hsep hmds hk hones hlt heap hleft
  refine ⟨fun hcard => ?_, hover⟩
  obtain ⟨mem', hrun, hres⟩ := hunder hcard
  refine ⟨mem', hrun, funext fun a => ?_⟩
  by_cases hlost : ∃ e ∈ erasures, ∃ o < n, a = p.device k e + o
  · obtain ⟨e, he, o, ho, rfl⟩ := hlost
    apply gf_injective
    rw [hres.holds ⟨e, hlt e he⟩ trivial o ho]
    exact (hcoded ⟨e, hlt e he⟩ o ho).symm
  · push Not at hlost
    rw [hres.frame a hlost, hdamaged a hlost]

end Recovery

/-- Encode the data devices with the matrix of `reed_sol_vandermonde_coding_matrix`, let
anything happen to the devices in `erasures`, and decode, with or without the parity path:
up to `m` devices lost, the call returns 0 and every word of the memory is back; with more,
it returns -1 and the memory is as it was. -/
theorem decode_restores {k m n : Nat} (hk : 0 < k) (hm : 0 < m) (hkm : k + m ≤ 2 ^ 32)
    (vdm dist : IntArray) {p : Pointers} (hsep : Separate k m n p) {erasures : List Nat}
    (hlt : ∀ e ∈ erasures, e < k + m) (rowKOnes : Bool) (heap : Blocks) (mem : Memory) :
    ∃ matrix, reedSolVandermondeCodingMatrix k m vdm dist = some matrix ∧
      ∀ damaged, Damaged k n p erasures (jerasureMatrixEncode k m matrix p (4 * n) mem) damaged →
        (erasures.toFinset.card ≤ m → ∃ mem',
          jerasureMatrixDecode k m matrix rowKOnes erasures p (4 * n) heap damaged
            = some (0, mem') ∧
          mem'.cells = (jerasureMatrixEncode k m matrix p (4 * n) mem).cells) ∧
        (m < erasures.toFinset.card →
          jerasureMatrixDecode k m matrix rowKOnes erasures p (4 * n) heap damaged
            = some (-1, damaged)) := by
  obtain ⟨matrix, hmatrix, hmds, hones, -⟩ := codingMatrix_normal hk hm hkm vdm dist
  obtain ⟨hcoded, -⟩ := encode_regions hsep hmds hk mem
  exact ⟨matrix, hmatrix, fun damaged hdamaged =>
    decode_coded hsep hmds hk (fun _ => hones) hlt heap hcoded hdamaged⟩

/-- Data device `i` at word `i`, coding device `i` at word `10 + i`. -/
def wordDevices : Pointers := ⟨fun i => i, fun i => 10 + i⟩

theorem separate_wordDevices {m : Nat} : Separate 2 m 1 wordDevices := by
  intro a _ b _ hne o ho o' ho'
  simp only [Pointers.device, wordDevices]
  split_ifs <;> omega

/-- Two data words, two coding words; the first data word and the first coding word are
lost. -/
theorem decode_restores_two_words :
    let heap : Blocks := ⟨fun _ => 1, fun _ => 2, fun _ => 3, fun _ => 4, fun _ => 5⟩
    let mem : Memory := ⟨fun a => BitVec.ofNat 32 (a + 1), []⟩
    ∃ matrix, reedSolVandermondeCodingMatrix 2 2 (fun _ => 0) (fun _ => 0) = some matrix ∧
      ∃ mem', jerasureMatrixDecode 2 2 matrix true [0, 2] wordDevices (4 * 1) heap
          (((jerasureMatrixEncode 2 2 matrix wordDevices (4 * 1) mem).store 0 7).store 10 9)
          = some (0, mem') ∧
        mem'.cells = (jerasureMatrixEncode 2 2 matrix wordDevices (4 * 1) mem).cells := by
  intro heap mem
  obtain ⟨matrix, hmatrix, hdecode⟩ := decode_restores (k := 2) (m := 2) (n := 1) (by decide)
    (by decide) (by decide) (fun _ => 0) (fun _ => 0) separate_wordDevices
    (by decide : ∀ e ∈ [0, 2], e < 2 + 2) true heap mem
  refine ⟨matrix, hmatrix, (hdecode _ fun a ha => ?_).1 (by decide)⟩
  have h0 : a ≠ 0 := ha 0 (by decide) 0 (by decide)
  have h10 : a ≠ 10 := ha 2 (by decide) 0 (by decide)
  simp only [Memory.store]
  rw [Function.update_of_ne h10, Function.update_of_ne h0]

end EbnAnchor.Core
