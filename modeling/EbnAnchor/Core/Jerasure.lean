import EbnAnchor.Core.ReedSolomon

/-!
`jerasure.c`: `jerasure_matrix_encode` over symbols of one word.

Data and coding devices are reached through two tables of pointers. With four
bytes a device, the word a coding device gets is the matrix row applied to the
data words (`encode_spec`), nothing else is written, and the addresses used are
those the tables hold. A row that is all zero leaves its coding device alone.
-/

namespace EbnAnchor.Core

open Loop

/-- `data_ptrs` and `coding_ptrs`. -/
structure Pointers where
  data : Nat → Nat
  coding : Nat → Nat

/-- The device with number `id`. -/
def Pointers.device (p : Pointers) (k id : Nat) : Nat :=
  if id < k then p.data id else p.coding (id - k)

/-- The pointer the encoder reads for column `i`. -/
def Pointers.source (p : Pointers) (k : Nat) (srcIds : Option (Nat → Nat)) (i : Nat) : Nat :=
  match srcIds with
  | none => p.data i
  | some ids => p.device k (ids i)

/-- `memcpy` between two regions that hold words. -/
def memcpyWords (dst src nbytes : Nat) (m : Memory) : Memory :=
  forUp 0 (nbytes / 4) (fun i m => (m.touch (src + i)).store (dst + i) (m.cells (src + i))) m

/-- `jerasure_matrix_dotprod` at `w = 32`. -/
def jerasureMatrixDotprod (k : Nat) (matrixRow : IntArray) (srcIds : Option (Nat → Nat))
    (destId : Nat) (p : Pointers) (size : Nat) (m : Memory) : Memory :=
  let dptr := p.device k destId
  let first := forUp 0 k (fun i (s : Memory × Bool) =>
    if matrixRow i = 1 then
      let sptr := p.source k srcIds i
      if !s.2 then (memcpyWords dptr sptr size s.1, true)
      else (galoisRegionXor sptr dptr dptr size s.1, s.2)
    else s) (m, false)
  let second := forUp 0 k (fun i (s : Memory × Bool) =>
    if matrixRow i ≠ 0 ∧ matrixRow i ≠ 1 then
      let sptr := p.source k srcIds i
      (galoisW32RegionMultiply sptr (matrixRow i) size (some dptr) s.2 s.1, true)
    else s) first
  second.1

/-- `jerasure_matrix_encode` at `w = 32`. -/
def jerasureMatrixEncode (k n : Nat) (matrix : IntArray) (p : Pointers) (size : Nat)
    (m : Memory) : Memory :=
  forUp 0 n (fun i m =>
    jerasureMatrixDotprod k (fun c => matrix (i * k + c)) none (k + i) p size m) m

/-! ### One word a region -/

theorem memcpyWords_word (dst src : Nat) (m : Memory) :
    memcpyWords dst src 4 m = (m.touch src).store dst (m.cells src) := rfl

theorem galoisRegionXor_word (r1 r2 r3 : Nat) (m : Memory) :
    galoisRegionXor r1 r2 r3 4 m
      = ((m.touch r1).touch r2).store r3 (m.cells r1 ^^^ m.cells r2) := rfl

theorem galoisW32RegionMultiply_word (region : Nat) (multby : Word) (r2 : Nat) (add : Bool)
    (m : Memory) :
    galoisW32RegionMultiply region multby 4 (some r2) add m
      = (m.touch region).store r2
          (if add then m.cells r2 ^^^ regionProduct multby (m.cells region)
            else regionProduct multby (m.cells region)) := by
  cases add <;> rfl

/-! ### The inner product -/

section Dotprod

variable {k : Nat} {row : IntArray} {p : Pointers} {dptr : Nat} {m₀ : Memory}

/-- The value collected so far: nothing before the first term. -/
noncomputable def collected (dptr : Nat) (s : Memory × Bool) : GF :=
  if s.2 then gf (s.1.cells dptr) else 0

/-- What the two passes keep: `dptr` collects the terms passed, the other words are
those of `m₀`, and only `dptr` and data words were used. -/
structure Collects (k : Nat) (p : Pointers) (dptr : Nat) (m₀ : Memory) (total : GF)
    (s : Memory × Bool) : Prop where
  value : collected dptr s = total
  frame : ∀ a, a ≠ dptr → s.1.cells a = m₀.cells a
  touched : ∀ a ∈ s.1.touched, a ∈ m₀.touched ∨ a = dptr ∨ ∃ c < k, a = p.data c

/-- One more term, whichever way it is stored. -/
theorem Collects.store {total : GF} {s : Memory × Bool} (h : Collects k p dptr m₀ total s)
    {c : Nat} (hc : c < k) {v : Word} {term : GF}
    (hv : gf v = collected dptr s + term) {touched : List Nat}
    (htouched : ∀ a ∈ touched, a ∈ s.1.touched ∨ a = dptr ∨ a = p.data c) :
    Collects k p dptr m₀ (total + term) (⟨Function.update s.1.cells dptr v, touched⟩, true) := by
  refine ⟨?_, fun a ha => ?_, fun a ha => ?_⟩
  · rw [collected, if_pos rfl]
    dsimp only
    rw [Function.update_self, hv, h.value]
  · dsimp only
    rw [Function.update_of_ne ha]
    exact h.frame a ha
  · rcases htouched a ha with hold | hdptr | hdata
    · exact h.touched a hold
    · exact Or.inr (Or.inl hdptr)
    · exact Or.inr (Or.inr ⟨c, hc, hdata⟩)

/-- The term of column `c`. -/
noncomputable def term (row : IntArray) (p : Pointers) (m₀ : Memory) (c : Nat) : GF :=
  gf (row c) * gf (m₀.cells (p.data c))

/-- The first pass: the columns with a one. -/
theorem collects_ones (hdata : ∀ c < k, p.data c ≠ dptr) {c : Nat} (hc : c < k)
    {total : GF} {s : Memory × Bool} (h : Collects k p dptr m₀ total s)
    (hrow : row c = 1) :
    Collects k p dptr m₀ (total + term row p m₀ c)
      (if !s.2 then (memcpyWords dptr (p.data c) 4 s.1, true)
        else (galoisRegionXor (p.data c) dptr dptr 4 s.1, s.2)) ∧
    (if !s.2 then (memcpyWords dptr (p.data c) 4 s.1, true)
        else (galoisRegionXor (p.data c) dptr dptr 4 s.1, s.2)).2 = true := by
  have hword : s.1.cells (p.data c) = m₀.cells (p.data c) := h.frame _ (hdata c hc)
  have hterm : gf (s.1.cells (p.data c)) = term row p m₀ c := by
    rw [hword, term, hrow, gf_ofNat_one, one_mul]
  obtain ⟨m, init⟩ := s
  cases init with
  | false =>
    rw [memcpyWords_word]
    refine ⟨h.store hc ?_ ?_, rfl⟩
    · rw [collected, if_neg (by simp), zero_add]
      exact hterm
    · intro a ha
      simp only [Memory.touch, List.mem_cons] at ha
      tauto
  | true =>
    rw [galoisRegionXor_word]
    refine ⟨h.store hc ?_ ?_, rfl⟩
    · rw [collected, if_pos rfl]
      dsimp only [Memory.touch]
      rw [gf_xor, add_comm]
      exact congrArg _ hterm
    · intro a ha
      simp only [Memory.touch, List.mem_cons] at ha
      tauto

/-- The second pass: the columns that need a factor. -/
theorem collects_factor (hdata : ∀ c < k, p.data c ≠ dptr) {c : Nat} (hc : c < k)
    {total : GF} {s : Memory × Bool} (h : Collects k p dptr m₀ total s) :
    Collects k p dptr m₀ (total + term row p m₀ c)
      (galoisW32RegionMultiply (p.data c) (row c) 4 (some dptr) s.2 s.1, true) := by
  have hterm : gf (regionProduct (row c) (s.1.cells (p.data c))) = term row p m₀ c := by
    rw [gf_regionProduct, h.frame _ (hdata c hc), term]
  rw [galoisW32RegionMultiply_word]
  refine h.store hc ?_ ?_
  · rw [collected]
    cases s.2 with
    | false =>
      rw [if_neg (by simp), if_neg (by simp), zero_add]
      exact hterm
    | true =>
      rw [if_pos rfl, if_pos rfl, gf_xor]
      exact congrArg _ hterm
  · intro a ha
    simp only [Memory.touch, List.mem_cons] at ha
    tauto

/-- `jerasure_matrix_dotprod` on words: a row that is not all zero is applied to the
data words. -/
theorem dotprod_spec {destId : Nat} (hdest : p.device k destId = dptr)
    (hdata : ∀ c < k, p.data c ≠ dptr) :
    let m := jerasureMatrixDotprod k row none destId p 4 m₀
    ((∃ c < k, row c ≠ 0#32) →
      gf (m.cells dptr) = ∑ c ∈ Finset.range k, term row p m₀ c) ∧
      (∀ a, a ≠ dptr → m.cells a = m₀.cells a) ∧
      ∀ a ∈ m.touched, a ∈ m₀.touched ∨ a = dptr ∨ ∃ c < k, a = p.data c := by
  rw [jerasureMatrixDotprod]
  simp only [hdest, Pointers.source]
  have hfirst := forUp_invariant (a := 0) (n := k) (s := (m₀, false))
    (f := fun i (s : Memory × Bool) =>
      if row i = 1 then
        if !s.2 then (memcpyWords dptr (p.data i) 4 s.1, true)
        else (galoisRegionXor (p.data i) dptr dptr 4 s.1, s.2)
      else s)
    (P := fun i s => Collects k p dptr m₀
        (∑ c ∈ Finset.range i, if row c = 1 then term row p m₀ c else 0) s ∧
      ((∃ c < i, row c = 1) → s.2 = true))
    ⟨⟨by simp [collected], fun _ _ => rfl, fun _ ha => Or.inl ha⟩, by simp⟩
    (by
      rintro i s - hi ⟨hcol, hinit⟩
      rw [Finset.sum_range_succ]
      by_cases hrow : row i = 1
      · rw [if_pos hrow, if_pos hrow]
        obtain ⟨hnew, htrue⟩ := collects_ones hdata (by omega) hcol hrow
        exact ⟨hnew, fun _ => htrue⟩
      · rw [if_neg hrow, if_neg hrow, add_zero]
        refine ⟨hcol, fun ⟨c, hc, hone⟩ => hinit ⟨c, ?_, hone⟩⟩
        rcases Nat.eq_or_lt_of_le (Nat.le_of_lt_succ hc) with rfl | hlt
        · exact absurd hone hrow
        · exact hlt)
  rw [Nat.zero_add] at hfirst
  generalize forUp 0 k _ (m₀, false) = s₁ at hfirst
  have hsecond := forUp_invariant (a := 0) (n := k) (s := s₁)
    (f := fun i (s : Memory × Bool) =>
      if row i ≠ 0 ∧ row i ≠ 1 then
        (galoisW32RegionMultiply (p.data i) (row i) 4 (some dptr) s.2 s.1, true)
      else s)
    (P := fun i s => Collects k p dptr m₀
        ((∑ c ∈ Finset.range k, if row c = 1 then term row p m₀ c else 0) +
          ∑ c ∈ Finset.range i, if row c ≠ 0 ∧ row c ≠ 1 then term row p m₀ c else 0) s ∧
      ((∃ c < k, row c = 1) ∨ (∃ c < i, row c ≠ 0 ∧ row c ≠ 1) → s.2 = true))
    ⟨by simpa using hfirst.1, fun h => hfirst.2 (by simpa using h)⟩
    (by
      rintro i s - hi ⟨hcol, hinit⟩
      rw [Finset.sum_range_succ, ← add_assoc]
      by_cases hrow : row i ≠ 0 ∧ row i ≠ 1
      · rw [if_pos hrow, if_pos hrow]
        exact ⟨collects_factor hdata (by omega) hcol, fun _ => rfl⟩
      · rw [if_neg hrow, if_neg hrow, add_zero]
        refine ⟨hcol, fun hcase => hinit (hcase.imp_right fun ⟨c, hc, hne⟩ => ⟨c, ?_, hne⟩)⟩
        rcases Nat.eq_or_lt_of_le (Nat.le_of_lt_succ hc) with rfl | hlt
        · exact absurd hne hrow
        · exact hlt)
  rw [Nat.zero_add] at hsecond
  obtain ⟨hcol, hinit⟩ := hsecond
  refine ⟨fun hsome => ?_, hcol.frame, hcol.touched⟩
  have htrue := hinit (by
    obtain ⟨c, hc, hne⟩ := hsome
    by_cases hone : row c = 1
    · exact Or.inl ⟨c, hc, hone⟩
    · exact Or.inr ⟨c, hc, hne, hone⟩)
  have hvalue := hcol.value
  rw [collected, if_pos htrue, ← Finset.sum_add_distrib] at hvalue
  rw [hvalue]
  refine Finset.sum_congr rfl fun c _ => ?_
  by_cases hone : row c = 1
  · rw [if_pos hone, if_neg (by tauto), add_zero]
  · by_cases hzero : row c = 0
    · rw [if_neg hone, if_neg (by tauto), term, hzero, gf_ofNat_zero]
      ring
    · rw [if_neg hone, if_pos ⟨hzero, hone⟩, zero_add]

end Dotprod

/-! ### Encoding -/

/-- The first `n` coding words are their matrix rows applied to the data words of `m₀`,
no other word changed, and only words behind the two tables were used. -/
structure Encoded (k : Nat) (matrix : IntArray) (p : Pointers) (m₀ : Memory) (n : Nat)
    (m : Memory) : Prop where
  coding : ∀ i < n, (∃ c < k, matrix (i * k + c) ≠ 0#32) → gf (m.cells (p.coding i)) =
    ∑ c ∈ Finset.range k, gf (matrix (i * k + c)) * gf (m₀.cells (p.data c))
  frame : ∀ a, (∀ i < n, a ≠ p.coding i) → m.cells a = m₀.cells a
  touched : ∀ a ∈ m.touched,
    a ∈ m₀.touched ∨ (∃ i < n, a = p.coding i) ∨ ∃ c < k, a = p.data c

/-- `jerasure_matrix_encode` on words. -/
theorem encode_spec {k n : Nat} {matrix : IntArray} {p : Pointers} {m₀ : Memory}
    (hsep : ∀ i < n, ∀ c < k, p.data c ≠ p.coding i)
    (hinj : ∀ i j, i < j → j < n → p.coding i ≠ p.coding j) :
    Encoded k matrix p m₀ n (jerasureMatrixEncode k n matrix p 4 m₀) := by
  suffices h : Encoded k matrix p m₀ (0 + n) (jerasureMatrixEncode k n matrix p 4 m₀) by
    rwa [Nat.zero_add] at h
  refine forUp_invariant (P := Encoded k matrix p m₀)
    ⟨by simp, fun _ _ => rfl, fun a ha => Or.inl ha⟩ ?_
  rintro j m - hj ⟨hdone, hkeep, htouched⟩
  rw [Nat.zero_add] at hj
  have hdest : p.device k (k + j) = p.coding j := by
    rw [Pointers.device, if_neg (by omega), Nat.add_sub_cancel_left]
  obtain ⟨hnew, hframe, hnewTouched⟩ := @dotprod_spec k (fun c => matrix (j * k + c)) p
    (p.coding j) m (k + j) hdest (fun c hc => hsep j hj c hc)
  have hdata : ∀ c < k, m.cells (p.data c) = m₀.cells (p.data c) := fun c hc =>
    hkeep _ fun i hi => hsep i (by omega) c hc
  refine ⟨fun i hi hsome => ?_, fun a ha => ?_, fun a ha => ?_⟩
  · rcases Nat.eq_or_lt_of_le (Nat.le_of_lt_succ hi) with rfl | hlt
    · rw [hnew hsome]
      refine Finset.sum_congr rfl fun c hc => ?_
      rw [term, hdata c (Finset.mem_range.mp hc)]
    · rw [hframe _ (hinj i j hlt hj), hdone i hlt hsome]
  · rw [hframe a (ha j (by omega))]
    exact hkeep a fun i hi => ha i (by omega)
  · rcases hnewTouched a ha with hold | rfl | hc
    · rcases htouched a hold with h | ⟨i, hi, rfl⟩ | h
      · exact Or.inl h
      · exact Or.inr (Or.inl ⟨i, by omega, rfl⟩)
      · exact Or.inr (Or.inr h)
    · exact Or.inr (Or.inl ⟨j, by omega, rfl⟩)
    · exact Or.inr (Or.inr hc)

end EbnAnchor.Core
