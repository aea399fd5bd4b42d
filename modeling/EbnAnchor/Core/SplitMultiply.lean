import EbnAnchor.Core.GaloisField

/-!
The multiplication without tables.

`galois_split_w8` computes the table entry it is asked for from the index alone, and every
pair of bytes with the same index gives the same product. So the split multiplication is the
plain one, and a region is multiplied word by word (`splitMultiply_correct`).
-/

namespace EbnAnchor.Core

open BinaryField Loop Polynomial

/-! ### One word -/

theorem galoisSplitW8Multiply_eq (x y : Word) :
    galoisSplitW8Multiply x y = galoisShiftMultiply x y := by
  refine gf_injective ?_
  rw [gf_galoisSplitW8Multiply, gf_galoisShiftMultiply]

theorem regionProduct_eq (multby word : Word) :
    regionProduct multby word = galoisShiftMultiply multby word := by
  refine gf_injective ?_
  rw [gf_regionProduct, gf_galoisShiftMultiply]

/-- The polynomial behind `prim_poly[32]`. -/
theorem modulus_primPoly : modulus primPoly = X ^ 32 + X ^ 22 + X ^ 2 + X + 1 := by
  have hcoeff : ∀ i < 32, coeff primPoly i = if i ∈ [0, 1, 2, 22] then 1 else 0 := by decide
  have hpoly : toPoly primPoly = X ^ 22 + X ^ 2 + X + 1 := by
    rw [toPoly, Finset.sum_congr rfl fun i hi => by rw [hcoeff i (Finset.mem_range.mp hi)]]
    simp [Finset.sum_range_succ]
    ring
  rw [modulus, hpoly, ← add_assoc, ← add_assoc, ← add_assoc]

theorem toPoly_galoisShiftMultiply (x y : Word) :
    toPoly (galoisShiftMultiply x y) =
      (toPoly x * toPoly y) %ₘ (X ^ 32 + X ^ 22 + X ^ 2 + X + 1) := by
  rw [← modulus_primPoly]
  exact toPoly_eq_modByMonic primPoly (gf_galoisShiftMultiply x y)

/-! ### Regions -/

/-- A loop that stores words one after the other, as a loop over the array. -/
theorem storeLoop_cells (source target n : Nat) (w : Nat → (Nat → Word) → Word) (m : Memory) :
    (forUp 0 n (fun k m => (m.touch (source + k)).store (target + k) (w k m.cells)) m).cells =
      forUp 0 n (fun k u => Function.update u (target + k) (w k u)) m.cells := by
  induction n with
  | zero => rfl
  | succ n ih =>
    rw [forUp_succ, forUp_succ, ← ih]
    rfl

/-- The words of the target region, when no word is read after it was overwritten. -/
theorem storeLoop_spec {source target n : Nat} {g : Word → Word → Word} (m : Memory)
    (hseparate : target ≤ source ∨ source + n ≤ target) :
    let m' := forUp 0 n (fun k m => (m.touch (source + k)).store (target + k)
      (g (m.cells (target + k)) (m.cells (source + k)))) m
    (∀ k < n, m'.cells (target + k) = g (m.cells (target + k)) (m.cells (source + k))) ∧
      ∀ c, (∀ k < n, c ≠ target + k) → m'.cells c = m.cells c := by
  have hloop := storeLoop_cells source target n
    (fun k u => g (u (target + k)) (u (source + k))) m
  obtain ⟨hdone, hkeep⟩ := forUp_store (a := 0) (n := n) (x := fun k => target + k)
    (w := fun k u => g (u (target + k)) (u (source + k))) (v := m.cells)
    (fun k k' _ hlt _ => by omega)
    (fun k u _ hk hfresh => by
      have htarget : u (target + k) = m.cells (target + k) := hfresh _ fun k' _ hlt => by omega
      have hsource : u (source + k) = m.cells (source + k) := hfresh _ fun k' _ hlt => by omega
      simp only [htarget, hsource])
  simp only [hloop]
  refine ⟨fun k hk => hdone k (Nat.zero_le k) (by omega), fun c hc => hkeep c fun k _ hk => ?_⟩
  exact (hc k (by omega)).symm

theorem galoisW32RegionMultiply_cells {region : Nat} {multby : Word} {nbytes : Nat}
    {r2 : Option Nat} {add : Bool} {m : Memory}
    (hseparate : r2.getD region ≤ region ∨ region + nbytes / 4 ≤ r2.getD region) :
    let m' := galoisW32RegionMultiply region multby nbytes r2 add m
    let target := r2.getD region
    (∀ k < nbytes / 4, m'.cells (target + k) =
      (if add then m.cells (target + k) else 0) ^^^
        galoisShiftMultiply multby (m.cells (region + k))) ∧
      ∀ c, (∀ k < nbytes / 4, c ≠ target + k) → m'.cells c = m.cells c := by
  cases add with
  | false =>
    obtain ⟨hwords, hkeep⟩ := storeLoop_spec (g := fun _ word => regionProduct multby word) m
      hseparate
    refine ⟨fun k hk => (hwords k hk).trans ?_, hkeep⟩
    rw [regionProduct_eq, if_neg Bool.false_ne_true]
    exact BitVec.zero_xor.symm
  | true =>
    obtain ⟨hwords, hkeep⟩ := storeLoop_spec
      (g := fun old word => old ^^^ regionProduct multby word) m hseparate
    refine ⟨fun k hk => (hwords k hk).trans ?_, hkeep⟩
    rw [regionProduct_eq, if_pos rfl]

/-- The split multiplication of two words is the plain one, which is the product modulo
`X ^ 32 + X ^ 22 + X ^ 2 + X + 1`; a region is multiplied word by word, in place or into a
region that does not start inside it, and nothing else changes. -/
theorem splitMultiply_correct (x y : Word) (region : Nat) (multby : Word) (nbytes : Nat)
    (r2 : Option Nat) (add : Bool) (m : Memory)
    (hseparate : ∀ target, r2 = some target →
      target ≤ region ∨ region + nbytes / 4 ≤ target) :
    (galoisSplitW8Multiply x y = galoisShiftMultiply x y ∧
      toPoly (galoisShiftMultiply x y) =
        (toPoly x * toPoly y) %ₘ (X ^ 32 + X ^ 22 + X ^ 2 + X + 1)) ∧
    (∀ k < nbytes / 4,
      (galoisW32RegionMultiply region multby nbytes r2 add m).cells (r2.getD region + k) =
        (if add then m.cells (r2.getD region + k) else 0) ^^^
          galoisShiftMultiply multby (m.cells (region + k))) ∧
    ∀ c, (∀ k < nbytes / 4, c ≠ r2.getD region + k) →
      (galoisW32RegionMultiply region multby nbytes r2 add m).cells c = m.cells c := by
  refine ⟨⟨galoisSplitW8Multiply_eq x y, toPoly_galoisShiftMultiply x y⟩,
    galoisW32RegionMultiply_cells ?_⟩
  cases r2 with
  | none => exact Or.inl (Nat.le_refl region)
  | some target => exact hseparate target rfl

/-- Two words of a region, added to the region behind it. -/
theorem splitMultiply_two_words :
    (galoisW32RegionMultiply 0 2 8 (some 2) true ⟨fun i => BitVec.ofNat 32 i, []⟩).cells 3 =
      3 ^^^ galoisShiftMultiply 2 1 := by
  have h := splitMultiply_correct 0 0 0 2 8 (some 2) true ⟨fun i => BitVec.ofNat 32 i, []⟩
    (fun target htarget => by cases htarget; exact Or.inr (by decide))
  exact h.2.1 1 (by decide)

end EbnAnchor.Core
