import EbnAnchor.Core.EpochRuns

/-!
The symbols of an epoch as a code word.

With the matrix of `Init_RS`, the 73 symbols `Generate_New_Symbols` leaves are the
x-coordinate times the generator of an MDS code (`symbols_eq_generator`), so any six of
them determine the x-coordinate (`any_six_symbols_determine_key`).
-/

namespace EbnAnchor.Core

open Mds Matrix

/-- The x-coordinate as a message. -/
noncomputable def messageOf (x : Vli) : Fin numData → GF := fun c => gf (x.get c)

theorem messageOf_injective : Function.Injective messageOf := by
  intro x x' h
  apply Vector.ext
  intro i hi
  exact gf_injective (congrFun h ⟨i, hi⟩)

/-- No row of the coding matrix is zero. -/
theorem generator_row_ne {matrix : IntArray} (h : IsMds (generator numData numCoding matrix))
    {i : Nat} (hi : i < numCoding) : ∃ c < numData, matrix (i * numData + c) ≠ 0#32 := by
  refine ⟨0, by decide, fun hzero => ?_⟩
  have hrow : numData + i < numData + numCoding := Nat.add_lt_add_left hi numData
  refine h.systematic_ne (by decide) (fun a c => ?_) (r := ⟨numData + i, hrow⟩)
    (Nat.le_add_right numData i) 0 ?_
  · simp only [generator, Fin.ext_iff, Fin.val_castLE, if_pos a.isLt]
  · rw [generator, if_neg (by simp)]
    simp only [Nat.add_sub_cancel_left]
    exact gf_eq_zero_iff.mpr hzero

/-- Symbol `r` is row `r` of the generator applied to the x-coordinate. -/
theorem symbols_eq_generator {s : EbnState}
    (h : IsMds (generator numData numCoding s.rsCodingMatrix)) (r : Fin numSymbols) :
    gf ((generateNewSymbols s).currentSyms.get r) =
      (generator numData numCoding s.rsCodingMatrix *ᵥ messageOf s.currentPoint.x) r := by
  have hcells : (generateNewSymbols s).currentSyms.get r =
      (encodeSymbols s.rsCodingMatrix (copyData s.currentPoint.x s.currentSyms)).cells r :=
    Vector.getElem_ofFn ..
  have hdata : ∀ c : Fin numData,
      gf ((copyData s.currentPoint.x s.currentSyms)[(c : Nat)]?.getD 0) =
        messageOf s.currentPoint.x c := fun c => by
    rw [copyData_data _ _ c.isLt, Vector.getElem?_eq_getElem c.isLt, Option.getD_some]
    rfl
  rw [hcells, mulVec, dotProduct]
  by_cases hr : (r : Nat) < numData
  · -- a data symbol
    rw [encodeSymbols_data _ _ hr, Finset.sum_eq_single ⟨r, hr⟩]
    · rw [generator, if_pos hr, if_pos rfl, one_mul]
      exact hdata ⟨r, hr⟩
    · intro c _ hc
      rw [generator, if_pos hr, if_neg (fun heq => hc (Fin.ext heq)), zero_mul]
    · intro habs
      exact absurd (Finset.mem_univ _) habs
  · -- a coding symbol
    obtain ⟨i, hi⟩ : ∃ i, (r : Nat) = numData + i := Nat.exists_eq_add_of_le (Nat.le_of_not_lt hr)
    have hlt : i < numCoding := by
      have := r.isLt
      rw [hi] at this
      exact Nat.lt_of_add_lt_add_left this
    have hcode := (encodeSymbols_spec s.rsCodingMatrix
      (copyData s.currentPoint.x s.currentSyms)).coding i hlt (generator_row_ne h hlt)
    have hpointer : numData + i = currSymPtrs.coding i := rfl
    rw [hi, hpointer, hcode, Finset.sum_range]
    refine Finset.sum_congr rfl fun c _ => ?_
    rw [generator, if_neg hr, hi, Nat.add_sub_cancel_left]
    exact congrArg _ (hdata c)

/-- With the matrix `Init_RS` builds: the first six symbols are the x-coordinate, two
different x-coordinates agree on at most five symbols, and any six symbols determine
the x-coordinate. -/
theorem any_six_symbols_determine_key (vdm dist : IntArray) :
    ∃ matrix, (∀ s, initRs vdm dist s = some { s with rsCodingMatrix := matrix }) ∧
      ∀ s s' : EbnState,
        let syms := (generateNewSymbols { s with rsCodingMatrix := matrix }).currentSyms
        let syms' := (generateNewSymbols { s' with rsCodingMatrix := matrix }).currentSyms
        (∀ i < 6, syms[i]? = s.currentPoint.x[i]?) ∧
        (s.currentPoint.x ≠ s'.currentPoint.x →
          (Finset.univ.filter fun i : Fin 73 => syms.get i = syms'.get i).card ≤ 5) ∧
        ∀ indices : Finset (Fin 73), 6 ≤ indices.card →
          (∀ i ∈ indices, syms.get i = syms'.get i) →
          s.currentPoint.x = s'.currentPoint.x := by
  obtain ⟨matrix, hmatrix, hmds⟩ := codingMatrix_spec (k := numData) (m := numCoding)
    (by decide) (by decide) (by decide) vdm dist
  have hdetermine : ∀ s s' : EbnState, ∀ indices : Finset (Fin 73), 6 ≤ indices.card →
      (∀ i ∈ indices,
        (generateNewSymbols { s with rsCodingMatrix := matrix }).currentSyms.get i =
          (generateNewSymbols { s' with rsCodingMatrix := matrix }).currentSyms.get i) →
      s.currentPoint.x = s'.currentPoint.x := by
    intro s s' indices hcard hagree
    refine messageOf_injective (hmds.eq_of_agree hcard fun i hi => ?_)
    have hsym := congrArg gf (hagree i hi)
    rwa [symbols_eq_generator (s := { s with rsCodingMatrix := matrix }) hmds,
      symbols_eq_generator (s := { s' with rsCodingMatrix := matrix }) hmds] at hsym
  refine ⟨matrix, fun s => by rw [initRs, hmatrix]; rfl, fun s s' => ⟨?_, ?_, ?_⟩⟩
  · obtain ⟨syms, touched, heq, hdata, -⟩ :=
      generateNewSymbols_eq { s with rsCodingMatrix := matrix }
    rw [heq]
    exact hdata
  · intro hne
    by_contra hcard
    exact hne (hdetermine s s' _ (Nat.lt_of_not_le hcard) fun i hi =>
      (Finset.mem_filter.mp hi).2)
  · exact hdetermine s s'

end EbnAnchor.Core
