import EbnAnchor.Core.Epoch
import Mathlib.Data.Finset.Card
import Mathlib.Tactic.IntervalCases

/-!
Runs of the epoch state: `EBN_Init`, then any number of `EBN_Increment_Time` calls.

`EpochStep` says what one `Epoch_Change` does; the invariant `Coherent` and the
position in the epoch (`Run.position`) follow from it for every state of a run.

* `epoch_coherence`: identifiers, points, symbols and adverts of every state belong
  together, and a call changes nothing else;
* `six_adverts_carry_one_key`: any six consecutive adverts carry six symbols of one
  epoch, and every symbol is sent exactly once.
-/

namespace EbnAnchor.Core

open Loop

/-! ### What each generator does -/

theorem makeKeyLoop_eq {env : EbnEnv} {fuel : Nat} {s s' : EbnState}
    (h : makeKeyLoop env fuel s = some s') :
    ∃ samples keyCalls point secret, s' = { s with
      samples := samples, keyCalls := keyCalls
      currentPoint := point, currentPrivate := secret } := by
  induction fuel generalizing s with
  | zero => cases h
  | succ fuel ih =>
    rw [makeKeyLoop] at h
    split_ifs at h with hrc
    · cases h
      exact ⟨_, _, _, _, rfl⟩
    · obtain ⟨samples, keyCalls, point, secret, rfl⟩ := ih h
      exact ⟨samples, keyCalls, point, secret, rfl⟩

/-- The loop ends as soon as one attempt succeeds. -/
theorem makeKeyLoop_returns {env : EbnEnv} {n : Nat} {s : EbnState}
    (h : (attempt env (s.samples + samplesPerKey * n) (s.keyCalls + n)).rc ≠ 0) :
    ∃ fuel s', makeKeyLoop env fuel s = some s' := by
  induction n generalizing s with
  | zero =>
    rw [Nat.mul_zero, Nat.add_zero, Nat.add_zero] at h
    exact ⟨1, _, by rw [makeKeyLoop, if_pos h]⟩
  | succ n ih =>
    by_cases hrc : (attempt env s.samples s.keyCalls).rc ≠ 0
    · exact ⟨1, _, by rw [makeKeyLoop, if_pos hrc]⟩
    · obtain ⟨fuel, s', hrun⟩ := ih (s := { s with
          samples := s.samples + samplesPerKey
          keyCalls := s.keyCalls + 1
          currentPoint := (attempt env s.samples s.keyCalls).publicKey
          currentPrivate := (attempt env s.samples s.keyCalls).privateKey })
        (by
          have hsamples : s.samples + samplesPerKey + samplesPerKey * n
            = s.samples + samplesPerKey * (n + 1) := by ring
          have hcalls : s.keyCalls + 1 + n = s.keyCalls + (n + 1) := by omega
          rw [hsamples, hcalls]
          exact h)
      exact ⟨fuel + 1, s', by rw [makeKeyLoop, if_neg hrc, hrun]⟩

theorem makeKeyLoop_mono {env : EbnEnv} {fuel : Nat} {s s' : EbnState}
    (h : makeKeyLoop env fuel s = some s') (k : Nat) :
    makeKeyLoop env (fuel + k) s = some s' := by
  induction fuel generalizing s with
  | zero => cases h
  | succ fuel ih =>
    rw [Nat.succ_add, makeKeyLoop]
    rw [makeKeyLoop] at h
    split_ifs at h ⊢ with hrc
    · exact h
    · exact ih h

/-- The loop does not end while every attempt fails. -/
theorem makeKeyLoop_fails {env : EbnEnv} {s : EbnState}
    (h : ∀ n, (attempt env (s.samples + samplesPerKey * n) (s.keyCalls + n)).rc = 0)
    (fuel : Nat) : makeKeyLoop env fuel s = none := by
  induction fuel generalizing s with
  | zero => rfl
  | succ fuel ih =>
    have hfirst := h 0
    rw [Nat.mul_zero, Nat.add_zero, Nat.add_zero] at hfirst
    rw [makeKeyLoop, if_neg (not_not.mpr hfirst)]
    refine ih fun n => ?_
    have hsamples : s.samples + samplesPerKey + samplesPerKey * n
      = s.samples + samplesPerKey * (n + 1) := by ring
    have hcalls : s.keyCalls + 1 + n = s.keyCalls + (n + 1) := by omega
    dsimp only
    rw [hsamples, hcalls]
    exact h (n + 1)

/-- The encoder over `current_syms`: the data pointers stay below the code pointers. -/
theorem encodeSymbols_spec (matrix : IntArray) (syms : Vector Word numSymbols) :
    Encoded numData matrix currSymPtrs (symbolMemory syms) numCoding
      (encodeSymbols matrix syms) := by
  refine encode_spec (fun i _ c hc heq => ?_) (fun i j hij _ heq => ?_)
  · simp only [currSymPtrs] at heq
    omega
  · simp only [currSymPtrs] at heq
    omega

/-- The encoder leaves the data symbols alone. -/
theorem encodeSymbols_data (matrix : IntArray) (syms : Vector Word numSymbols) {i : Nat}
    (hi : i < numData) : (encodeSymbols matrix syms).cells i = syms[i]?.getD 0 :=
  (encodeSymbols_spec matrix syms).frame i fun j _ => by simp only [currSymPtrs]; omega

theorem copyData_data (x : Vli) (syms : Vector Word numSymbols) {i : Nat} (hi : i < numData) :
    (copyData x syms)[i]? = x[i]? := by
  have hsym : i < numSymbols := Nat.lt_of_lt_of_le hi (by decide)
  rw [copyData, Vector.getElem?_ofFn, dif_pos hsym, Vector.getElem?_eq_getElem hi,
    Option.getD_some]

/-- The words the encoder uses all lie in `current_syms`. -/
theorem encodeSymbols_touched (matrix : IntArray) (syms : Vector Word numSymbols) :
    ∀ a ∈ (encodeSymbols matrix syms).touched, a < numSymbols := by
  intro a ha
  rcases (encodeSymbols_spec matrix syms).touched a ha with hnil | ⟨i, hi, rfl⟩ | ⟨c, hc, rfl⟩
  · cases hnil
  · exact Nat.add_lt_add_left hi numData
  · exact Nat.lt_of_lt_of_le hc (by decide)

theorem generateNewSymbols_eq (s : EbnState) :
    ∃ syms, ∃ touched : List Nat, generateNewSymbols s = { s with
        oldSyms := s.currentSyms, currentSyms := syms
        accesses := s.accesses ++ touched.map (Access.mk .currentSyms) } ∧
      (∀ i < numData, syms[i]? = s.currentPoint.x[i]?) ∧ ∀ a ∈ touched, a < numSymbols := by
  refine ⟨_, _, rfl, fun i hi => ?_, encodeSymbols_touched _ _⟩
  have hsym : i < numSymbols := Nat.lt_of_lt_of_le hi (by decide)
  rw [Vector.getElem?_ofFn, dif_pos hsym, encodeSymbols_data _ _ hi, copyData_data _ _ hi,
    Vector.getElem?_eq_getElem hi, Option.getD_some]

/-- The bytes `Insert_Checksum` reads. -/
def checksumAccesses : List Access :=
  (List.range (sizeofEpochId - 1) ++ [sizeofEpochId]).map (Access.mk .epochIdBytes)

theorem generateNewEpochId_eq (env : EbnEnv) (s : EbnState) :
    ∃ id samples checksums, generateNewEpochId env s = { s with
        oldId := s.currentId, currentId := id
        samples := samples, checksums := checksums
        accesses := s.accesses ++ checksumAccesses } ∧
      id.yCoord = s.currentY.setWidth 1 :=
  ⟨_, _, _, rfl, rfl⟩

/-- The accesses of the loop of `Generate_Epoch_Adverts`, up to index `n`. -/
def advertAccesses (n : Nat) : List Access :=
  (List.range n).flatMap fun i => [⟨.currentAdverts, i⟩, ⟨.currentSyms, i⟩] ++
    if i < numOverlap then [⟨.oldSyms, numSymbols - numOverlap + i⟩] else []

theorem generateEpochAdverts_eq (s : EbnState) :
    ∃ adverts, generateEpochAdverts s = { s with
        currentAdverts := adverts
        accesses := s.accesses ++ advertAccesses numSymbols } ∧
      ∀ i < epochLength, adverts[i]? = some (epochAdvert s i) := by
  have h := forUp_invariant (a := 0) (n := numSymbols) (s := s)
    (f := fun i s => { s with
      currentAdverts := s.currentAdverts.setIfInBounds i (epochAdvert s i)
      accesses := s.accesses ++ [⟨.currentAdverts, i⟩, ⟨.currentSyms, i⟩] ++
        if i < numOverlap then [⟨.oldSyms, numSymbols - numOverlap + i⟩] else [] })
    (P := fun k s' => ∃ adverts, s' = { s with
        currentAdverts := adverts
        accesses := s.accesses ++ advertAccesses k } ∧
      ∀ i < epochLength, i < k → adverts[i]? = some (epochAdvert s i))
    ⟨s.currentAdverts, by simp [advertAccesses], fun _ _ hi => absurd hi (by omega)⟩
    (by
      rintro k s' - hk ⟨adverts, rfl, hadverts⟩
      refine ⟨adverts.setIfInBounds k (epochAdvert s k), ?_, fun i hi hik => ?_⟩
      · simp only [advertAccesses, List.range_succ, List.flatMap_append, List.flatMap_singleton,
          List.append_assoc]
        rfl
      · rw [Vector.getElem?_setIfInBounds]
        by_cases hki : k = i
        · rw [if_pos hki, hki, if_pos hi]
        · rw [if_neg hki]
          exact hadverts i hi (by omega))
  rw [Nat.zero_add] at h
  obtain ⟨adverts, heq, hadverts⟩ := h
  exact ⟨adverts, heq, fun i hi => hadverts i hi (Nat.lt_of_lt_of_le hi (by decide))⟩

/-! ### What an epoch change does -/

/-- The symbols and adverts of a state belong to its identifier and its point. -/
structure CurrentCoherent (s : EbnState) : Prop where
  yBit : s.currentId.yCoord = (eccCompressYCoord s.currentPoint).setWidth 1
  data : ∀ i < numData, s.currentSyms[i]? = s.currentPoint.x[i]?
  adverts : ∀ i < epochLength, s.currentAdverts[i]? = some (epochAdvert s i)
  mac : s.macAddr = ⟨s.oldId, s.currentId⟩

/-- `Epoch_Change`: what was current is now old, and the new values belong together. -/
structure EpochStep (s s' : EbnState) : Prop where
  oldId : s'.oldId = s.currentId
  oldPoint : s'.oldPoint = s.currentPoint
  oldPrivate : s'.oldPrivate = s.currentPrivate
  oldSyms : s'.oldSyms = s.currentSyms
  oldY : s'.oldY = s.currentY
  current : CurrentCoherent s'
  messageNum : s'.messageNum = s.messageNum
  rsCodingMatrix : s'.rsCodingMatrix = s.rsCodingMatrix
  accesses : ∃ touched : List Nat, (∀ a ∈ touched, a < numSymbols) ∧
    s'.accesses = s.accesses ++ checksumAccesses ++ touched.map (Access.mk .currentSyms) ++
      advertAccesses numSymbols

theorem epochChange_step {env : EbnEnv} {fuel : Nat} {s s' : EbnState}
    (h : epochChange env fuel s = some s') : EpochStep s s' := by
  rw [epochChange, Option.map_eq_some_iff] at h
  obtain ⟨s₁, hkey, rfl⟩ := h
  rw [generateNewKey, Option.map_eq_some_iff] at hkey
  obtain ⟨s₀, hloop, rfl⟩ := hkey
  obtain ⟨samples, keyCalls, point, secret, rfl⟩ := makeKeyLoop_eq hloop
  obtain ⟨id, samples', checksums, hid, hy⟩ := generateNewEpochId_eq env
    { s with
      oldPoint := s.currentPoint, oldPrivate := s.currentPrivate, oldY := s.currentY
      samples := samples, keyCalls := keyCalls
      currentPoint := point, currentPrivate := secret
      currentY := (eccCompressYCoord point).setWidth 8 }
  rw [hid, generateNewMacAddress]
  obtain ⟨syms, touched, hsyms, hdata, htouched⟩ := generateNewSymbols_eq
    { s with
      oldPoint := s.currentPoint, oldPrivate := s.currentPrivate, oldY := s.currentY
      oldId := s.currentId, currentId := id, macAddr := ⟨s.currentId, id⟩
      samples := samples', keyCalls := keyCalls, checksums := checksums
      currentPoint := point, currentPrivate := secret
      currentY := (eccCompressYCoord point).setWidth 8
      accesses := s.accesses ++ checksumAccesses }
  rw [hsyms]
  obtain ⟨adverts, hadverts, hentry⟩ := generateEpochAdverts_eq
    { s with
      oldPoint := s.currentPoint, oldPrivate := s.currentPrivate, oldY := s.currentY
      oldId := s.currentId, currentId := id, macAddr := ⟨s.currentId, id⟩
      samples := samples', keyCalls := keyCalls, checksums := checksums
      currentPoint := point, currentPrivate := secret
      currentY := (eccCompressYCoord point).setWidth 8
      oldSyms := s.currentSyms, currentSyms := syms
      accesses := s.accesses ++ checksumAccesses ++ touched.map (Access.mk .currentSyms) }
  rw [hadverts]
  refine ⟨rfl, rfl, rfl, rfl, rfl, ⟨?_, hdata, hentry, rfl⟩, rfl, rfl,
    ⟨touched, htouched, rfl⟩⟩
  rw [hy, BitVec.setWidth_setWidth_of_le _ (by decide)]

/-- More fuel changes nothing. -/
theorem epochChange_mono {env : EbnEnv} {fuel : Nat} {s s' : EbnState}
    (h : epochChange env fuel s = some s') (k : Nat) :
    epochChange env (fuel + k) s = some s' := by
  rw [epochChange, generateNewKey, Option.map_map, Option.map_eq_some_iff] at h ⊢
  obtain ⟨s₁, hloop, hrest⟩ := h
  exact ⟨s₁, makeKeyLoop_mono hloop k, hrest⟩

theorem epochChange_returns {env : EbnEnv} {n : Nat} {s : EbnState}
    (h : (attempt env (s.samples + samplesPerKey * n) (s.keyCalls + n)).rc ≠ 0) :
    ∃ fuel s', epochChange env fuel s = some s' := by
  obtain ⟨fuel, s', hloop⟩ := makeKeyLoop_returns (s := { s with
    oldPoint := s.currentPoint, oldPrivate := s.currentPrivate, oldY := s.currentY }) h
  exact ⟨fuel, _, by rw [epochChange, generateNewKey, hloop]; rfl⟩

/-- When the first attempt succeeds, that is the only call. -/
theorem epochChange_first {env : EbnEnv} {s : EbnState}
    (h : (attempt env s.samples s.keyCalls).rc ≠ 0) :
    ∃ s', epochChange env 1 s = some s' ∧ s'.keyCalls = s.keyCalls + 1 := by
  have hadverts : ∀ t, (generateEpochAdverts t).keyCalls = t.keyCalls := by
    intro t
    obtain ⟨adverts, heq, -⟩ := generateEpochAdverts_eq t
    rw [heq]
  have hsymbols : ∀ t, (generateNewSymbols t).keyCalls = t.keyCalls := by
    intro t
    obtain ⟨syms, touched, heq, -⟩ := generateNewSymbols_eq t
    rw [heq]
  rw [epochChange, generateNewKey, makeKeyLoop, if_pos h]
  refine ⟨_, rfl, ?_⟩
  rw [hadverts, hsymbols]
  rfl

theorem epochChange_fails {env : EbnEnv} {s : EbnState}
    (h : ∀ n, (attempt env (s.samples + samplesPerKey * n) (s.keyCalls + n)).rc = 0)
    (fuel : Nat) : epochChange env fuel s = none := by
  have hloop := makeKeyLoop_fails (s := { s with
    oldPoint := s.currentPoint, oldPrivate := s.currentPrivate, oldY := s.currentY }) h fuel
  rw [epochChange, generateNewKey, hloop]
  rfl

/-! ### Runs -/

/-- `EBN_Init` from any memory, then so many calls of `EBN_Increment_Time` that return. The call
after them need not. -/
structure Run (env : EbnEnv) where
  before : EbnState
  vdm : IntArray
  dist : IntArray
  calls : Nat
  states : Nat → EbnState
  returned : Nat → Word
  init : ∃ fuel, ebnInit env fuel vdm dist before = some (states 0)
  step : ∀ n < calls,
    ∃ fuel, ebnIncrementTime env fuel (states n) = some (returned n, states (n + 1))

/-- While every epoch change ends, there are runs of any length from any memory. -/
theorem exists_run_of_change (env : EbnEnv) (before : EbnState) (vdm dist : IntArray)
    (calls : Nat) (hchange : ∀ s, ∃ fuel s', epochChange env fuel s = some s') :
    ∃ r : Run env, r.before = before ∧ r.calls = calls := by
  have hmono : ∀ fuel fuel' s s', fuel ≤ fuel' → epochChange env fuel s = some s' →
      epochChange env fuel' s = some s' := fun fuel fuel' s s' hle hrun => by
    obtain ⟨k, rfl⟩ := Nat.exists_eq_add_of_le hle
    exact epochChange_mono hrun k
  have hstep : ∀ s, ∃ rc s' fuel, ebnIncrementTime env fuel s = some (rc, s') := fun s => by
    obtain ⟨fuel, s', hs'⟩ := hchange { s with messageNum := s.messageNum + 1 }
    by_cases hroll : (s.messageNum + 1).toNat ≥ epochLength
    · exact ⟨1, { s' with messageNum := 0 }, fuel, by
        rw [ebnIncrementTime]
        simp only [hroll, if_true, hs', Option.map_some]⟩
    · exact ⟨0, { s with messageNum := s.messageNum + 1 }, fuel, by
        rw [ebnIncrementTime]
        simp only [hroll, if_false]⟩
  choose rc next fuel hnext using hstep
  obtain ⟨matrix, hmatrix, -⟩ := codingMatrix_spec (k := numData) (m := numCoding)
    (by decide) (by decide) (by decide) vdm dist
  obtain ⟨fuel₁, s₁, hfirst⟩ := hchange { before with rsCodingMatrix := matrix }
  obtain ⟨fuel₂, s₂, hsecond⟩ := hchange s₁
  let states : Nat → EbnState := fun n => next^[n] { s₂ with messageNum := 0 }
  refine ⟨⟨before, vdm, dist, calls, states, fun n => rc (states n), ?_, fun n _ => ?_⟩, rfl, rfl⟩
  · refine ⟨max fuel₁ fuel₂, ?_⟩
    rw [ebnInit, initRs, hmatrix, Option.map_some, Option.bind_some,
      hmono _ _ _ _ (le_max_left _ _) hfirst, Option.bind_some,
      hmono _ _ _ _ (le_max_right _ _) hsecond]
    rfl
  · refine ⟨fuel (states n), ?_⟩
    have hstate : states (n + 1) = next (states n) := Function.iterate_succ_apply' ..
    rw [hnext, hstate]

/-- While key generation keeps succeeding in the end, there are runs of any length. -/
theorem exists_run (env : EbnEnv) (before : EbnState) (vdm dist : IntArray) (calls : Nat)
    (h : ∀ k, ∃ n, ∀ random, (env.makeKey (k + n) random).rc ≠ 0) :
    ∃ r : Run env, r.before = before ∧ r.calls = calls :=
  exists_run_of_change env before vdm dist calls fun s => by
    obtain ⟨n, hn⟩ := h s.keyCalls
    exact epochChange_returns (n := n) (hn _)

/-- The first epoch needs no further key. -/
theorem exists_run_of_init {env : EbnEnv} {fuel : Nat} {vdm dist : IntArray} {before s : EbnState}
    (hinit : ebnInit env fuel vdm dist before = some s) :
    ∃ r : Run env, r.before = before ∧ r.calls = 67 := by
  obtain ⟨s₀, -, hrest⟩ := Option.bind_eq_some_iff.mp hinit
  obtain ⟨s₁, -, hrest⟩ := Option.bind_eq_some_iff.mp hrest
  obtain ⟨s₂, -, rfl⟩ := Option.map_eq_some_iff.mp hrest
  refine ⟨⟨before, vdm, dist, 67, fun n => { s₂ with messageNum := BitVec.ofNat 8 n }, fun _ => 0,
    ⟨fuel, hinit⟩, ?_⟩, rfl, rfl⟩
  intro n hn
  have hnext : BitVec.ofNat 8 n + 1 = BitVec.ofNat 8 (n + 1) := by
    apply BitVec.eq_of_toNat_eq
    simp
  have hroll : ¬ (BitVec.ofNat 8 (n + 1)).toNat ≥ epochLength := by
    have hlength : epochLength = 68 := rfl
    rw [BitVec.toNat_ofNat, hlength]
    omega
  refine ⟨0, ?_⟩
  rw [ebnIncrementTime]
  simp only [hnext, hroll, if_false]

/-- An ADC that only yields ones. The private key is the random number less the order of the
curve, and the public key that multiple of the generator. -/
def onesEnv : EbnEnv where
  adc := fun _ => 1
  makeKey := fun _ _ =>
    { rc := 1
      publicKey := {
        x := #v[0x3F213ECF, 0x85791135, 0x1B3DC3CF, 0x7284E6D4, 0xE777B4A4, 0xCC4AF403]
        y := #v[0xF15D1810, 0x125E875E, 0xC30497A9, 0x468DB706, 0x64E1D23E, 0x968E7021] }
      privateKey := #v[0x4B2DD7CE, 0xEB94364E, 0x662107C9, 0, 0, 0] }
  behindId := fun _ => 0

theorem exists_onesRun (calls : Nat) :
    ∃ r : Run onesEnv, r.before = EbnState.zero ∧ r.calls = calls :=
  have hrc : (1 : Word) ≠ 0 := by decide
  exists_run onesEnv EbnState.zero (fun _ => 0) (fun _ => 0) calls fun _ => ⟨0, fun _ => hrc⟩

/-- The same, but `ecc_make_key` answers 0 for ever after the two keys of `EBN_Init`: the call
at the end of the first epoch never returns. -/
def twoKeysEnv : EbnEnv :=
  { onesEnv with makeKey := fun n random =>
      if n < 2 then onesEnv.makeKey n random else { onesEnv.makeKey n random with rc := 0 } }

theorem exists_twoKeysRun : ∃ r : Run twoKeysEnv, r.before = EbnState.zero ∧ r.calls = 67 := by
  have hrc : ∀ n < 2, ∀ random, (twoKeysEnv.makeKey n random).rc ≠ 0 := by
    intro n hn random
    rw [twoKeysEnv]
    simp only [if_pos hn]
    have hone : (1 : Word) ≠ 0 := by decide
    exact hone
  obtain ⟨matrix, hmatrix, -⟩ := codingMatrix_spec (k := numData) (m := numCoding)
    (by decide) (by decide) (by decide) (fun _ => 0) (fun _ => 0)
  obtain ⟨s₁, hfirst, hcalls⟩ := epochChange_first
    (s := { EbnState.zero with rsCodingMatrix := matrix }) (hrc 0 (by decide) _)
  have hone : s₁.keyCalls = 1 := hcalls
  obtain ⟨s₂, hsecond, -⟩ := epochChange_first (hrc s₁.keyCalls (by rw [hone]; decide) _)
  have hinit : ebnInit twoKeysEnv 1 (fun _ => 0) (fun _ => 0) EbnState.zero =
      some { s₂ with messageNum := 0 } := by
    rw [ebnInit, initRs, hmatrix, Option.map_some, Option.bind_some, hfirst, Option.bind_some,
      hsecond]
    rfl
  exact exists_run_of_init hinit

theorem toNat_succ {b : Byte} (h : b.toNat < 68) : (b + 1).toNat = b.toNat + 1 := by
  rw [BitVec.toNat_add]
  exact Nat.mod_eq_of_lt (Nat.lt_of_le_of_lt h (by decide))

/-- What one call of `EBN_Increment_Time` does. -/
theorem ebnIncrementTime_cases {env : EbnEnv} {fuel : Nat} {s s' : EbnState} {rc : Word}
    (hlt : s.messageNum.toNat < epochLength)
    (h : ebnIncrementTime env fuel s = some (rc, s')) :
    (s.messageNum.toNat + 1 < epochLength ∧ rc = 0 ∧
      s' = { s with messageNum := s.messageNum + 1 }) ∨
    (s.messageNum.toNat + 1 = epochLength ∧ rc = 1 ∧ s'.messageNum = 0 ∧ EpochStep s
      { s' with messageNum := s.messageNum }) := by
  rw [ebnIncrementTime] at h
  simp only [toNat_succ hlt] at h
  split_ifs at h with hroll
  · right
    rw [Option.map_eq_some_iff] at h
    obtain ⟨s₁, hchange, heq⟩ := h
    cases heq
    obtain ⟨hid, hpoint, hprivate, hsyms, hy, hcur, -, hmatrix, haccesses⟩ :=
      epochChange_step hchange
    exact ⟨by omega, rfl, rfl, hid, hpoint, hprivate, hsyms, hy,
      ⟨hcur.yBit, hcur.data, hcur.adverts, hcur.mac⟩, rfl, hmatrix, haccesses⟩
  · left
    cases h
    exact ⟨by omega, rfl, rfl⟩

/-- Current and old values belong together, and the counter is inside the epoch. -/
structure Coherent (s : EbnState) : Prop where
  macCurrent : s.macAddr.current = s.currentId
  macPrevious : s.macAddr.previous = s.oldId
  currentYBit : s.currentId.yCoord = (eccCompressYCoord s.currentPoint).setWidth 1
  oldYBit : s.oldId.yCoord = (eccCompressYCoord s.oldPoint).setWidth 1
  currentData : ∀ i < 6, s.currentSyms[i]? = s.currentPoint.x[i]?
  oldData : ∀ i < 6, s.oldSyms[i]? = s.oldPoint.x[i]?
  adverts : ∀ i < 68, ∃ advert, s.currentAdverts[i]? = some advert ∧
    advert.nodeType = 1 ∧ advert.messageNum.toNat = i ∧
    s.currentSyms[i]? = some advert.dhSymbol ∧
    (i < 5 → s.oldSyms[68 + i]? = some advert.prevDhSymbol) ∧
    (5 ≤ i → advert.prevDhSymbol = 0) ∧
    advert.smallData = Vector.replicate 22 0
  messageNum_lt : s.messageNum.toNat < 68

theorem epochAdvert_fields (s : EbnState) {i : Nat} (hi : i < 68) :
    (epochAdvert s i).nodeType = 1 ∧ (epochAdvert s i).messageNum.toNat = i ∧
      s.currentSyms[i]? = some (epochAdvert s i).dhSymbol ∧
      (i < 5 → s.oldSyms[68 + i]? = some (epochAdvert s i).prevDhSymbol) ∧
      (5 ≤ i → (epochAdvert s i).prevDhSymbol = 0) ∧
      (epochAdvert s i).smallData = Vector.replicate 22 0 := by
  have hcur : s.currentSyms[i]? = some (s.currentSyms[i]?.getD 0) := by
    have hin : i < 73 := by omega
    rw [Vector.getElem?_eq_getElem hin, Option.getD_some]
  have hnum : (BitVec.ofNat 7 i).toNat = i := by
    rw [BitVec.toNat_ofNat]
    omega
  by_cases hover : i < 5
  · have hold : s.oldSyms[68 + i]? = some (s.oldSyms[68 + i]?.getD 0) := by
      have hin : 68 + i < 73 := by omega
      rw [Vector.getElem?_eq_getElem hin, Option.getD_some]
    rw [epochAdvert, if_pos hover]
    exact ⟨rfl, hnum, hcur, fun _ => hold, fun hge => absurd hover (by omega), rfl⟩
  · rw [epochAdvert, if_neg hover]
    exact ⟨rfl, hnum, hcur, fun hlt => absurd hlt hover, fun _ => rfl, rfl⟩

/-- The second of two epoch changes makes the old values belong together as well. -/
theorem EpochStep.coherent {s s' : EbnState} (h : EpochStep s s') (hs : CurrentCoherent s)
    (hlt : s'.messageNum.toNat < 68) : Coherent s' where
  macCurrent := by rw [h.current.mac]
  macPrevious := by rw [h.current.mac]
  currentYBit := h.current.yBit
  oldYBit := by rw [h.oldId, h.oldPoint, hs.yBit]
  currentData := h.current.data
  oldData := fun i hi => by rw [h.oldSyms, h.oldPoint, hs.data i hi]
  adverts := fun i hi => ⟨_, h.current.adverts i hi, epochAdvert_fields s' hi⟩
  messageNum_lt := hlt

/-- The counter does not matter to what is current. -/
theorem CurrentCoherent.setMessageNum {s : EbnState} (h : CurrentCoherent s) (n : Byte) :
    CurrentCoherent { s with messageNum := n } :=
  ⟨h.yBit, h.data, h.adverts, h.mac⟩

theorem Coherent.setMessageNum {s : EbnState} (h : Coherent s) {n : Byte}
    (hn : n.toNat < 68) : Coherent { s with messageNum := n } :=
  ⟨h.macCurrent, h.macPrevious, h.currentYBit, h.oldYBit, h.currentData, h.oldData, h.adverts,
    hn⟩

namespace Run

variable {env : EbnEnv}

theorem init_coherent (r : Run env) :
    CurrentCoherent (r.states 0) ∧ Coherent (r.states 0) ∧ (r.states 0).messageNum = 0 := by
  obtain ⟨fuel, hinit⟩ := r.init
  rw [ebnInit, Option.bind_eq_some_iff] at hinit
  obtain ⟨s₀, -, hinit⟩ := hinit
  rw [Option.bind_eq_some_iff] at hinit
  obtain ⟨s₁, hfirst, hinit⟩ := hinit
  rw [Option.map_eq_some_iff] at hinit
  obtain ⟨s₂, hsecond, hstate⟩ := hinit
  have hold := (epochChange_step hfirst).current
  have hstep := epochChange_step hsecond
  rw [← hstate]
  refine ⟨hstep.current.setMessageNum 0, ?_, rfl⟩
  have hstep' : EpochStep { s₁ with messageNum := 0 } { s₂ with messageNum := 0 } :=
    ⟨hstep.oldId, hstep.oldPoint, hstep.oldPrivate, hstep.oldSyms, hstep.oldY,
      hstep.current.setMessageNum 0, rfl, hstep.rsCodingMatrix, hstep.accesses⟩
  exact hstep'.coherent (hold.setMessageNum 0) (Nat.zero_lt_succ 67)

/-- Every state of a run keeps its parts together. -/
theorem invariant (r : Run env) {n : Nat} (hn : n ≤ r.calls) :
    CurrentCoherent (r.states n) ∧ Coherent (r.states n) := by
  induction n with
  | zero => exact ⟨r.init_coherent.1, r.init_coherent.2.1⟩
  | succ n ih =>
    have ih := ih (Nat.le_of_succ_le hn)
    obtain ⟨fuel, hcall⟩ := r.step n hn
    rcases ebnIncrementTime_cases ih.2.messageNum_lt hcall with
      ⟨hlt, -, hstate⟩ | ⟨-, -, hzero, hstep⟩
    · rw [hstate]
      refine ⟨ih.1.setMessageNum _, ih.2.setMessageNum ?_⟩
      rwa [toNat_succ ih.2.messageNum_lt]
    · have hback : r.states (n + 1) =
          { { r.states (n + 1) with messageNum := (r.states n).messageNum } with
            messageNum := 0 } := by
        rw [← hzero]
      rw [hback]
      exact ⟨hstep.current.setMessageNum 0,
        (hstep.coherent ih.1 ih.2.messageNum_lt).setMessageNum (by decide)⟩

/-- One call of a run, with the invariant discharged. -/
theorem call (r : Run env) {n : Nat} (hn : n < r.calls) :
    ((r.states n).messageNum.toNat + 1 < 68 ∧ r.returned n = 0 ∧
      r.states (n + 1) =
        { r.states n with messageNum := (r.states n).messageNum + 1 }) ∨
    ((r.states n).messageNum.toNat + 1 = 68 ∧ r.returned n = 1 ∧
      (r.states (n + 1)).messageNum = 0 ∧ EpochStep (r.states n)
        { r.states (n + 1) with messageNum := (r.states n).messageNum }) := by
  obtain ⟨fuel, hcall⟩ := r.step n hn
  exact ebnIncrementTime_cases (r.invariant (Nat.le_of_lt hn)).2.messageNum_lt hcall

/-! ### Epochs of a run -/

/-- The number of the epoch after `n` calls; the first of the two epochs `EBN_Init`
makes is number `0`. -/
def epoch (r : Run env) : Nat → Nat
  | 0 => 1
  | n + 1 => if r.returned n = 1 then r.epoch n + 1 else r.epoch n

/-- The symbol vector of an epoch. -/
def symbols (r : Run env) : Nat → Vector Word numSymbols
  | 0 => (r.states 0).oldSyms
  | e + 1 => (r.states (68 * e)).currentSyms

/-- The counter and the epoch are the remainder and the quotient of the call number. -/
theorem position (r : Run env) {n : Nat} (hn : n ≤ r.calls) :
    (r.states n).messageNum.toNat = n % 68 ∧ r.epoch n = n / 68 + 1 ∧
      (r.states n).currentSyms = r.symbols (n / 68 + 1) ∧
      (r.states n).oldSyms = r.symbols (n / 68) := by
  induction n with
  | zero => exact ⟨by rw [r.init_coherent.2.2]; rfl, rfl, rfl, rfl⟩
  | succ n ih =>
    have hle : n ≤ r.calls := Nat.le_of_succ_le hn
    obtain ⟨hnum, hepoch, hcur, hold⟩ := ih hle
    rcases r.call hn with ⟨hlt, hrc, hstate⟩ | ⟨hroll, hrc, hzero, hstep⟩
    · have hsame : (n + 1) / 68 = n / 68 := by omega
      rw [hstate, epoch, hrc, if_neg (by decide), hepoch, hsame]
      refine ⟨?_, rfl, hcur, hold⟩
      rw [toNat_succ (r.invariant hle).2.messageNum_lt]
      omega
    · have hnext : (n + 1) / 68 = n / 68 + 1 := by omega
      have hfirst : 68 * (n / 68 + 1) = n + 1 := by omega
      rw [hzero, epoch, hrc, if_pos rfl, hepoch, hnext]
      refine ⟨by simp; omega, rfl, ?_, hstep.oldSyms.trans hcur⟩
      rw [symbols, hfirst]

/-- Advert `m`, the one `EBN_Get_Advert` returns after `m` calls of the run, carries symbol `i`
of epoch `e` with value `v`. -/
def Carries (r : Run env) (m e i : Nat) (v : Word) : Prop :=
  m ≤ r.calls ∧ ∃ advert, ebnGetAdvert (r.states m) = some advert ∧
    ((r.epoch m = e ∧ advert.messageNum.toNat = i ∧ advert.dhSymbol = v) ∨
      (r.epoch m = e + 1 ∧ advert.messageNum.toNat < 5 ∧
        68 + advert.messageNum.toNat = i ∧ advert.prevDhSymbol = v))

theorem carries_iff (r : Run env) (m e i : Nat) (v : Word) :
    r.Carries m e i v ↔ m ≤ r.calls ∧ (r.symbols e)[i]? = some v ∧
      ((m / 68 + 1 = e ∧ m % 68 = i) ∨ (m / 68 = e ∧ m % 68 < 5 ∧ 68 + m % 68 = i)) := by
  refine and_congr_right fun hm => ?_
  obtain ⟨hnum, hepoch, hcur, hold⟩ := r.position hm
  obtain ⟨advert, hadvert, -, hmsg, hdh, hprev, -⟩ :=
    (r.invariant hm).2.adverts (m % 68) (by omega)
  rw [hcur] at hdh
  rw [hold] at hprev
  rw [ebnGetAdvert, hnum, hadvert, hepoch]
  simp only [Option.some.injEq, exists_eq_left', hmsg]
  constructor
  · rintro (⟨rfl, rfl, rfl⟩ | ⟨he, hlt, rfl, rfl⟩)
    · exact ⟨hdh, Or.inl ⟨rfl, rfl⟩⟩
    · obtain rfl : e = m / 68 := by omega
      exact ⟨hprev hlt, Or.inr ⟨rfl, hlt, rfl⟩⟩
  · rintro ⟨hv, ⟨rfl, rfl⟩ | ⟨rfl, hlt, rfl⟩⟩
    · exact Or.inl ⟨rfl, rfl, Option.some.inj (hdh.symm.trans hv)⟩
    · exact Or.inr ⟨rfl, hlt, rfl, Option.some.inj ((hprev hlt).symm.trans hv)⟩

end Run

/-- Every state of a run is coherent; a call that returns 1 makes the current values the
old ones and restarts the adverts, a call that returns 0 changes the counter only. -/
theorem epoch_coherence (env : EbnEnv) (r : Run env) :
    (∀ n ≤ r.calls, Coherent (r.states n)) ∧
    ∀ n < r.calls,
      (r.returned n = 1 →
        (r.states (n + 1)).oldId = (r.states n).currentId ∧
        (r.states (n + 1)).macAddr.previous = (r.states n).currentId ∧
        (r.states (n + 1)).oldPoint = (r.states n).currentPoint ∧
        (r.states (n + 1)).oldPrivate = (r.states n).currentPrivate ∧
        (r.states (n + 1)).oldSyms = (r.states n).currentSyms ∧
        (r.states (n + 1)).messageNum = 0) ∧
      (r.returned n = 0 → r.states (n + 1) =
        { r.states n with messageNum := (r.states n).messageNum + 1 }) ∧
      (r.returned n = 0 ∨ r.returned n = 1) := by
  refine ⟨fun n hn => (r.invariant hn).2, fun n hn => ?_⟩
  rcases r.call hn with ⟨-, hrc, hstate⟩ | ⟨-, hrc, hzero, hstep⟩
  · exact ⟨fun h => absurd (hrc.symm.trans h) (by decide), fun _ => hstate, Or.inl hrc⟩
  · refine ⟨fun _ => ⟨hstep.oldId, ?_, hstep.oldPoint, hstep.oldPrivate, hstep.oldSyms, hzero⟩,
      fun h => absurd (hrc.symm.trans h) (by decide), Or.inr hrc⟩
    rw [(r.invariant hn).2.macPrevious]
    exact hstep.oldId

/-- The last state before a call that never returns. -/
theorem epoch_coherence_two_keys :
    ∃ r : Run twoKeysEnv, r.calls = 67 ∧ Coherent (r.states 67) := by
  obtain ⟨r, -, hcalls⟩ := exists_twoKeysRun
  exact ⟨r, hcalls, (epoch_coherence twoKeysEnv r).1 67 (Nat.le_of_eq hcalls.symm)⟩

/-- Any six consecutive adverts carry six symbols of one epoch, and over the 68 adverts
of an epoch and the first five of the next one, as far as the run goes, every symbol is sent
exactly once. -/
theorem six_adverts_carry_one_key (env : EbnEnv) (r : Run env) :
    ∃ symbols : Nat → Vector Word numSymbols,
      (∀ m ≤ r.calls, (r.states m).currentSyms = symbols (r.epoch m) ∧
        (r.states m).oldSyms = symbols (r.epoch m - 1)) ∧
      (∀ n, n + 5 ≤ r.calls → ∃ e, ∃ indices : Finset (Fin numSymbols), 6 ≤ indices.card ∧
        ∀ i ∈ indices, ∃ m, n ≤ m ∧ m < n + 6 ∧ r.Carries m e i (symbols e)[i]) ∧
      (∀ e, 1 ≤ e → ∀ m ≤ r.calls,
        r.epoch m = e ↔ 68 * (e - 1) ≤ m ∧ m < 68 * (e - 1) + 68) ∧
      ∀ e, 1 ≤ e → ∀ i : Fin numSymbols,
        (68 * (e - 1) + i ≤ r.calls →
          ∃! m, (68 * (e - 1) ≤ m ∧ m < 68 * (e - 1) + 68 + 5) ∧ ∃ v, r.Carries m e i v) ∧
        ∀ m v, r.Carries m e i v → v = (symbols e)[i] := by
  refine ⟨r.symbols, fun m hm => ?_, fun n hn => ?_, fun e he m hm => ?_,
    fun e he i => ⟨fun hcalls => ?_, ?_⟩⟩
  · obtain ⟨-, hepoch, hcur, hold⟩ := r.position hm
    rw [hepoch]
    exact ⟨hcur, hold⟩
  · -- advert `n + j` carries symbol `n % 68 + j` of the epoch of advert `n`
    have hindex : ∀ j : Fin 6, n % 68 + (j : Nat) < 73 := fun j => by omega
    let index : Fin 6 → Fin numSymbols := fun j => ⟨n % 68 + j, hindex j⟩
    have hinj : Function.Injective index := fun j j' heq => by
      have hval := congrArg Fin.val heq
      simp only [index] at hval
      exact Fin.ext (by omega)
    refine ⟨n / 68 + 1, Finset.univ.map ⟨index, hinj⟩, by simp, fun i hi => ?_⟩
    obtain ⟨j, -, rfl⟩ := Finset.mem_map.mp hi
    refine ⟨n + j, by omega, by omega, (r.carries_iff ..).mpr ⟨by omega, ?_, ?_⟩⟩
    · exact Vector.getElem?_eq_getElem _
    · have hvalue : ((⟨index, hinj⟩ : Fin 6 ↪ Fin numSymbols) j).val = n % 68 + j := rfl
      rw [hvalue]
      omega
  · rw [(r.position hm).2.1]
    omega
  · have hi : (i : Nat) < 73 := i.isLt
    have hsym : (r.symbols e)[(i : Nat)]? = some (r.symbols e)[i] :=
      Vector.getElem?_eq_getElem i.isLt
    -- symbols below 68 go out in the epoch itself, the last five in the next one
    refine ⟨68 * (e - 1) + i,
      ⟨by omega, _, (r.carries_iff ..).mpr ⟨hcalls, hsym, by omega⟩⟩, ?_⟩
    rintro m ⟨hm, v, hv⟩
    have hplace := ((r.carries_iff ..).mp hv).2.2
    omega
  · intro m v h
    have hv := ((r.carries_iff ..).mp h).2.1
    rw [Vector.getElem?_eq_getElem i.isLt] at hv
    exact (Option.some.inj hv).symm

/-- The last six adverts before a call that never returns. -/
theorem six_adverts_carry_one_key_two_keys :
    ∃ r : Run twoKeysEnv, r.calls = 67 ∧ ∃ e, ∃ value : Fin numSymbols → Word,
      ∃ indices : Finset (Fin numSymbols), 6 ≤ indices.card ∧
        ∀ i ∈ indices, ∃ m, 62 ≤ m ∧ m < 62 + 6 ∧ r.Carries m e i (value i) := by
  obtain ⟨r, -, hcalls⟩ := exists_twoKeysRun
  obtain ⟨symbols, -, hsix, -⟩ := six_adverts_carry_one_key twoKeysEnv r
  obtain ⟨e, indices, hcard, hcarries⟩ := hsix 62 (by rw [hcalls])
  exact ⟨r, hcalls, e, fun i => (symbols e)[i], indices, hcard, hcarries⟩

end EbnAnchor.Core
