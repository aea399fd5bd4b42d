import EbnAnchor.Core.MakeKey
import EbnAnchor.Core.Recovery
import EbnAnchor.Core.SymbolCode

/-!
Runs of the node with the keys of `ecc_make_key`, and what a listener gets from the adverts.

`Held` is what a state holds: the private and public keys of two epochs, and the symbols of
both as code words of the public keys. Main results:

* `node_keys`: the keys of every state of a run were made by `ecc_make_key`;
* `heard_symbols_recover_key`: `jerasure_matrix_decode` gets the x-coordinate of the public
  key out of any six symbols, such as those of six consecutive adverts.
-/

namespace EbnAnchor.Core

open Mds Matrix CoZ

/-! ### The symbols -/

/-- The symbols are the code word of the x-coordinate. -/
def Codes (matrix : IntArray) (syms : Vector Word numSymbols) (x : Vli) : Prop :=
  ∀ i : Fin numSymbols,
    gf (syms.get i) = (Core.generator numData numCoding matrix *ᵥ messageOf x) i

/-- The calls of `ecc_make_key` that answer 1 hand out what `ecc_make_key` makes. -/
def MakesKeys (env : EbnEnv) : Prop :=
  ∀ n random, (env.makeKey n random).rc ≠ 0 → ∃ time publicKey, 384 ≤ time ∧
    eccMakeKey time publicKey random =
      .ok (1, (env.makeKey n random).publicKey, (env.makeKey n random).privateKey)

/-- The keys are those of a call that did not answer 0. -/
def Answered (env : EbnEnv) (publicKey : EccPoint) (privateKey : Vli) : Prop :=
  ∃ n random, (env.makeKey n random).rc ≠ 0 ∧ (env.makeKey n random).publicKey = publicKey ∧
    (env.makeKey n random).privateKey = privateKey

theorem Answered.made {env : EbnEnv} (hkeys : MakesKeys env) {publicKey : EccPoint}
    {privateKey : Vli} (h : Answered env publicKey privateKey) : MadeKey publicKey privateKey := by
  obtain ⟨n, random, hrc, rfl, rfl⟩ := h
  obtain ⟨time, before, htime, hrun⟩ := hkeys n random hrc
  exact madeKey htime hrun

/-- What is current belongs together: the two keys, and the symbols of the public one. -/
structure HeldCurrent (env : EbnEnv) (matrix : IntArray) (s : EbnState) : Prop where
  answered : Answered env s.currentPoint s.currentPrivate
  codes : Codes matrix s.currentSyms s.currentPoint.x
  coding : s.rsCodingMatrix = matrix

/-- The same for what is old. -/
structure HeldOld (env : EbnEnv) (matrix : IntArray) (s : EbnState) : Prop where
  answered : Answered env s.oldPoint s.oldPrivate
  codes : Codes matrix s.oldSyms s.oldPoint.x

section Change

variable {env : EbnEnv} {matrix : IntArray}

/-- The loop of `Generate_New_Key` ends with the keys of a call that answered 1. -/
theorem makeKeyLoop_answered {fuel : Nat} {s s' : EbnState}
    (h : makeKeyLoop env fuel s = some s') :
    Answered env s'.currentPoint s'.currentPrivate := by
  induction fuel generalizing s with
  | zero => cases h
  | succ fuel ih =>
    rw [makeKeyLoop] at h
    split_ifs at h with hrc
    · cases h
      exact ⟨_, _, hrc, rfl, rfl⟩
    · exact ih h

theorem generateNewSymbols_codes {s : EbnState}
    (hmds : IsMds (Core.generator numData numCoding s.rsCodingMatrix)) :
    Codes s.rsCodingMatrix (generateNewSymbols s).currentSyms s.currentPoint.x :=
  symbols_eq_generator hmds

/-- An epoch change makes a key and codes it. -/
theorem epochChange_held
    (hmds : IsMds (Core.generator numData numCoding matrix)) {fuel : Nat} {s s' : EbnState}
    (hmatrix : s.rsCodingMatrix = matrix) (h : epochChange env fuel s = some s') :
    HeldCurrent env matrix s' := by
  rw [epochChange, Option.map_eq_some_iff] at h
  obtain ⟨s₁, hkey, rfl⟩ := h
  rw [generateNewKey, Option.map_eq_some_iff] at hkey
  obtain ⟨s₀, hloop, rfl⟩ := hkey
  have hanswered := makeKeyLoop_answered hloop
  obtain ⟨samples, keyCalls, point, secret, rfl⟩ := makeKeyLoop_eq hloop
  obtain ⟨id, samples', checksums, hid, -⟩ := generateNewEpochId_eq env
    { s with
      oldPoint := s.currentPoint, oldPrivate := s.currentPrivate, oldY := s.currentY
      samples := samples, keyCalls := keyCalls
      currentPoint := point, currentPrivate := secret
      currentY := (eccCompressYCoord point).setWidth 8 }
  subst hmatrix
  have hcodes := generateNewSymbols_codes (s := generateNewMacAddress (generateNewEpochId env
    { s with
      oldPoint := s.currentPoint, oldPrivate := s.currentPrivate, oldY := s.currentY
      samples := samples, keyCalls := keyCalls
      currentPoint := point, currentPrivate := secret
      currentY := (eccCompressYCoord point).setWidth 8 })) (by rw [hid]; exact hmds)
  obtain ⟨adverts, hadverts, -⟩ := generateEpochAdverts_eq (generateNewSymbols
    (generateNewMacAddress (generateNewEpochId env
      { s with
        oldPoint := s.currentPoint, oldPrivate := s.currentPrivate, oldY := s.currentY
        samples := samples, keyCalls := keyCalls
        currentPoint := point, currentPrivate := secret
        currentY := (eccCompressYCoord point).setWidth 8 })))
  rw [hadverts]
  rw [hid] at hcodes ⊢
  exact ⟨hanswered, hcodes, rfl⟩

/-- And what was current is old. -/
theorem HeldCurrent.old {s s' : EbnState} (h : HeldCurrent env matrix s)
    (hstep : EpochStep s s') : HeldOld env matrix s' := by
  constructor
  · rw [hstep.oldPoint, hstep.oldPrivate]
    exact h.answered
  · rw [hstep.oldSyms, hstep.oldPoint]
    exact h.codes

theorem HeldCurrent.setMessageNum {s : EbnState} (h : HeldCurrent env matrix s) (n : Byte) :
    HeldCurrent env matrix { s with messageNum := n } :=
  ⟨h.answered, h.codes, h.coding⟩

theorem HeldOld.setMessageNum {s : EbnState} (h : HeldOld env matrix s) (n : Byte) :
    HeldOld env matrix { s with messageNum := n } :=
  ⟨h.answered, h.codes⟩

end Change

/-! ### Runs -/

section Runs

variable {env : EbnEnv}

/-- Every state of a run holds two epochs, coded with the matrix of `Init_RS`. -/
theorem Run.held (r : Run env) :
    ∃ matrix, reedSolVandermondeCodingMatrix numData numCoding r.vdm r.dist = some matrix ∧
      IsMds (Core.generator numData numCoding matrix) ∧ (∀ c < numData, matrix c = 1) ∧
      ∀ n ≤ r.calls, HeldCurrent env matrix (r.states n) ∧ HeldOld env matrix (r.states n) := by
  obtain ⟨matrix, hmatrix, hmds, hones, -⟩ := codingMatrix_normal (k := numData) (m := numCoding)
    (by decide) (by decide) (by decide) r.vdm r.dist
  refine ⟨matrix, hmatrix, hmds, hones, fun n hn => ?_⟩
  induction n with
  | zero =>
    obtain ⟨fuel, hinit⟩ := r.init
    rw [ebnInit, initRs, hmatrix, Option.map_some, Option.bind_some,
      Option.bind_eq_some_iff] at hinit
    obtain ⟨s₁, hfirst, hinit⟩ := hinit
    rw [Option.map_eq_some_iff] at hinit
    obtain ⟨s₂, hsecond, hstate⟩ := hinit
    have hheld := epochChange_held hmds rfl hfirst
    rw [← hstate]
    exact ⟨(epochChange_held hmds hheld.coding hsecond).setMessageNum 0,
      (hheld.old (epochChange_step hsecond)).setMessageNum 0⟩
  | succ n ih =>
    have ih := ih (Nat.le_of_succ_le hn)
    obtain ⟨fuel, hcall⟩ := r.step n hn
    rw [ebnIncrementTime] at hcall
    dsimp only at hcall
    split_ifs at hcall with hroll
    · rw [Option.map_eq_some_iff] at hcall
      obtain ⟨s₁, hchange, heq⟩ := hcall
      have hcurrent := ih.1.setMessageNum ((r.states n).messageNum + 1)
      rw [← (Prod.mk.inj heq).2]
      exact ⟨(epochChange_held hmds hcurrent.coding hchange).setMessageNum 0,
        (hcurrent.old (epochChange_step hchange)).setMessageNum 0⟩
    · rw [← (Prod.mk.inj (Option.some.inj hcall)).2]
      exact ⟨ih.1.setMessageNum _, ih.2.setMessageNum _⟩

/-- The six adverts from number `n` on carry symbols of the epoch of the first one. -/
theorem Run.carries_six (r : Run env) {n : Nat} (hn : n + 5 ≤ r.calls) :
    ∃ received : Finset (Fin numSymbols), 6 ≤ received.card ∧ ∀ i ∈ received,
      ∃ m, n ≤ m ∧ m < n + 6 ∧ r.Carries m (r.epoch n) i ((r.states n).currentSyms.get i) := by
  obtain ⟨-, hepoch, hcur, -⟩ := r.position (Nat.le_of_add_right_le hn)
  have hindex : ∀ j : Fin 6, n % 68 + (j : Nat) < 73 := fun j => by omega
  have hinj : Function.Injective fun j : Fin 6 => (⟨n % 68 + j, hindex j⟩ : Fin numSymbols) := by
    intro j j' heq
    apply Fin.ext
    have hval := congrArg Fin.val heq
    dsimp only at hval
    omega
  refine ⟨Finset.univ.map ⟨_, hinj⟩, by simp, fun i hi => ?_⟩
  obtain ⟨j, -, rfl⟩ := Finset.mem_map.mp hi
  rw [hepoch, hcur]
  refine ⟨n + j, by omega, by omega, (r.carries_iff ..).mpr ⟨by omega, ?_, ?_⟩⟩
  · exact Vector.getElem?_eq_getElem _
  · dsimp only [Function.Embedding.coeFn_mk]
    omega

/-- A symbol carried for an epoch is the symbol of its key. -/
theorem Run.carried_symbol (r : Run env) {m n : Nat} (hn : n ≤ r.calls) {i : Fin numSymbols}
    {w : Word} (h : r.Carries m (r.epoch n) i w) : (r.states n).currentSyms.get i = w := by
  obtain ⟨-, hepoch, hcur, -⟩ := r.position hn
  have hvalue := ((r.carries_iff ..).mp h).2.1
  rw [hepoch, Vector.getElem?_eq_getElem i.isLt, ← hcur] at hvalue
  exact Option.some.inj hvalue

end Runs

theorem plain_random : ∀ z ∈ (none : Option Vli), val z % prime ≠ 0 := fun z hz =>
  absurd hz (Option.not_mem_none z)

/-! ### Two nodes, and a listener -/

section Results

variable {env env' : EbnEnv}

/-- The keys of a node, current and old, are accepted public keys with their private keys. At
any two moments two nodes compute the same secret, each from its private key and the public
key of the other, unless one of the two x-coordinates is 0. -/
theorem node_keys (hkeys : MakesKeys env) (hkeys' : MakesKeys env') (r : Run env)
    (r' : Run env') {n n' : Nat} (hn : n ≤ r.calls) (hn' : n' ≤ r'.calls) :
    eccValidPublicKey (r.states n).currentPoint = 1 ∧
      eccValidPublicKey (r.states n).oldPoint = 1 ∧
      Represents (r.states n).currentPoint (val (r.states n).currentPrivate • basePoint) ∧
      Represents (r.states n).oldPoint (val (r.states n).oldPrivate • basePoint) ∧
      (val (r.states n).currentPoint.x = 0 ∨ val (r'.states n').currentPoint.x = 0 ∨
        ∀ time secret secret', 384 ≤ time → ∃ shared,
          ecdhSharedSecret time secret (r'.states n').currentPoint (r.states n).currentPrivate
            none = .ok (1, shared) ∧
          ecdhSharedSecret time secret' (r.states n).currentPoint (r'.states n').currentPrivate
            none = .ok (1, shared)) := by
  obtain ⟨matrix, -, -, -, hheld⟩ := r.held
  obtain ⟨matrix', -, -, -, hheld'⟩ := r'.held
  have hcurrent := (hheld n hn).1.answered.made hkeys
  have hold := (hheld n hn).2.answered.made hkeys
  have hother := (hheld' n' hn').1.answered.made hkeys'
  refine ⟨hcurrent.represents.valid, hold.represents.valid, hcurrent.represents,
    hold.represents, ?_⟩
  by_cases hx : val (r.states n).currentPoint.x = 0
  · exact Or.inl hx
  by_cases hx' : val (r'.states n').currentPoint.x = 0
  · exact Or.inr (Or.inl hx')
  refine Or.inr (Or.inr fun time secret secret' htime => ?_)
  obtain ⟨product, hrun, hproduct⟩ := hcurrent.shared hother hx' plain_random htime secret
  obtain ⟨product', hrun', hproduct'⟩ := hother.shared hcurrent hx plain_random htime secret'
  rw [Nat.mul_comm] at hproduct'
  rw [hproduct'.unique hproduct] at hrun'
  exact ⟨product.x, hrun, hrun'⟩

/-- A listener that hears six symbols or more of an epoch, in whatever adverts, stores them at
their devices and names the others as lost: `jerasure_matrix_decode` returns 0 and leaves
the x-coordinate of the public key of the epoch in the data devices. -/
theorem heard_symbols_recover_key (r : Run env) {n : Nat} (hn : n ≤ r.calls)
    {heard : Finset (Fin numSymbols)} {value : Fin numSymbols → Word}
    (hheard : ∀ i ∈ heard, ∃ m, r.Carries m (r.epoch n) i (value i)) (hcard : 6 ≤ heard.card)
    {p : Pointers} (hsep : Separate numData numCoding 1 p) {erasures : List Nat}
    (hlost : ∀ i : Fin numSymbols, (i : Nat) ∈ erasures ↔ i ∉ heard)
    (hlt : ∀ e ∈ erasures, e < numSymbols) {mem : Memory}
    (hmem : ∀ i ∈ heard, mem.cells (p.device numData i) = value i) (rowKOnes : Bool)
    (heap : Blocks) :
    ∃ matrix mem', reedSolVandermondeCodingMatrix numData numCoding r.vdm r.dist = some matrix ∧
      jerasureMatrixDecode numData numCoding matrix rowKOnes erasures p (4 * 1) heap mem
        = some (0, mem') ∧
      ∀ c : Fin numData, mem'.cells (p.data c) = (r.states n).currentPoint.x.get c := by
  obtain ⟨matrix, hmatrix, hmds, hones, hheld⟩ := r.held
  have hleft : ∀ id : Fin (numData + numCoding), (id : Nat) ∉ erasures →
      Holds numData numCoding 1 matrix p (fun _ => messageOf (r.states n).currentPoint.x) mem
        id := by
    intro id hid o ho
    obtain rfl : o = 0 := by omega
    have hin : id ∈ heard := not_not.mp (mt (hlost id).mpr hid)
    obtain ⟨m, hm⟩ := hheard id hin
    rw [Nat.add_zero, hmem id hin, ← r.carried_symbol hn hm]
    exact (hheld n hn).1.codes id
  have hcount : erasures.toFinset.card ≤ numCoding := by
    have hsub : erasures.toFinset ⊆ (Finset.univ \ heard).map Fin.valEmbedding := by
      intro e he
      rw [List.mem_toFinset] at he
      rw [Finset.mem_map]
      refine ⟨⟨e, hlt e he⟩, ?_, rfl⟩
      rw [Finset.mem_sdiff]
      exact ⟨Finset.mem_univ _, (hlost ⟨e, hlt e he⟩).mp he⟩
    have hle := Finset.card_le_card hsub
    rw [Finset.card_map, Finset.card_sdiff_of_subset (Finset.subset_univ _), Finset.card_univ,
      Fintype.card_fin] at hle
    have htotal : numSymbols = 6 + numCoding := rfl
    omega
  obtain ⟨mem', hrun, hres⟩ := (decode_spec hsep hmds (by decide) (fun _ => hones) hlt heap
    hleft).1 hcount
  refine ⟨matrix, mem', hmatrix, hrun, fun c => ?_⟩
  have hc : (c : Nat) < numData + numCoding := Nat.lt_of_lt_of_le c.isLt (by decide)
  have hholds := hres.holds ⟨c, hc⟩ trivial 0 (by decide)
  rw [generator_data c.isLt] at hholds
  apply gf_injective
  rw [Pointers.device, if_pos c.isLt, Nat.add_zero] at hholds
  exact hholds

end Results

/-! ### A node whose ADC only yields ones -/

/-- The number such a node draws. -/
def onesRandom : Vli :=
  #v[0xFFFFFFFF, 0xFFFFFFFF, 0xFFFFFFFF, 0xFFFFFFFF, 0xFFFFFFFF, 0xFFFFFFFF]

/-- The node with the keys for that number. It never asks for the keys of another one. -/
def onesNode (publicKey : EccPoint) (privateKey : Vli) : EbnEnv where
  adc := fun _ => 1
  makeKey := fun _ random =>
    if random = onesRandom then ⟨1, publicKey, privateKey⟩ else ⟨0, publicKey, random⟩
  behindId := fun _ => 0

section OnesNode

variable {publicKey : EccPoint} {privateKey : Vli}

theorem onesNode_random (pos : Nat) :
    entropyWords (fillRandomBytes (onesNode publicKey privateKey) pos) = onesRandom := by
  have hone : ∀ pos, (onesNode publicKey privateKey).adc pos = 1 := fun _ => rfl
  have hbytes : fillRandomBytes (onesNode publicKey privateKey) pos = fun _ => 0xFF := by
    funext i
    simp only [fillRandomBytes, getRandomByte1, hone]
    decide
  rw [hbytes]
  decide

theorem onesNode_makesKeys
    (hrun : eccMakeKey 384 curveG onesRandom = .ok (1, publicKey, privateKey)) :
    MakesKeys (onesNode publicKey privateKey) := by
  intro n random hrc
  refine ⟨384, curveG, le_rfl, ?_⟩
  simp only [onesNode] at hrc ⊢
  by_cases hrandom : random = onesRandom
  · rw [if_pos hrandom, hrandom]
    exact hrun
  · rw [if_neg hrandom] at hrc
    exact absurd rfl hrc

theorem attempt_onesNode (samples keyCalls : Nat) :
    attempt (onesNode publicKey privateKey) samples keyCalls = ⟨1, publicKey, privateKey⟩ := by
  rw [attempt, onesNode_random]
  simp only [onesNode, if_true]

theorem exists_onesNode_run (publicKey : EccPoint) (privateKey : Vli) (calls : Nat) :
    ∃ r : Run (onesNode publicKey privateKey), r.before = EbnState.zero ∧ r.calls = calls := by
  apply exists_run_of_change _ _ (fun _ => 0) (fun _ => 0)
  intro s
  apply epochChange_returns (n := 0)
  have hrc : (1 : Word) ≠ 0 := by decide
  rw [attempt_onesNode]
  exact hrc

/-- It never has other keys. -/
theorem onesNode_held (r : Run (onesNode publicKey privateKey)) {n : Nat} (hn : n ≤ r.calls) :
    (r.states n).currentPoint = publicKey := by
  obtain ⟨matrix, -, -, -, hheld⟩ := r.held
  obtain ⟨calls, random, hrc, hpoint, -⟩ := (hheld n hn).1.answered
  simp only [onesNode] at hrc hpoint
  by_cases hrandom : random = onesRandom
  · rw [if_pos hrandom] at hpoint
    exact hpoint.symm
  · rw [if_neg hrandom] at hrc
    exact absurd rfl hrc

end OnesNode

/-- What is left of that number modulo the order. -/
abbrev onesSecret : Nat := 31607402335160671281192228814

/-- The x-coordinate of that multiple of the generator is not 0: the ladder for it has 94 steps. -/
theorem ones_multiple_x {point : EccPoint} (h : Represents point (onesSecret • basePoint)) :
    val point.x ≠ 0 := by
  have hhigh : onesSecret + 2 < addOrderOf basePoint := by
    rw [addOrderOf_basePoint]
    decide
  have hone : onesSecret >>> 94 = 1 := by decide
  have hover : Over ((onesSecret >>> 94) • basePoint) ((onesSecret >>> 94 + 1) • basePoint)
      baseY basePair := by
    rw [hone, one_nsmul, two_nsmul]
    exact over_basePair
  obtain ⟨Z, hladder⟩ := hover.ladder hhigh (by rw [hone]; exact one_pos)
  exact h.x_ne hladder.fst (by decide +kernel)

/-- The private key is that number less the order. -/
theorem exists_onesKeys : ∃ publicKey privateKey,
    eccMakeKey 384 curveG onesRandom = .ok (1, publicKey, privateKey) ∧ val publicKey.x ≠ 0 := by
  obtain ⟨publicKey, privateKey, hrun, -, hmade⟩ := eccMakeKey_made onesRandom (by decide)
    (by decide) le_rfl curveG
  have hsecret : val onesRandom % order = onesSecret := by decide
  rw [hsecret] at hmade
  exact ⟨publicKey, privateKey, hrun, ones_multiple_x hmade⟩

/-- At two moments of a run of that node. -/
theorem node_keys_ones :
    ∃ publicKey privateKey, ∃ r : Run (onesNode publicKey privateKey), ∃ shared,
      eccMakeKey 384 curveG onesRandom = .ok (1, publicKey, privateKey) ∧ r.calls = 70 ∧
      eccValidPublicKey (r.states 7).currentPoint = 1 ∧
      ecdhSharedSecret 384 curveN (r.states 70).currentPoint (r.states 7).currentPrivate
        none = .ok (1, shared) ∧
      ecdhSharedSecret 384 curveN (r.states 7).currentPoint (r.states 70).currentPrivate
        none = .ok (1, shared) := by
  obtain ⟨publicKey, privateKey, hrun, hx⟩ := exists_onesKeys
  obtain ⟨r, -, hcalls⟩ := exists_onesNode_run publicKey privateKey 70
  have hfirst : 7 ≤ r.calls := by omega
  have hlast : 70 ≤ r.calls := by omega
  have hkeys := onesNode_makesKeys hrun
  obtain ⟨hvalid, -, -, -, hshared⟩ := node_keys hkeys hkeys r r hfirst hlast
  rw [onesNode_held r hfirst, onesNode_held r hlast] at hshared
  obtain ⟨shared, hrun₁, hrun₂⟩ := (hshared.resolve_left hx).resolve_left hx 384 curveN curveN
    le_rfl
  refine ⟨publicKey, privateKey, r, shared, hrun, hcalls, hvalid, ?_⟩
  rw [onesNode_held r hfirst, onesNode_held r hlast]
  exact ⟨hrun₁, hrun₂⟩

/-- Devices of a word each. -/
theorem separate_words : Separate numData numCoding 1 ⟨fun i => i, fun i => numData + i⟩ := by
  intro a ha b hb hne o ho o' ho'
  simp only [Pointers.device]
  split_ifs <;> omega

/-- A listener of that node hears the adverts 70 to 75. -/
theorem heard_symbols_recover_key_ones :
    ∃ publicKey privateKey, ∃ r : Run (onesNode publicKey privateKey), ∃ matrix mem mem',
        ∃ erasures : List Nat,
      eccMakeKey 384 curveG onesRandom = .ok (1, publicKey, privateKey) ∧ r.calls = 75 ∧
      jerasureMatrixDecode numData numCoding matrix false erasures
          ⟨fun i => i, fun i => numData + i⟩ (4 * 1)
          ⟨fun _ => 0, fun _ => 0, fun _ => 0, fun _ => 0, fun _ => 0⟩ mem = some (0, mem') ∧
        ∀ c : Fin numData, mem'.cells c = publicKey.x.get c := by
  obtain ⟨publicKey, privateKey, hmade, -⟩ := exists_onesKeys
  obtain ⟨r, -, hcalls⟩ := exists_onesNode_run publicKey privateKey 75
  have hn : 70 ≤ r.calls := by omega
  obtain ⟨heard, hcard, hheard⟩ := r.carries_six (n := 70) (by omega)
  have hmem : ∀ i ∈ heard, (⟨fun a => if h : a < numSymbols then
      (r.states 70).currentSyms.get ⟨a, h⟩ else 0, []⟩ : Memory).cells
        ((⟨fun i => i, fun i => numData + i⟩ : Pointers).device numData i) =
      (r.states 70).currentSyms.get i := by
    intro i _
    have hdevice : (⟨fun i => i, fun i => numData + i⟩ : Pointers).device numData i = i := by
      simp only [Pointers.device]
      split_ifs <;> omega
    rw [hdevice]
    exact dif_pos i.isLt
  have hlost : ∀ i : Fin numSymbols,
      (i : Nat) ∈ ((Finset.univ \ heard).map Fin.valEmbedding).toList ↔ i ∉ heard := by
    simp [Fin.val_inj]
  have hlt : ∀ e ∈ ((Finset.univ \ heard).map Fin.valEmbedding).toList, e < numSymbols := by
    intro e he
    rw [Finset.mem_toList, Finset.mem_map] at he
    obtain ⟨i, -, rfl⟩ := he
    exact i.isLt
  obtain ⟨matrix, mem', -, hrun, hdata⟩ := heard_symbols_recover_key
    r hn (fun i hi => (hheard i hi).imp fun m hm => hm.2.2) hcard
    separate_words hlost hlt hmem false
    ⟨fun _ => 0, fun _ => 0, fun _ => 0, fun _ => 0, fun _ => 0⟩
  rw [onesNode_held r hn] at hdata
  exact ⟨publicKey, privateKey, r, matrix, _, mem', _, hmade, hcalls, hrun, hdata⟩

end EbnAnchor.Core
