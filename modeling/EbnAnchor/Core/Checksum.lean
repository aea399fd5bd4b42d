import EbnAnchor.Core.Epoch
import Mathlib.Algebra.BigOperators.Group.Finset.Basic
import Mathlib.Data.BitVec

/-!
The checksum of an epoch id.

`Insert_Checksum` is meant to add the five nibbles besides the checksum. In place of the low
nibble of the last byte it adds the high nibble of the byte behind the id. The result depends
on that nibble for every id, and is the right sum exactly when the two are the same
(`insertChecksum_right_iff`).
-/

namespace EbnAnchor.Core

/-! ### Nibbles -/

/-- The nibbles of an id, from the lowest; the last one is the checksum. -/
def EbnEpochId.nibble (id : EbnEpochId) (i : Nat) : BitVec 4 := id.bits.extractLsb' (4 * i) 4

abbrev numNibbles : Nat := 2 * sizeofEpochId

/-- The sum of the nibbles besides the checksum, modulo 16. -/
def EbnEpochId.nibbleTotal (id : EbnEpochId) : BitVec 4 :=
  ∑ i ∈ Finset.range (numNibbles - 1), id.nibble i

/-- What a receiver checks. -/
def EbnEpochId.Valid (id : EbnEpochId) : Prop := id.checksum = id.nibbleTotal

instance : DecidablePred EbnEpochId.Valid :=
  fun id => inferInstanceAs (Decidable (id.checksum = id.nibbleTotal))

/-- The ids agree but for the checksum. -/
structure SamePayload (id id' : EbnEpochId) : Prop where
  yCoord : id'.yCoord = id.yCoord
  random : id'.random = id.random

theorem SamePayload.refl (id : EbnEpochId) : SamePayload id id := ⟨rfl, rfl⟩

/-- The ids differ in one nibble. -/
def AlteredNibble (id received : EbnEpochId) : Prop :=
  ∃ i < numNibbles, received.nibble i ≠ id.nibble i ∧
    ∀ j < numNibbles, j ≠ i → received.nibble j = id.nibble j

variable {id id' received : EbnEpochId}

theorem bits_getLsbD (id : EbnEpochId) (i : Nat) : id.bits.getLsbD i =
    if i < 1 then id.yCoord.getLsbD i
    else if i < 20 then id.random.getLsbD (i - 1) else id.checksum.getLsbD (i - 20) := by
  unfold EbnEpochId.bits
  rw [BitVec.getLsbD_append, BitVec.getLsbD_append]
  have hlt : i - 1 < 19 ↔ i < 20 := by omega
  have hsub : i - 1 - 19 = i - 20 := by omega
  simp only [hlt, hsub]

theorem nibble_getLsbD (id : EbnEpochId) (i j : Nat) :
    (id.nibble i).getLsbD j = (decide (j < 4) && id.bits.getLsbD (4 * i + j)) :=
  BitVec.getLsbD_extractLsb' ..

theorem nibble_five (id : EbnEpochId) : id.nibble 5 = id.checksum := by
  refine BitVec.eq_of_getLsbD_eq fun j hj => ?_
  rw [nibble_getLsbD, bits_getLsbD, if_neg (by omega), if_neg (by omega)]
  have hsub : 4 * 5 + j - 20 = j := by omega
  rw [hsub, decide_eq_true hj, Bool.true_and]

theorem SamePayload.nibble (h : SamePayload id id') {i : Nat} (hi : i < 5) :
    id'.nibble i = id.nibble i := by
  refine BitVec.eq_of_getLsbD_eq fun j hj => ?_
  have hlt : 4 * i + j < 20 := by omega
  rw [nibble_getLsbD, nibble_getLsbD, bits_getLsbD, bits_getLsbD, if_pos hlt, if_pos hlt,
    h.yCoord, h.random]

theorem SamePayload.nibbleTotal (h : SamePayload id id') : id'.nibbleTotal = id.nibbleTotal :=
  Finset.sum_congr rfl fun _ hi => h.nibble (Finset.mem_range.mp hi)

/-- A nibble of its own cannot change a sum and leave it the same. -/
theorem eq_of_sum_eq {f g : Nat → BitVec 4} {n i : Nat} (hi : i < n)
    (hother : ∀ j < n, j ≠ i → f j = g j)
    (hsum : ∑ j ∈ Finset.range n, f j = ∑ j ∈ Finset.range n, g j) : f i = g i := by
  have hmem := Finset.mem_range.mpr hi
  rw [← Finset.sum_erase_add _ f hmem, ← Finset.sum_erase_add _ g hmem] at hsum
  have hrest : ∑ j ∈ (Finset.range n).erase i, f j = ∑ j ∈ (Finset.range n).erase i, g j := by
    refine Finset.sum_congr rfl fun j hj => ?_
    obtain ⟨hne, hj⟩ := Finset.mem_erase.mp hj
    exact hother j (Finset.mem_range.mp hj) hne
  rw [hrest] at hsum
  exact add_left_cancel hsum

/-- A single altered nibble shows. -/
theorem AlteredNibble.not_valid (h : AlteredNibble id received) (hvalid : id.Valid) :
    ¬ received.Valid := by
  obtain ⟨i, hi, hne, hother⟩ := h
  intro hreceived
  unfold EbnEpochId.Valid at hvalid hreceived
  by_cases hlast : i = 5
  · subst hlast
    refine hne ?_
    rw [nibble_five, nibble_five, hvalid, hreceived]
    refine Finset.sum_congr rfl fun j hj => ?_
    have hj := Finset.mem_range.mp hj
    exact hother j (Nat.lt_succ_of_lt hj) (Nat.ne_of_lt hj)
  · have hlt : i < 5 := Nat.lt_of_le_of_ne (Nat.le_of_lt_succ hi) hlast
    have hchecksum : received.checksum = id.checksum := by
      rw [← nibble_five, ← nibble_five]
      exact hother 5 (by decide) (Ne.symm hlast)
    rw [hreceived, hvalid] at hchecksum
    exact hne (eq_of_sum_eq hlt (fun j hj => hother j (Nat.lt_succ_of_lt hj)) hchecksum)

/-! ### Bytes -/

theorem high_setWidth (b : Byte) : (b >>> 4).setWidth 4 = b.extractLsb' 4 4 := by
  revert b
  decide

theorem low_setWidth (b : Byte) : (b &&& 0x0F).setWidth 4 = b.extractLsb' 0 4 := by
  revert b
  decide

/-- `bytes[i] >> 4` and `bytes[i] & 0x0F` are nibbles. -/
theorem byte_nibble (id : EbnEpochId) (i k : Nat) (hk : k < 2) :
    (id.byte i).extractLsb' (4 * k) 4 = id.nibble (2 * i + k) := by
  refine BitVec.eq_of_getLsbD_eq fun j hj => ?_
  have hlt : 4 * k + j < 8 := by omega
  have hpos : 8 * i + (4 * k + j) = 4 * (2 * i + k) + j := by omega
  rw [nibble_getLsbD, BitVec.getLsbD_extractLsb', EbnEpochId.byte, BitVec.getLsbD_extractLsb',
    hpos, decide_eq_true hlt, Bool.true_and]

theorem nibbleSum_setWidth (id : EbnEpochId) (i : Nat) :
    (nibbleSum (id.byte i)).setWidth 4 = id.nibble (2 * i + 1) + id.nibble (2 * i) := by
  rw [nibbleSum, BitVec.setWidth_add _ _ (by decide), high_setWidth, low_setWidth,
    byte_nibble id i 1 (by decide), byte_nibble id i 0 (by decide)]
  rfl

/-! ### `Insert_Checksum` -/

variable {env : EbnEnv} {s : EbnState}

theorem insertChecksum_checksum (env : EbnEnv) (s : EbnState) :
    (insertChecksum env s).currentId.checksum =
      ∑ i ∈ Finset.range 4, s.currentId.nibble i +
        (env.behindId s.checksums).extractLsb' 4 4 := by
  have hunfold : (insertChecksum env s).currentId.checksum =
    (0 + nibbleSum (s.currentId.byte 0) + nibbleSum (s.currentId.byte 1) +
      (env.behindId s.checksums >>> 4)).setWidth 4 := rfl
  have hfirst : (nibbleSum (s.currentId.byte 0)).setWidth 4 =
    s.currentId.nibble 1 + s.currentId.nibble 0 := nibbleSum_setWidth s.currentId 0
  have hsecond : (nibbleSum (s.currentId.byte 1)).setWidth 4 =
    s.currentId.nibble 3 + s.currentId.nibble 2 := nibbleSum_setWidth s.currentId 1
  rw [hunfold, BitVec.setWidth_add _ _ (by decide), BitVec.setWidth_add _ _ (by decide),
    BitVec.setWidth_add _ _ (by decide), hfirst, hsecond, high_setWidth]
  simp only [Finset.sum_range_succ, Finset.sum_range_zero]
  ac_rfl

/-- The rest of the id stays. -/
theorem insertChecksum_payload (env : EbnEnv) (s : EbnState) :
    SamePayload s.currentId (insertChecksum env s).currentId := ⟨rfl, rfl⟩

/-- The high nibble of the byte behind the id is the low nibble of its last byte. -/
def BehindMatches (env : EbnEnv) (s : EbnState) : Prop :=
  env.behindId s.checksums >>> 4 = s.currentId.byte 2 &&& 0x0F

theorem behindMatches_iff :
    BehindMatches env s ↔ (env.behindId s.checksums).extractLsb' 4 4 = s.currentId.nibble 4 := by
  have hhigh : ∀ b : Byte, b >>> 4 = (b.extractLsb' 4 4).setWidth 8 := by decide
  have hlow : ∀ b : Byte, b &&& 0x0F = (b.extractLsb' 0 4).setWidth 8 := by decide
  unfold BehindMatches
  rw [hhigh, hlow, byte_nibble s.currentId 2 0 (by decide)]
  constructor
  · intro h
    have hnibble := congrArg (BitVec.setWidth 4) h
    rw [BitVec.setWidth_setWidth_of_le _ (by decide), BitVec.setWidth_eq,
      BitVec.setWidth_setWidth_of_le _ (by decide), BitVec.setWidth_eq] at hnibble
    exact hnibble
  · intro h
    rw [h]

theorem insertChecksum_total_iff :
    (insertChecksum env s).currentId.checksum = s.currentId.nibbleTotal ↔
      BehindMatches env s := by
  have htotal : s.currentId.nibbleTotal =
      ∑ i ∈ Finset.range 4, s.currentId.nibble i + s.currentId.nibble 4 :=
    Finset.sum_range_succ s.currentId.nibble 4
  rw [behindMatches_iff, insertChecksum_checksum, htotal]
  exact add_right_inj (∑ i ∈ Finset.range 4, s.currentId.nibble i)

/-- The result depends on the rest of the id and the nibble behind it, and on nothing else. -/
theorem insertChecksum_eq_iff {env' : EbnEnv} {s' : EbnState}
    (hpayload : SamePayload s.currentId s'.currentId) :
    (insertChecksum env' s').currentId = (insertChecksum env s).currentId ↔
      (env'.behindId s'.checksums).extractLsb' 4 4 =
        (env.behindId s.checksums).extractLsb' 4 4 := by
  have hsum : ∑ i ∈ Finset.range 4, s'.currentId.nibble i =
      ∑ i ∈ Finset.range 4, s.currentId.nibble i := by
    refine Finset.sum_congr rfl fun i hi => hpayload.nibble ?_
    exact Nat.lt_succ_of_lt (Finset.mem_range.mp hi)
  constructor
  · intro h
    have hchecksum := congrArg EbnEpochId.checksum h
    rw [insertChecksum_checksum, insertChecksum_checksum, hsum] at hchecksum
    exact add_left_cancel hchecksum
  · intro hbehind
    have hchecksum : (insertChecksum env' s').currentId.checksum =
        (insertChecksum env s).currentId.checksum := by
      rw [insertChecksum_checksum, insertChecksum_checksum, hbehind, hsum]
    have hparts : ∀ id : EbnEpochId, id = ⟨id.yCoord, id.random, id.checksum⟩ := fun _ => rfl
    rw [hparts (insertChecksum env' s').currentId, hchecksum]
    exact congrArg₂ (EbnEpochId.mk · · _) hpayload.yCoord hpayload.random

/-- Another memory behind the same id gives another result. -/
theorem insertChecksum_depends (env : EbnEnv) (s : EbnState) :
    ∃ env' : EbnEnv, (insertChecksum env' s).currentId ≠ (insertChecksum env s).currentId := by
  have hother : ∀ b : Byte, (b + 0x10).extractLsb' 4 4 ≠ b.extractLsb' 4 4 := by decide
  refine ⟨⟨env.adc, env.makeKey, fun n => env.behindId n + 0x10⟩, ?_⟩
  rw [Ne, insertChecksum_eq_iff (.refl s.currentId)]
  exact hother (env.behindId s.checksums)

/-- The id with its checksum put right. -/
def EbnEpochId.corrected (id : EbnEpochId) : EbnEpochId := { id with checksum := id.nibbleTotal }

theorem EbnEpochId.corrected_payload (id : EbnEpochId) : SamePayload id id.corrected :=
  ⟨rfl, rfl⟩

theorem EbnEpochId.corrected_valid (id : EbnEpochId) : id.corrected.Valid :=
  id.corrected_payload.nibbleTotal.symm

/-- A wrong checksum is one nibble away from the right one. -/
theorem EbnEpochId.corrected_altered (h : ¬ id.Valid) : AlteredNibble id id.corrected := by
  refine ⟨5, by decide, ?_, ?_⟩
  · rw [nibble_five, nibble_five]
    intro heq
    exact h heq.symm
  · intro j hj hne
    have hlt : j < 5 := Nat.lt_of_le_of_ne (Nat.le_of_lt_succ hj) hne
    exact id.corrected_payload.nibble hlt

theorem insertChecksum_detects_iff :
    (∀ received, AlteredNibble (insertChecksum env s).currentId received → ¬ received.Valid) ↔
      BehindMatches env s := by
  have hpayload := insertChecksum_payload env s
  have hvalid : (insertChecksum env s).currentId.Valid ↔ BehindMatches env s := by
    rw [EbnEpochId.Valid, hpayload.nibbleTotal]
    exact insertChecksum_total_iff
  constructor
  · intro h
    rw [← hvalid]
    by_contra hwrong
    exact h _ (EbnEpochId.corrected_altered hwrong) (EbnEpochId.corrected_valid _)
  · intro h received haltered
    exact haltered.not_valid (hvalid.mpr h)

/-- What `Insert_Checksum` should do: the checksum is the sum of the five other nibbles, the
rest of the id stays, whatever else there is in memory gives the same result, and a single
altered nibble shows. -/
structure ChecksumRight (env : EbnEnv) (s : EbnState) : Prop where
  total : (insertChecksum env s).currentId.checksum = s.currentId.nibbleTotal
  payload : SamePayload s.currentId (insertChecksum env s).currentId
  alone : ∀ env' s', SamePayload s.currentId s'.currentId →
    (insertChecksum env' s').currentId = (insertChecksum env s).currentId
  detects : ∀ received, AlteredNibble (insertChecksum env s).currentId received →
    ¬ received.Valid

/-- For no id and no memory does it do all of that. The rest of the id stays, and the checksum
before does not matter; the checksum is the sum, and a single altered nibble shows, exactly
when the byte behind the id happens to match; and the result is the same exactly for the
memories with the same nibble there. -/
theorem insertChecksum_right_iff (env : EbnEnv) (s : EbnState) :
    ¬ ChecksumRight env s ∧
    ((insertChecksum env s).currentId.checksum = s.currentId.nibbleTotal ↔
      BehindMatches env s) ∧
    ((∀ received, AlteredNibble (insertChecksum env s).currentId received →
      ¬ received.Valid) ↔ BehindMatches env s) ∧
    SamePayload s.currentId (insertChecksum env s).currentId ∧
    ∀ env' s', SamePayload s.currentId s'.currentId →
      ((insertChecksum env' s').currentId = (insertChecksum env s).currentId ↔
        (env'.behindId s'.checksums).extractLsb' 4 4 =
          (env.behindId s.checksums).extractLsb' 4 4) := by
  refine ⟨?_, insertChecksum_total_iff, insertChecksum_detects_iff, insertChecksum_payload env s,
    fun env' s' hpayload => insertChecksum_eq_iff hpayload⟩
  intro h
  obtain ⟨env', hother⟩ := insertChecksum_depends env s
  exact hother (h.alone env' s (.refl s.currentId))

/-- The bytes of the id are 0, 0 and 1. Its checksum should be 1, but is 0 where the memory
behind it is zero, and 2 where there is a `0x20`. -/
theorem insertChecksum_behind :
    ∃ s : EbnState, s.currentId = .ofBytes (fun i => if i = 2 then 1 else 0) ∧
      s.currentId.nibbleTotal = 1 ∧
      (insertChecksum ⟨fun _ => 0, fun _ _ => ⟨0, s.oldPoint, s.oldPrivate⟩, fun _ => 0⟩
        s).currentId.checksum = 0 ∧
      (insertChecksum ⟨fun _ => 0, fun _ _ => ⟨0, s.oldPoint, s.oldPrivate⟩, fun _ => 0x20⟩
        s).currentId.checksum = 2 := by
  refine ⟨{ EbnState.zero with
    currentId := .ofBytes (fun i => if i = 2 then 1 else 0) }, rfl, ?_, ?_, ?_⟩
  · decide
  · rfl
  · rfl

end EbnAnchor.Core
