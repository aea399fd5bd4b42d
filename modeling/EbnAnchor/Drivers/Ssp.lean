import EbnAnchor.Core.Mem
import Mathlib.Data.List.Basic

/-!
`lpc17xx_ssp.c`: `SSP_ReadWrite` in polling mode, with frames of eight bits.

The peripheral is what each round of the loop finds; what the receive FIFO held before is
dropped and is not among it. `sspReadWritePolling_received` says that a call the receiver does
not overrun takes the first `length` bytes that arrive, in whatever rounds they do;
`sspReadWritePolling_length_le` that no call takes more.
-/

namespace EbnAnchor.Drivers

/-- What a round of the polling loop finds. -/
structure SspRound where
  /-- `SSP_SR_TNF` -/
  notFull : Bool
  /-- `SSP_RIS_ROR` -/
  overrun : Bool
  /-- The bytes of the receive FIFO, as long as the round reads them. -/
  arrived : List Byte

/-- The counters of the transfer, and the bytes received. -/
structure SspCount where
  txCnt : Nat
  rxCnt : Nat
  received : List Byte

/-- `SSP_SendData`, when there is room and something left to send. -/
def sendData (length : Nat) (notFull : Bool) (c : SspCount) : SspCount :=
  if notFull ∧ c.txCnt ≠ length then { c with txCnt := c.txCnt + 1 } else c

/-- The loop `while ((SSPx->SR & SSP_SR_RNE) && (dataCfg->rx_cnt != dataCfg->length))`. -/
def receiveData (length : Nat) : List Byte → SspCount → SspCount
  | [], c => c
  | b :: bytes, c =>
    if c.rxCnt ≠ length then
      receiveData length bytes { c with rxCnt := c.rxCnt + 1, received := c.received ++ [b] }
    else c

/-- How a call ends; `sd.c` does not look at the count it returns otherwise. -/
structure SspReturn where
  /-- `return (-1)` -/
  failed : Bool
  received : List Byte

/-- The loop `while ((dataCfg->tx_cnt != dataCfg->length) || …)`; nothing where the rounds end
before the call returns. -/
def sspPolling (length : Nat) : List SspRound → SspCount → Option SspReturn
  | [], c => if c.txCnt ≠ length ∨ c.rxCnt ≠ length then none else some ⟨false, c.received⟩
  | round :: rounds, c =>
    if c.txCnt ≠ length ∨ c.rxCnt ≠ length then
      let c := sendData length round.notFull c
      if round.overrun then some ⟨true, c.received⟩
      else sspPolling length rounds (receiveData length round.arrived c)
    else some ⟨false, c.received⟩

/-- The counters are cleared first. -/
def sspReadWritePolling (length : Nat) (rounds : List SspRound) : Option SspReturn :=
  sspPolling length rounds ⟨0, 0, []⟩

/-! ### What a call receives -/

/-- The receive counter counts the bytes received, up to the length. -/
structure SspCount.Counts (length : Nat) (c : SspCount) : Prop where
  rxCnt_eq : c.rxCnt = c.received.length
  le_length : c.received.length ≤ length

variable {length : Nat} {c : SspCount}

theorem sendData_counts (notFull : Bool) (h : c.Counts length) :
    (sendData length notFull c).Counts length ∧
      (sendData length notFull c).received = c.received := by
  unfold sendData
  split
  · exact ⟨⟨h.rxCnt_eq, h.le_length⟩, rfl⟩
  · exact ⟨h, rfl⟩

theorem receiveData_counts (bytes : List Byte) (h : c.Counts length) :
    (receiveData length bytes c).Counts length ∧
      (receiveData length bytes c).received =
        c.received ++ bytes.take (length - c.received.length) := by
  induction bytes generalizing c with
  | nil => exact ⟨h, by rw [List.take_nil, List.append_nil]; rfl⟩
  | cons b bytes ih =>
    have hcnt := h.rxCnt_eq
    have hle := h.le_length
    unfold receiveData
    by_cases hmore : c.rxCnt ≠ length
    · rw [if_pos hmore]
      obtain ⟨hcounts, hreceived⟩ := ih
        (c := { c with rxCnt := c.rxCnt + 1, received := c.received ++ [b] })
        ⟨by simp [hcnt], by simp; omega⟩
      refine ⟨hcounts, hreceived.trans ?_⟩
      have hroom : length - c.received.length = length - (c.received ++ [b]).length + 1 := by
        rw [List.length_append, List.length_singleton]
        omega
      rw [hroom, List.take_succ_cons, List.append_assoc]
      rfl
    · have hfull : length - c.received.length = 0 := by omega
      rw [if_neg hmore, hfull, List.take_zero, List.append_nil]
      exact ⟨h, rfl⟩

/-- The bytes read in a round are the first that arrived in it; it leaves some behind only
when the transfer has all it wants. -/
theorem receiveData_takes (bytes rest : List Byte) {ret : List Byte} (h : c.Counts length)
    (hle : ret.length ≤ length) (hinit : ret <+: (receiveData length bytes c).received ++ rest) :
    ret <+: c.received ++ (bytes ++ rest) := by
  have hroom := h.le_length
  obtain ⟨-, hreceived⟩ := receiveData_counts bytes h
  rw [hreceived] at hinit
  rw [← List.append_assoc]
  by_cases hall : bytes.length ≤ length - c.received.length
  · rwa [List.take_of_length_le hall] at hinit
  · have hfull : ret.length ≤ (c.received ++ bytes.take (length - c.received.length)).length := by
      rw [List.length_append, List.length_take]
      omega
    have hread := List.prefix_of_prefix_length_le hinit (List.prefix_append _ rest) hfull
    have htaken : c.received ++ bytes.take (length - c.received.length) <+: c.received ++ bytes :=
      (List.prefix_append_right_inj _).mpr (List.take_prefix ..)
    exact (hread.trans htaken).trans (List.prefix_append ..)

/-- A call takes the first of the bytes that arrive, `length` of them unless it fails. -/
theorem sspPolling_takes {rounds : List SspRound} {ret : SspReturn} (h : c.Counts length)
    (hreturn : sspPolling length rounds c = some ret) :
    ret.received <+: c.received ++ rounds.flatMap SspRound.arrived ∧
      ret.received.length ≤ length ∧ (ret.failed = false → ret.received.length = length) := by
  induction rounds generalizing c with
  | nil =>
    unfold sspPolling at hreturn
    split at hreturn
    · cases hreturn
    · next hdone =>
      cases hreturn
      have hcnt := h.rxCnt_eq
      have hall : c.received.length = length := by omega
      exact ⟨List.prefix_append .., h.le_length, fun _ => hall⟩
  | cons round rounds ih =>
    unfold sspPolling at hreturn
    split at hreturn
    · obtain ⟨hcounts, hsame⟩ := sendData_counts round.notFull h
      dsimp only at hreturn
      split at hreturn
      · cases hreturn
        rw [hsame]
        exact ⟨List.prefix_append .., h.le_length, fun hok => by cases hok⟩
      · obtain ⟨hinit, hle, hall⟩ := ih (receiveData_counts round.arrived hcounts).1 hreturn
        refine ⟨?_, hle, hall⟩
        rw [List.flatMap_cons, ← hsame]
        exact receiveData_takes _ _ hcounts hle hinit
    · next hdone =>
      cases hreturn
      have hcnt := h.rxCnt_eq
      have hall : c.received.length = length := by omega
      exact ⟨List.prefix_append .., h.le_length, fun _ => hall⟩

theorem counts_zero (length : Nat) : SspCount.Counts length ⟨0, 0, []⟩ :=
  ⟨rfl, Nat.zero_le length⟩

/-- No call takes more than `length` bytes. -/
theorem sspReadWritePolling_length_le {rounds : List SspRound} {ret : SspReturn}
    (h : sspReadWritePolling length rounds = some ret) : ret.received.length ≤ length :=
  (sspPolling_takes (counts_zero length) h).2.1

/-- Only an overrun makes a call fail. -/
theorem sspPolling_failed {rounds : List SspRound} {ret : SspReturn}
    (hfine : ∀ round ∈ rounds, round.overrun = false)
    (h : sspPolling length rounds c = some ret) : ret.failed = false := by
  induction rounds generalizing c with
  | nil =>
    unfold sspPolling at h
    split at h
    · cases h
    · cases h
      rfl
  | cons round rounds ih =>
    unfold sspPolling at h
    rw [hfine round List.mem_cons_self] at h
    split at h
    · exact ih (fun later hlater => hfine later (List.mem_cons_of_mem _ hlater)) h
    · cases h
      rfl

/-- A call that is not overrun takes the first `length` bytes that arrive. -/
theorem sspReadWritePolling_received {rounds : List SspRound} {ret : SspReturn}
    (hfine : ∀ round ∈ rounds, round.overrun = false)
    (h : sspReadWritePolling length rounds = some ret) :
    ret.received = (rounds.flatMap SspRound.arrived).take length ∧
      length ≤ (rounds.flatMap SspRound.arrived).length := by
  obtain ⟨hinit, -, hall⟩ := sspPolling_takes (counts_zero length) h
  rw [List.nil_append] at hinit
  have hlen : ret.received.length = length := hall (sspPolling_failed hfine h)
  refine ⟨?_, hlen ▸ hinit.length_le⟩
  rw [← hlen]
  exact List.prefix_iff_eq_take.mp hinit

end EbnAnchor.Drivers
