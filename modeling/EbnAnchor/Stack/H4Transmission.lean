import EbnAnchor.Stack.H4
import EbnAnchor.Stack.HciCmds
import Mathlib.Data.List.Range

/-!
`hci_transport_h4_dma.c` over `hal_uart_dma.c` and `lpc17xx_uart.c`: the sender.

`UART_Send` gives up when the transmitter stays busy for `UART_BLOCKING_TIMEOUT` reads of the
line status, and `hal_uart_dma_send_block` does not look at the count it returns. So a block
is reported as sent whether it went out or not, and it went out exactly when no wait timed
out (`uartSend_line_iff`, `H4Tx.h4SendPacket_line_iff`; `sendBlock_completes_iff`).

`H4.lean` has the transmit state alone; `h4SendPacket_txState` connects the two.
-/

namespace EbnAnchor.Stack

/-! ### `lpc17xx_uart.c` -/

abbrev uartBlockingTimeout : Nat := 0xFFFFFFFF
abbrev uartTxFifoSize : Nat := 16

/-- The transmitter of UART1. -/
structure Uart where
  /-- The reads of `LSR` so far. -/
  lsrReads : Nat
  /-- The bytes written to `THR`. -/
  line : List Byte

def uartSendByte (data : Byte) (uart : Uart) : Uart := { uart with line := uart.line ++ [data] }

/-- The variables of `UART_Send`; `pChar` is `txbuf + bSent`. -/
structure UartSending where
  uart : Uart
  bToSend : Nat
  bSent : Nat

section

-- `LSR & UART_LSR_THRE` at each read
variable (thre : Nat → Bool) (txbuf : Packet)

/-- Wait for THR empty with timeout: the `timeOut` left, and the reads of `LSR`. -/
def waitThre : Nat → Nat → Nat × Nat
  | 0, lsrReads => (0, lsrReads + 1)
  | timeOut + 1, lsrReads =>
    if thre lsrReads then (timeOut + 1, lsrReads + 1) else waitThre timeOut (lsrReads + 1)

/-- The loop `while (fifo_cnt && bToSend)`. -/
def fillFifo : Nat → UartSending → UartSending
  | 0, s => s
  | fifoCnt + 1, s =>
    if s.bToSend = 0 then s else
    fillFifo fifoCnt {
      uart := uartSendByte (txbuf s.bSent) s.uart
      bToSend := s.bToSend - 1
      bSent := s.bSent + 1 }

/-- The loop `while (bToSend)`; every pass that does not time out sends a byte. -/
def uartSendLoop : Nat → UartSending → UartSending
  | 0, s => s
  | fuel + 1, s =>
    if s.bToSend = 0 then s else
    let waited := waitThre thre uartBlockingTimeout s.uart.lsrReads
    let s := { s with uart := { s.uart with lsrReads := waited.2 } }
    if waited.1 = 0 then s else uartSendLoop fuel (fillFifo txbuf uartTxFifoSize s)

/-- `UART_Send`, blocking: the number of bytes sent. -/
def uartSend (buflen : BitVec 16) (uart : Uart) : Nat × Uart :=
  let s := uartSendLoop thre txbuf buflen.toNat ⟨uart, buflen.toNat, 0⟩
  (s.bSent, s.uart)

end

/-! ### `hal_uart_dma.c` and `hci_transport_h4_dma.c` -/

/-- A call of the block-sent handler: the transmit state, and the line at that time. -/
structure BlockReport where
  txState : TxState
  line : List Byte

/-- The transmit state, and the transmitter behind it. `reports` has the calls of the block-sent
handler; nothing reads it. -/
structure H4Tx where
  txState : TxState
  txPacketType : Byte
  txData : Packet
  txLen : BitVec 16
  uart : Uart
  reports : List BlockReport

section

variable (thre : Nat → Bool)

/-- `hal_uart_dma_send_block`; the transmitter is always enabled. -/
def halUartDmaSendBlock (txDoneHandler : H4Tx → H4Tx) (data : Packet) (len : BitVec 16)
    (s : H4Tx) : H4Tx :=
  let uart := (uartSend thre data len s.uart).2
  txDoneHandler { s with uart := uart, reports := s.reports ++ [⟨s.txState, uart.line⟩] }

namespace H4Tx

/-- `h4_block_sent`, which is called from inside itself once. -/
def h4BlockSent : Nat → H4Tx → H4Tx
  | 0, s => s
  | depth + 1, s =>
    match s.txState with
    | .w4HeaderSent =>
      halUartDmaSendBlock thre (h4BlockSent depth) s.txData s.txLen
        { s with txState := .w4PacketSent }
    | .w4PacketSent => { s with txState := .done }
    | _ => s

/-- `h4_send_packet`; `tx_len` is a `uint16_t`. -/
def h4SendPacket (packetType : Byte) (packet : Packet) (size : Nat) (s : H4Tx) : Int × H4Tx :=
  if s.txState ≠ .idle then (-1, s) else
  (0, halUartDmaSendBlock thre (h4BlockSent thre 2) (fun _ => packetType) 1
    { s with
      txPacketType := packetType
      txData := packet
      txLen := BitVec.ofNat 16 size
      txState := .w4HeaderSent })

end H4Tx

end

/-! ### The loops of `UART_Send` -/

/-- `len` bytes from `start` on. -/
def bytesFrom (txbuf : Packet) (start len : Nat) : List Byte := (List.range' start len).map txbuf

/-- The transmitter is found empty so many times in a row, each time within the time-out,
from a read of the line status on. -/
def InTime (thre : Nat → Bool) : Nat → Nat → Prop
  | 0, _ => True
  | n + 1, lsrReads => ∃ t < uartBlockingTimeout, thre (lsrReads + t) = true ∧
    (∀ u < t, thre (lsrReads + u) = false) ∧ InTime thre n (lsrReads + t + 1)

/-- How often the FIFO is filled for a block. -/
def fifoBlocks (len : Nat) : Nat := (len + (uartTxFifoSize - 1)) / uartTxFifoSize

variable {thre : Nat → Bool} {txbuf : Packet}

theorem fillFifo_eq (n : Nat) (s : UartSending) :
    fillFifo txbuf n s = {
      uart := { s.uart with line := s.uart.line ++ bytesFrom txbuf s.bSent (min n s.bToSend) }
      bToSend := s.bToSend - min n s.bToSend
      bSent := s.bSent + min n s.bToSend } := by
  induction n generalizing s with
  | zero =>
    simp [fillFifo, bytesFrom]
  | succ n ih =>
    unfold fillFifo
    split
    · next hzero =>
      obtain ⟨uart, bToSend, bSent⟩ := s
      cases hzero
      simp [bytesFrom]
    · next hpos =>
      have hmin : min (n + 1) s.bToSend = min n (s.bToSend - 1) + 1 := by omega
      rw [ih, hmin]
      simp only [uartSendByte, bytesFrom, List.range'_succ, List.map_cons, List.append_assoc,
        List.singleton_append, UartSending.mk.injEq, true_and]
      omega

/-- A wait that finds the transmitter empty. -/
theorem waitThre_ready {t n lsrReads : Nat} (hlt : t < n) (hready : thre (lsrReads + t) = true)
    (hbusy : ∀ u < t, thre (lsrReads + u) = false) :
    waitThre thre n lsrReads = (n - t, lsrReads + t + 1) := by
  induction n generalizing t lsrReads with
  | zero => omega
  | succ n ih =>
    unfold waitThre
    cases t with
    | zero =>
      rw [Nat.add_zero] at hready
      rw [if_pos hready]
      rfl
    | succ t =>
      have hfirst : ¬ thre lsrReads = true := by
        rw [← Nat.add_zero lsrReads, hbusy 0 (Nat.succ_pos t)]
        exact Bool.false_ne_true
      rw [if_neg hfirst, ih (Nat.lt_of_succ_lt_succ hlt) (by rw [← hready]; congr 1; omega)
        fun u hu => by rw [← hbusy (u + 1) (Nat.succ_lt_succ hu)]; congr 1; omega]
      refine Prod.ext ?_ ?_
      · exact (Nat.succ_sub_succ n t).symm
      · exact congrArg (· + 1) (by omega : lsrReads + 1 + t = lsrReads + (t + 1))

/-- A wait that times out. -/
theorem waitThre_busy {n lsrReads : Nat} (hbusy : ∀ u < n, thre (lsrReads + u) = false) :
    (waitThre thre n lsrReads).1 = 0 := by
  induction n generalizing lsrReads with
  | zero => rfl
  | succ n ih =>
    unfold waitThre
    have hfirst : ¬ thre lsrReads = true := by
      rw [← Nat.add_zero lsrReads, hbusy 0 (Nat.succ_pos n)]
      exact Bool.false_ne_true
    rw [if_neg hfirst]
    refine ih fun u hu => ?_
    rw [← hbusy (u + 1) (Nat.succ_lt_succ hu)]
    congr 1
    omega

theorem bytesFrom_append (txbuf : Packet) (start len len' : Nat) :
    bytesFrom txbuf start (len + len') =
      bytesFrom txbuf start len ++ bytesFrom txbuf (start + len) len' := by
  rw [bytesFrom, ← List.range'_append_1, List.map_append]
  rfl

theorem bytesFrom_length (txbuf : Packet) (start len : Nat) :
    (bytesFrom txbuf start len).length = len := by
  rw [bytesFrom, List.length_map, List.length_range']

theorem inTime_succ_iff {n lsrReads t : Nat} (hlt : t < uartBlockingTimeout)
    (hready : thre (lsrReads + t) = true) (hbusy : ∀ u < t, thre (lsrReads + u) = false) :
    InTime thre (n + 1) lsrReads ↔ InTime thre n (lsrReads + t + 1) := by
  constructor
  · rintro ⟨t', -, hready', hbusy', hrest⟩
    rcases Nat.lt_trichotomy t' t with hbefore | rfl | hafter
    · rw [hbusy t' hbefore] at hready'
      cases hready'
    · exact hrest
    · rw [hbusy' t hafter] at hready
      cases hready
  · intro hrest
    exact ⟨t, hlt, hready, hbusy, hrest⟩

theorem fifoBlocks_pos {len : Nat} (h : len ≠ 0) :
    fifoBlocks len = fifoBlocks (len - min uartTxFifoSize len) + 1 := by
  simp only [fifoBlocks, uartTxFifoSize]
  omega

/-- What a block has sent: a first part of it, and all of it exactly when no wait times out. -/
structure Sent (thre : Nat → Bool) (txbuf : Packet) (s t : UartSending) (m : Nat) : Prop where
  le : m ≤ s.bToSend
  line : t.uart.line = s.uart.line ++ bytesFrom txbuf s.bSent m
  bSent : t.bSent = s.bSent + m
  all_iff : m = s.bToSend ↔ InTime thre (fifoBlocks s.bToSend) s.uart.lsrReads
  rest : m = s.bToSend → ∀ k, InTime thre (fifoBlocks s.bToSend + k) s.uart.lsrReads ↔
    InTime thre k t.uart.lsrReads

theorem sent_nothing {s : UartSending} (h : s.bToSend = 0) : Sent thre txbuf s s 0 := by
  have hblocks : fifoBlocks s.bToSend = 0 := by
    rw [h]
    rfl
  refine ⟨Nat.zero_le _, by simp [bytesFrom], rfl, ?_, fun _ k => ?_⟩
  · rw [hblocks, h]
    exact iff_of_true rfl trivial
  · rw [hblocks, Nat.zero_add]

/-- One pass that finds the transmitter empty, and the passes after it. -/
theorem Sent.pass {s t : UartSending} {m u : Nat} (hpos : s.bToSend ≠ 0)
    (hlt : u < uartBlockingTimeout) (hready : thre (s.uart.lsrReads + u) = true)
    (hbusy : ∀ v < u, thre (s.uart.lsrReads + v) = false)
    (h : Sent thre txbuf (fillFifo txbuf uartTxFifoSize
      { s with uart := { s.uart with lsrReads := s.uart.lsrReads + u + 1 } }) t m) :
    Sent thre txbuf s t (min uartTxFifoSize s.bToSend + m) := by
  rw [fillFifo_eq] at h
  obtain ⟨hle, hline, hsent, hall, hrest⟩ := h
  simp only at hle hline hsent hall hrest
  have hblocks := fifoBlocks_pos hpos
  have hstep := fun n => inTime_succ_iff (n := n) hlt hready hbusy
  refine ⟨by omega, ?_, by omega, ?_, fun hm k => ?_⟩
  · rw [hline, bytesFrom_append, List.append_assoc]
  · rw [hblocks, hstep, ← hall]
    omega
  · rw [hblocks, Nat.add_right_comm, hstep]
    exact hrest (by omega) k

theorem uartSendLoop_sent {fuel : Nat} {s : UartSending} (hfuel : s.bToSend ≤ fuel) :
    ∃ m, Sent thre txbuf s (uartSendLoop thre txbuf fuel s) m := by
  induction fuel generalizing s with
  | zero => exact ⟨0, sent_nothing (Nat.le_zero.mp hfuel)⟩
  | succ fuel ih =>
    unfold uartSendLoop
    split
    · next hzero => exact ⟨0, sent_nothing hzero⟩
    · next hpos =>
      by_cases hready : ∃ u < uartBlockingTimeout, thre (s.uart.lsrReads + u) = true
      · -- the first read that finds it empty
        obtain ⟨hlt, hfirst⟩ := Nat.find_spec hready
        have hbusy : ∀ v < Nat.find hready, thre (s.uart.lsrReads + v) = false := by
          intro v hv
          have hmin := Nat.find_min hready hv
          exact Bool.eq_false_iff.mpr fun htrue => hmin ⟨hv.trans hlt, htrue⟩
        have hleft : uartBlockingTimeout - Nat.find hready ≠ 0 := Nat.sub_ne_zero_of_lt hlt
        simp only [waitThre_ready hlt hfirst hbusy, if_neg hleft]
        refine Exists.elim (ih ?_) fun m hm => ⟨_, Sent.pass hpos hlt hfirst hbusy hm⟩
        have hsize : 0 < uartTxFifoSize := by decide
        rw [fillFifo_eq]
        simp only
        omega
      · have hbusy : ∀ u < uartBlockingTimeout, thre (s.uart.lsrReads + u) = false :=
          fun u hu => Bool.eq_false_iff.mpr fun htrue => hready ⟨u, hu, htrue⟩
        simp only [waitThre_busy hbusy, if_pos]
        refine ⟨0, Nat.zero_le _, by simp [bytesFrom], rfl, ?_, fun hzero => ?_⟩
        · rw [fifoBlocks_pos hpos]
          refine iff_of_false (Ne.symm hpos) ?_
          rintro ⟨u, hu, htrue, -⟩
          exact hready ⟨u, hu, htrue⟩
        · exact absurd hzero.symm hpos

/-! ### Blocks and packets -/

/-- The bytes of a block. -/
def block (data : Packet) (len : Nat) : List Byte := bytesFrom data 0 len

theorem uartSend_sent (thre : Nat → Bool) (txbuf : Packet) (len : BitVec 16) (uart : Uart) :
    ∃ m, Sent thre txbuf ⟨uart, len.toNat, 0⟩
      (uartSendLoop thre txbuf len.toNat ⟨uart, len.toNat, 0⟩) m :=
  uartSendLoop_sent (Nat.le_refl len.toNat)

/-- A part of a block is the block when nothing is missing. -/
theorem append_bytesFrom_eq_iff {line : List Byte} {m len : Nat} :
    line ++ bytesFrom txbuf 0 m = line ++ block txbuf len ↔ m = len := by
  rw [List.append_cancel_left_eq]
  constructor
  · intro h
    have hlen := congrArg List.length h
    rwa [block, bytesFrom_length, bytesFrom_length] at hlen
  · intro h
    rw [h, block]

theorem uartSend_line_iff (len : BitVec 16) (uart : Uart) :
    (uartSend thre txbuf len uart).2.line = uart.line ++ block txbuf len.toNat ↔
      InTime thre (fifoBlocks len.toNat) uart.lsrReads := by
  obtain ⟨m, hsent⟩ := uartSend_sent thre txbuf len uart
  have hline : (uartSend thre txbuf len uart).2.line = uart.line ++ bytesFrom txbuf 0 m :=
    hsent.line
  rw [hline, append_bytesFrom_eq_iff]
  exact hsent.all_iff

/-- What the block-sent handler finds on the line. -/
theorem halUartDmaSendBlock_line_iff (data : Packet) (len : BitVec 16) (s : H4Tx) :
    (halUartDmaSendBlock thre id data len s).uart.line = s.uart.line ++ block data len.toNat ↔
      InTime thre (fifoBlocks len.toNat) s.uart.lsrReads :=
  uartSend_line_iff len s.uart

namespace H4Tx

/-- The recursion through the callback is two deep. -/
theorem h4BlockSent_depth (thre : Nat → Bool) (depth : Nat) (s : H4Tx) :
    h4BlockSent thre (depth + 2) s = h4BlockSent thre 2 s := by
  unfold h4BlockSent
  cases s.txState with
  | idle | w4HeaderSent | w4PacketSent | done => rfl

/-- An accepted packet: the header, the payload, and then `TX_DONE`. -/
theorem h4SendPacket_idle {s : H4Tx} (h : s.txState = .idle) (packetType : Byte)
    (packet : Packet) (size : Nat) :
    h4SendPacket thre packetType packet size s =
      let header := (uartSend thre (fun _ => packetType) 1 s.uart).2
      let payload := (uartSend thre packet (BitVec.ofNat 16 size) header).2
      (0, {
        txState := .done
        txPacketType := packetType
        txData := packet
        txLen := BitVec.ofNat 16 size
        uart := payload
        reports :=
          s.reports ++ [⟨.w4HeaderSent, header.line⟩] ++ [⟨.w4PacketSent, payload.line⟩] }) :=
  if_neg (not_not.mpr h)

theorem h4SendPacket_busy {s : H4Tx} (h : s.txState ≠ .idle) (packetType : Byte)
    (packet : Packet) (size : Nat) : h4SendPacket thre packetType packet size s = (-1, s) :=
  if_pos h

/-- The transmit state is that of the model without a line. -/
theorem h4SendPacket_txState (packetType : Byte) (packet : Packet) (size : Nat) (s : H4Tx) :
    ((h4SendPacket thre packetType packet size s).1,
      (h4SendPacket thre packetType packet size s).2.txState) =
        Stack.h4SendPacket s.txState := by
  unfold Stack.h4SendPacket
  by_cases h : s.txState = .idle
  · rw [h4SendPacket_idle h, if_neg (not_not.mpr h)]
    rfl
  · rw [h4SendPacket_busy h, if_pos h]

/-- The header and the payload both have to go out. -/
theorem packet_line_iff {packetType : Byte} {packet : Packet} {line : List Byte} {m m' size : Nat}
    (hm : m ≤ 1) (hm' : m' ≤ size) :
    line ++ bytesFrom (fun _ => packetType) 0 m ++ bytesFrom packet 0 m' =
      line ++ packetType :: block packet size ↔ m = 1 ∧ m' = size := by
  rw [List.append_assoc, List.append_cancel_left_eq]
  constructor
  · intro h
    have hlen := congrArg List.length h
    rw [List.length_append, List.length_cons, block, bytesFrom_length, bytesFrom_length,
      bytesFrom_length] at hlen
    omega
  · rintro ⟨rfl, rfl⟩
    rfl

theorem h4SendPacket_line_iff {s : H4Tx} (h : s.txState = .idle) (packetType : Byte)
    (packet : Packet) (size : Nat) :
    (h4SendPacket thre packetType packet size s).2.uart.line =
        s.uart.line ++ packetType :: block packet size ↔
      size < 65536 ∧ InTime thre (1 + fifoBlocks size) s.uart.lsrReads := by
  obtain ⟨m, hheader⟩ := uartSend_sent thre (fun _ => packetType) 1 s.uart
  let sent := (uartSend thre (fun _ => packetType) 1 s.uart).2
  obtain ⟨m', hpayload⟩ := uartSend_sent thre packet (BitVec.ofNat 16 size) sent
  have hline : (h4SendPacket thre packetType packet size s).2.uart.line =
      s.uart.line ++ bytesFrom (fun _ => packetType) 0 m ++ bytesFrom packet 0 m' := by
    rw [h4SendPacket_idle h]
    exact hpayload.line.trans (congrArg (· ++ _) hheader.line)
  have hlen : (BitVec.ofNat 16 size).toNat = size % 65536 := BitVec.toNat_ofNat size 16
  have hone : fifoBlocks (BitVec.toNat (1 : BitVec 16)) = 1 := by decide
  have htype : m = 1 ↔ InTime thre 1 s.uart.lsrReads := by
    have hall := hheader.all_iff
    simp only [hone] at hall
    exact hall
  have hrest : m = 1 → ∀ k, InTime thre (1 + k) s.uart.lsrReads ↔
      InTime thre k sent.lsrReads := by
    have hrest := hheader.rest
    simp only [hone] at hrest
    exact hrest
  have hle := hpayload.le
  have hall := hpayload.all_iff
  simp only [hlen] at hle hall
  rw [hline, packet_line_iff hheader.le (hle.trans (Nat.mod_le size 65536))]
  constructor
  · rintro ⟨rfl, rfl⟩
    have hsize : m' % 65536 = m' := Nat.le_antisymm (Nat.mod_le m' 65536) hle
    rw [hsize] at hall
    exact ⟨by omega, (hrest rfl _).mpr (hall.mp rfl)⟩
  · rintro ⟨hsize, hintime⟩
    rw [Nat.mod_eq_of_lt hsize] at hall
    have hfirst : m = 1 := by
      refine htype.mpr ?_
      rw [Nat.add_comm] at hintime
      obtain ⟨t, hlt, hready, hbusy, -⟩ := hintime
      exact ⟨t, hlt, hready, hbusy, trivial⟩
    exact ⟨hfirst, hall.mpr ((hrest hfirst _).mp hintime)⟩

end H4Tx

/-- The block-sent handler is called after the whole block went out exactly when no wait for
the transmitter times out. For an accepted packet it is called after the type byte, and again
in `TX_W4_PACKET_SENT`; only then does the state become `TX_DONE`, and nothing more is
written. The packet is complete on the line in that second call exactly when no wait times
out and the size is a 16 bit number. A rejected packet changes nothing. -/
theorem sendBlock_completes_iff (thre : Nat → Bool) (handler : H4Tx → H4Tx) (data : Packet)
    (len : BitVec 16) (packetType : Byte) (packet : Packet) (size : Nat) (s : H4Tx) :
    (halUartDmaSendBlock thre handler data len s =
        handler (halUartDmaSendBlock thre id data len s) ∧
      ((halUartDmaSendBlock thre id data len s).uart.line =
          s.uart.line ++ block data len.toNat ↔
        InTime thre (fifoBlocks len.toNat) s.uart.lsrReads)) ∧
    (s.txState = .idle →
      (H4Tx.h4SendPacket thre packetType packet size s).1 = 0 ∧
      (H4Tx.h4SendPacket thre packetType packet size s).2.txState = .done ∧
      ∃ header sent, (H4Tx.h4SendPacket thre packetType packet size s).2.reports =
          s.reports ++ [⟨.w4HeaderSent, header⟩, ⟨.w4PacketSent, sent⟩] ∧
        (H4Tx.h4SendPacket thre packetType packet size s).2.uart.line = sent ∧
        (sent = s.uart.line ++ packetType :: block packet size ↔
          size < 65536 ∧ InTime thre (1 + fifoBlocks size) s.uart.lsrReads)) ∧
    (s.txState ≠ .idle → H4Tx.h4SendPacket thre packetType packet size s = (-1, s)) := by
  refine ⟨⟨rfl, halUartDmaSendBlock_line_iff data len s⟩, fun h => ?_, fun h => ?_⟩
  · have hline : _ ↔ size < 65536 ∧ InTime thre (1 + fifoBlocks size) s.uart.lsrReads :=
      H4Tx.h4SendPacket_line_iff h packetType packet size
    rw [H4Tx.h4SendPacket_idle h] at hline ⊢
    refine ⟨rfl, rfl, (uartSend thre (fun _ => packetType) 1 s.uart).2.line, _, ?_, rfl, hline⟩
    exact List.append_assoc _ _ _
  · exact H4Tx.h4SendPacket_busy h packetType packet size

/-- The reset, over a transmitter that is always empty. -/
theorem sendBlock_completes_reset :
    ∃ header, (H4Tx.h4SendPacket (fun _ => true) 1 (eventPacket [0x03, 0x0C, 0x00]) 3
      ⟨.idle, 0, fun _ => 0, 0, ⟨0, []⟩, []⟩).2.reports =
        [⟨.w4HeaderSent, header⟩, ⟨.w4PacketSent, [1, 0x03, 0x0C, 0x00]⟩] := by
  have h := sendBlock_completes_iff (fun _ => true) id (fun _ => 0) 0 1
    (eventPacket [0x03, 0x0C, 0x00]) 3 ⟨.idle, 0, fun _ => 0, 0, ⟨0, []⟩, []⟩
  obtain ⟨-, -, header, sent, hreports, -, hsent⟩ := h.2.1 rfl
  have hfirst : ∀ u < 0, (fun _ : Nat => true) u = false := fun u hu =>
    absurd hu (Nat.not_lt_zero u)
  have hcomplete := hsent.mpr
    ⟨by decide, 0, by decide, rfl, hfirst, 0, by decide, rfl, hfirst, trivial⟩
  rw [hcomplete] at hreports
  exact ⟨header, hreports⟩

theorem not_inTime_busy (n lsrReads : Nat) : ¬ InTime (fun _ => false) (n + 1) lsrReads := by
  rintro ⟨t, -, hready, -⟩
  cases hready

/-- The same packet over a transmitter that stays busy: accepted and done, and not sent. -/
theorem sendBlock_timed_out :
    (H4Tx.h4SendPacket (fun _ => false) 1 (eventPacket [0x03, 0x0C, 0x00]) 3
      ⟨.idle, 0, fun _ => 0, 0, ⟨0, []⟩, []⟩).1 = 0 ∧
    (H4Tx.h4SendPacket (fun _ => false) 1 (eventPacket [0x03, 0x0C, 0x00]) 3
      ⟨.idle, 0, fun _ => 0, 0, ⟨0, []⟩, []⟩).2.txState = .done ∧
    (H4Tx.h4SendPacket (fun _ => false) 1 (eventPacket [0x03, 0x0C, 0x00]) 3
      ⟨.idle, 0, fun _ => 0, 0, ⟨0, []⟩, []⟩).2.uart.line ≠ [1, 0x03, 0x0C, 0x00] ∧
    (halUartDmaSendBlock (fun _ => false) id (eventPacket [0x03, 0x0C, 0x00]) 3
      ⟨.idle, 0, fun _ => 0, 0, ⟨0, []⟩, []⟩).uart.line ≠ [0x03, 0x0C, 0x00] := by
  have hpacket : ∀ (s : H4Tx) (packet : Packet), s.txState = .idle →
      (H4Tx.h4SendPacket (fun _ => false) 1 packet 3 s).2.uart.line ≠
        s.uart.line ++ 1 :: block packet 3 := by
    intro s packet h
    rw [Ne, H4Tx.h4SendPacket_line_iff h, Nat.add_comm]
    exact fun hall => not_inTime_busy _ _ hall.2
  have hblock : ∀ (s : H4Tx) (packet : Packet),
      (halUartDmaSendBlock (fun _ => false) id packet 3 s).uart.line ≠
        s.uart.line ++ block packet (3 : BitVec 16).toNat := by
    intro s packet
    rw [Ne, halUartDmaSendBlock_line_iff]
    exact not_inTime_busy 0 s.uart.lsrReads
  refine ⟨?_, ?_, hpacket _ _ rfl, hblock _ _⟩
  · rw [H4Tx.h4SendPacket_idle rfl]
  · rw [H4Tx.h4SendPacket_idle rfl]

end EbnAnchor.Stack
