import EbnAnchor.Core.Mem
import Mathlib.Algebra.Group.Nat.Defs
import Mathlib.Data.List.Basic

/-!
`hci_transport_h4_dma.c` over `hal_uart_dma.c`: the receiver.

`hci_packet` is addressed by offset; a store outside it is dropped, and the offset of
every store is recorded in `stores`. `calls` records the calls of the registered packet
handler, which may do anything to the transmit state but nothing to the receiver.

`parseH4` is the framing as a function of the bytes received.
-/

namespace EbnAnchor.Stack

/-! ### Constants -/

abbrev hciAclPayloadSize : Nat := 52
abbrev hciEventHeaderSize : Nat := 2
abbrev hciAclHeaderSize : Nat := 4
abbrev hciCmdHeaderSize : Nat := 3
abbrev hciCmdPayloadSize : Nat := 255
abbrev hciAclBufferSize : Nat := hciAclHeaderSize + hciAclPayloadSize
abbrev hciCmdBufferSize : Nat := hciCmdHeaderSize + hciCmdPayloadSize

def hciPacketBufferSize : Nat :=
  if hciAclBufferSize > hciCmdBufferSize then hciAclBufferSize else hciCmdBufferSize

theorem hciPacketBufferSize_eq : hciPacketBufferSize = 258 := rfl

def hciAclDataPacket : Byte := 0x02
def hciEventPacket : Byte := 0x04

/-! ### State -/

inductive H4State where
  | w4PacketType
  | w4EventHeader
  | w4AclHeader
  | w4Payload
  | packetReceived
  deriving DecidableEq

inductive TxState where
  | idle
  | w4HeaderSent
  | w4PacketSent
  | done
  deriving DecidableEq

structure H4Packet where
  type : Byte
  bytes : List Byte
  deriving DecidableEq

/-- A call of the packet handler. -/
inductive HandlerCall where
  /-- `DAEMON_EVENT_HCI_PACKET_SENT`. -/
  | packetSent
  | packet (p : H4Packet)
  deriving DecidableEq

/-- The receiver: the framing, the HAL below it, and the offsets stored to. -/
structure H4Rx where
  h4State : H4State
  readPos : Nat
  bytesToRead : Nat
  hciPacket : Vector Byte hciPacketBufferSize
  /-- `rx_buffer_ptr`, as an offset into `hci_packet`. -/
  rxBufferPtr : Nat
  /-- `bytes_to_read` of the HAL, 16 bits. -/
  halBytesToRead : Nat
  /-- The receive interrupt is enabled. -/
  rbr : Bool
  stores : List Nat

structure H4 where
  rx : H4Rx
  txState : TxState
  calls : List HandlerCall

/-! ### `hal_uart_dma.c` -/

def halUartDmaReceiveBlock (buffer len : Nat) (s : H4Rx) : H4Rx :=
  { s with rxBufferPtr := buffer, halBytesToRead := len % 2 ^ 16, rbr := true }

/-! ### `hci_transport_h4_dma.c` -/

def h4InitSm (s : H4Rx) : H4Rx :=
  halUartDmaReceiveBlock 0 1
    { s with h4State := .w4PacketType, readPos := 0, bytesToRead := 1 }

/-- `hci_packet[i]`. -/
def H4Rx.packetByte (s : H4Rx) (i : Nat) : Byte := s.hciPacket[i]?.getD 0

/-- `READ_BT_16(hci_packet, pos)`. -/
def H4Rx.readBt16 (s : H4Rx) (pos : Nat) : Nat :=
  (s.packetByte pos).toNat + 256 * (s.packetByte (pos + 1)).toNat

/-- The `switch` of `h4_block_received`. -/
def h4Framing (s : H4Rx) : H4Rx :=
  match s.h4State with
  | .w4PacketType =>
    if s.packetByte 0 = hciAclDataPacket then
      { s with h4State := .w4AclHeader, bytesToRead := hciAclHeaderSize }
    else if s.packetByte 0 = hciEventPacket then
      { s with h4State := .w4EventHeader, bytesToRead := hciEventHeaderSize }
    else { s with readPos := 0, h4State := .w4PacketType, bytesToRead := 1 }
  | .w4EventHeader =>
    let len := (s.packetByte 2).toNat
    if len = 0 then { s with bytesToRead := len, h4State := .packetReceived }
    else { s with bytesToRead := len, h4State := .w4Payload }
  | .w4AclHeader =>
    let len := s.readBt16 3
    if len = 0 then { s with bytesToRead := len, h4State := .packetReceived }
    else { s with bytesToRead := len, h4State := .w4Payload }
  | .w4Payload => { s with h4State := .packetReceived, bytesToRead := 0 }
  | .packetReceived => { s with bytesToRead := 0 }

/-- The end of `h4_block_received`. -/
def readNextBlock (s : H4Rx) : H4Rx :=
  if s.bytesToRead ≠ 0 then halUartDmaReceiveBlock s.readPos s.bytesToRead s else s

def h4BlockReceived (s : H4Rx) : H4Rx :=
  readNextBlock (h4Framing { s with readPos := s.readPos + s.bytesToRead })

/-- `*rx_buffer_ptr = ..; ++rx_buffer_ptr; --bytes_to_read`. -/
def storeByte (data : Byte) (s : H4Rx) : H4Rx :=
  { s with
    hciPacket := s.hciPacket.setIfInBounds s.rxBufferPtr data
    stores := s.stores ++ [s.rxBufferPtr]
    rxBufferPtr := s.rxBufferPtr + 1
    halBytesToRead := s.halBytesToRead - 1 }

/-- What both branches of `UART1_IRQHandler` that read a byte do with it. -/
def receiveByte (data : Byte) (s : H4Rx) : H4Rx :=
  if s.halBytesToRead = 0 then { s with rbr := false } else
  let s := storeByte data s
  if s.halBytesToRead > 0 then s else h4BlockReceived { s with rbr := false }

def uartIirIntidRls : Byte := 3 <<< 1
def uartIirIntidRda : Byte := 2 <<< 1
def uartLsrRdr : Byte := 1 <<< 0
/-- `OE | PE | FE | RXFE | BI`. -/
def uartLsrErrors : Byte := 1 <<< 1 ||| 1 <<< 2 ||| 1 <<< 3 ||| 1 <<< 7 ||| 1 <<< 4

/-- `IIRValue`: the pending bit dropped, three bits kept. -/
def iirValue (iir : Byte) : Byte := ((iir >>> 1) <<< 1) &&& 0x07

/-- `UART1_IRQHandler`, given what the registers `IIR`, `LSR` and `RBR` hold. -/
def uart1IrqHandler (iir lsr rbr : Byte) (s : H4Rx) : H4Rx :=
  if iirValue iir = uartIirIntidRls then
    if lsr &&& uartLsrErrors ≠ 0 then s
    else if lsr &&& uartLsrRdr ≠ 0 then receiveByte rbr s
    else s
  else if iirValue iir = uartIirIntidRda then receiveByte rbr s
  else s

/-- The bytes `&hci_packet[1]` of a call with `size` bytes. -/
def H4Rx.payload (s : H4Rx) (size : Nat) : List Byte :=
  (List.range size).map fun i => s.packetByte (1 + i)

/-- The packet in the buffer; the size is a `uint16_t`. -/
def H4Rx.bufferedPacket (s : H4Rx) : H4Packet :=
  ⟨s.packetByte 0, s.payload ((s.readPos - 1) % 2 ^ 16)⟩

/-- `h4_process`; `handler` is what the packet handler does to the transmit state. -/
def h4Process (handler : HandlerCall → TxState → TxState) (s : H4) : H4 :=
  let s := if s.txState = .done then
      { s with txState := handler .packetSent .idle, calls := s.calls ++ [.packetSent] }
    else s
  if s.rx.h4State ≠ .packetReceived then s else
  let p := s.rx.bufferedPacket
  { rx := h4InitSm s.rx
    txState := handler (.packet p) s.txState
    calls := s.calls ++ [.packet p] }

/-- `h4_block_sent`, called by the blocking `hal_uart_dma_send_block` after each block. -/
def h4BlockSent : TxState → TxState
  | .w4HeaderSent => .w4PacketSent
  | .w4PacketSent => .done
  | tx => tx

/-- `h4_send_packet`: the value returned, and the transmit state after both blocks. -/
def h4SendPacket (tx : TxState) : Int × TxState :=
  if tx ≠ .idle then (-1, tx) else (0, h4BlockSent (h4BlockSent .w4HeaderSent))

def h4CanSendPacketNow (tx : TxState) : Bool := tx = .idle

/-- `h4_open`, from any memory; the records start here. -/
def h4Open (s : H4Rx) : H4 :=
  { rx := h4InitSm { s with stores := [] }, txState := .idle, calls := [] }

/-! ### Runs -/

/-- What can happen to the receiver. -/
inductive RxEvent where
  /-- A receive interrupt, with the registers it finds. -/
  | interrupt (iir lsr rbr : Byte)
  /-- The run loop polls; the handler may send. -/
  | poll (handler : HandlerCall → TxState → TxState)
  /-- A packet is sent outside the handler. -/
  | send

/-- The interrupt identifies one received byte and no line error. -/
def IsReceive (iir lsr : Byte) : Prop :=
  iirValue iir = uartIirIntidRda ∨
    (iirValue iir = uartIirIntidRls ∧ lsr &&& uartLsrErrors = 0 ∧ lsr &&& uartLsrRdr ≠ 0)

instance (iir lsr : Byte) : Decidable (IsReceive iir lsr) := by
  unfold IsReceive
  infer_instance

/-- One event; a receive interrupt is only delivered while it is enabled. -/
def rxStep (s : H4) : RxEvent → Option H4
  | .interrupt iir lsr rbr =>
    if s.rx.rbr ∧ IsReceive iir lsr then
      some { s with rx := uart1IrqHandler iir lsr rbr s.rx }
    else none
  | .poll handler => some (h4Process handler s)
  | .send => some { s with txState := (h4SendPacket s.txState).2 }

def rxRun (s : H4) (events : List RxEvent) : Option H4 := events.foldlM rxStep s

/-- The bytes the interrupts of a run deliver. -/
def delivered : List RxEvent → List Byte
  | [] => []
  | .interrupt _ _ rbr :: events => rbr :: delivered events
  | .poll _ :: events => delivered events
  | .send :: events => delivered events

/-- The packets among the calls of the handler. -/
def H4.handled (s : H4) : List H4Packet :=
  s.calls.filterMap fun
    | .packetSent => none
    | .packet p => some p

/-- The packet that waits for the run loop. -/
def H4.waiting (s : H4) : List H4Packet :=
  if s.rx.h4State = .packetReceived then [s.rx.bufferedPacket] else []

/-! ### The pure parser -/

/-- A byte that starts a packet. -/
def IsType (type : Byte) : Prop := type = hciEventPacket ∨ type = hciAclDataPacket

instance : DecidablePred IsType := fun type => by
  unfold IsType
  infer_instance

/-- The number of bytes that follow the type, once the header is there. -/
def packetLength (type : Byte) (rest : List Byte) : Option Nat :=
  if type = hciEventPacket then
    rest[1]?.map fun len => hciEventHeaderSize + len.toNat
  else
    rest[2]?.bind fun low => rest[3]?.map fun high =>
      hciAclHeaderSize + (low.toNat + 256 * high.toNat)

/-- The packets complete in `bytes`. A byte that is no packet type is skipped; `none` when
a packet goes on past the end of the buffer. -/
def parseH4 : List Byte → Option (List H4Packet)
  | [] => some []
  | type :: rest =>
    if IsType type then
      match packetLength type rest with
      | none => some []
      | some n =>
        if hciPacketBufferSize ≤ n ∧ hciPacketBufferSize ≤ rest.length then none
        else if n ≤ rest.length then
          (parseH4 (rest.drop n)).map (⟨type, rest.take n⟩ :: ·)
        else some []
    else parseH4 rest
termination_by bytes => bytes.length
decreasing_by all_goals simp only [List.length_cons, List.length_drop]; omega

/-- A stream of whole packets: events of any length and ACL data of at most 253 bytes,
with bytes that are no packet type between them. -/
inductive H4Stream : List Byte → List H4Packet → Prop where
  | nil : H4Stream [] []
  | skip {type : Byte} {bytes : List Byte} {packets : List H4Packet}
      (hevent : type ≠ hciEventPacket) (hacl : type ≠ hciAclDataPacket)
      (more : H4Stream bytes packets) : H4Stream (type :: bytes) packets
  | event (code len : Byte) {payload bytes : List Byte} {packets : List H4Packet}
      (hlen : payload.length = len.toNat) (more : H4Stream bytes packets) :
      H4Stream (hciEventPacket :: code :: len :: (payload ++ bytes))
        (⟨hciEventPacket, code :: len :: payload⟩ :: packets)
  | acl (h₀ h₁ l₀ l₁ : Byte) {payload bytes : List Byte} {packets : List H4Packet}
      (hlen : payload.length = l₀.toNat + 256 * l₁.toNat) (hfits : payload.length ≤ 253)
      (more : H4Stream bytes packets) :
      H4Stream (hciAclDataPacket :: h₀ :: h₁ :: l₀ :: l₁ :: (payload ++ bytes))
        (⟨hciAclDataPacket, h₀ :: h₁ :: l₀ :: l₁ :: payload⟩ :: packets)

end EbnAnchor.Stack
