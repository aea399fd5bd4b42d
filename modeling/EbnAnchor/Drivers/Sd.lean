import EbnAnchor.Drivers.Ssp

/-!
`sd.c`: the card on the SSP bus.

The card is the bytes it is going to return, one for each byte sent to it. Every call of
`SSP_ReadWrite` is recorded in `transfers`. What a transfer stores behind the end of its
destination is kept apart from the other objects.
-/

namespace EbnAnchor.Drivers

abbrev sdBlockLen : Nat := 512
abbrev sdMaxRespTries : Nat := 100

/-! ### Memory -/

/-- What the pointers of `sd.c` point into. -/
inductive SdObject where
  /-- `rx` of `sd_command`. -/
  | commandRx
  /-- `rx` of `sd_read_block` and `sd_write_block`. -/
  | rx
  /-- The response given to `sd_command`, of `response_len` bytes. -/
  | response (len : Nat)
  | block
  deriving DecidableEq

def SdObject.size : SdObject → Nat
  | commandRx => 1
  | rx => 1
  | response len => len
  | block => sdBlockLen

structure Pointer where
  object : SdObject
  offset : Nat

def Pointer.add (p : Pointer) (n : Nat) : Pointer := { p with offset := p.offset + n }

/-- `SSP_DATA_SETUP_Type`; `tx_data` is what it points to. -/
structure SspDataSetup where
  txData : Option (List Byte)
  rxData : Option Pointer
  length : Nat

/-- A call of `SSP_ReadWrite`. -/
structure Transfer where
  sent : List Byte
  destination : Option Pointer
  length : Nat

/-- The bytes stored, and where there is room for them. -/
def Transfer.Fits (t : Transfer) : Prop :=
  ∀ p, t.destination = some p → p.offset + t.length ≤ p.object.size

instance (t : Transfer) : Decidable t.Fits :=
  decidable_of_iff (∀ p ∈ t.destination, p.offset + t.length ≤ p.object.size) Iff.rfl

structure Sd where
  /-- What the card is going to return. -/
  incoming : List Byte
  /-- The pin `GPIO_SD_CS_m`. -/
  csHigh : Bool
  dataCfg : SspDataSetup
  memory : SdObject → Nat → Byte
  transfers : List Transfer

namespace Sd

def read (p : Pointer) (s : Sd) : Byte := s.memory p.object p.offset

/-- `memcpy(p, bytes, …)`. -/
def store (p : Pointer) (bytes : List Byte) (s : Sd) : Sd :=
  { s with memory := fun object i =>
      if object = p.object ∧ p.offset ≤ i then (bytes[i - p.offset]?).getD (s.memory object i)
      else s.memory object i }

/-- `*p = b`. -/
def write (p : Pointer) (b : Byte) (s : Sd) : Sd := s.store p [b]

/-- `FIOSET` and `FIOCLR`. -/
def setCs (high : Bool) (s : Sd) : Sd := { s with csHigh := high }

end Sd

/-! ### Transfers -/

/-- `Data_Struct_Config`. -/
def dataStructConfig (txData : Option (List Byte)) (rxData : Option Pointer) (length : Nat)
    (s : Sd) : Sd :=
  { s with dataCfg := ⟨txData, rxData, length⟩ }

/-- What a call with this descriptor does. -/
def SspDataSetup.transfer (dataCfg : SspDataSetup) : Transfer where
  sent := match dataCfg.txData with
    | some data => data.take dataCfg.length
    | none => List.replicate dataCfg.length 0xFF
  destination := dataCfg.rxData
  length := dataCfg.length

/-- `SSP_ReadWrite`, when it has returned. -/
def Sd.transferred (s : Sd) : Sd :=
  let stored := match s.dataCfg.rxData with
    | some p => s.store p (s.incoming.take s.dataCfg.length)
    | none => s
  { stored with
    incoming := s.incoming.drop s.dataCfg.length
    transfers := s.transfers ++ [s.dataCfg.transfer] }

/-- `SSP_ReadWrite` without an overrun; it does not return before the card has returned all
the bytes. -/
def sspReadWrite (s : Sd) : Option Sd :=
  if s.dataCfg.length ≤ s.incoming.length then some s.transferred else none

/-- `while (wait(*p)) SSP_ReadWrite(…)`, for at most `fuel` tests. -/
def sspWhile (wait : Byte → Bool) (p : Pointer) : Nat → Sd → Option Sd
  | 0, _ => none
  | fuel + 1, s => if wait (s.read p) then (sspReadWrite s).bind (sspWhile wait p fuel) else some s

/-! ### Commands -/

/-- Read until stop bit. -/
def readResponse (response : Pointer) : Nat → Sd → Option Sd
  | 0, s => some s
  | tries + 1, s =>
    if s.read response &&& 0x80 ≠ 0 then
      (sspReadWrite (dataStructConfig none (some response) 1 s)).bind (readResponse response tries)
    else some s

/-- Get the rest of the response. -/
def readRest (response : Pointer) (responseLen : BitVec 16) (s : Sd) : Option Sd :=
  if 1 < responseLen.toNat then
    sspReadWrite (dataStructConfig none (some (response.add 1)) responseLen.toNat s)
  else some s

/-- Read until the busy flag, in `p`, is cleared. Every transfer takes a byte, so the tests
cannot run out before the bytes do. -/
def waitBusy (p : Pointer) (s : Sd) : Option Sd :=
  sspWhile (· = 0) p (s.incoming.length + 1)
    (dataStructConfig none (some p) 1 (s.write p 0))

def sdCommand (index a1 a2 a3 a4 crc : Byte) (response : Pointer) (responseLen : BitVec 16)
    (s : Sd) : Option Sd :=
  let s := s.store response (List.replicate responseLen.toNat 0)
  let command := [0b01000000 ||| index, a1, a2, a3, a4, crc]
  (sspReadWrite (dataStructConfig (some command) none 6 s)).bind fun s =>
  (readResponse response sdMaxRespTries (s.write response 0xFF)).bind fun s =>
  -- No idle response, give up now.
  if s.read response &&& 0x80 ≠ 0 ∨ (index = 0 ∧ s.read response &&& 0x01 = 0) then some s else
  (readRest response responseLen s).bind fun s =>
  waitBusy ⟨.commandRx, 0⟩ s

/-! ### Blocks -/

/-- `sd_command` with a block number, and `rx` for the response. -/
def blockCommand (index : Byte) (blockNum : Word) (s : Sd) : Option Sd :=
  sdCommand index (((0xFF000000 &&& blockNum) >>> 24).setWidth 8)
    (((0xFF0000 &&& blockNum) >>> 16).setWidth 8) (((0xFF00 &&& blockNum) >>> 8).setWidth 8)
    ((0xFF &&& blockNum).setWidth 8) 0 ⟨.rx, 0⟩ 1 (s.write ⟨.rx, 0⟩ 0xFF |>.setCs false)

/-- A transfer that stores nothing. -/
def sspSend (txData : Option (List Byte)) (length : Nat) (s : Sd) : Option Sd :=
  sspReadWrite (dataStructConfig txData none length s)

def sdReadBlock (blockNum : Word) (s : Sd) : Option (Byte × Sd) :=
  (blockCommand 17 blockNum s).bind fun s =>
  if s.read ⟨.rx, 0⟩ ≠ 0x00 then some (0, s) else
  -- Read until the data token is received.
  let s := dataStructConfig none (some ⟨.rx, 0⟩) 10 (s.write ⟨.rx, 0⟩ 0xFF)
  (sspWhile (· ≠ 0b11111110) ⟨.rx, 0⟩ (s.incoming.length + 1) s).bind fun s =>
  (sspReadWrite (dataStructConfig none (some ⟨.block, 0⟩) sdBlockLen s)).bind fun s =>
  -- Throw away the CRC.
  (sspSend none 2 s).bind fun s =>
  (sspSend none 1 s).map fun s => (1, s.setCs true)

def sdWriteBlock (blockNum : Word) (s : Sd) : Option (Byte × Sd) :=
  (blockCommand 24 blockNum s).bind fun s =>
  if s.read ⟨.rx, 0⟩ ≠ 0x00 then some (0, s) else
  -- Tick clock 8 times to start write operation.
  (sspSend none 1 s).bind fun s =>
  (sspSend (some [0xFE]) 1 s).bind fun s =>
  let data := (List.range sdBlockLen).map (s.memory .block)
  (sspSend (some data) sdBlockLen s).bind fun s =>
  -- A blank CRC.
  (sspSend (some [0, 0]) 2 s).bind fun s =>
  (sspReadWrite (dataStructConfig none (some ⟨.rx, 0⟩) 1 s)).bind fun s =>
  -- Check if the data is accepted.
  if ¬ (s.read ⟨.rx, 0⟩ &&& 0xE) >>> 1 = 0x2 then some (0, s) else
  (waitBusy ⟨.rx, 0⟩ s).bind fun s =>
  (sspSend none 1 s).map fun s => (1, s.setCs true)

end EbnAnchor.Drivers
