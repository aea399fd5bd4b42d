import EbnAnchor.Main.App
import EbnAnchor.Stack.CommandEncoding

/-!
Every command is recovered from its packet.

`hciCreateCmd_roundTrip` is about any template with arguments its length byte can count, and
about the advert and the address `main.c` sends. `Command.encode_roundTrip` says it of every
command the firmware makes from a template.
-/

namespace EbnAnchor.Stack

/-! ### Templates -/

/-- The fields of a template. -/
def HciCmd.kinds (cmd : HciCmd) : List FieldKind := cmd.format.filterMap fieldKind

/-- A byte promoted to `int`. -/
def byteArg (value : Byte) : Arg := .int (value.setWidth 32)

/-- A pointer to an array. -/
def arrayArg {n : Nat} (data : Vector Byte n) : Arg := .ptr (eventPacket data.toList)

/-- The template and the arguments of a command; none for the bytes of
`hci_send_device_int`. -/
def Command.call : Command → Option (HciCmd × List Arg)
  | reset => some (⟨Stack.opcode ogfControllerBaseband 0x03, []⟩, [])
  | readBdAddr => some (⟨Stack.opcode ogfInformationalParameters 0x09, []⟩, [])
  | readBufferSize => some (⟨Stack.opcode ogfInformationalParameters 0x05, []⟩, [])
  | writeScanEnable value =>
    some (⟨Stack.opcode ogfControllerBaseband 0x1A, ['1']⟩, [byteArg value])
  | acceptConnectionRequest addr role =>
    some (⟨Stack.opcode ogfLinkControl 0x09, ['B', '1']⟩, [arrayArg addr, byteArg role])
  | rejectConnectionRequest addr reason =>
    some (⟨Stack.opcode ogfLinkControl 0x0a, ['B', '1']⟩, [arrayArg addr, byteArg reason])
  | linkKeyRequestReply addr linkKey =>
    some (⟨Stack.opcode ogfLinkControl 0x0b, ['B', 'P']⟩, [arrayArg addr, arrayArg linkKey])
  | linkKeyRequestNegativeReply addr =>
    some (⟨Stack.opcode ogfLinkControl 0x0c, ['B']⟩, [arrayArg addr])
  | deviceInit => none
  | setParam paramId value =>
    some (⟨gapSetParam, ['1', '2']⟩, [byteArg paramId, .int (value.setWidth 32)])
  | configDeviceAddr addrType addr =>
    some (⟨gapConfigDeviceAddr, ['1', 'B']⟩, [byteArg addrType, arrayArg addr])
  | updateAdvertisingData adType len data =>
    some (⟨gapUpdateAdvertisingData, ['1', '1', 'A']⟩,
      [byteArg adType, byteArg len, arrayArg data])
  | makeDiscoverable eventType initAddrType initAddr channelMap filterPolicy =>
    some (⟨gapMakeDiscoverable, ['1', '1', 'B', '1', '1']⟩,
      [byteArg eventType, byteArg initAddrType, arrayArg initAddr, byteArg channelMap,
        byteArg filterPolicy])
  | endDiscoverable => some (⟨gapEndDiscoverable, []⟩, [])
  | deviceDiscoveryRequest mode activeScan whiteList =>
    some (⟨gapDeviceDiscoveryRequest, ['1', '1', '1']⟩,
      [byteArg mode, byteArg activeScan, byteArg whiteList])

/-- What `hci_send_cmd` and `gap_send_cmd` leave in the buffer, and the size. -/
def Command.encode (buffer : Packet) (command : Command) : Option (BitVec 16 × Packet) :=
  command.call.bind fun call => hciCreateCmdInternal buffer call.1 call.2

/-! ### Round trips -/

/-- A packet from which the command is recovered. -/
structure RoundTrip (buffer : Packet) (cmd : HciCmd) (args : List Arg) (size : BitVec 16)
    (packet : Packet) : Prop where
  size_eq : size.toNat = hciCmdHeaderSize + payloadWidth cmd.kinds
  opcode_eq : readBt16 packet 0 = cmd.opcode
  length_eq : (packet 2).toNat = payloadWidth cmd.kinds
  fields_eq : splitPayload cmd.kinds (commandPayload packet) =
    List.zipWith FieldKind.recovered cmd.kinds args
  rest_eq : ∀ i, size.toNat ≤ i → packet i = buffer i

theorem hciCreateCmdInternal_recovers (buffer : Packet) {cmd : HciCmd} {args : List Arg}
    (hargs : List.Forall₂ FieldKind.Accepts cmd.kinds args)
    (hwidth : payloadWidth cmd.kinds ≤ hciCmdPayloadSize) :
    ∃ size packet, hciCreateCmdInternal buffer cmd args = some (size, packet) ∧
      RoundTrip buffer cmd args size packet := by
  obtain ⟨size, packet, hcreate, hsize, hopcode, hlength, hpayload, hrest⟩ :=
    hciCreateCmdInternal_writes buffer cmd hargs hwidth
  refine ⟨size, packet, hcreate, hsize, hopcode, hlength, ?_, hrest⟩
  rw [hpayload]
  exact splitPayload_payload hargs

/-! ### The commands of the firmware -/

section

variable {command : Command} {cmd : HciCmd} {args : List Arg}

theorem accepts_ptr {kind : FieldKind} (ptr : Packet) (hptr : kind.isInt = false)
    (hname : kind ≠ .name) : kind.Accepts (.ptr ptr) :=
  ⟨hptr, fun heq => absurd heq hname⟩

/-- A template has the opcode of its command. -/
theorem Command.call_opcode (h : command.call = some (cmd, args)) :
    cmd.opcode = command.opcode := by
  cases command
  case deviceInit => cases h
  all_goals
    cases h
    rfl

/-- Every command has the arguments its template reads. -/
theorem Command.call_accepts (h : command.call = some (cmd, args)) :
    List.Forall₂ FieldKind.Accepts cmd.kinds args := by
  cases command
  case deviceInit => cases h
  all_goals
    cases h
    repeat' first
      | exact List.Forall₂.nil
      | refine List.Forall₂.cons ?_ ?_
  -- Integers are read by `1` and `2`, pointers by `B`, `P` and `A`.
  all_goals first
    | rfl
    | exact accepts_ptr _ rfl (by decide)

theorem Command.call_width (h : command.call = some (cmd, args)) :
    payloadWidth cmd.kinds ≤ hciCmdPayloadSize := by
  cases command
  case deviceInit => cases h
  all_goals
    cases h
    decide

/-- The commands of the firmware are recovered, `hci_send_device_int` apart. -/
theorem Command.encode_roundTrip (buffer : Packet) (h : command.call = some (cmd, args)) :
    ∃ size packet, command.encode buffer = some (size, packet) ∧
      RoundTrip buffer cmd args size packet ∧ cmd.opcode = command.opcode := by
  unfold Command.encode
  rw [h]
  obtain ⟨size, packet, hencode, htrip⟩ :=
    hciCreateCmdInternal_recovers buffer (call_accepts h) (call_width h)
  exact ⟨size, packet, hencode, htrip, call_opcode h⟩

end

/-! ### The advert and the address -/

theorem firstBytes_array {n : Nat} (data : Vector Byte n) :
    firstBytes (eventPacket data.toList) n = data.toList := by
  refine List.ext_getElem? fun i => ?_
  by_cases hi : i < n
  · have hin : i < data.toList.length := by rw [Vector.length_toList]; exact hi
    have hat : eventPacket data.toList i = data.toList[i] := by
      rw [eventPacket, List.getD_eq_getElem?_getD, List.getElem?_eq_getElem hin, Option.getD_some]
    rw [firstBytes_getElem? hi, hat, List.getElem?_eq_getElem hin]
  · have hout : n ≤ i := Nat.le_of_not_lt hi
    rw [List.getElem?_eq_none, List.getElem?_eq_none]
    · rw [Vector.length_toList]
      exact hout
    · rw [firstBytes_length]
      exact hout

/-- A byte is not truncated. -/
theorem recovered_byteArg (value : Byte) :
    FieldKind.byte.recovered (byteArg value) = .int value.toNat := by
  have hbyte : (value.setWidth 32).toNat = value.toNat :=
    BitVec.toNat_setWidth_of_le (by decide)
  have hmod : value.toNat % 256 ^ 1 = value.toNat := Nat.mod_eq_of_lt value.isLt
  exact congrArg Field.int (hbyte ▸ hmod)

end EbnAnchor.Stack

namespace EbnAnchor.Main

open EbnAnchor.Stack EbnAnchor.Core

/-- An advert is recovered byte for byte. -/
theorem updateAdvertisingData_recovered (buffer : Packet) (adType len : Byte)
    (data : Vector Byte advSize) :
    ∃ size packet,
      (Command.updateAdvertisingData adType len data).encode buffer =
        some (size, packet) ∧
      splitPayload [.byte, .byte, .advertisingData] (commandPayload packet) =
        [.int adType.toNat, .int len.toNat, .bytes data.toList] := by
  have hcall : (Command.updateAdvertisingData adType len data).call =
    some (⟨gapUpdateAdvertisingData, ['1', '1', 'A']⟩,
      [byteArg adType, byteArg len, arrayArg data]) := rfl
  obtain ⟨size, packet, hencode, htrip, -⟩ := Command.encode_roundTrip buffer hcall
  have hdata : FieldKind.advertisingData.recovered (arrayArg data) = .bytes data.toList :=
    congrArg Field.bytes (firstBytes_array data)
  refine ⟨size, packet, hencode, htrip.fields_eq.trans ?_⟩
  rw [← recovered_byteArg, ← recovered_byteArg, ← hdata]
  rfl

/-- An address is recovered byte for byte. -/
theorem configDeviceAddr_recovered (buffer : Packet) (addrType : Byte)
    (addr : BdAddr) :
    ∃ size packet,
      (Command.configDeviceAddr addrType addr).encode buffer = some (size, packet) ∧
      splitPayload [.byte, .bdAddr] (commandPayload packet) =
        [.int addrType.toNat, .bytes addr.toList] := by
  have hcall : (Command.configDeviceAddr addrType addr).call =
    some (⟨gapConfigDeviceAddr, ['1', 'B']⟩, [byteArg addrType, arrayArg addr]) := rfl
  obtain ⟨size, packet, hencode, htrip, -⟩ := Command.encode_roundTrip buffer hcall
  have haddr : FieldKind.bdAddr.recovered (arrayArg addr) = .bytes addr.toList :=
    congrArg Field.bytes (firstBytes_array addr)
  refine ⟨size, packet, hencode, htrip.fields_eq.trans ?_⟩
  rw [← recovered_byteArg, ← haddr]
  rfl

/-- Any command whose payload its length byte can count is recovered from the packet, and so
are the advert and the address of the node, byte for byte. -/
theorem hciCreateCmd_roundTrip (buffer : Packet) :
    (∀ cmd args, List.Forall₂ FieldKind.Accepts cmd.kinds args →
      payloadWidth cmd.kinds ≤ hciCmdPayloadSize →
      ∃ size packet, hciCreateCmdInternal buffer cmd args = some (size, packet) ∧
        RoundTrip buffer cmd args size packet) ∧
    (∀ (adType : Byte) (advert : EbnAdvert), ∃ size packet,
      (Command.updateAdvertisingData adType (BitVec.ofNat 8 advSize) advert.bytes).encode buffer
        = some (size, packet) ∧
      splitPayload [.byte, .byte, .advertisingData] (commandPayload packet) =
        [.int adType.toNat, .int advSize, .bytes advert.bytes.toList]) ∧
    (∀ mac : EbnMacAddress, ∃ size packet,
      (Command.configDeviceAddr 0x01 mac.bytes).encode buffer = some (size, packet) ∧
      splitPayload [.byte, .bdAddr] (commandPayload packet) =
        [.int 1, .bytes mac.bytes.toList]) := by
  refine ⟨fun cmd args hargs hwidth => hciCreateCmdInternal_recovers buffer hargs hwidth,
    fun adType advert => ?_, fun mac => ?_⟩
  · exact updateAdvertisingData_recovered buffer adType _ advert.bytes
  · exact configDeviceAddr_recovered buffer 0x01 mac.bytes

/-- A name of one character, and an integer behind it. -/
theorem hciCreateCmd_roundTrip_name :
    ∃ size packet,
      hciCreateCmdInternal (fun _ => 0xAA) ⟨0x0C13, ['N', '2']⟩
        [.ptr (eventPacket [0x45, 0]), .int 0x10203] = some (size, packet) ∧
      RoundTrip (fun _ => 0xAA) ⟨0x0C13, ['N', '2']⟩
        [.ptr (eventPacket [0x45, 0]), .int 0x10203] size packet := by
  refine (hciCreateCmd_roundTrip fun _ => 0xAA).1 _ _ ?_ (by decide)
  refine .cons ⟨rfl, fun _ => ⟨1, by decide, rfl⟩⟩ (.cons ?_ .nil)
  exact rfl

end EbnAnchor.Main
