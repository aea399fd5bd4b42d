import EbnAnchor.Stack.DeviceDb

/-!
`utils.h`, `hci_cmds.c` and `gap.h`: the bytes of a packet, and the commands the firmware
sends.

A packet is the memory from its first byte on, so that whoever reads past its end finds
what the buffer holds there.
-/

namespace EbnAnchor.Stack

/-! ### Packets -/

abbrev Packet := Nat → Byte

/-- A local array as a packet. -/
def eventPacket (event : List Byte) : Packet := fun i => event.getD i 0

/-- `READ_BT_16(packet, pos)`. -/
def readBt16 (packet : Packet) (pos : Nat) : BitVec 16 := packet (pos + 1) ++ packet pos

/-- `bt_flip_addr(addr, &packet[pos])`. -/
def btFlipAddr (packet : Packet) (pos : Nat) : BdAddr :=
  Vector.ofFn fun i => packet (pos + (5 - i))

/-- `link_key_t` at `&packet[pos]`. -/
def linkKeyAt (packet : Packet) (pos : Nat) : LinkKey := Vector.ofFn fun i => packet (pos + i)

/-! ### Opcodes -/

/-- `OPCODE(ogf, ocf)`. -/
def opcode (ogf ocf : BitVec 16) : BitVec 16 := ocf ||| ogf <<< 10

def ogfLinkControl : BitVec 16 := 0x01
def ogfControllerBaseband : BitVec 16 := 0x03
def ogfInformationalParameters : BitVec 16 := 0x04

/-- The opcode of `hci_read_local_supported_features`, which the firmware never sends. -/
def hciReadLocalSupportedFeatures : BitVec 16 := opcode ogfInformationalParameters 0x03

def gapDeviceInit : BitVec 16 := 0xFE00
def gapConfigDeviceAddr : BitVec 16 := 0xFE03
def gapDeviceDiscoveryRequest : BitVec 16 := 0xFE04
def gapMakeDiscoverable : BitVec 16 := 0xFE06
def gapUpdateAdvertisingData : BitVec 16 := 0xFE07
def gapEndDiscoverable : BitVec 16 := 0xFE08
def gapSetParam : BitVec 16 := 0xFE30

/-- `ADV_SIZE`. -/
abbrev advSize : Nat := 31

/-- A command with its arguments. -/
inductive Command where
  | reset
  | readBdAddr
  | readBufferSize
  | writeScanEnable (value : Byte)
  | acceptConnectionRequest (addr : BdAddr) (role : Byte)
  | rejectConnectionRequest (addr : BdAddr) (reason : Byte)
  | linkKeyRequestReply (addr : BdAddr) (linkKey : LinkKey)
  | linkKeyRequestNegativeReply (addr : BdAddr)
  /-- The bytes `hci_send_device_int` sends. -/
  | deviceInit
  | setParam (paramId : Byte) (value : BitVec 16)
  | configDeviceAddr (addrType : Byte) (addr : BdAddr)
  | updateAdvertisingData (adType len : Byte) (data : Vector Byte advSize)
  | makeDiscoverable (eventType initAddrType : Byte) (initAddr : BdAddr)
      (channelMap filterPolicy : Byte)
  | endDiscoverable
  | deviceDiscoveryRequest (mode activeScan whiteList : Byte)
  deriving DecidableEq

def Command.opcode : Command → BitVec 16
  | reset => Stack.opcode ogfControllerBaseband 0x03
  | readBdAddr => Stack.opcode ogfInformationalParameters 0x09
  | readBufferSize => Stack.opcode ogfInformationalParameters 0x05
  | writeScanEnable _ => Stack.opcode ogfControllerBaseband 0x1A
  | acceptConnectionRequest _ _ => Stack.opcode ogfLinkControl 0x09
  | rejectConnectionRequest _ _ => Stack.opcode ogfLinkControl 0x0a
  | linkKeyRequestReply _ _ => Stack.opcode ogfLinkControl 0x0b
  | linkKeyRequestNegativeReply _ => Stack.opcode ogfLinkControl 0x0c
  | deviceInit => gapDeviceInit
  | setParam _ _ => gapSetParam
  | configDeviceAddr _ _ => gapConfigDeviceAddr
  | updateAdvertisingData _ _ _ => gapUpdateAdvertisingData
  | makeDiscoverable _ _ _ _ _ => gapMakeDiscoverable
  | endDiscoverable => gapEndDiscoverable
  | deviceDiscoveryRequest _ _ _ => gapDeviceDiscoveryRequest

/-! ### Events -/

def hciEventConnectionComplete : Byte := 0x03
def hciEventConnectionRequest : Byte := 0x04
def hciEventDisconnectionComplete : Byte := 0x05
def hciEventCommandComplete : Byte := 0x0E
def hciEventCommandStatus : Byte := 0x0F
def hciEventHardwareError : Byte := 0x10
def hciEventNumberOfCompletedPackets : Byte := 0x13
def hciEventPinCodeRequest : Byte := 0x16
def hciEventLinkKeyRequest : Byte := 0x17
def hciEventLinkKeyNotification : Byte := 0x18
def hciEventLeMeta : Byte := 0x3E
def hciLeExtEvent : Byte := 0xFF
def daemonEventHciPacketSent : Byte := 0x54
def btstackEventState : Byte := 0x60
def btstackEventNrConnectionsChanged : Byte := 0x61
def btstackEventDiscoverableEnabled : Byte := 0x66

def hciSubeventLeConnectionComplete : Byte := 0x01

def gapHciExtentionCommandStatus : BitVec 16 := 0x067F
def gapDeviceInitDone : BitVec 16 := 0x0600
def gapDeviceDiscoveryDone : BitVec 16 := 0x0601
def gapAdvertDataUpdate : BitVec 16 := 0x0602
def gapEndDiscoverableEvent : BitVec 16 := 0x0604

end EbnAnchor.Stack
