import EbnAnchor.Stack.H4
import EbnAnchor.Stack.HciCmds
import Mathlib.Data.List.Basic

/-!
`hci.c`, configured as the firmware does: no power control, no transport configuration, the
link keys in memory.

The application is a packet handler that may send commands itself. `main.c` ignores data
packets, so the handler is for events only, and the contents of the recombination buffers
are left out. A function returns nothing where the source follows a null pointer (`config`,
`control`) or leaves a recombination buffer.

`sent` records every command handed to the transport.
-/

namespace EbnAnchor.Stack

/-! ### State -/

/-- `HCI_STATE`; the firmware is never switched off or put to sleep. -/
inductive HciState where
  | off
  | initializing
  | working
  deriving DecidableEq

def HciState.code : HciState → Byte
  | off => 0
  | initializing => 1
  | working => 2

/-- `hci_stack_t`. -/
structure HciStack where
  connections : List HciConnection
  numCmdPackets : Byte
  totalNumAclPackets : Byte
  aclDataPacketLength : BitVec 16
  localSupportedFeatures : Vector Byte 8
  packetTypes : BitVec 16
  remoteDeviceDb : LinkKeyDb
  state : HciState
  substate : Byte
  discoverable : Byte
  newScanEnableValue : Byte
  declineReason : Byte
  declineAddr : BdAddr

/-- Who hands a command to the transport. -/
inductive Issuer where
  /-- `hci_send_cmd`. -/
  | hci
  /-- `gap_send_cmd`. -/
  | gap
  /-- `hci_send_device_int`. -/
  | deviceInt
  deriving DecidableEq

/-- A command handed to the transport. -/
structure Transmission where
  issuer : Issuer
  command : Command
  /-- What `hci_can_send_packet_now` answers at the call. -/
  canSend : Byte
  /-- `num_cmd_packets` at the call. -/
  credit : Byte
  /-- What `h4_send_packet` returns. -/
  result : Int
  deriving DecidableEq

structure HciSys (α : Type) where
  txState : TxState
  stack : HciStack
  app : α
  sent : List Transmission

/-- What an application does with an event. -/
abbrev PacketHandler (α : Type) := Packet → HciSys α → HciSys α

def dummyHandler {α : Type} : PacketHandler α := fun _ s => s

/-! ### Connections -/

abbrev maxNoHciConnections : Nat := 1

def recvLinkKeyRequest : Byte := 0x01
def handleLinkKeyRequest : Byte := 0x02
def sentLinkKeyReply : Byte := 0x04
def sentLinkKeyNegativeRequest : Byte := 0x08
def recvLinkKeyNotification : Byte := 0x10
def recvPinCodeRequest : Byte := 0x20

/-- Change the first connection that satisfies `found`. -/
def updateFirst (found : HciConnection → Bool) (f : HciConnection → HciConnection) :
    List HciConnection → List HciConnection
  | [] => []
  | conn :: next =>
    if found conn then f conn :: next else conn :: updateFirst found f next

/-- The test of `connection_for_address`. -/
def hasAddress (address : BdAddr) (conn : HciConnection) : Bool :=
  bdAddrCmp conn.address address = 0

/-- The test of `connection_for_handle`. -/
def hasHandle (conHandle : BitVec 16) (conn : HciConnection) : Bool :=
  conn.conHandle = conHandle

def connectionForHandle (connections : List HciConnection) (conHandle : BitVec 16) :
    Option HciConnection :=
  connections.find? (hasHandle conHandle)

namespace HciStack

def updateConnection (found : HciConnection → Bool) (f : HciConnection → HciConnection)
    (stack : HciStack) : HciStack :=
  { stack with connections := updateFirst found f stack.connections }

/-- `create_connection_for_addr`, apart from the timer of the connection; nothing when the pool
is used up. -/
def createConnectionForAddr (addr : BdAddr) (state : ConnectionState) (stack : HciStack) :
    Option HciStack :=
  if stack.connections.length < maxNoHciConnections then
    some { stack with connections := .created addr state :: stack.connections }
  else none

/-- `linked_list_remove` of the connection, which then goes back to the pool. -/
def removeConnection (found : HciConnection → Bool) (stack : HciStack) : HciStack :=
  { stack with connections := stack.connections.eraseP found }

/-- `hci_add_connection_flags_for_flipped_bd_addr`, given the address. -/
def addConnectionFlags (addr : BdAddr) (flags : Byte) : HciStack → HciStack :=
  updateConnection (hasAddress addr) fun conn =>
    { conn with authenticationFlags := conn.authenticationFlags ||| flags }

/-- `hci_drop_link_key_for_bd_addr`. -/
def dropLinkKey (addr : BdAddr) (stack : HciStack) : HciStack :=
  { stack with remoteDeviceDb := deleteLinkKey addr stack.remoteDeviceDb }

/-- The housekeeping of `hci_send_cmd_packet`. -/
def noteCommand (stack : HciStack) : Command → HciStack
  | .linkKeyRequestReply addr _ => stack.addConnectionFlags addr sentLinkKeyReply
  | .linkKeyRequestNegativeReply addr =>
    stack.addConnectionFlags addr sentLinkKeyNegativeRequest
  | _ => stack

end HciStack

section

variable {α : Type}

/-- A change of the stack alone. -/
def HciSys.withStack (s : HciSys α) (f : HciStack → HciStack) : HciSys α :=
  { s with stack := f s.stack }

/-! ### Sending -/

/-- `hci_can_send_packet_now(HCI_COMMAND_DATA_PACKET)`. -/
def hciCanSendPacketNow (s : HciSys α) : Byte :=
  if h4CanSendPacketNow s.txState then s.stack.numCmdPackets else 0

/-- The transport's `send_packet`, for a command. -/
def sendPacket (issuer : Issuer) (command : Command) (s : HciSys α) : HciSys α :=
  { s with
    txState := (h4SendPacket s.txState).2
    sent := s.sent ++ [{
      issuer := issuer
      command := command
      canSend := hciCanSendPacketNow s
      credit := s.stack.numCmdPackets
      result := (h4SendPacket s.txState).1 }] }

/-- `hci_send_cmd_packet`. The transport does not look at the stack, so that the counter may
go down after the call. -/
def hciSendCmdPacket (issuer : Issuer) (command : Command) (s : HciSys α) : HciSys α :=
  (sendPacket issuer command s).withStack fun stack =>
    { stack.noteCommand command with numCmdPackets := stack.numCmdPackets - 1 }

def hciSendCmd (command : Command) : HciSys α → HciSys α := hciSendCmdPacket .hci command

def gapSendCmd (command : Command) : HciSys α → HciSys α := hciSendCmdPacket .gap command

def hciSendDeviceInt : HciSys α → HciSys α := sendPacket .deviceInt .deviceInit

/-! ### Events for the application -/

def hciEmitState (handler : PacketHandler α) (s : HciSys α) : HciSys α :=
  handler (eventPacket [btstackEventState, 1, s.stack.state.code]) s

def hciEmitDisconnectionComplete (handler : PacketHandler α) (conHandle : BitVec 16)
    (reason : Byte) : HciSys α → HciSys α :=
  handler (eventPacket [hciEventDisconnectionComplete, 4, 0, conHandle.setWidth 8,
    (conHandle >>> 8).setWidth 8, reason])

def hciEmitNrConnectionsChanged (handler : PacketHandler α) (s : HciSys α) : HciSys α :=
  handler (eventPacket [btstackEventNrConnectionsChanged, 1,
    BitVec.ofNat 8 s.stack.connections.length]) s

def hciEmitDiscoverableEnabled (handler : PacketHandler α) (enabled : Byte) :
    HciSys α → HciSys α :=
  handler (eventPacket [btstackEventDiscoverableEnabled, 1, enabled])

/-! ### `hci_run` -/

/-- `if (!hci_can_send_packet_now(HCI_COMMAND_DATA_PACKET)) return;` before the rest. -/
def whenCanSend (rest : HciSys α → Option (HciSys α)) (s : HciSys α) : Option (HciSys α) :=
  if hciCanSendPacketNow s = 0 then some s else rest s

/-- Decline incoming connections. -/
def declineConnection (s : HciSys α) : HciSys α :=
  if s.stack.declineReason ≠ 0 then
    hciSendCmd (.rejectConnectionRequest s.stack.declineAddr s.stack.declineReason)
      (s.withStack fun stack => { stack with declineReason := 0 })
  else s

/-- Send scan enable. -/
def sendScanEnable (s : HciSys α) : HciSys α :=
  if s.stack.state = .working ∧ s.stack.newScanEnableValue ≠ 0xff then
    (hciSendCmd (.writeScanEnable s.stack.newScanEnableValue) s).withStack fun stack =>
      { stack with newScanEnableValue := 0xff }
  else s

/-- Change the connection at position `i` of the list. -/
def HciSys.modifyConnection (s : HciSys α) (i : Nat) (f : HciConnection → HciConnection) :
    HciSys α :=
  s.withStack fun stack => { stack with connections := stack.connections.modify i f }

def acceptConnection (i : Nat) (s : HciSys α) : HciSys α :=
  match s.stack.connections[i]? with
  | none => s
  | some conn =>
    if conn.state = .receivedConnectionRequest then
      (hciSendCmd (.acceptConnectionRequest conn.address 1) s).modifyConnection i fun conn =>
        { conn with state := .acceptedConnectionRequest }
    else s

/-- The answer to a link key request. -/
def linkKeyAnswer (addr : BdAddr) : Option LinkKey → Command
  | some linkKey => .linkKeyRequestReply addr linkKey
  | none => .linkKeyRequestNegativeReply addr

def answerLinkKeyRequest (i : Nat) (s : HciSys α) : HciSys α :=
  match s.stack.connections[i]? with
  | none => s
  | some conn =>
    if conn.authenticationFlags &&& handleLinkKeyRequest ≠ 0 then
      let found := getLinkKey conn.address s.stack.remoteDeviceDb
      let s := s.withStack fun stack => { stack with remoteDeviceDb := found.2 }
      (hciSendCmd (linkKeyAnswer conn.address found.1) s).modifyConnection i fun conn =>
        { conn with authenticationFlags := conn.authenticationFlags &&& ~~~handleLinkKeyRequest }
    else s

/-- The loop over the connections, by position, and the rest. -/
def sendPendingCommands (rest : HciSys α → Option (HciSys α)) :
    List Nat → HciSys α → Option (HciSys α)
  | [], s => rest s
  | i :: it, s =>
    whenCanSend (fun s =>
      whenCanSend (fun s => sendPendingCommands rest it (answerLinkKeyRequest i s))
        (acceptConnection i s)) s

/-- The `switch` of the `HCI_STATE_INITIALIZING` script, on an even substate. -/
def initScript (handler : PacketHandler α) (s : HciSys α) : Option (HciSys α) :=
  match (s.stack.substate >>> 1).toNat with
  | 0 => some ((hciSendCmd .reset s).withStack fun stack => { stack with substate := 4 })
  | 1 => none
  | 2 => none
  | 3 => some (hciSendCmd .readBdAddr s)
  | 4 => some (hciSendCmd .readBufferSize s)
  | 5 => some (hciEmitState handler (s.withStack fun stack => { stack with state := .working }))
  | _ => some s

/-- The `switch` on `hci_stack.state`. -/
def runState (handler : PacketHandler α) (s : HciSys α) : Option (HciSys α) :=
  if s.stack.state = .initializing then
    if s.stack.substate.toNat % 2 = 1 then some s else
    (initScript handler s).map fun s =>
      s.withStack fun stack => { stack with substate := stack.substate + 1 }
  else some s

def hciRun (handler : PacketHandler α) (s : HciSys α) : Option (HciSys α) :=
  whenCanSend (fun s =>
    whenCanSend (fun s =>
      let s := sendScanEnable s
      sendPendingCommands (whenCanSend (runState handler))
        (List.range s.stack.connections.length) s)
      (declineConnection s)) s

/-! ### `event_handler` -/

/-- `packet_type_sizes`. -/
def packetTypeSizes : List Nat :=
  [0, 54, 83, 17, 27, 0, 0, 0, 367, 552, 121, 183, 679, 1021, 224, 339]

def hciAclPacketTypesForBufferSize (bufferSize : BitVec 16) : BitVec 16 :=
  (List.range 16).foldl (fun packetTypes i =>
    let size := packetTypeSizes.getD i 0
    if size = 0 then packetTypes
    else if size ≤ bufferSize.toNat then packetTypes ||| 1 <<< i
    else packetTypes) 0 ^^^ 0x3306

/-- What a completed `hci_read_buffer_size` sets. -/
def noteBufferSize (packet : Packet) (stack : HciStack) : HciStack :=
  let stack := { stack with
    aclDataPacketLength := readBt16 packet 6
    totalNumAclPackets := packet 9 }
  if stack.state = .initializing then
    let aclDataPacketLength :=
      if hciAclPayloadSize < stack.aclDataPacketLength.toNat then
        BitVec.ofNat 16 hciAclPayloadSize
      else stack.aclDataPacketLength
    { stack with
      aclDataPacketLength := aclDataPacketLength
      packetTypes := hciAclPacketTypesForBufferSize aclDataPacketLength }
  else stack

def commandComplete (handler : PacketHandler α) (packet : Packet) (s : HciSys α) : HciSys α :=
  let s := s.withStack fun stack => { stack with numCmdPackets := packet 2 }
  if readBt16 packet 3 = Command.readBufferSize.opcode then
    s.withStack (noteBufferSize packet)
  else if readBt16 packet 3 = (Command.writeScanEnable 0).opcode then
    hciEmitDiscoverableEnabled handler s.stack.discoverable s
  else if readBt16 packet 3 = hciReadLocalSupportedFeatures then
    s.withStack fun stack =>
      { stack with localSupportedFeatures := Vector.ofFn fun i => packet (5 + i) }
  else s

def numberOfCompletedPackets (packet : Packet) (stack : HciStack) : HciStack :=
  (List.range (packet 2).toNat).foldl (fun stack i =>
    let handle := readBt16 packet (3 + 2 * i)
    let numPackets := readBt16 packet (3 + (packet 2).toNat * 2 + 2 * i)
    stack.updateConnection (hasHandle handle) fun conn =>
      { conn with numAclPacketsSent := conn.numAclPacketsSent - numPackets.setWidth 8 }) stack

def connectionRequest (handler : PacketHandler α) (packet : Packet) (s : HciSys α) :
    Option (HciSys α) :=
  let addr := btFlipAddr packet 2
  let linkType := packet 11
  let decline (reason : Byte) := s.withStack fun stack =>
    { stack with declineReason := reason, declineAddr := addr }
  if linkType = 1 then
    match connectionForAddress s.stack.connections addr with
    | some _ =>
      hciRun handler (s.withStack (HciStack.updateConnection (hasAddress addr) fun conn =>
        { conn with state := .receivedConnectionRequest }))
    | none =>
      match s.stack.createConnectionForAddr addr .receivedConnectionRequest with
      | some stack => hciRun handler (s.withStack fun _ => stack)
      | none => some (decline 0x0d)
  else some (decline 0x0a)

def connectionComplete (handler : PacketHandler α) (packet : Packet) (s : HciSys α) :
    HciSys α :=
  let addr := btFlipAddr packet 5
  match connectionForAddress s.stack.connections addr with
  | none => s
  | some _ =>
    if packet 2 = 0 then
      hciEmitNrConnectionsChanged handler (s.withStack (HciStack.updateConnection
        (hasAddress addr) fun conn =>
          { conn with state := .opened, conHandle := readBt16 packet 3 }))
    else
      s.withStack fun stack =>
        let stack := stack.removeConnection (hasAddress addr)
        if packet 2 = 0x05 then stack.dropLinkKey addr else stack

/-- `HCI_EVENT_LINK_KEY_REQUEST`, which is not forwarded to the application. -/
def linkKeyRequest (handler : PacketHandler α) (packet : Packet) (s : HciSys α) :
    Option (HciSys α) :=
  let addr := btFlipAddr packet 2
  hciRun handler (s.withStack fun stack =>
    (stack.addConnectionFlags addr recvLinkKeyRequest).addConnectionFlags addr
      handleLinkKeyRequest)

def linkKeyNotification (packet : Packet) (stack : HciStack) : HciStack :=
  let addr := btFlipAddr packet 2
  let stack := stack.addConnectionFlags addr recvLinkKeyNotification
  { stack with remoteDeviceDb := putLinkKey addr (linkKeyAt packet 8) stack.remoteDeviceDb }

def pinCodeRequest (packet : Packet) (stack : HciStack) : HciStack :=
  let addr := btFlipAddr packet 2
  (stack.addConnectionFlags addr recvPinCodeRequest).dropLinkKey addr

/-- `HCI_EVENT_DISCONNECTION_COMPLETE`, with `hci_shutdown_connection`. -/
def disconnectionComplete (handler : PacketHandler α) (packet : Packet) (s : HciSys α) :
    HciSys α :=
  let handle := readBt16 packet 3
  if packet 2 = 0 then
    match connectionForHandle s.stack.connections handle with
    | none => s
    | some _ =>
      let s := hciEmitDisconnectionComplete handler handle 0x16 s
      hciEmitNrConnectionsChanged handler
        (s.withStack fun stack => stack.removeConnection (hasHandle handle))
  else s

/-- `HCI_EVENT_LE_META`. -/
def leMeta (handler : PacketHandler α) (packet : Packet) (s : HciSys α) : HciSys α :=
  let addr := btFlipAddr packet 8
  let found := connectionForAddress s.stack.connections addr
  if packet 2 ≠ hciSubeventLeConnectionComplete then s
  else if packet 3 ≠ 0 then
    s.withStack fun stack =>
      let stack := if found.isSome then stack.removeConnection (hasAddress addr) else stack
      if packet 3 = 0x05 then stack.dropLinkKey addr else stack
  else
    let opened := fun conn : HciConnection =>
      { conn with state := .opened, conHandle := readBt16 packet 4 }
    match found with
    | some _ =>
      hciEmitNrConnectionsChanged handler
        (s.withStack (HciStack.updateConnection (hasAddress addr) opened))
    | none =>
      match s.stack.createConnectionForAddr addr .opened with
      | none => s
      | some stack =>
        hciEmitNrConnectionsChanged handler
          (s.withStack fun _ => { stack with connections := stack.connections.modify 0 opened })

/-- The `switch` of `event_handler`, without the case that returns. The null `control` makes
a hardware error undefined. -/
def eventSwitch (handler : PacketHandler α) (packet : Packet) (s : HciSys α) :
    Option (HciSys α) :=
  if packet 0 = hciEventCommandComplete then some (commandComplete handler packet s)
  else if packet 0 = hciEventCommandStatus then
    some (s.withStack fun stack => { stack with numCmdPackets := packet 3 })
  else if packet 0 = hciEventNumberOfCompletedPackets then
    some (s.withStack (numberOfCompletedPackets packet))
  else if packet 0 = hciEventConnectionRequest then connectionRequest handler packet s
  else if packet 0 = hciEventConnectionComplete then some (connectionComplete handler packet s)
  else if packet 0 = hciEventLinkKeyNotification then
    some (s.withStack (linkKeyNotification packet))
  else if packet 0 = hciEventPinCodeRequest then some (s.withStack (pinCodeRequest packet))
  else if packet 0 = hciEventDisconnectionComplete then
    some (disconnectionComplete handler packet s)
  else if packet 0 = hciEventHardwareError then none
  else if packet 0 = hciEventLeMeta then some (leMeta handler packet s)
  else some s

/-- Handle BT initialization. -/
def noteInitEvent (packet : Packet) (stack : HciStack) : HciStack :=
  if stack.state = .initializing ∧ stack.substate.toNat % 2 = 1 ∧
      packet 0 = hciEventCommandComplete then
    { stack with substate := stack.substate + 1 }
  else stack

/-- The end of `event_handler`. -/
def forwardEvent (handler : PacketHandler α) (packet : Packet) (s : HciSys α) :
    Option (HciSys α) :=
  hciRun handler (handler packet (s.withStack (noteInitEvent packet)))

def eventHandler (handler : PacketHandler α) (packet : Packet) (s : HciSys α) :
    Option (HciSys α) :=
  if packet 0 = hciEventLinkKeyRequest then linkKeyRequest handler packet s
  else (eventSwitch handler packet s).bind (forwardEvent handler packet)

/-! ### `acl_handler` -/

/-- What a data packet does to the connection it is for; nothing where the recombination
buffer would be left. -/
def recombine (packet : Packet) (conn : HciConnection) : Option HciConnection :=
  let aclLength := readBt16 packet 2
  let l2capLength := readBt16 packet 4
  if (packet 1 >>> 4) &&& 0x03 = 0x01 then
    if conn.aclRecombinationPos = 0 then some conn
    else if conn.aclRecombinationPos.toNat + aclLength.toNat ≤ 4 + hciAclBufferSize then
      let pos := conn.aclRecombinationPos + aclLength
      if pos.toNat ≥ conn.aclRecombinationLength.toNat + 4 + 4 then
        some { conn with aclRecombinationPos := 0, aclRecombinationLength := 0 }
      else some { conn with aclRecombinationPos := pos }
    else none
  else if (packet 1 >>> 4) &&& 0x03 = 0x02 then
    if conn.aclRecombinationPos ≠ 0 then some conn
    else if aclLength.toNat ≥ l2capLength.toNat + 4 then some conn
    else if aclLength.toNat + 4 ≤ 4 + hciAclBufferSize then
      some { conn with
        aclRecombinationPos := aclLength + 4
        aclRecombinationLength := l2capLength }
    else none
  else some conn

/-- The data packet ends in `hci_run`. -/
def runsAfter (packet : Packet) (conn : HciConnection) : Bool :=
  ((packet 1 >>> 4) &&& 0x03 = 0x01 && conn.aclRecombinationPos ≠ 0) ||
    ((packet 1 >>> 4) &&& 0x03 = 0x02 && conn.aclRecombinationPos = 0)

def aclHandler (handler : PacketHandler α) (packet : Packet) (s : HciSys α) :
    Option (HciSys α) :=
  let handle := readBt16 packet 0 &&& 0x0fff
  match connectionForHandle s.stack.connections handle with
  | none => some s
  | some conn =>
    (recombine packet conn).bind fun conn' =>
      let s := s.withStack (HciStack.updateConnection (hasHandle handle) fun _ => conn')
      if runsAfter packet conn then hciRun handler s else some s

/-- `packet_handler`. -/
def hciPacketHandler (handler : PacketHandler α) (packetType : Byte) (packet : Packet)
    (s : HciSys α) : Option (HciSys α) :=
  if packetType = hciEventPacket then eventHandler handler packet s
  else if packetType = hciAclDataPacket then aclHandler handler packet s
  else some s

/-! ### The transport's run loop -/

/-- A packet in the receive buffer: its type, and the memory behind it. -/
structure Received where
  packetType : Byte
  packet : Packet

/-- The notification of a packet sent. -/
def notifySent (handler : PacketHandler α) (s : HciSys α) : Option (HciSys α) :=
  if s.txState = .done then
    hciPacketHandler handler hciEventPacket (eventPacket [daemonEventHciPacketSent])
      { s with txState := .idle }
  else some s

/-- `h4_process`, with the packet it finds received. -/
def h4Poll (handler : PacketHandler α) (received : Option Received) (s : HciSys α) :
    Option (HciSys α) :=
  (notifySent handler s).bind fun s =>
    match received with
    | none => some s
    | some r => hciPacketHandler handler r.packetType r.packet s

/-! ### Switching on -/

/-- `hci_stack` after `hci_init`, over zeroed memory. -/
def hciInit : HciStack where
  connections := []
  numCmdPackets := 0
  totalNumAclPackets := 0
  aclDataPacketLength := BitVec.ofNat 16 hciAclPayloadSize
  localSupportedFeatures := Vector.replicate _ 0
  packetTypes := 0
  remoteDeviceDb := .init
  state := .off
  substate := 0
  discoverable := 0
  newScanEnableValue := 0xff
  declineReason := 0
  declineAddr := Vector.replicate _ 0

/-- `hci_power_control(HCI_POWER_ON)` in `HCI_STATE_OFF`. -/
def hciPowerControlOn (handler : PacketHandler α) (s : HciSys α) : Option (HciSys α) :=
  hciRun handler (hciEmitState handler
    { s with
      txState := .idle
      stack := { s.stack with numCmdPackets := 1, state := .initializing, substate := 0 } })

end

end EbnAnchor.Stack
