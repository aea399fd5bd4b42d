import EbnAnchor.Main.AppSteps

/-!
The node together with its controller: what is on air.

The controller carries out the commands the transport accepts, in order, and answers each
some time later. How far it has got is not part of the state: what holds on air must hold
after every first part of the accepted commands.
-/

namespace EbnAnchor.Main

open EbnAnchor.Stack EbnAnchor.Core

/-! ### The controller -/

/-- What the controller has been told. -/
structure Controller where
  address : Option BdAddr
  /-- `none` for the blank default. -/
  advert : Option (Vector Byte advSize)
  broadcasting : Bool

def Controller.reset : Controller := ⟨none, none, false⟩

def Controller.execute (c : Controller) : Command → Controller
  | .configDeviceAddr _ addr => { c with address := some addr }
  | .updateAdvertisingData adType _ data =>
    if adType = 0x01 then { c with advert := some data } else c
  | .makeDiscoverable _ _ _ _ _ => { c with broadcasting := true }
  | .endDiscoverable => { c with broadcasting := false }
  | _ => c

/-- The controller after the commands. -/
def Controller.after (commands : List Command) : Controller :=
  commands.foldl Controller.execute .reset

/-- The commands the transport accepted. -/
def accepted (sent : List Transmission) : List Command :=
  sent.filterMap fun t => if t.result = 0 then some t.command else none

/-- The event that answers a command. -/
inductive Answer where
  /-- `HCI_EVENT_COMMAND_COMPLETE`. -/
  | commandComplete (opcode : BitVec 16)
  /-- `GAP_HCI_ExtentionCommandStatus`. -/
  | commandStatus (opcode : BitVec 16)
  | advertDataUpdate (adType : Byte)
  /-- Another vendor event. -/
  | event (code : BitVec 16)

def answerOf : Command → Answer
  | .deviceInit => .event gapDeviceInitDone
  | .setParam _ _ => .commandStatus gapSetParam
  | .configDeviceAddr _ _ => .commandStatus gapConfigDeviceAddr
  | .updateAdvertisingData adType _ _ => .advertDataUpdate adType
  | .makeDiscoverable _ _ _ _ _ => .commandStatus gapMakeDiscoverable
  | .endDiscoverable => .event gapEndDiscoverableEvent
  | .deviceDiscoveryRequest _ _ _ => .event gapDeviceDiscoveryDone
  | command => .commandComplete command.opcode

/-- The packet is the event, whatever else it holds. -/
def Answer.Matches (packet : Packet) : Answer → Prop
  | commandComplete opcode =>
    packet 0 = hciEventCommandComplete ∧ readBt16 packet 3 = opcode
  | commandStatus opcode => packet 0 = hciLeExtEvent ∧
    readBt16 packet 2 = gapHciExtentionCommandStatus ∧ readBt16 packet 5 = opcode
  | advertDataUpdate adType => packet 0 = hciLeExtEvent ∧
    readBt16 packet 2 = gapAdvertDataUpdate ∧ packet 5 = adType
  | event code => packet 0 = hciLeExtEvent ∧ readBt16 packet 2 = code

instance (packet : Packet) : DecidablePred (Answer.Matches packet)
  | .commandComplete _ => inferInstanceAs (Decidable (_ ∧ _))
  | .commandStatus _ => inferInstanceAs (Decidable (_ ∧ _ ∧ _))
  | .advertDataUpdate _ => inferInstanceAs (Decidable (_ ∧ _ ∧ _))
  | .event _ => inferInstanceAs (Decidable (_ ∧ _))

/-! ### The system -/

structure OnAir where
  node : Node
  /-- The accepted commands without an answer. -/
  awaiting : List Command

inductive OnAirAction where
  /-- The controller answers a command, and the run loop polls. -/
  | answer (command : Command) (packet : Packet)
  /-- A vendor event that `main.c` ignores. -/
  | notice (packet : Packet)
  | poll
  | scanTimer
  | epochTimer

/-- What happens at the node. -/
def OnAirAction.nodeAction : OnAirAction → NodeAction
  | answer _ packet => .poll (some ⟨hciEventPacket, packet⟩)
  | notice packet => .poll (some ⟨hciEventPacket, packet⟩)
  | poll => .poll none
  | scanTimer => .scanTimer
  | epochTimer => .epochTimer

/-- The controller can do this now. -/
def OnAir.enabled (s : OnAir) : OnAirAction → Bool
  | .answer command packet => command ∈ s.awaiting ∧ (answerOf command).Matches packet
  | .notice packet =>
    packet 0 = hciLeExtEvent ∧ leBranch s.node.app.paramState packet = .ignored
  | _ => true

/-- The commands left without an answer. -/
def OnAir.remaining (s : OnAir) : OnAirAction → List Command
  | .answer command _ => s.awaiting.erase command
  | _ => s.awaiting

section

variable {env : EbnEnv} (r : NodeRun env)

def onAirStep (s : OnAir) (action : OnAirAction) : Option OnAir :=
  if s.enabled action then
    (nodeStep r s.node action.nodeAction).map fun node =>
      { node := node
        awaiting := s.remaining action ++ accepted (node.sent.drop s.node.sent.length) }
  else none

def onAirInit : OnAir := ⟨poweredOn, accepted poweredOn.sent⟩

/-! ### What belongs together -/

/-- The EBN MAC address of the epoch. -/
def IsMacOf (epoch : Nat) (address : BdAddr) : Prop :=
  ∃ n ≤ r.calls, r.epoch n = epoch ∧ address = (ebnGetMacAddress (r.states n)).bytes

/-- An advert of the epoch. -/
def IsAdvertOf (epoch : Nat) (advert : Vector Byte advSize) : Prop :=
  ∃ n ≤ r.calls, r.epoch n = epoch ∧
    (ebnGetAdvert (r.states n)).map EbnAdvert.bytes = some advert

/-- While broadcasting, the address and the data belong to one epoch. -/
def Consistent (c : Controller) : Prop :=
  c.broadcasting = true → ∃ epoch, (∃ address, c.address = some address ∧
    IsMacOf r epoch address) ∧ ∀ advert, c.advert = some advert → IsAdvertOf r epoch advert

/-- This holds however far the controller has got. -/
def OnAirConsistent (s : OnAir) : Prop :=
  ∀ commands, commands <+: accepted s.node.sent → Consistent r (.after commands)

def isUpdate : Command → Bool
  | .updateAdvertisingData _ _ _ => true
  | _ => false

/-- When the epoch timer may fire: before the address is configured only while the transport
is busy, so that the advert is lost, and at the end of an epoch only while broadcasting, with
the transport idle and no update of the data on its way. -/
def OnAirSafe (s : OnAir) : OnAirAction → Prop
  | .epochTimer =>
    if (Controller.after (accepted s.node.sent)).address = none then s.node.txState ≠ .idle
    else EndsEpoch r s.node.app → s.node.txState = .idle ∧ s.node.app.state ≠ 0 ∧
      s.node.app.broadcasting = 1 ∧ ∀ command ∈ s.awaiting, isUpdate command = false
  | _ => True

end

end EbnAnchor.Main
