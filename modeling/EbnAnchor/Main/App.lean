import EbnAnchor.Core.EpochRuns
import EbnAnchor.Stack.Hci
import EbnAnchor.Lib.Steps

/-!
`main.c`: the timers, the packet handler, and the node they make with the stack.

`EBN.c` enters as a run of the epoch state: the node holds the number of calls of
`EBN_Increment_Time` so far, and the run says what they return and leave; beyond the calls of
the run the epoch timer does not come back. Printing and setting the timers again are left out.
-/

namespace EbnAnchor.Core

/-! ### The bytes behind the pointers -/

/-- `uint32_t` in memory, low byte first. -/
def wordByte (w : Word) (i : Nat) : Byte := w.extractLsb' (8 * i) 8

/-- `struct EBN_Mac_Address` as `bd_addr_t`. -/
def EbnMacAddress.bytes (mac : EbnMacAddress) : Stack.BdAddr :=
  Vector.ofFn fun i =>
    if i.val < sizeofEpochId then mac.previous.byte i else mac.current.byte (i - sizeofEpochId)

/-- `struct EBN_Advert`. -/
def EbnAdvert.bytes (advert : EbnAdvert) : Vector Byte Stack.advSize :=
  Vector.ofFn fun i =>
    if i.val < 1 then advert.messageNum ++ advert.nodeType
    else if i.val < 5 then wordByte advert.dhSymbol (i - 1)
    else if i.val < 9 then wordByte advert.prevDhSymbol (i - 5)
    else advert.smallData[i.val - 9]?.getD 0

/-- The advert behind `EBN_Get_Advert` after `n` calls. -/
def Run.advert {env : EbnEnv} (r : Run env) (n : Nat) : EbnAdvert :=
  (ebnGetAdvert (r.states n)).getD .zero

theorem Run.ebnGetAdvert_eq {env : EbnEnv} (r : Run env) {n : Nat} (hn : n ≤ r.calls) :
    ebnGetAdvert (r.states n) = some (r.advert n) := by
  have hadvert : ebnGetAdvert (r.states n) = some _ :=
    Vector.getElem?_eq_getElem (r.invariant hn).2.messageNum_lt
  rw [Run.advert, hadvert, Option.getD_some]

end EbnAnchor.Core

namespace EbnAnchor.Main

open EbnAnchor.Stack EbnAnchor.Core

/-! ### State -/

/-- The static variables of `main.c`, and the calls of `EBN_Increment_Time` so far. -/
structure AppState where
  startScan : Byte
  scanningNow : Byte
  state : Byte
  changingAddr : Byte
  broadcasting : Byte
  paramState : Byte
  ticks : Nat

def AppState.init : AppState := ⟨0, 0, 0, 0, 0, 0, 0⟩

abbrev Node := HciSys AppState

/-- A change of the variables alone. -/
def withApp (s : Node) (f : AppState → AppState) : Node := { s with app := f s.app }

/-! ### The epoch state -/

/-- A run of `EBN.c`, and what the stack leaves in `blank_addr`, which `packet_handler` never
writes: one address for each number of transmissions before. -/
structure NodeRun (env : EbnEnv) extends Run env where
  blank : Nat → BdAddr

theorem exists_onesNodeRun (calls : Nat) : ∃ r : NodeRun onesEnv, r.calls = calls := by
  obtain ⟨r, -, hcalls⟩ := exists_onesRun calls
  exact ⟨⟨r, fun _ => Vector.replicate 6 0⟩, hcalls⟩

/-! ### Vendor events -/

/-- The branch `packet_handler` takes for an `HCI_LE_ExtEvent`. -/
inductive LeBranch where
  | deviceInitDone
  | setParam1
  | setParam2
  | setParam3
  | configDeviceAddr
  | advertisementUpdate
  | scanResponseUpdate
  | makeDiscoverable
  | endDiscoverable
  | deviceDiscoveryDone
  | ignored
  deriving DecidableEq

/-- The tests, in the order of the source. -/
def leBranch (paramState : Byte) (packet : Packet) : LeBranch :=
  if readBt16 packet 2 = gapDeviceInitDone then .deviceInitDone
  else if readBt16 packet 5 = gapSetParam ∧ paramState = 1 then .setParam1
  else if readBt16 packet 5 = gapSetParam ∧ paramState = 2 then .setParam2
  else if readBt16 packet 5 = gapSetParam ∧ paramState = 3 then .setParam3
  else if readBt16 packet 5 = gapConfigDeviceAddr then .configDeviceAddr
  else if readBt16 packet 2 = gapAdvertDataUpdate ∧ packet 5 = 0x01 then .advertisementUpdate
  else if readBt16 packet 2 = gapAdvertDataUpdate ∧ packet 5 = 0x00 then .scanResponseUpdate
  else if readBt16 packet 5 = gapMakeDiscoverable then .makeDiscoverable
  else if readBt16 packet 2 = gapEndDiscoverableEvent then .endDiscoverable
  else if readBt16 packet 2 = gapDeviceDiscoveryDone then .deviceDiscoveryDone
  -- `GAP_DeviceInformation` is printed
  else .ignored

section

variable {env : EbnEnv} (r : NodeRun env)

/-- `gap_config_device_addr` with the address of the epoch. -/
def configAddr (app : AppState) : Command :=
  .configDeviceAddr 0x01 (ebnGetMacAddress (r.states app.ticks)).bytes

/-- `gap_UpdateAdvertisingData` with the current advert. `EBN_Get_Advert` returns the address
of an array element, so the branches for a null pointer are not there. -/
def updateAdvert (adType : Byte) (app : AppState) : Command :=
  .updateAdvertisingData adType (BitVec.ofNat 8 advSize) (r.advert app.ticks).bytes

/-- `blank_addr`. -/
def blankAddr (s : Node) : BdAddr := r.blank s.sent.length

def leExtEvent (branch : LeBranch) (packet : Packet) (s : Node) : Node :=
  match branch with
  | .deviceInitDone =>
    withApp (gapSendCmd (.setParam 0x01 0x0000) s) fun app =>
      { app with paramState := app.paramState + 1 }
  | .setParam1 =>
    withApp (gapSendCmd (.setParam 0x08 0x0320) s) fun app =>
      { app with paramState := app.paramState + 1 }
  | .setParam2 =>
    withApp (gapSendCmd (.setParam 0x09 0x0960) s) fun app =>
      { app with paramState := app.paramState + 1 }
  | .setParam3 => gapSendCmd (configAddr r s.app) s
  | .configDeviceAddr => gapSendCmd (updateAdvert r 0x01 s.app) s
  | .advertisementUpdate => gapSendCmd (updateAdvert r 0x00 s.app) s
  | .scanResponseUpdate =>
    let s := if s.app.broadcasting = 0 then
        gapSendCmd (.makeDiscoverable 0x03 0x01 (blankAddr r s) 0x07 0) s
      else s
    withApp s fun app => { app with state := 1, startScan := 1 }
  | .makeDiscoverable => withApp s fun app => { app with broadcasting := 1 }
  | .endDiscoverable =>
    let s := withApp s fun app => { app with broadcasting := 0 }
    gapSendCmd (configAddr r s.app) s
  | .deviceDiscoveryDone =>
    withApp s fun app => { app with startScan := app.startScan + packet 5, scanningNow := 0 }
  | .ignored => s

def packetHandler : PacketHandler AppState := fun packet s =>
  if packet 0 = btstackEventState then
    if packet 2 = HciState.working.code then hciSendDeviceInt s else s
  else if packet 0 = hciLeExtEvent then leExtEvent r (leBranch s.app.paramState packet) packet s
  -- `HCI_EVENT_COMMAND_COMPLETE` is printed
  else s

/-! ### Timers -/

def scanHandler (s : Node) : Node :=
  if hciCanSendPacketNow s ≠ 0 ∧ s.app.startScan = 1 ∧ s.app.scanningNow = 0 then
    withApp (gapSendCmd (.deviceDiscoveryRequest 0x03 0x00 0x00) s) fun app =>
      { app with scanningNow := 1 }
  else s

def epochChangeHandler (s : Node) : Node :=
  let rc := r.returned s.app.ticks
  let s := withApp s fun app => { app with ticks := app.ticks + 1 }
  let s := if rc ≠ 0 ∧ s.app.state ≠ 0 then
      withApp (gapSendCmd .endDiscoverable s) fun app => { app with changingAddr := 1 }
    else s
  gapSendCmd (updateAdvert r 0x01 s.app) s

/-! ### The node -/

/-- `hci_init` and `hci_power_control(HCI_POWER_ON)`; `main` registers its handler after. -/
def powerOn : Option Node :=
  hciPowerControlOn dummyHandler
    { txState := .idle, stack := hciInit, app := .init, sent := [] }

/-- The node when the run loop starts. -/
def poweredOn : Node := powerOn.get rfl

/-- What the run loop can do next. -/
inductive NodeAction where
  /-- `h4_process`, with what it finds received. -/
  | poll (received : Option Received)
  | scanTimer
  | epochTimer

def nodeStep (s : Node) : NodeAction → Option Node
  | .poll received => h4Poll (packetHandler r) received s
  | .scanTimer => some (scanHandler s)
  -- `EBN_Increment_Time` may not return
  | .epochTimer => if s.app.ticks < r.calls then some (epochChangeHandler r s) else none

end

end EbnAnchor.Main
