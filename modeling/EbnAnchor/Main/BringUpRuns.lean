import EbnAnchor.Main.AppSteps
import EbnAnchor.Stack.BringUp

/-!
Bring-up of the node, from power-on.

* `bringUp_script`: what `hci_run` sends in `HCI_STATE_INITIALIZING`, and what the events
  were before that; when the application is told that the stack works, and when it
  initialises the device;
* `hciRun_returns_of_run`: the script never gets to the steps that follow a null pointer;
* `deviceInit_while_initializing`: the controller can make `main.c` believe that the stack
  works.
-/

namespace EbnAnchor.Main

open EbnAnchor.Stack EbnAnchor.Core

/-! ### The node with its record -/

/-- The node, with a record of what `main.c` is given and of the events received. -/
structure BringUp where
  node : HciSys (AppState × List Seen)
  received : List Packet

inductive BringUpAction where
  | poll (received : Option Received)
  | hciRun
  | scanTimer
  | epochTimer

/-- The event in what a poll finds. -/
def eventOf : Option Received → List Packet
  | some received => if received.packetType = hciEventPacket then [received.packet] else []
  | none => []

theorem mem_eventOf {received : Option Received} {packet : Packet}
    (h : packet ∈ eventOf received) : received = some ⟨hciEventPacket, packet⟩ := by
  cases received with
  | none => cases h
  | some received =>
    by_cases htype : received.packetType = hciEventPacket
    · rw [eventOf, if_pos htype] at h
      rw [List.mem_singleton.mp h, ← htype]
    · rw [eventOf, if_neg htype] at h
      cases h

/-- A handler of `main.c` that gets no event. -/
def unseen (f : Node → Node) (s : HciSys (AppState × List Seen)) :
    HciSys (AppState × List Seen) :=
  (f s.unrecorded).record s.app.2

section

variable {env : EbnEnv} (r : NodeRun env)

def bringUpStep (s : BringUp) : BringUpAction → Option BringUp
  | .poll received =>
    (h4Poll (recorded (packetHandler r)) received s.node).map fun node =>
      ⟨node, s.received ++ eventOf received⟩
  | .hciRun =>
    (hciRun (recorded (packetHandler r)) s.node).map fun node => ⟨node, s.received⟩
  | .scanTimer => some ⟨unseen scanHandler s.node, s.received⟩
  | .epochTimer =>
    if s.node.app.1.ticks < r.calls then some ⟨unseen (epochChangeHandler r) s.node, s.received⟩
    else none

/-- `hci_power_control(HCI_POWER_ON)`, with nothing sent or seen before. -/
def switchedOn (txState : TxState) (stack : HciStack) (app : AppState) :
    Option (HciSys (AppState × List Seen)) :=
  hciPowerControlOn (recorded dummyHandler)
    { txState := txState, stack := stack, app := (app, []), sent := [] }

variable {r}

/-! ### `main.c` as an application -/

theorem leExtEvent_script (branch : LeBranch) (packet : Packet) (s : Node) :
    SameScript s.stack (leExtEvent r branch packet s).stack := by
  rw [leExtEvent_eq]
  cases branch.command r (blankAddr r s) s.app with
  | none => exact .refl s.stack
  | some command => exact hciSendCmd_script command s

theorem command_not_inScript {branch : LeBranch} {blank : BdAddr} {app : AppState}
    {command : Command} (h : branch.command r blank app = some command) :
    command.inScript = false ∧ command ≠ .deviceInit := by
  cases branch with
  | scanResponseUpdate =>
    obtain ⟨-, hcommand⟩ := Option.ite_none_right_eq_some.mp h
    cases hcommand
    exact ⟨rfl, nofun⟩
  | deviceInitDone | setParam1 | setParam2 | setParam3 | configDeviceAddr
    | advertisementUpdate | endDiscoverable =>
    cases h
    exact ⟨rfl, nofun⟩
  | makeDiscoverable | deviceDiscoveryDone | ignored => cases h

theorem dummyHandler_application {α : Type} : Application (dummyHandler (α := α)) where
  script _ s := .refl s.stack
  sent _ s := ⟨[], (List.append_nil s.sent).symm, fun _ hmem => absurd hmem List.not_mem_nil⟩

theorem packetHandler_application : Application (packetHandler r) where
  script packet s := by
    unfold packetHandler
    split_ifs
    · exact .refl s.stack
    · exact .refl s.stack
    · exact leExtEvent_script _ packet s
    · exact .refl s.stack
  sent packet s := by
    have hquiet : ∃ new, s.sent = s.sent ++ new ∧ ∀ t ∈ new, t.command.inScript = false ∧
        (t.command = .deviceInit → isWorking packet = true) :=
      ⟨[], (List.append_nil s.sent).symm, fun _ hmem => absurd hmem List.not_mem_nil⟩
    unfold packetHandler
    split_ifs with hcode hworking
    · refine ⟨_, rfl, fun t hmem => ?_⟩
      cases List.mem_singleton.mp hmem
      exact ⟨rfl, fun _ => decide_eq_true ⟨hcode, hworking⟩⟩
    · exact hquiet
    · rw [leExtEvent_eq]
      cases hcommand : (leBranch s.app.paramState packet).command r (blankAddr r s) s.app with
      | none => exact hquiet
      | some command =>
        refine ⟨_, rfl, fun t hmem => ?_⟩
        cases List.mem_singleton.mp hmem
        obtain ⟨hscript, hinit⟩ := command_not_inScript hcommand
        exact ⟨hscript, fun heq => absurd heq hinit⟩
    · exact hquiet

/-- The timers leave the script alone, and do not initialise the device. -/
structure Timer (f : Node → Node) : Prop where
  script : ∀ s, SameScript s.stack (f s).stack
  sent : ∀ s, ∃ new, (f s).sent = s.sent ++ new ∧ ∀ t ∈ new,
    t.command.inScript = false ∧ t.command ≠ .deviceInit

theorem scanHandler_timer : Timer scanHandler where
  script s := by
    unfold scanHandler
    split
    · exact hciSendCmd_script _ s
    · exact .refl s.stack
  sent s := by
    unfold scanHandler
    split
    · refine ⟨_, rfl, fun t hmem => ?_⟩
      cases List.mem_singleton.mp hmem
      exact ⟨rfl, nofun⟩
    · exact ⟨[], (List.append_nil s.sent).symm, fun _ hmem => absurd hmem List.not_mem_nil⟩

theorem epochChangeHandler_timer : Timer (epochChangeHandler r) where
  script s := by
    rcases epochChangeHandler_returned (r := r) s with ⟨-, -, heq⟩ | ⟨-, heq⟩
    · rw [heq]
      exact ⟨rfl, rfl⟩
    · rw [heq]
      exact ⟨rfl, rfl⟩
  sent s := by
    rcases epochChangeHandler_returned (r := r) s with ⟨-, -, heq⟩ | ⟨-, heq⟩
    · rw [heq]
      refine ⟨_, List.append_assoc s.sent _ _, fun t hmem => ?_⟩
      rcases List.mem_cons.mp hmem with rfl | hmem
      · exact ⟨rfl, nofun⟩
      · cases List.mem_singleton.mp hmem
        exact ⟨rfl, nofun⟩
    · rw [heq]
      refine ⟨_, rfl, fun t hmem => ?_⟩
      cases List.mem_singleton.mp hmem
      exact ⟨rfl, nofun⟩

/-! ### The invariants of the node -/

/-- The events received so far bear out what was sent and seen. -/
structure BringUpInv (s : BringUp) : Prop where
  script : ScriptInv (· ∈ s.received) s.node
  working : WorkingInv (s.received.countP isWorking) s.node

theorem scriptInv_timer {received : Packet → Prop} {s : HciSys (AppState × List Seen)}
    (h : ScriptInv received s) {f : Node → Node} (hf : Timer f) :
    ScriptInv received (unseen f s) := by
  obtain ⟨new, hsent, hnew⟩ := hf.sent s.unrecorded
  exact h.quiet (hf.script s.unrecorded) rfl hsent fun t hmem => (hnew t hmem).1

theorem workingInv_timer {received : Nat} {s : HciSys (AppState × List Seen)}
    (h : WorkingInv received s) {f : Node → Node} (hf : Timer f) :
    WorkingInv received (unseen f s) := by
  obtain ⟨new, hsent, hnew⟩ := hf.sent s.unrecorded
  exact h.quiet (hf.script s.unrecorded).state rfl hsent fun t hmem => (hnew t hmem).2

theorem scriptInv_poll {earlier : List Packet} {s t : HciSys (AppState × List Seen)}
    (h : ScriptInv (· ∈ earlier) s) {received : Option Received}
    (hpoll : h4Poll (recorded (packetHandler r)) received s = some t) :
    ScriptInv (· ∈ earlier ++ eventOf received) t := by
  refine (ScriptInv.rule packetHandler_application _).h4Poll ?_ ?_ hpoll
    (h.mono fun packet hmem => List.mem_append_left _ hmem)
  · intro hcode
    exact absurd hcode (by decide)
  · rintro packet rfl htype _
    refine List.mem_append_right _ ?_
    rw [eventOf, if_pos htype]
    exact List.mem_singleton_self _

theorem workingInv_poll {earlier : Nat} {s t : HciSys (AppState × List Seen)}
    (h : WorkingInv earlier s) {received : Option Received}
    (hpoll : h4Poll (recorded (packetHandler r)) received s = some t) :
    WorkingInv (earlier + (eventOf received).countP isWorking) t := by
  have hrule := WorkingInv.rule (packetHandler_application (r := r))
  by_cases hworking : ∃ packet, received = some ⟨hciEventPacket, packet⟩ ∧ isWorking packet = true
  · -- the event goes to `main.c` as it is
    obtain ⟨packet, rfl, hworking⟩ := hworking
    obtain ⟨u, hsent, hrest⟩ := Option.bind_eq_some_iff.mp hpoll
    have hu := (hrule earlier).notifySent (by decide) hsent h
    have hother : packet 0 ∉ stackEvents := by
      rw [(of_decide_eq_true hworking).1]
      decide
    have hrest : hciPacketHandler (recorded (packetHandler r)) hciEventPacket packet u = some t :=
      hrest
    rw [hciPacketHandler, if_pos rfl, eventHandler_other hother] at hrest
    rw [eventOf, if_pos rfl, List.countP_singleton, if_pos hworking]
    exact (hrule (earlier + 1)).hciRun hrest (hu.receive packetHandler_application hworking)
  · have hother : ∀ packet, received = some packet → packet.packetType = hciEventPacket →
        isWorking packet.packet = false := by
      rintro ⟨packetType, packet⟩ rfl rfl
      exact Bool.eq_false_iff.mpr fun htrue => hworking ⟨packet, rfl, htrue⟩
    have hnone : (eventOf received).countP isWorking = 0 := by
      refine List.countP_eq_zero.mpr fun packet hmem htrue => ?_
      rw [hother _ (mem_eventOf hmem) rfl] at htrue
      cases htrue
    rw [hnone]
    exact (hrule earlier).h4Poll (by decide) hother hpoll h

theorem bringUpInv_step (s : BringUp) (action : BringUpAction) (s' : BringUp)
    (h : BringUpInv s) (hstep : bringUpStep r s action = some s') : BringUpInv s' := by
  cases action with
  | poll received =>
    obtain ⟨node, hpoll, rfl⟩ := Option.map_eq_some_iff.mp hstep
    refine ⟨scriptInv_poll h.script hpoll, ?_⟩
    rw [List.countP_append]
    exact workingInv_poll h.working hpoll
  | hciRun =>
    obtain ⟨node, hrun, rfl⟩ := Option.map_eq_some_iff.mp hstep
    exact ⟨(ScriptInv.rule packetHandler_application _).hciRun hrun h.script,
      (WorkingInv.rule packetHandler_application _).hciRun hrun h.working⟩
  | scanTimer =>
    cases hstep
    exact ⟨scriptInv_timer h.script scanHandler_timer,
      workingInv_timer h.working scanHandler_timer⟩
  | epochTimer =>
    obtain ⟨-, heq⟩ := Option.ite_none_right_eq_some.mp hstep
    cases heq
    exact ⟨scriptInv_timer h.script epochChangeHandler_timer,
      workingInv_timer h.working epochChangeHandler_timer⟩

/-- The stack as `hci_power_control` leaves it before it tells the application. -/
def switching (stack : HciStack) : HciStack :=
  { stack with numCmdPackets := 1, state := .initializing, substate := 0 }

theorem scriptInv_switching (received : Packet → Prop) (stack : HciStack) (app : AppState) :
    ScriptInv received ⟨.idle, switching stack, (app, []), []⟩ where
  seen e hmem := absurd hmem List.not_mem_nil
  accepted t hmem := absurd hmem List.not_mem_nil
  completed := each_nil _
  stage := by
    refine ⟨0, 0, .start rfl rfl, rfl, fun j hj hj0 => ?_⟩
    omega

theorem workingInv_switching (stack : HciStack) (app : AppState) :
    WorkingInv 0 ⟨.idle, switching stack, (app, []), []⟩ where
  times := Nat.zero_le _
  deviceInit := each_nil _

theorem switchedOn_inv {txState : TxState} {stack : HciStack} {app : AppState}
    {on : HciSys (AppState × List Seen)} (h : switchedOn txState stack app = some on) :
    BringUpInv ⟨on, []⟩ := by
  let told := eventPacket [btstackEventState, 1, HciState.initializing.code]
  have hrun : hciRun (recorded dummyHandler)
    (recorded dummyHandler told ⟨.idle, switching stack, (app, []), []⟩) = some on := h
  refine ⟨?_, ?_⟩
  · have htold := (scriptInv_switching (· ∈ []) stack app).emit dummyHandler_application told
      (by decide)
    exact (ScriptInv.rule dummyHandler_application _).hciRun hrun htold
  · have hother : isWorking told = false := by decide
    have htold := (workingInv_switching stack app).tell dummyHandler_application hother
    exact (WorkingInv.rule dummyHandler_application _).hciRun hrun htold

/-! ### Runs -/

theorem bringUpInv_run {txState : TxState} {stack : HciStack} {app : AppState}
    {on : HciSys (AppState × List Seen)} (hon : switchedOn txState stack app = some on)
    {actions : List BringUpAction} {s : BringUp}
    (h : Steps.run (bringUpStep r) ⟨on, []⟩ actions = some s) : BringUpInv s :=
  Steps.run_invariant bringUpInv_step h (switchedOn_inv hon)

theorem eq_of_timesWorking {seen : List Seen} (htimes : timesWorking seen ≤ 1) {e e' : Seen}
    (he : e ∈ seen) (hworking : isWorking e.packet = true) (he' : e' ∈ seen)
    (hworking' : isWorking e'.packet = true) : e = e' := by
  have hmem : e ∈ seen.filter fun e => isWorking e.packet := List.mem_filter.mpr ⟨he, hworking⟩
  have hmem' : e' ∈ seen.filter fun e => isWorking e.packet :=
    List.mem_filter.mpr ⟨he', hworking'⟩
  rw [timesWorking, List.countP_eq_length_filter] at htimes
  cases hfilter : seen.filter fun e => isWorking e.packet with
  | nil =>
    rw [hfilter] at hmem
    cases hmem
  | cons a rest =>
    rw [hfilter, List.length_cons] at htimes
    have hrest : rest = [] := List.length_eq_zero_iff.mp (by omega)
    rw [hfilter, hrest] at hmem hmem'
    rw [List.mem_singleton.mp hmem, List.mem_singleton.mp hmem']

/-- `hci_run` never gets to the steps of the script that read the null `config`. -/
theorem hciRun_returns_of_run {txState : TxState} {stack : HciStack} {app : AppState}
    {on : HciSys (AppState × List Seen)} (hon : switchedOn txState stack app = some on)
    {actions : List BringUpAction} {s : BringUp}
    (h : Steps.run (bringUpStep r) ⟨on, []⟩ actions = some s) :
    ∃ s', bringUpStep r s .hciRun = some s' := by
  obtain ⟨node, hrun⟩ := (bringUpInv_run hon h).script.hciRun_returns
    (recorded (packetHandler r))
  exact ⟨⟨node, s.received⟩, congrArg (Option.map _) hrun⟩

/-- Told only once, the application initialises the device only then. -/
theorem deviceInit_after {seen : List Seen} {sent : List Transmission}
    (hdevice : Each (AfterWorking seen) sent) (hsent : ∀ e ∈ seen, e.sent <+: sent)
    (htimes : timesWorking seen ≤ 1) {e : Seen} (he : e ∈ seen)
    (hworking : isWorking e.packet = true) :
    ∀ t ∈ e.sent, t.command ≠ .deviceInit := by
  intro t hmem hinit
  obtain ⟨before, after, hsplit⟩ := List.append_of_mem hmem
  have hbefore : before ++ [t] <+: e.sent := by
    rw [hsplit]
    exact ⟨after, List.append_cons before t after |>.symm⟩
  obtain ⟨e', he', hworking', hshort⟩ := hdevice before t (hbefore.trans (hsent e he)) hinit
  have hsame : e' = e := eq_of_timesWorking htimes he' hworking' he hworking
  have hlen := hshort.length_le
  have hlt := hbefore.length_le
  rw [List.length_append, List.length_singleton] at hlt
  rw [hsame] at hlen
  omega

end

/-- From power-on, the script sends a first part of reset, read_bd_addr and read_buffer_size,
each accepted, and each after the first only after a command completed since the one before.
The stack works only after a completion for each of the three. The application is told so at
most once, but for the times the controller says so, and initialises the device only
afterwards. -/
theorem bringUp_script {env : EbnEnv} (r : NodeRun env) {txState : TxState} {stack : HciStack}
    {app : AppState} {on : HciSys (AppState × List Seen)}
    (hon : switchedOn txState stack app = some on) {actions : List BringUpAction} {s : BringUp}
    (h : Steps.run (bringUpStep r) ⟨on, []⟩ actions = some s) :
    scriptSent s.node.sent <+: [.reset, .readBdAddr, .readBufferSize] ∧
    (∀ t ∈ s.node.sent, t.command.inScript = true → t.result = 0) ∧
    (∀ before t, before ++ [t] <+: s.node.sent → t.command.inScript = true →
      scriptSent before ≠ [] → ∃ e ∈ s.node.app.2, e.packet 0 = hciEventCommandComplete ∧
        e.packet ∈ s.received ∧ e.sent <+: before ∧ scriptSent e.sent = scriptSent before) ∧
    (s.node.stack.state = .working → ∀ j, 1 ≤ j → j ≤ 3 → ∃ e ∈ s.node.app.2,
      e.packet 0 = hciEventCommandComplete ∧ e.packet ∈ s.received ∧
        scriptSent e.sent = [Command.reset, .readBdAddr, .readBufferSize].take j) ∧
    timesWorking s.node.app.2 ≤ s.received.countP isWorking + 1 ∧
    (∀ before t, before ++ [t] <+: s.node.sent → t.command = .deviceInit →
      ∃ e ∈ s.node.app.2, isWorking e.packet = true ∧ e.sent <+: before) ∧
    (s.received.countP isWorking = 0 → ∀ e ∈ s.node.app.2, isWorking e.packet = true →
      ∀ t ∈ e.sent, t.command ≠ .deviceInit) := by
  obtain ⟨hscript, hworking⟩ := bringUpInv_run hon h
  obtain ⟨k, c, hstage, hsent, hseen⟩ := hscript.stage
  have htimes : timesWorking s.node.app.2 ≤ s.received.countP isWorking + 1 := by
    have hle := hworking.times
    split at hle
    · exact hle
    · omega
  refine ⟨?_, hscript.accepted, ?_, ?_, htimes, hworking.deviceInit, ?_⟩
  · rw [hsent]
    exact List.take_prefix k script
  · intro before t hbefore htrue hne
    obtain ⟨e, hmem, hcode, hrest⟩ := hscript.completed before t hbefore htrue hne
    exact ⟨e, hmem, hcode, (hscript.seen e hmem).2 hcode, hrest⟩
  · intro hstate j hj hj3
    obtain ⟨rfl, rfl⟩ := hstage.of_working hstate
    obtain ⟨e, hmem, hcode, hafter⟩ := hseen j hj hj3
    exact ⟨e, hmem, hcode, (hscript.seen e hmem).2 hcode, hafter⟩
  · intro hnone e hmem hisWorking
    rw [hnone] at htimes
    exact deviceInit_after hworking.deviceInit (fun e hmem => (hscript.seen e hmem).1) htimes
      hmem hisWorking

/-- The node when the run loop starts, and after the notification of the reset sent. -/
def resetSent : HciSys (AppState × List Seen) := (switchedOn .idle hciInit .init).get rfl

def resetNotified : HciSys (AppState × List Seen) :=
  { resetSent with
    txState := .idle
    app := (.init, resetSent.app.2 ++ [⟨eventPacket [daemonEventHciPacketSent],
      resetSent.sent⟩]) }

theorem hciRun_noCredit {α : Type} {handler : PacketHandler α} {s : HciSys α}
    (h : hciCanSendPacketNow s = 0) : hciRun handler s = some s := if_pos h

theorem notifySent_resetSent {env : EbnEnv} (r : NodeRun env) :
    notifySent (recorded (packetHandler r)) resetSent = some resetNotified := by
  have hdone : resetSent.txState = .done := rfl
  rw [notifySent, if_pos hdone, hciPacketHandler, if_pos rfl, eventHandler_other (by decide)]
  exact hciRun_noCredit rfl

/-- The reset is completed, and the next command of the script is sent. -/
theorem bringUp_script_reset : ∃ r : NodeRun onesEnv, ∃ s,
    switchedOn .idle hciInit .init = some resetSent ∧
    Steps.run (bringUpStep r) ⟨resetSent, []⟩
      [.poll (some ⟨hciEventPacket, eventPacket [0x0E, 4, 1, 0, 0, 0]⟩)] = some s ∧
    scriptSent s.node.sent = [.reset, .readBdAddr] ∧
    scriptSent s.node.sent <+: [.reset, .readBdAddr, .readBufferSize] := by
  obtain ⟨r, hcalls⟩ := exists_onesNodeRun 1
  let packet := eventPacket [0x0E, 4, 1, 0, 0, 0]
  let completed := recorded (packetHandler r) packet
    (resetNotified.withStack fun stack => { stack with numCmdPackets := 1, substate := 6 })
  have hon : switchedOn .idle hciInit .init = some resetSent := rfl
  have hsub : completed.stack.substate = 6 := rfl
  have hcan : hciCanSendPacketNow completed ≠ 0 := by
    have hone : hciCanSendPacketNow completed = 1 := rfl
    rw [hone]
    decide
  let next := (hciSendCmd .readBdAddr completed).withStack fun stack =>
    { stack with substate := stack.substate + 1 }
  have hscript : hciRun (recorded (packetHandler r)) completed = some next := by
    rw [hciRun_script (s := completed) ⟨rfl, rfl, rfl⟩ hcan rfl (by rw [hsub]; decide),
      initScript_readBdAddr hsub]
    rfl
  have hcode : packet 0 = hciEventCommandComplete := rfl
  have hevent : hciPacketHandler (recorded (packetHandler r)) hciEventPacket packet
      resetNotified = hciRun (recorded (packetHandler r)) completed := by
    have hcomplete : commandComplete (recorded (packetHandler r)) packet resetNotified =
        resetNotified.withStack fun stack => { stack with numCmdPackets := 1 } := by
      have hopcode : readBt16 packet 3 = 0 := by decide
      unfold commandComplete
      rw [hopcode, if_neg (by decide), if_neg (by decide), if_neg (by decide)]
      rfl
    rw [hciPacketHandler, if_pos rfl, eventHandler, hcode, if_neg (by decide), eventSwitch,
      if_pos hcode, hcomplete, Option.bind_some, forwardEvent]
    rfl
  have hpoll : h4Poll (recorded (packetHandler r)) (some ⟨hciEventPacket, packet⟩) resetSent =
      some next := by
    rw [h4Poll, notifySent_resetSent]
    exact hevent.trans hscript
  have hrun : Steps.run (bringUpStep r) ⟨resetSent, []⟩
      [.poll (some ⟨hciEventPacket, packet⟩)] = some ⟨next, [packet]⟩ := by
    rw [Steps.run, bringUpStep, hpoll]
    rfl
  exact ⟨r, _, hon, hrun, rfl, (bringUp_script r hon hrun).1⟩

/-- The controller sends an event of the stack's own: the device is initialised although the
stack is still at its first command, and nobody but the controller said that it works. -/
theorem deviceInit_while_initializing : ∃ r : NodeRun onesEnv, ∃ s,
    switchedOn .idle hciInit .init = some resetSent ∧
    Steps.run (bringUpStep r) ⟨resetSent, []⟩
      [.poll (some ⟨hciEventPacket, eventPacket [0x60, 1, 2]⟩)] = some s ∧
    s.node.stack.state = .initializing ∧
    timesWorking s.node.app.2 = s.received.countP isWorking ∧
    ∃ t ∈ s.node.sent, t.command = .deviceInit ∧ t.result = 0 := by
  obtain ⟨r, hcalls⟩ := exists_onesNodeRun 1
  let packet := eventPacket [0x60, 1, 2]
  let told := recorded (packetHandler r) packet resetNotified
  have hevent : hciPacketHandler (recorded (packetHandler r)) hciEventPacket packet
      resetNotified = some told := by
    rw [hciPacketHandler, if_pos rfl, eventHandler_other (by decide)]
    exact hciRun_noCredit rfl
  have hpoll : h4Poll (recorded (packetHandler r)) (some ⟨hciEventPacket, packet⟩) resetSent =
      some told := by
    rw [h4Poll, notifySent_resetSent]
    exact hevent
  have hrun : Steps.run (bringUpStep r) ⟨resetSent, []⟩
      [.poll (some ⟨hciEventPacket, packet⟩)] = some ⟨told, [packet]⟩ := by
    rw [Steps.run, bringUpStep, hpoll]
    rfl
  refine ⟨r, _, rfl, hrun, rfl, rfl, ?_⟩
  exact ⟨_, List.mem_append_right _ (List.mem_singleton_self _), rfl, rfl⟩

end EbnAnchor.Main
