import EbnAnchor.Main.OnAir

/-!
Polls of a node without connections.

* `poll_bringsUp`: what the stack does on its own sends commands of the script only;
* `poll_vendor`: while the script waits, a vendor event finds the transport idle, so that the
  answer of `main.c` is accepted (`leExtEvent_delivers`).
-/

namespace EbnAnchor.Main

open EbnAnchor.Stack EbnAnchor.Core

/-! ### Accepted commands -/

theorem accepted_append (sent new : List Transmission) :
    accepted (sent ++ new) = accepted sent ++ accepted new := List.filterMap_append

theorem Controller.after_append (commands : List Command) (command : Command) :
    Controller.after (commands ++ [command]) = (Controller.after commands).execute command := by
  rw [Controller.after, List.foldl_append, List.foldl_cons, List.foldl_nil, Controller.after]

/-- Between the two states the transport accepted `new`. -/
def Delivers (s t : Node) (new : List Command) : Prop :=
  ∃ sent, t.sent = s.sent ++ sent ∧ accepted sent = new

namespace Delivers

variable {s t u : Node} {new new' : List Command}

theorem of_sent_eq (h : t.sent = s.sent) : Delivers s t [] :=
  ⟨[], by rw [h, List.append_nil], rfl⟩

theorem trans (h : Delivers s t new) (h' : Delivers t u new') : Delivers s u (new ++ new') := by
  obtain ⟨sent, hsent, rfl⟩ := h
  obtain ⟨sent', hsent', rfl⟩ := h'
  exact ⟨sent ++ sent', by rw [hsent', hsent, List.append_assoc], accepted_append sent sent'⟩

theorem accepted_eq (h : Delivers s t new) : accepted t.sent = accepted s.sent ++ new := by
  obtain ⟨sent, hsent, rfl⟩ := h
  rw [hsent, accepted_append]

theorem drop_eq (h : Delivers s t new) : accepted (t.sent.drop s.sent.length) = new := by
  obtain ⟨sent, hsent, rfl⟩ := h
  rw [hsent, List.drop_left]

/-- An idle transport accepts. -/
theorem sendPacket_idle (issuer : Issuer) (command : Command) (h : s.txState = .idle) :
    Delivers s (sendPacket issuer command s) [command] := by
  refine ⟨_, rfl, ?_⟩
  simp only [accepted, h, List.filterMap_cons, List.filterMap_nil]
  rfl

/-- A busy one does not. -/
theorem sendPacket_busy (issuer : Issuer) (command : Command) (h : s.txState ≠ .idle) :
    Delivers s (sendPacket issuer command s) [] := by
  refine ⟨_, rfl, ?_⟩
  simp only [accepted, h4SendPacket, if_pos h, List.filterMap_cons, List.filterMap_nil]
  rfl

end Delivers

/-! ### A settled stack -/

/-- No connections, nothing to decline, and no transmission half way. -/
structure Settled (s : Node) : Prop where
  quiet : s.stack.Quiet
  tx : s.txState = .idle ∨ s.txState = .done

/-- The transmission is over. -/
def idled (s : Node) : Node := { s with txState := .idle }

/-- A change of the stack that touches no connection. -/
structure Harmless (f : HciStack → HciStack) : Prop where
  connections : ∀ stack, (f stack).connections = stack.connections
  declineReason : ∀ stack, (f stack).declineReason = stack.declineReason
  newScanEnableValue : ∀ stack, (f stack).newScanEnableValue = stack.newScanEnableValue
  state : ∀ stack, (f stack).state = stack.state

namespace Settled

variable {s : Node} (h : Settled s)
include h

theorem idled : Settled (idled s) := ⟨h.quiet, Or.inl rfl⟩

theorem withApp (f : AppState → AppState) : Settled (withApp s f) := ⟨h.quiet, h.tx⟩

theorem withStack {f : HciStack → HciStack} (hf : Harmless f) : Settled (s.withStack f) where
  quiet := {
    connections := (hf.connections _).trans h.quiet.connections
    declineReason := (hf.declineReason _).trans h.quiet.declineReason
    newScanEnableValue := (hf.newScanEnableValue _).trans h.quiet.newScanEnableValue }
  tx := h.tx

theorem sendPacket (issuer : Issuer) (command : Command) :
    Settled (sendPacket issuer command s) := by
  refine ⟨h.quiet, ?_⟩
  rcases h4SendPacket_cases s.txState with ⟨-, heq⟩ | ⟨-, heq⟩
  · exact Or.inr (congrArg Prod.snd heq)
  · rw [Stack.sendPacket, heq]
    exact h.tx

theorem sendCmdPacket (issuer : Issuer) (command : Command) :
    Settled (hciSendCmdPacket issuer command s) := by
  have hsent := h.sendPacket issuer command
  refine ⟨⟨?_, ?_, ?_⟩, hsent.tx⟩
  · cases command
    all_goals simp only [hciSendCmdPacket, withStack_stack, HciStack.noteCommand,
      HciStack.addConnectionFlags, HciStack.updateConnection, hsent.quiet.connections,
      updateFirst]
  · cases command
    all_goals exact hsent.quiet.declineReason
  · cases command
    all_goals exact hsent.quiet.newScanEnableValue

end Settled

theorem hciSendCmdPacket_state (issuer : Issuer) (command : Command) (s : Node) :
    (hciSendCmdPacket issuer command s).stack.state = s.stack.state := by
  cases command
  all_goals rfl

theorem hciSendCmdPacket_substate (issuer : Issuer) (command : Command) (s : Node) :
    (hciSendCmdPacket issuer command s).stack.substate = s.stack.substate := by
  cases command
  all_goals rfl

/-! ### Bring-up -/

def isHci : Command → Bool
  | .deviceInit => false
  | .setParam _ _ => false
  | .configDeviceAddr _ _ => false
  | .updateAdvertisingData _ _ _ => false
  | .makeDiscoverable _ _ _ _ _ => false
  | .endDiscoverable => false
  | .deviceDiscoveryRequest _ _ _ => false
  | _ => true

/-- The commands before the first `gap_config_device_addr`. -/
def isPreliminary : Command → Bool
  | .deviceInit => true
  | .setParam _ _ => true
  | command => isHci command

theorem isPreliminary_of_isHci {command : Command} (h : isHci command = true) :
    isPreliminary command = true := by
  cases command
  all_goals first | rfl | cases h

/-- What the stack does on its own: it sends commands of the script only, and it enters
`HCI_STATE_WORKING` but does not leave it. -/
structure BringsUp (s t : Node) : Prop where
  settled : Settled t
  app : t.app = s.app
  live : s.stack.state ≠ .off → t.stack.state ≠ .off
  delivers : ∃ new, Delivers s t new ∧ (∀ command ∈ new, isPreliminary command = true) ∧
    (t.stack.state = .initializing → s.stack.state = .initializing ∧
      ∀ command ∈ new, isHci command = true)

namespace BringsUp

variable {s t u : Node}

/-- A change that sends nothing. -/
theorem of_sent_eq (hsettled : Settled t) (happ : t.app = s.app)
    (hstate : t.stack.state = s.stack.state) (hsent : t.sent = s.sent) : BringsUp s t where
  settled := hsettled
  app := happ
  live h := by rwa [hstate]
  delivers := ⟨[], .of_sent_eq hsent, fun _ hmem => absurd hmem List.not_mem_nil, fun h =>
    ⟨hstate.symm.trans h, fun _ hmem => absurd hmem List.not_mem_nil⟩⟩

theorem refl (h : Settled s) : BringsUp s s := .of_sent_eq h rfl rfl rfl

theorem trans (h : BringsUp s t) (h' : BringsUp t u) : BringsUp s u := by
  obtain ⟨new, hnew, hprelim, hscript⟩ := h.delivers
  obtain ⟨new', hnew', hprelim', hscript'⟩ := h'.delivers
  refine ⟨h'.settled, h'.app.trans h.app, fun hlive => h'.live (h.live hlive), new ++ new',
    hnew.trans hnew', fun command hmem => ?_, fun hstate => ?_⟩
  · rcases List.mem_append.mp hmem with hmem | hmem
    · exact hprelim command hmem
    · exact hprelim' command hmem
  · obtain ⟨hstate', hhci'⟩ := hscript' hstate
    obtain ⟨hstate'', hhci⟩ := hscript hstate'
    refine ⟨hstate'', fun command hmem => ?_⟩
    rcases List.mem_append.mp hmem with hmem | hmem
    · exact hhci command hmem
    · exact hhci' command hmem

/-- One command of the script, over an idle transport. -/
theorem script (h : Settled s) (hidle : s.txState = .idle)
    (hstate : s.stack.state = .initializing) {command : Command}
    (hhci : isHci command = true) : BringsUp s (hciSendCmd command s) where
  settled := h.sendCmdPacket .hci command
  app := rfl
  live hlive := by rwa [hciSendCmd, hciSendCmdPacket_state]
  delivers := by
    refine ⟨[command], Delivers.sendPacket_idle .hci command hidle, fun c hc => ?_, fun _ =>
      ⟨hstate, fun c hc => ?_⟩⟩
    · cases List.mem_singleton.mp hc
      exact isPreliminary_of_isHci hhci
    · cases List.mem_singleton.mp hc
      exact hhci

theorem withStack (h : Settled s) {f : HciStack → HciStack} (hf : Harmless f) :
    BringsUp s (s.withStack f) := .of_sent_eq (h.withStack hf) rfl (hf.state _) rfl

end BringsUp

section

variable {env : EbnEnv} {r : NodeRun env} {s t : Node}

theorem hciEmitState_working (h : s.stack.state = .working) :
    hciEmitState (packetHandler r) s = hciSendDeviceInt s := by
  unfold hciEmitState
  rw [h]
  rfl

theorem hciEmitDiscoverableEnabled_ignored (enabled : Byte) (s : Node) :
    hciEmitDiscoverableEnabled (packetHandler r) enabled s = s := by
  have hstate : btstackEventDiscoverableEnabled ≠ btstackEventState := by decide
  have hvendor : btstackEventDiscoverableEnabled ≠ hciLeExtEvent := by decide
  exact packetHandler_ignores hstate hvendor s

theorem initScript_bringsUp (h : Settled s) (hidle : s.txState = .idle)
    (hstate : s.stack.state = .initializing)
    (hrun : initScript (packetHandler r) s = some t) : BringsUp s t := by
  unfold initScript at hrun
  split at hrun
  · cases hrun
    have hreset := BringsUp.script h hidle hstate (rfl : isHci .reset = true)
    exact hreset.trans (.withStack hreset.settled ⟨fun _ => rfl, fun _ => rfl, fun _ => rfl,
      fun _ => rfl⟩)
  · cases hrun
  · cases hrun
  · cases hrun
    exact .script h hidle hstate rfl
  · cases hrun
    exact .script h hidle hstate rfl
  · cases hrun
    -- `main.c` answers the state with the device initialisation
    rw [hciEmitState_working rfl]
    have hworking : Settled (s.withStack fun stack => { stack with state := .working }) :=
      ⟨⟨h.quiet.connections, h.quiet.declineReason, h.quiet.newScanEnableValue⟩, h.tx⟩
    exact {
      settled := hworking.sendPacket .deviceInt .deviceInit
      app := rfl
      live := fun _ => nofun
      delivers := ⟨[.deviceInit], Delivers.sendPacket_idle .deviceInt .deviceInit hidle,
        fun c hc => by
          cases List.mem_singleton.mp hc
          rfl,
        nofun⟩ }
  · cases hrun
    exact .refl h

theorem hciRun_bringsUp (h : Settled s) (hrun : hciRun (packetHandler r) s = some t) :
    BringsUp s t := by
  rw [hciRun_quiet h.quiet] at hrun
  unfold whenCanSend at hrun
  split at hrun
  · cases hrun
    exact .refl h
  · next hcan =>
    have hidle := ((hciCanSendPacketNow_ne_zero_iff s).mp hcan).1
    unfold runState at hrun
    split at hrun
    · next hstate =>
      split at hrun
      · cases hrun
        exact .refl h
      · obtain ⟨u, hu, rfl⟩ := Option.map_eq_some_iff.mp hrun
        have hscript := initScript_bringsUp h hidle hstate hu
        exact hscript.trans (.withStack hscript.settled ⟨fun _ => rfl, fun _ => rfl,
          fun _ => rfl, fun _ => rfl⟩)
    · cases hrun
      exact .refl h

/-- The script waits for a completed command, or is through. -/
def Waits (s : Node) : Prop :=
  s.stack.state = .initializing → s.stack.substate.toNat % 2 = 1

theorem Waits.of_working (h : s.stack.state = .working) : Waits s := fun hinit => by
  rw [h] at hinit
  cases hinit

theorem Waits.hciRun (hwaits : Waits s) (h : Settled s) :
    hciRun (packetHandler r) s = some s := hciRun_waits h.quiet hwaits

/-! ### Polls -/

theorem notifySent_eq (h : Settled s) : notifySent (packetHandler r) s =
    if s.txState = .done then hciRun (packetHandler r) (idled s) else some (idled s) := by
  unfold notifySent
  split
  · rw [hciPacketHandler, if_pos rfl, eventHandler_other (by decide),
      packetHandler_ignores (by decide) (by decide)]
    rfl
  · next hdone =>
    rw [idled, ← h.tx.resolve_right hdone]

theorem notifySent_bringsUp (h : Settled s) (hsent : notifySent (packetHandler r) s = some t) :
    BringsUp s t := by
  have hidled : BringsUp s (idled s) := .of_sent_eq h.idled rfl rfl rfl
  rw [notifySent_eq h] at hsent
  split at hsent
  · exact hidled.trans (hciRun_bringsUp h.idled hsent)
  · cases hsent
    exact hidled

theorem notifySent_waits (h : Settled s) (hwaits : Waits s) :
    notifySent (packetHandler r) s = some (idled s) := by
  have hidled : Waits (idled s) := hwaits
  rw [notifySent_eq h, hidled.hciRun h.idled, ite_self]

/-- A completed command changes counters and sizes, and may move the script on. -/
theorem commandComplete_eq (packet : Packet) (s : Node) : ∃ f, Harmless f ∧
    commandComplete (packetHandler r) packet s = s.withStack f := by
  unfold commandComplete
  simp only
  split
  · refine ⟨fun stack => noteBufferSize packet { stack with numCmdPackets := packet 2 },
      ⟨?_, ?_, ?_, ?_⟩, rfl⟩
    all_goals
      intro stack
      simp only [noteBufferSize]
      split
      all_goals rfl
  · split
    · refine ⟨fun stack => { stack with numCmdPackets := packet 2 }, ⟨fun _ => rfl, fun _ => rfl,
        fun _ => rfl, fun _ => rfl⟩, ?_⟩
      exact hciEmitDiscoverableEnabled_ignored _ _
    · split
      · exact ⟨fun stack => { stack with
          numCmdPackets := packet 2
          localSupportedFeatures := Vector.ofFn fun i => packet (5 + i) },
          ⟨fun _ => rfl, fun _ => rfl, fun _ => rfl, fun _ => rfl⟩, rfl⟩
      · exact ⟨fun stack => { stack with numCmdPackets := packet 2 },
          ⟨fun _ => rfl, fun _ => rfl, fun _ => rfl, fun _ => rfl⟩, rfl⟩

theorem noteInitEvent_harmless (packet : Packet) : Harmless (noteInitEvent packet) := by
  constructor
  all_goals
    intro stack
    unfold noteInitEvent
    split
    all_goals rfl

theorem commandComplete_bringsUp (h : Settled s) {packet : Packet}
    (hcode : packet 0 = hciEventCommandComplete)
    (hevent : eventHandler (packetHandler r) packet s = some t) : BringsUp s t := by
  obtain ⟨f, hf, heq⟩ := commandComplete_eq (r := r) packet s
  rw [eventHandler_commandComplete hcode, heq, forwardEvent,
    packetHandler_ignores (by rw [hcode]; decide) (by rw [hcode]; decide)] at hevent
  have hcomplete := BringsUp.withStack h hf
  have hnoted := BringsUp.withStack hcomplete.settled (noteInitEvent_harmless packet)
  exact (hcomplete.trans hnoted).trans (hciRun_bringsUp hnoted.settled hevent)

/-- A poll without a packet, with a completed command, or with an event `main.c` ignores. -/
theorem poll_bringsUp (h : Settled s) {received : Option Received}
    (hreceived : ∀ packet, received = some packet → packet.packetType = hciEventPacket ∧
      (packet.packet 0 = hciEventCommandComplete ∨
        (packet.packet 0 = hciLeExtEvent ∧
          leBranch s.app.paramState packet.packet = .ignored)))
    (hstep : nodeStep r s (.poll received) = some t) : BringsUp s t := by
  obtain ⟨u, hsent, hrest⟩ := Option.bind_eq_some_iff.mp hstep
  have hu := notifySent_bringsUp h hsent
  cases received with
  | none =>
    cases hrest
    exact hu
  | some packet =>
    have hrest : hciPacketHandler (packetHandler r) packet.packetType packet.packet u =
      some t := hrest
    obtain ⟨htype, hcode | ⟨hcode, hignored⟩⟩ := hreceived packet rfl
    · rw [hciPacketHandler, if_pos htype] at hrest
      exact hu.trans (commandComplete_bringsUp hu.settled hcode hrest)
    · have hother : packet.packet 0 ∉ stackEvents := by
        rw [hcode]
        decide
      rw [hciPacketHandler, if_pos htype, eventHandler_other hother, packetHandler_vendor hcode,
        hu.app, hignored] at hrest
      exact hu.trans (hciRun_bringsUp hu.settled hrest)

theorem leExtEvent_settled (h : Settled s) (branch : LeBranch) (packet : Packet) :
    Settled (leExtEvent r branch packet s) := by
  rw [leExtEvent_eq]
  cases branch.command r (blankAddr r s) s.app with
  | none => exact h.withApp _
  | some command => exact (h.sendCmdPacket .gap command).withApp _

theorem leExtEvent_state (branch : LeBranch) (packet : Packet) (s : Node) :
    (leExtEvent r branch packet s).stack.state = s.stack.state := by
  rw [leExtEvent_eq]
  cases branch.command r (blankAddr r s) s.app with
  | none => rfl
  | some command => exact hciSendCmdPacket_state .gap command s

theorem leExtEvent_ticks (branch : LeBranch) (packet : Packet) (s : Node) :
    (leExtEvent r branch packet s).app.ticks = s.app.ticks := by
  rw [leExtEvent_app]
  cases branch with
  | _ => rfl

/-- The answer over an idle transport is accepted. -/
theorem leExtEvent_delivers (hidle : s.txState = .idle) (branch : LeBranch)
    (packet : Packet) :
    Delivers s (leExtEvent r branch packet s) (branch.command r (blankAddr r s) s.app).toList := by
  rw [leExtEvent_eq]
  cases branch.command r (blankAddr r s) s.app with
  | none => exact .of_sent_eq rfl
  | some command => exact Delivers.sendPacket_idle .gap command hidle

theorem leExtEvent_substate (branch : LeBranch) (packet : Packet) (s : Node) :
    (leExtEvent r branch packet s).stack.substate = s.stack.substate := by
  rw [leExtEvent_eq]
  cases branch.command r (blankAddr r s) s.app with
  | none => rfl
  | some command => exact hciSendCmdPacket_substate .gap command s

theorem leExtEvent_waits (hwaits : Waits s) (branch : LeBranch) (packet : Packet) :
    Waits (leExtEvent r branch packet s) := by
  intro hinit
  rw [leExtEvent_state] at hinit
  rw [leExtEvent_substate]
  exact hwaits hinit

/-- While the script waits, a vendor event finds the transport idle. -/
theorem poll_vendor (h : Settled s) (hwaits : Waits s) {packet : Packet}
    (hcode : packet 0 = hciLeExtEvent) :
    nodeStep r s (.poll (some ⟨hciEventPacket, packet⟩)) =
      some (leExtEvent r (leBranch s.app.paramState packet) packet (idled s)) := by
  have hother : packet 0 ∉ stackEvents := by
    rw [hcode]
    decide
  have hidled : Waits (idled s) := hwaits
  rw [nodeStep, h4Poll, notifySent_waits h hwaits, Option.bind_some]
  have hrun := (leExtEvent_waits (r := r) hidled (leBranch s.app.paramState packet) packet).hciRun
    (r := r) (leExtEvent_settled h.idled _ _)
  have hevent : hciPacketHandler (packetHandler r) hciEventPacket packet (idled s) =
      some (leExtEvent r (leBranch s.app.paramState packet) packet (idled s)) := by
    rw [hciPacketHandler, if_pos rfl, eventHandler_other hother, packetHandler_vendor hcode]
    exact hrun
  exact hevent

end

/-! ### After power-on -/

theorem poweredOn_settled : Settled poweredOn := ⟨⟨rfl, rfl, rfl⟩, Or.inr rfl⟩

theorem poweredOn_substate : poweredOn.stack.substate = 5 := rfl

/-- The events of the two updates. -/
def advertUpdated : Packet := eventPacket [0xFF, 4, 0x02, 0x06, 0, 0x01]
def scanResponseUpdated : Packet := eventPacket [0xFF, 4, 0x02, 0x06, 0, 0x00]

end EbnAnchor.Main
