import EbnAnchor.Main.Firmware

/-!
What becomes of the epochs when `hci.c` makes a connection anew whose timer is still in the list.

* `epoch_timer_cut_off`: `EBN_Increment_Time` is not called again;
* `exists_epoch_timer_cut_off`: a few events of the controller are enough.
-/

namespace EbnAnchor.Main

open EbnAnchor.Stack EbnAnchor.Core

section

variable {env : EbnEnv} {r : NodeRun env} {beforeScan beforeEpoch : Nat} {s₀ s s' : Firmware}
  {actions actions' : List (LoopAction (Option Received))}

/-- When a connection is made anew while its timer is in the list before the epoch timer,
`EBN_Increment_Time` is not called again. -/
theorem epoch_timer_cut_off {before behind : List TimerSource} {received : Option Received}
    {client : Node} (hboot : boot r beforeScan beforeEpoch = some s₀)
    (hrun : Steps.run (loopStep (firmware r)) s₀ actions = some s)
    (hlisted : Listed (before ++ .connection :: behind) s.loop) (hepoch : .epoch ∈ behind)
    (hclear : h4Process r s.client received = some (client, .clear .connection))
    (hrun' : Steps.run (loopStep (firmware r)) s (.work received :: actions') = some s') :
    s'.client.app.ticks = s.client.app.ticks := by
  have hs := (FirmwareInv.of_booted (Booted.of_boot hboot)).run hrun
  obtain ⟨t, hstep, hrest⟩ := Steps.run_cons hrun'
  have hcleared : loopStep (firmware r) s (.work received) = some { s with
      loop := { s.loop with timers := linkedItemSetUser .connection s.loop.timers }
      client := client } := by
    have hwork : (firmware r).work s.client received = some (client, .clear .connection) := hclear
    rw [loopStep, hwork]
    rfl
  obtain rfl := Option.some.inj (hstep.symm.trans hcleared)
  have hsame := fired_of_not_reaches (firmware_neverStarts (by decide))
    (hlisted.clear_not_reaches hepoch) hrest
  rw [(hs.run hrun').counts, hs.counts]
  exact hsame

/-! ### A run that gets there -/

/-- No command can be sent, and the connections are these. -/
structure Waiting (connections : List HciConnection) (s : Node) : Prop where
  done : s.txState ≠ .done
  credit : s.stack.numCmdPackets = 0
  connections : s.stack.connections = connections

theorem hciRun_waiting {s : Node} (hcredit : s.stack.numCmdPackets = 0) :
    hciRun (packetHandler r) s = some s := by
  have hcan : hciCanSendPacketNow s = 0 := by
    rw [hciCanSendPacketNow, hcredit, ite_self]
  rw [hciRun, whenCanSend, if_pos hcan]

theorem hciEmitNrConnectionsChanged_eq (s : Node) :
    hciEmitNrConnectionsChanged (packetHandler r) s = s := by
  have hcode : btstackEventNrConnectionsChanged ≠ btstackEventState ∧
      btstackEventNrConnectionsChanged ≠ hciLeExtEvent := by decide
  exact packetHandler_ignores hcode.1 hcode.2 s

/-- Then `hci_run` has nothing to add to an event that `packet_handler` leaves alone. -/
theorem eventHandler_waiting {packet : Packet} {s t : Node}
    (hcode : packet 0 ∉ [btstackEventState, hciLeExtEvent, hciEventCommandComplete,
      hciEventLinkKeyRequest])
    (hcredit : t.stack.numCmdPackets = 0)
    (hswitch : eventSwitch (packetHandler r) packet s = some t) :
    eventHandler (packetHandler r) packet s = some t := by
  simp only [List.mem_cons, List.not_mem_nil, or_false, not_or] at hcode
  obtain ⟨hstate, hvendor, hcomplete, hkey⟩ := hcode
  have hnote : t.withStack (noteInitEvent packet) = t := by
    rw [HciSys.withStack, noteInitEvent, if_neg (fun h => hcomplete h.2.2)]
  rw [eventHandler, if_neg hkey, hswitch, Option.bind_some, forwardEvent, hnote,
    packetHandler_ignores hstate hvendor, hciRun_waiting hcredit]

theorem h4Process_waiting {packet : Packet} {s t : Node}
    (hcode : packet 0 ∉ [btstackEventState, hciLeExtEvent, hciEventCommandComplete,
      hciEventLinkKeyRequest])
    (hdone : s.txState ≠ .done) (hcredit : t.stack.numCmdPackets = 0)
    (hswitch : eventSwitch (packetHandler r) packet s = some t) :
    h4Process r s (some ⟨hciEventPacket, packet⟩) =
      some (t, connectionTimer ⟨hciEventPacket, packet⟩ s) := by
  rw [h4Process, notifySent, if_neg hdone, Option.bind_some]
  simp only [hciPacketHandler, if_true, eventHandler_waiting hcode hcredit hswitch,
    Option.map_some]

/-- The reset is sent, and its completion outstanding. -/
theorem poweredOn_waiting : ∃ t, h4Process r poweredOn none = some (t, .keep) ∧ Waiting [] t := by
  let t : Node := { poweredOn with txState := .idle }
  have hevent : eventHandler (packetHandler r) (eventPacket [daemonEventHciPacketSent]) t =
      some t := eventHandler_waiting (by decide) rfl rfl
  refine ⟨t, ?_, by decide, rfl, rfl⟩
  rw [h4Process, notifySent, if_pos (by decide), hciPacketHandler, if_pos rfl, hevent]
  rfl

def connectionRequestPacket : Packet :=
  eventPacket [hciEventConnectionRequest, 10, 0, 0, 0, 0, 0, 0, 0, 0, 0, 1]

/-- For another address than the request, which is what `BD_ADDR_CMP` finds. -/
def connectionCompletePacket (status : Byte) : Packet :=
  eventPacket [hciEventConnectionComplete, 11, status, 0, 0, 1, 0, 0, 0, 0, 0, 1, 0]

def requestedConnection : HciConnection :=
  .created (btFlipAddr connectionRequestPacket 2) .receivedConnectionRequest

def openedConnection : HciConnection :=
  { requestedConnection with state := .opened, conHandle := 0 }

namespace Waiting

variable {t : Node}

theorem request (h : Waiting [] t) : ∃ t',
    h4Process r t (some ⟨hciEventPacket, connectionRequestPacket⟩) =
      some (t', .clear .connection) ∧ Waiting [requestedConnection] t' := by
  have htimer : connectionTimer ⟨hciEventPacket, connectionRequestPacket⟩ t =
      .clear .connection := by
    rw [connectionTimer, h.connections]
    rfl
  have hroom : t.stack.createConnectionForAddr (btFlipAddr connectionRequestPacket 2)
      .receivedConnectionRequest =
        some { t.stack with connections := [requestedConnection] } := by
    rw [HciStack.createConnectionForAddr, h.connections]
    rfl
  let t' : Node := t.withStack fun _ => { t.stack with connections := [requestedConnection] }
  have hrequest : connectionRequest (packetHandler r) connectionRequestPacket t = some t' := by
    simp only [connectionRequest, h.connections, connectionForAddress, firstMatch, hroom]
    exact (if_pos rfl).trans (hciRun_waiting h.credit)
  have hswitch : eventSwitch (packetHandler r) connectionRequestPacket t = some t' := by
    rw [eventSwitch, if_neg (by decide), if_neg (by decide), if_neg (by decide),
      if_pos (by decide)]
    exact hrequest
  refine ⟨t', ?_, h.done, h.credit, rfl⟩
  rw [h4Process_waiting (t := t') (by decide) h.done h.credit hswitch, htimer]

theorem complete (h : Waiting [requestedConnection] t) : ∃ t',
    h4Process r t (some ⟨hciEventPacket, connectionCompletePacket 0⟩) =
      some (t', .start .connection) ∧ Waiting [openedConnection] t' := by
  have htimer : connectionTimer ⟨hciEventPacket, connectionCompletePacket 0⟩ t =
      .start .connection := by
    rw [connectionTimer, h.connections]
    rfl
  let t' : Node := t.withStack fun _ => { t.stack with connections := [openedConnection] }
  have hcomplete : connectionComplete (packetHandler r) (connectionCompletePacket 0) t = t' := by
    have hfound : connectionForAddress t.stack.connections
        (btFlipAddr (connectionCompletePacket 0) 5) = some requestedConnection := by
      rw [h.connections]
      rfl
    have hopened : updateFirst (hasAddress (btFlipAddr (connectionCompletePacket 0) 5))
        (fun conn => { conn with
          state := .opened, conHandle := readBt16 (connectionCompletePacket 0) 3 })
        t.stack.connections = [openedConnection] := by
      rw [h.connections]
      rfl
    simp only [connectionComplete, hfound]
    rw [if_pos (by decide), hciEmitNrConnectionsChanged_eq]
    simp only [HciStack.updateConnection, HciSys.withStack, hopened, t']
  have hswitch : eventSwitch (packetHandler r) (connectionCompletePacket 0) t = some t' := by
    rw [eventSwitch, if_neg (by decide), if_neg (by decide), if_neg (by decide),
      if_neg (by decide), if_pos (by decide), hcomplete]
  refine ⟨t', ?_, h.done, h.credit, rfl⟩
  rw [h4Process_waiting (t := t') (by decide) h.done h.credit hswitch, htimer]

theorem failed (h : Waiting [openedConnection] t) : ∃ t',
    h4Process r t (some ⟨hciEventPacket, connectionCompletePacket 1⟩) =
      some (t', .keep) ∧ Waiting [] t' := by
  have htimer : connectionTimer ⟨hciEventPacket, connectionCompletePacket 1⟩ t = .keep := by
    rw [connectionTimer, h.connections]
    rfl
  let t' : Node := t.withStack fun _ => { t.stack with connections := [] }
  have hcomplete : connectionComplete (packetHandler r) (connectionCompletePacket 1) t = t' := by
    have hfound : connectionForAddress t.stack.connections
        (btFlipAddr (connectionCompletePacket 1) 5) = some openedConnection := by
      rw [h.connections]
      rfl
    have hremoved : t.stack.connections.eraseP
        (hasAddress (btFlipAddr (connectionCompletePacket 1) 5)) = [] := by
      rw [h.connections]
      rfl
    simp only [connectionComplete, hfound]
    rw [if_neg (by decide)]
    simp only [HciStack.removeConnection, HciSys.withStack, hremoved, t']
    rw [if_neg (by decide)]
  have hswitch : eventSwitch (packetHandler r) (connectionCompletePacket 1) t = some t' := by
    rw [eventSwitch, if_neg (by decide), if_neg (by decide), if_neg (by decide),
      if_neg (by decide), if_pos (by decide), hcomplete]
  refine ⟨t', ?_, h.done, h.credit, rfl⟩
  rw [h4Process_waiting (t := t') (by decide) h.done h.credit hswitch, htimer]

end Waiting

theorem loopStep_work {received : Option Received} {client : Node}
    {change : TimerChange TimerSource} {loop : RunLoop TimerSource}
    (hwork : h4Process r s.client received = some (client, change))
    (hchange : changeTimers (firmware r) s.loop change = some loop) :
    loopStep (firmware r) s (.work received) = some { s with loop := loop, client := client } := by
  have hfirmware : (firmware r).work s.client received = some (client, change) := hwork
  rw [loopStep, hfirmware, Option.bind_some, hchange, Option.map_some]

/-- A connection that is completed and then fails leaves its timer in the list, before the epoch
timer. -/
theorem exists_connection_queued (r : NodeRun env) : ∃ s₀ actions s before behind,
    boot r 0 0 = some s₀ ∧ Steps.run (loopStep (firmware r)) s₀ actions = some s ∧
      Listed (before ++ .connection :: behind) s.loop ∧ .epoch ∈ behind ∧
      Waiting [] s.client := by
  obtain ⟨s₀, hboot, hbooted⟩ := boot_returns (r := r) 0 0
  obtain ⟨timers, hlisted, hmem⟩ := hbooted.listed
  have hnew : TimerSource.connection ∉ timers := by
    rw [hmem]
    decide
  obtain ⟨t₁, hsent, hwaiting₁⟩ := poweredOn_waiting (r := r)
  obtain ⟨t₂, hrequest, hwaiting₂⟩ := hwaiting₁.request (r := r)
  obtain ⟨t₃, hcomplete, hwaiting₃⟩ := hwaiting₂.complete (r := r)
  obtain ⟨t₄, hfailed, hwaiting₄⟩ := hwaiting₃.failed (r := r)
  obtain ⟨loop, timers', hstart, hlisted', hperm⟩ := (hlisted.clear hnew).start
    (p := firmware r) _ hnew
  rw [← hbooted.client] at hsent
  have hrun := Steps.run_of_step (loopStep_work hsent rfl)
    (Steps.run_of_step (loopStep_work hrequest rfl)
      (Steps.run_of_step (loopStep_work hcomplete hstart)
        (Steps.run_of_step (loopStep_work hfailed rfl) (Steps.run_nil _))))
  have hconnection : TimerSource.connection ∈ timers' := hperm.mem_iff.mpr List.mem_cons_self
  have hepoch : TimerSource.epoch ∈ timers' :=
    hperm.mem_iff.mpr (List.mem_cons_of_mem _ ((hmem .epoch).mpr (Or.inl rfl)))
  obtain ⟨before, behind, rfl⟩ := List.append_of_mem hconnection
  refine ⟨s₀, _, _, before, behind, hboot, hrun, hlisted', ?_, hwaiting₄⟩
  rcases List.mem_append.mp hepoch with hbefore | hrest
  · -- the connection timer is set to an earlier tick than the epoch timer
    have hle := (List.pairwise_append.mp hlisted'.sorted).2.2 _ hbefore _ List.mem_cons_self
    have hticks : s₀.loop.systemTicks = 0 := by
      rw [hbooted.clocked.ticks, hbooted.elapsed]
      rfl
    obtain ⟨it, rfl⟩ := startTimer_eq hstart
    have hother : TimerSource.epoch ≠ .connection := by decide
    simp only [Function.update_self, Function.update_of_ne hother, hbooted.epoch, hticks] at hle
    have hwaits : (0 + waitTicks epochIntv).toNat ≤ (0 + waitTicks hciConnectionTimeoutMs).toNat :=
      hle
    exact absurd hwaits (by decide)
  · exact (List.mem_cons.mp hrest).resolve_left (by decide)

/-- A request is then enough to stop the epochs for good. -/
theorem exists_epoch_timer_cut_off (r : NodeRun env) : ∃ s₀ actions s,
    boot r 0 0 = some s₀ ∧ Steps.run (loopStep (firmware r)) s₀ actions = some s ∧
      ∀ actions' s', Steps.run (loopStep (firmware r)) s actions' = some s' →
        s'.client.app.ticks = s.client.app.ticks := by
  obtain ⟨s₀, actions, s, before, behind, hboot, hrun, hlisted, hepoch, hwaiting⟩ :=
    exists_connection_queued r
  obtain ⟨client, hrequest, -⟩ := hwaiting.request (r := r)
  have hstep := loopStep_work (s := s) hrequest rfl
  have hcut : ∀ actions' s', Steps.run (loopStep (firmware r)) s
      (.work (some ⟨hciEventPacket, connectionRequestPacket⟩) :: actions') = some s' →
        s'.client.app.ticks = s.client.app.ticks := fun actions' s' hrun' =>
    epoch_timer_cut_off hboot hrun hlisted hepoch hrequest hrun'
  have hlast := Steps.run_of_step hstep (Steps.run_nil _)
  refine ⟨s₀, _, _, hboot, (Steps.run_append hrun _).trans hlast, ?_⟩
  intro actions' s' hrun'
  rw [hcut actions' s' (Steps.run_of_step hstep hrun')]
  exact (hcut [] _ hlast).symm

end

end EbnAnchor.Main
