import EbnAnchor.Main.AppSteps

/-!
Flow control of the commands `main.c` sends.

`scan_handler` asks `hci_can_send_packet_now` first. `epoch_change_handler` and
`packet_handler` do not, and a command they send is right only when the transport happens to
be idle with a credit left (`commands_controlled_iff`). The firmware starts with the
transport busy and no credit (`epochTimer_after_powerOn`).
-/

namespace EbnAnchor.Main

open EbnAnchor.Stack EbnAnchor.Core

/-- `packet_handler` answers in this branch with a command. -/
def LeBranch.Answers (broadcasting : Byte) : LeBranch → Prop
  | .scanResponseUpdate => broadcasting = 0
  | .makeDiscoverable => False
  | .deviceDiscoveryDone => False
  | .ignored => False
  | _ => True

section

variable {env : EbnEnv} (r : NodeRun env)

/-- When the commands of `main.c` in a step find the stack ready. -/
def FlowSafe (s : Node) : NodeAction → Prop
  | .scanTimer => True
  | .epochTimer =>
    hciCanSendPacketNow s ≠ 0 ∧ ¬ (EndsEpoch r s.app ∧ s.app.state ≠ 0)
  | .poll none => True
  | .poll (some received) =>
    received.packetType = hciEventPacket → received.packet 0 = hciLeExtEvent →
      (leBranch s.app.paramState received.packet).Answers s.app.broadcasting →
      s.stack.numCmdPackets ≠ 0 ∧
        (s.txState = .idle ∨ (s.txState = .done ∧ ¬ s.stack.Pending))

variable {r} {s s' : Node}

/-! ### The packet handler -/

theorem command_ne_none_iff (branch : LeBranch) (blank : BdAddr) (app : AppState) :
    branch.command r blank app ≠ none ↔ branch.Answers app.broadcasting := by
  cases branch with
  | scanResponseUpdate | makeDiscoverable | deviceDiscoveryDone | ignored | deviceInitDone
    | setParam1 | setParam2 | setParam3 | configDeviceAddr | advertisementUpdate
    | endDiscoverable => simp [LeBranch.command, LeBranch.Answers]

theorem leExtEvent_controlled_iff (branch : LeBranch) (packet : Packet) (s : Node) :
    Controlled (leExtEvent r branch packet s) ↔
      Controlled s ∧ (branch.Answers s.app.broadcasting → hciCanSendPacketNow s ≠ 0) := by
  rw [leExtEvent_eq, ← command_ne_none_iff (r := r) branch (blankAddr r s)]
  cases branch.command r (blankAddr r s) s.app with
  | none => exact (and_iff_left fun h => absurd rfl h).symm
  | some command =>
    refine (controlled_gapSendCmd_iff command s).trans (and_congr_right fun _ => ?_)
    exact (imp_iff_right (Option.some_ne_none command)).symm

/-! ### The timers -/

theorem scanHandler_controlled_iff (s : Node) : Controlled (scanHandler s) ↔ Controlled s := by
  unfold scanHandler
  split
  · next h =>
    refine (controlled_gapSendCmd_iff _ s).trans ?_
    exact and_iff_left h.1
  · exact Iff.rfl

theorem epochChangeHandler_controlled_iff {s : Node} (hticks : s.app.ticks < r.calls) :
    Controlled (epochChangeHandler r s) ↔ Controlled s ∧ hciCanSendPacketNow s ≠ 0 ∧
      ¬ (EndsEpoch r s.app ∧ s.app.state ≠ 0) := by
  rcases epochChangeHandler_cases hticks with ⟨hends, hstate, heq⟩ | ⟨hnot, heq⟩
  · -- the second command always finds the transport busy
    rw [heq, controlled_gapSendCmd_iff]
    refine iff_of_false (fun hall => hall.2 (hciCanSendPacketNow_busy ?_))
      (fun hall => hall.2.2 ⟨hends, hstate⟩)
    exact hciSendCmdPacket_txState .gap .endDiscoverable (tick s)
  · rw [heq, controlled_gapSendCmd_iff]
    exact and_congr_right fun _ => (and_iff_left hnot).symm

/-! ### Polls -/

/-- What the packet handler finds after the notification of a packet sent. -/
theorem notifySent_canSend_iff (h : notifySent (packetHandler r) s = some s') :
    hciCanSendPacketNow s' ≠ 0 ↔ s.stack.numCmdPackets ≠ 0 ∧
      (s.txState = .idle ∨ (s.txState = .done ∧ ¬ s.stack.Pending)) := by
  unfold notifySent at h
  split at h
  · next hdone =>
    -- the event is neither for the stack nor for the application
    rw [hciPacketHandler, if_pos rfl, eventHandler_other (by decide)] at h
    have hrun : hciRun (packetHandler r) { s with txState := .idle } = some s' := h
    by_cases hcredit : s.stack.numCmdPackets = 0
    · have hcan : hciCanSendPacketNow { s with txState := .idle } = 0 := hcredit
      rw [hciRun, whenCanSend, if_pos hcan] at hrun
      cases hrun
      exact iff_of_false (not_not.mpr hcan) fun hall => hall.1 hcredit
    · have hcan : hciCanSendPacketNow { s with txState := .idle } ≠ 0 := hcredit
      rw [hciRun_canSend_iff packetHandler_starts hcan hrun, hdone]
      constructor
      · intro hidle
        exact ⟨hcredit, Or.inr ⟨rfl, hidle⟩⟩
      · rintro ⟨-, hidle | ⟨-, hidle⟩⟩
        · cases hidle
        · exact hidle
  · next hdone =>
    cases h
    rw [hciCanSendPacketNow_ne_zero_iff]
    tauto

theorem hciPacketHandler_controlled_iff {received : Received}
    (h : hciPacketHandler (packetHandler r) received.packetType received.packet s = some s') :
    Controlled s' ↔ Controlled s ∧ (received.packetType = hciEventPacket →
      received.packet 0 = hciLeExtEvent →
      (leBranch s.app.paramState received.packet).Answers s.app.broadcasting →
      hciCanSendPacketNow s ≠ 0) := by
  have hrule := (guarded_stable (packetHandler_quiet (r := r))).rule
  by_cases hvendor : received.packetType = hciEventPacket ∧ received.packet 0 = hciLeExtEvent
  · obtain ⟨htype, hcode⟩ := hvendor
    have hother : received.packet 0 ∉ stackEvents := by
      rw [hcode]
      decide
    rw [hciPacketHandler, if_pos htype, eventHandler_other hother,
      packetHandler_vendor hcode] at h
    rw [(hrule.hciRun h).controlled_iff, leExtEvent_controlled_iff]
    exact and_congr_right fun _ => ⟨fun hall _ _ => hall, fun hall => hall htype hcode⟩
  · have hguarded := hrule.hciPacketHandler
      (fun htype hcode => hvendor ⟨htype, hcode⟩) h
    rw [hguarded.controlled_iff]
    exact (and_iff_left fun htype hcode => absurd ⟨htype, hcode⟩ hvendor).symm

/-! ### Runs -/

/-- In one step the commands keep to the rules exactly when the step is safe. -/
theorem nodeStep_controlled_iff (s : Node) (action : NodeAction) (s' : Node)
    (h : nodeStep r s action = some s') :
    Controlled s' ↔ Controlled s ∧ FlowSafe r s action := by
  have hrule := (guarded_stable (packetHandler_quiet (r := r))).rule
  cases action with
  | scanTimer =>
    cases h
    rw [scanHandler_controlled_iff]
    exact (and_iff_left trivial).symm
  | epochTimer =>
    obtain ⟨hticks, rfl⟩ := nodeStep_epochTimer h
    exact epochChangeHandler_controlled_iff hticks
  | poll received =>
    obtain ⟨t, hsent, hrest⟩ := Option.bind_eq_some_iff.mp h
    have ht := (hrule.notifySent (by decide) hsent).controlled_iff
    cases received with
    | none =>
      cases hrest
      rw [ht]
      exact (and_iff_left trivial).symm
    | some received =>
      have happ : t.app = s.app := app_stable.rule.notifySent (by decide) hsent
      rw [hciPacketHandler_controlled_iff hrest, ht, happ, notifySent_canSend_iff hsent]
      exact Iff.rfl

theorem poweredOn_controlled : Controlled poweredOn := by
  intro t ht
  have hsent : poweredOn.sent = [⟨.hci, .reset, 1, 1, 0⟩] := rfl
  rw [hsent] at ht
  cases List.mem_singleton.mp ht
  exact ⟨nofun, nofun, fun _ => by decide⟩

end

/-- In a run from power-on, every `gap_send_cmd` is issued while the stack can send and is
accepted, and no command is sent at zero credit, exactly when every step is safe. -/
theorem commands_controlled_iff {env : EbnEnv} (r : NodeRun env) {actions : List NodeAction}
    {s : Node} (h : Steps.run (nodeStep r) poweredOn actions = some s) :
    (∀ t ∈ s.sent, (t.issuer = .gap → t.canSend ≠ 0 ∧ t.result ≠ -1) ∧
      (t.issuer ≠ .deviceInt → t.credit ≠ 0)) ↔
    Steps.Meets (nodeStep r) (FlowSafe r) poweredOn actions := by
  have hrun := Steps.run_iff_meets nodeStep_controlled_iff h
  rw [and_iff_right poweredOn_controlled] at hrun
  rw [← hrun]
  constructor
  · intro hall t ht
    obtain ⟨hgap, hcredit⟩ := hall t ht
    exact ⟨fun h => (hgap h).1, fun h => (hgap h).2, hcredit⟩
  · intro hall t ht
    obtain ⟨hcan, haccepted, hcredit⟩ := hall t ht
    exact ⟨fun h => ⟨hcan h, haccepted h⟩, hcredit⟩

/-- A command status event hands out a credit, and an epoch timer finds it. -/
theorem commands_controlled_one_credit :
    ∃ r : NodeRun onesEnv, ∃ s, Steps.run (nodeStep r) poweredOn
      [.poll (some ⟨hciEventPacket, eventPacket [0x0F, 4, 0, 1, 0, 0]⟩), .epochTimer] = some s ∧
      ∀ t ∈ s.sent, (t.issuer = .gap → t.canSend ≠ 0 ∧ t.result ≠ -1) ∧
        (t.issuer ≠ .deviceInt → t.credit ≠ 0) := by
  obtain ⟨r, hcalls⟩ := exists_onesNodeRun 1
  let idle : Node := { poweredOn with txState := .idle }
  let credited : Node := idle.withStack fun stack => { stack with numCmdPackets := 1 }
  have hsent : notifySent (packetHandler r) poweredOn = some idle := rfl
  have hevent : hciPacketHandler (packetHandler r) hciEventPacket
      (eventPacket [0x0F, 4, 0, 1, 0, 0]) idle = some credited := by
    rw [hciPacketHandler, if_pos rfl, eventHandler_commandStatus rfl,
      packetHandler_ignores (by decide) (by decide)]
    have hodd : poweredOn.stack.substate.toNat % 2 = 1 := by decide
    exact hciRun_waits ⟨rfl, rfl, rfl⟩ fun _ => hodd
  have hpoll : nodeStep r poweredOn
      (.poll (some ⟨hciEventPacket, eventPacket [0x0F, 4, 0, 1, 0, 0]⟩)) = some credited := by
    rw [nodeStep, h4Poll, hsent]
    exact hevent
  have hticks : credited.app.ticks < r.calls := by
    rw [hcalls]
    exact one_pos
  have htimer := nodeStep_epochTimer_eq hticks
  have hrun : Steps.run (nodeStep r) poweredOn
      [.poll (some ⟨hciEventPacket, eventPacket [0x0F, 4, 0, 1, 0, 0]⟩), .epochTimer] =
        some (epochChangeHandler r credited) := by
    rw [Steps.run, hpoll, Option.bind_some, Steps.run, htimer, Option.bind_some, Steps.run]
  refine ⟨r, _, hrun, (commands_controlled_iff r hrun).mpr ?_⟩
  refine .cons hpoll (fun _ hcode => absurd hcode (by decide)) (.cons htimer ⟨?_, ?_⟩ trivial)
  · exact fun hcan => absurd (hcan : (1 : Byte) = 0) (by decide)
  · exact fun hends => hends.2 rfl

/-- The epoch timer fires before the first poll: the transport is busy with the reset, whose
credit is not back. The advert is lost, and the counter wraps. -/
theorem epochTimer_after_powerOn :
    ∃ r : NodeRun onesEnv, ∃ s, Steps.run (nodeStep r) poweredOn [.epochTimer] = some s ∧
      (∃ t ∈ s.sent, t.issuer = .gap ∧ t.canSend = 0 ∧ t.result = -1 ∧ t.credit = 0) ∧
      s.stack.numCmdPackets = 255 := by
  obtain ⟨r, hcalls⟩ := exists_onesNodeRun 1
  have hticks : poweredOn.app.ticks < r.calls := by
    rw [hcalls]
    exact one_pos
  have hrun : Steps.run (nodeStep r) poweredOn [.epochTimer] =
      some (epochChangeHandler r poweredOn) := by
    rw [Steps.run, nodeStep_epochTimer_eq hticks, Option.bind_some, Steps.run]
  refine ⟨r, _, hrun, ?_⟩
  rcases epochChangeHandler_cases hticks with ⟨-, hstate, -⟩ | ⟨-, heq⟩
  · exact absurd rfl hstate
  · rw [heq]
    exact ⟨⟨_, List.mem_append_right _ (List.mem_singleton_self _), rfl, rfl, rfl, rfl⟩, rfl⟩

end EbnAnchor.Main
