import EbnAnchor.Stack.HciRules

/-!
Flow control in `hci.c`.

The stack keeps to the rules of flow control for every packet, as long as the application
does (`guarded_stable`). The application can send after `hci_run` exactly when `hci_run` had
nothing to send (`hciRun_canSend_iff`).
-/

namespace EbnAnchor.Stack

/-- A `gap_send_cmd` is issued when the stack can send, and is accepted; the counter is
never decremented at 0. -/
structure Transmission.Controlled (t : Transmission) : Prop where
  canSend : t.issuer = .gap → t.canSend ≠ 0
  accepted : t.issuer = .gap → t.result ≠ -1
  credit : t.issuer ≠ .deviceInt → t.credit ≠ 0

section

variable {α : Type} {handler : PacketHandler α} {s s' s'' : HciSys α}

/-- All commands so far kept to the rules. -/
def Controlled (s : HciSys α) : Prop := ∀ t ∈ s.sent, t.Controlled

/-- The commands sent between two states keep to the rules. -/
def Guarded (s s' : HciSys α) : Prop :=
  ∃ new, s'.sent = s.sent ++ new ∧ ∀ t ∈ new, t.Controlled

theorem Guarded.of_sent_eq (h : s'.sent = s.sent) : Guarded s s' :=
  ⟨[], by rw [h, List.append_nil], fun _ ht => absurd ht List.not_mem_nil⟩

theorem Guarded.refl (s : HciSys α) : Guarded s s := .of_sent_eq rfl

theorem Guarded.trans (h : Guarded s s') (h' : Guarded s' s'') : Guarded s s'' := by
  obtain ⟨new, hsent, hnew⟩ := h
  obtain ⟨new', hsent', hnew'⟩ := h'
  refine ⟨new ++ new', by rw [hsent', hsent, List.append_assoc], fun t ht => ?_⟩
  rcases List.mem_append.mp ht with ht | ht
  · exact hnew t ht
  · exact hnew' t ht

theorem Guarded.controlled_iff (h : Guarded s s') : Controlled s' ↔ Controlled s := by
  obtain ⟨new, hsent, hnew⟩ := h
  unfold Controlled
  rw [hsent]
  constructor
  · intro hall t ht
    exact hall t (List.mem_append_left _ ht)
  · intro hall t ht
    rcases List.mem_append.mp ht with ht | ht
    · exact hall t ht
    · exact hnew t ht

theorem withStack_guarded (s : HciSys α) (f : HciStack → HciStack) :
    Guarded s (s.withStack f) := .of_sent_eq rfl

/-! ### Sending -/

/-- A command keeps to the rules exactly when there is a credit and, if the application
issues it, the transport is idle. -/
theorem controlled_sendPacket_iff (issuer : Issuer) (command : Command) (s : HciSys α)
    (hissuer : issuer ≠ .deviceInt) :
    Controlled (hciSendCmdPacket issuer command s) ↔ Controlled s ∧
      s.stack.numCmdPackets ≠ 0 ∧ (issuer = .gap → s.txState = .idle) := by
  unfold Controlled
  simp only [hciSendCmdPacket, sendPacket, withStack_sent, List.mem_append, List.mem_singleton,
    or_imp, forall_and, forall_eq]
  refine and_congr_right fun _ => ?_
  constructor
  · rintro ⟨hcan, -, hcredit⟩
    exact ⟨hcredit hissuer, fun hgap => ((hciCanSendPacketNow_ne_zero_iff s).mp (hcan hgap)).1⟩
  · rintro ⟨hcredit, hidle⟩
    refine ⟨fun hgap => ?_, fun hgap => ?_, fun _ => hcredit⟩
    · exact (hciCanSendPacketNow_ne_zero_iff s).mpr ⟨hidle hgap, hcredit⟩
    · simp only [hidle hgap]
      decide

theorem controlled_gapSendCmd_iff (command : Command) (s : HciSys α) :
    Controlled (gapSendCmd command s) ↔ Controlled s ∧ hciCanSendPacketNow s ≠ 0 := by
  rw [gapSendCmd, controlled_sendPacket_iff _ _ _ (by decide), hciCanSendPacketNow_ne_zero_iff]
  tauto

theorem hciSendCmd_guarded (command : Command) (hcan : hciCanSendPacketNow s ≠ 0) :
    Guarded s (hciSendCmd command s) := by
  obtain ⟨-, hcredit⟩ := (hciCanSendPacketNow_ne_zero_iff s).mp hcan
  refine ⟨_, rfl, fun t ht => ?_⟩
  cases List.mem_singleton.mp ht
  constructor
  · intro hgap
    cases hgap
  · intro hgap
    cases hgap
  · intro _
    exact hcredit

theorem hciSendDeviceInt_guarded (s : HciSys α) : Guarded s (hciSendDeviceInt s) := by
  refine ⟨_, rfl, fun t ht => ?_⟩
  cases List.mem_singleton.mp ht
  constructor
  · intro hgap
    cases hgap
  · intro hgap
    cases hgap
  · intro hother
    exact absurd rfl hother

/-! ### What the stack does on its own -/

/-- A relation that the stack keeps to: it holds across a change of the stack alone, a
command sent with a credit over an idle transport, the end of a transmission, and whatever
the application does about an event that is no vendor event. -/
structure Stable (handler : PacketHandler α) (R : HciSys α → HciSys α → Prop) : Prop where
  refl : ∀ s, R s s
  trans : ∀ {s s' s''}, R s s' → R s' s'' → R s s''
  withStack : ∀ s f, R s (s.withStack f)
  sendCmd : ∀ {s} command, hciCanSendPacketNow s ≠ 0 → R s (hciSendCmd command s)
  sent : ∀ s, R s { s with txState := .idle }
  event : ∀ s {packet}, packet 0 ≠ hciLeExtEvent → R s (handler packet s)

namespace Stable

variable {R : HciSys α → HciSys α → Prop} (hR : Stable handler R)
include hR

theorem initScript (hcan : hciCanSendPacketNow s ≠ 0)
    (h : initScript handler s = some s') : R s s' := by
  have hstate : ∀ t : HciSys α, R t (hciEmitState handler t) := fun t =>
    hR.event t (by decide : btstackEventState ≠ hciLeExtEvent)
  unfold Stack.initScript at h
  split at h
  · cases h
    exact hR.trans (hR.sendCmd _ hcan) (hR.withStack _ _)
  · cases h
  · cases h
  · cases h
    exact hR.sendCmd _ hcan
  · cases h
    exact hR.sendCmd _ hcan
  · cases h
    exact hR.trans (hR.withStack s _) (hstate _)
  · cases h
    exact hR.refl s

theorem runState (hcan : hciCanSendPacketNow s ≠ 0) (h : runState handler s = some s') :
    R s s' := by
  unfold Stack.runState at h
  split at h
  · split at h
    · cases h
      exact hR.refl s
    · obtain ⟨t, ht, rfl⟩ := Option.map_eq_some_iff.mp h
      exact hR.trans (hR.initScript hcan ht) (hR.withStack _ _)
  · cases h
    exact hR.refl s

/-- The stack keeps to it, whatever the packet, but for the vendor events. -/
theorem rule : StackRule handler (fun packet => packet 0 ≠ hciLeExtEvent) R where
  refl := hR.refl
  trans := hR.trans
  withStack s _ _ := hR.withStack s _
  sendCmd _ hcan := hR.sendCmd _ hcan
  runState := hR.runState
  sent := hR.sent
  emit s packet hown := by
    refine hR.event s fun hcode => ?_
    rw [hcode] at hown
    exact absurd hown (by decide)
  forward s _ hevent := hR.trans (hR.withStack s _) (hR.event _ hevent)

end Stable

/-- The application sends no command of its own but in answer to vendor events. -/
def QuietHandler (handler : PacketHandler α) : Prop :=
  ∀ s packet, packet 0 ≠ hciLeExtEvent → Guarded s (handler packet s)

theorem guarded_stable (hquiet : QuietHandler handler) : Stable handler Guarded where
  refl := .refl
  trans := .trans
  withStack := withStack_guarded
  sendCmd := hciSendCmd_guarded
  sent _ := .of_sent_eq rfl
  event s packet := hquiet s packet

/-- The events `event_handler` does something about itself. -/
def stackEvents : List Byte :=
  [hciEventLinkKeyRequest, hciEventCommandComplete, hciEventCommandStatus,
    hciEventNumberOfCompletedPackets, hciEventConnectionRequest, hciEventConnectionComplete,
    hciEventLinkKeyNotification, hciEventPinCodeRequest, hciEventDisconnectionComplete,
    hciEventHardwareError, hciEventLeMeta]

/-- Any other event goes to the application, and `hci_run` follows. -/
theorem eventHandler_other {packet : Packet} (h : packet 0 ∉ stackEvents) (s : HciSys α) :
    eventHandler handler packet s = hciRun handler (handler packet s) := by
  simp only [stackEvents, List.mem_cons, List.not_mem_nil, or_false, not_or] at h
  obtain ⟨hkey, hcomplete, hstatus, hdone, hrequest, hconn, hnotify, hpin, hdisc, herror,
    hmeta⟩ := h
  unfold eventHandler eventSwitch
  rw [if_neg hkey, if_neg hcomplete, if_neg hstatus, if_neg hdone, if_neg hrequest,
    if_neg hconn, if_neg hnotify, if_neg hpin, if_neg hdisc, if_neg herror, if_neg hmeta,
    Option.bind_some]
  rw [forwardEvent, HciSys.withStack, noteInitEvent, if_neg fun hall => hcomplete hall.2.2]

theorem eventHandler_commandComplete {packet : Packet} (h : packet 0 = hciEventCommandComplete)
    (s : HciSys α) : eventHandler handler packet s =
      forwardEvent handler packet (commandComplete handler packet s) := by
  unfold eventHandler eventSwitch
  rw [h, if_neg (by decide), if_pos rfl, Option.bind_some]

theorem eventHandler_commandStatus {packet : Packet} (h : packet 0 = hciEventCommandStatus)
    (s : HciSys α) : eventHandler handler packet s = hciRun handler (handler packet
      (s.withStack fun stack => { stack with numCmdPackets := packet 3 })) := by
  unfold eventHandler eventSwitch
  rw [h, if_neg (by decide), if_neg (by decide), if_pos rfl, Option.bind_some]
  simp only [forwardEvent, noteInitEvent, HciSys.withStack, h]
  rw [if_neg fun hall => absurd hall.2.2 (by decide)]

/-! ### What `hci_run` leaves to the application -/

/-- `hci_run` has a command to send for the connection. -/
def HciConnection.Pending (conn : HciConnection) : Prop :=
  conn.state = .receivedConnectionRequest ∨
    conn.authenticationFlags &&& handleLinkKeyRequest ≠ 0

/-- `hci_run` has a command to send, or reaches `HCI_STATE_WORKING`. -/
def HciStack.Pending (stack : HciStack) : Prop :=
  stack.declineReason ≠ 0 ∨ (stack.state = .working ∧ stack.newScanEnableValue ≠ 0xff) ∨
    (∃ conn ∈ stack.connections, conn.Pending) ∨
    (stack.state = .initializing ∧ stack.substate.toNat % 2 = 0 ∧ stack.substate.toNat < 12)

theorem whenCanSend_busy (rest : HciSys α → Option (HciSys α)) (h : s.txState ≠ .idle) :
    whenCanSend rest s = some s := by
  rw [whenCanSend, if_pos (hciCanSendPacketNow_busy h)]

theorem whenCanSend_pos (rest : HciSys α → Option (HciSys α))
    (h : hciCanSendPacketNow s ≠ 0) : whenCanSend rest s = rest s := by
  rw [whenCanSend, if_neg h]

theorem sendPendingCommands_busy (rest : HciSys α → Option (HciSys α)) (it : List Nat)
    (h : s.txState ≠ .idle) : sendPendingCommands (whenCanSend rest) it s = some s := by
  cases it with
  | nil => exact whenCanSend_busy rest h
  | cons i it => exact whenCanSend_busy _ h

theorem declineConnection_cases (s : HciSys α) :
    (s.stack.declineReason ≠ 0 ∧ (declineConnection s).txState ≠ .idle) ∨
      (s.stack.declineReason = 0 ∧ declineConnection s = s) := by
  unfold declineConnection
  by_cases hdecline : s.stack.declineReason ≠ 0
  · rw [if_pos hdecline]
    exact Or.inl ⟨hdecline, hciSendCmd_txState _ _⟩
  · exact Or.inr ⟨not_not.mp hdecline, if_neg hdecline⟩

theorem sendScanEnable_cases (s : HciSys α) :
    (s.stack.state = .working ∧ s.stack.newScanEnableValue ≠ 0xff ∧
      (sendScanEnable s).txState ≠ .idle) ∨
    (¬ (s.stack.state = .working ∧ s.stack.newScanEnableValue ≠ 0xff) ∧
      sendScanEnable s = s) := by
  unfold sendScanEnable
  by_cases hscan : s.stack.state = .working ∧ s.stack.newScanEnableValue ≠ 0xff
  · rw [if_pos hscan]
    refine Or.inl ⟨hscan.1, hscan.2, ?_⟩
    rw [withStack_txState]
    exact hciSendCmd_txState _ s
  · exact Or.inr ⟨hscan, if_neg hscan⟩

theorem acceptConnection_cases (i : Nat) (s : HciSys α) :
    (∃ conn, s.stack.connections[i]? = some conn ∧
      conn.state = .receivedConnectionRequest ∧ (acceptConnection i s).txState ≠ .idle) ∨
    ((∀ conn, s.stack.connections[i]? = some conn →
      conn.state ≠ .receivedConnectionRequest) ∧ acceptConnection i s = s) := by
  unfold acceptConnection
  cases hi : s.stack.connections[i]? with
  | none => exact Or.inr ⟨nofun, rfl⟩
  | some conn =>
    by_cases hstate : conn.state = .receivedConnectionRequest
    · refine Or.inl ⟨conn, rfl, hstate, ?_⟩
      simp only [if_pos hstate, HciSys.modifyConnection, withStack_txState]
      exact hciSendCmd_txState _ s
    · refine Or.inr ⟨fun conn' h => ?_, if_neg hstate⟩
      cases h
      exact hstate

theorem answerLinkKeyRequest_cases (i : Nat) (s : HciSys α) :
    (∃ conn, s.stack.connections[i]? = some conn ∧
      conn.authenticationFlags &&& handleLinkKeyRequest ≠ 0 ∧
      (answerLinkKeyRequest i s).txState ≠ .idle) ∨
    ((∀ conn, s.stack.connections[i]? = some conn →
      ¬ conn.authenticationFlags &&& handleLinkKeyRequest ≠ 0) ∧
      answerLinkKeyRequest i s = s) := by
  unfold answerLinkKeyRequest
  cases hi : s.stack.connections[i]? with
  | none => exact Or.inr ⟨nofun, rfl⟩
  | some conn =>
    by_cases hflag : conn.authenticationFlags &&& handleLinkKeyRequest ≠ 0
    · refine Or.inl ⟨conn, rfl, hflag, ?_⟩
      simp only [if_pos hflag, HciSys.modifyConnection, withStack_txState]
      exact hciSendCmd_txState _ _
    · refine Or.inr ⟨fun conn' h => ?_, if_neg hflag⟩
      cases h
      exact hflag

/-- The loop either sends for the first pending connection and returns, or goes through. -/
theorem sendPendingCommands_cases (rest : HciSys α → Option (HciSys α)) (it : List Nat)
    (hcan : hciCanSendPacketNow s ≠ 0) :
    (∃ i ∈ it, ∃ conn, s.stack.connections[i]? = some conn ∧ conn.Pending ∧
      ∃ s', sendPendingCommands (whenCanSend rest) it s = some s' ∧ s'.txState ≠ .idle) ∨
    ((∀ i ∈ it, ∀ conn, s.stack.connections[i]? = some conn → ¬ conn.Pending) ∧
      sendPendingCommands (whenCanSend rest) it s = rest s) := by
  induction it with
  | nil =>
    refine Or.inr ⟨fun i hi => absurd hi List.not_mem_nil, ?_⟩
    rw [sendPendingCommands, whenCanSend_pos rest hcan]
  | cons i it ih =>
    rw [sendPendingCommands, whenCanSend_pos _ hcan]
    rcases acceptConnection_cases i s with ⟨conn, hi, hstate, hbusy⟩ | ⟨hstate, hsame⟩
    · exact Or.inl ⟨i, List.mem_cons_self .., conn, hi, Or.inl hstate, _,
        whenCanSend_busy _ hbusy, hbusy⟩
    · rw [hsame, whenCanSend_pos _ hcan]
      rcases answerLinkKeyRequest_cases i s with ⟨conn, hi, hflag, hbusy⟩ | ⟨hflag, hsame⟩
      · exact Or.inl ⟨i, List.mem_cons_self .., conn, hi, Or.inr hflag, _,
          sendPendingCommands_busy rest it hbusy, hbusy⟩
      · rw [hsame]
        rcases ih with ⟨j, hj, conn, hconn⟩ | ⟨hnone, hrest⟩
        · exact Or.inl ⟨j, List.mem_cons_of_mem _ hj, conn, hconn⟩
        · refine Or.inr ⟨fun j hj conn hconn => ?_, hrest⟩
          rcases List.mem_cons.mp hj with rfl | hj
          · rintro (hreceived | hhandle)
            · exact hstate conn hconn hreceived
            · exact hflag conn hconn hhandle
          · exact hnone j hj conn hconn

/-- When the application answers `HCI_STATE_WORKING` with a command. -/
def StartsOnWorking (handler : PacketHandler α) : Prop :=
  ∀ s, (handler (eventPacket [btstackEventState, 1, HciState.working.code]) s).txState ≠ .idle

/-- Up to substate 11 the script always uses the transport, from 12 on it does nothing. -/
theorem initScript_cases (hstart : StartsOnWorking handler)
    (h : initScript handler s = some s') :
    (s.stack.substate.toNat < 12 ∧ s'.txState ≠ .idle) ∨
      (12 ≤ s.stack.substate.toNat ∧ s' = s) := by
  have hhalf : (s.stack.substate >>> 1).toNat = s.stack.substate.toNat / 2 := by
    rw [BitVec.toNat_ushiftRight, Nat.shiftRight_eq_div_pow]
  unfold initScript at h
  rw [hhalf] at h
  split at h
  · next hsub =>
    cases h
    exact Or.inl ⟨by omega, hciSendCmd_txState .reset s⟩
  · cases h
  · cases h
  · next hsub =>
    cases h
    exact Or.inl ⟨by omega, hciSendCmd_txState .readBdAddr s⟩
  · next hsub =>
    cases h
    exact Or.inl ⟨by omega, hciSendCmd_txState .readBufferSize s⟩
  · next hsub =>
    cases h
    exact Or.inl ⟨by omega, hstart _⟩
  · cases h
    refine Or.inr ⟨?_, rfl⟩
    grind

theorem runState_canSend_iff (hstart : StartsOnWorking handler)
    (hcan : hciCanSendPacketNow s ≠ 0) (h : runState handler s = some s') :
    hciCanSendPacketNow s' ≠ 0 ↔ ¬ (s.stack.state = .initializing ∧
      s.stack.substate.toNat % 2 = 0 ∧ s.stack.substate.toNat < 12) := by
  unfold runState at h
  split at h
  · next hstate =>
    split at h
    · next hodd =>
      cases h
      refine iff_of_true hcan fun hpending => ?_
      omega
    · next heven =>
      obtain ⟨t, ht, rfl⟩ := Option.map_eq_some_iff.mp h
      rcases initScript_cases hstart ht with ⟨hlt, hbusy⟩ | ⟨hge, rfl⟩
      · refine iff_of_false (not_not.mpr (hciCanSendPacketNow_busy hbusy)) (not_not.mpr ?_)
        exact ⟨hstate, by omega, hlt⟩
      · exact iff_of_true hcan fun hpending => by omega
  · next hstate =>
    cases h
    exact iff_of_true hcan fun hpending => hstate hpending.1

/-- After `hci_run` the application can still send exactly when nothing was pending. -/
theorem hciRun_canSend_iff (hstart : StartsOnWorking handler)
    (hcan : hciCanSendPacketNow s ≠ 0) (h : hciRun handler s = some s') :
    hciCanSendPacketNow s' ≠ 0 ↔ ¬ s.stack.Pending := by
  have hbusy : ∀ t : HciSys α, t.txState ≠ .idle → ¬ hciCanSendPacketNow t ≠ 0 :=
    fun t ht => not_not.mpr (hciCanSendPacketNow_busy ht)
  unfold hciRun at h
  rw [whenCanSend_pos _ hcan] at h
  rcases declineConnection_cases s with ⟨hdecline, htx⟩ | ⟨hdecline, hsame⟩
  · rw [whenCanSend_busy _ htx] at h
    cases h
    exact iff_of_false (hbusy _ htx) (not_not.mpr (Or.inl hdecline))
  · rw [hsame, whenCanSend_pos _ hcan] at h
    rcases sendScanEnable_cases s with ⟨hstate, hscan, htx⟩ | ⟨hscan, hsame⟩
    · simp only [sendPendingCommands_busy _ _ htx] at h
      cases h
      exact iff_of_false (hbusy _ htx) (not_not.mpr (Or.inr (Or.inl ⟨hstate, hscan⟩)))
    · simp only [hsame] at h
      rcases sendPendingCommands_cases (runState handler)
          (List.range s.stack.connections.length) hcan with
        ⟨i, -, conn, hi, hpending, t, ht, htx⟩ | ⟨hnone, hrest⟩
      · cases ht.symm.trans h
        refine iff_of_false (hbusy _ htx) (not_not.mpr (Or.inr (Or.inr (Or.inl ?_))))
        exact ⟨conn, List.mem_of_getElem? hi, hpending⟩
      · rw [hrest] at h
        rw [runState_canSend_iff hstart hcan h]
        refine not_congr ⟨fun hscript => Or.inr (Or.inr (Or.inr hscript)), ?_⟩
        rintro (hdecline' | hscan' | ⟨conn, hconn, hpending⟩ | hscript)
        · exact absurd hdecline hdecline'
        · exact absurd hscan' hscan
        · obtain ⟨i, hi⟩ := List.getElem?_of_mem hconn
          have hlt := (List.getElem?_eq_some_iff.mp hi).1
          exact absurd hpending (hnone i (List.mem_range.mpr hlt) conn hi)
        · exact hscript

/-- Nothing to send but the commands of the script. -/
structure HciStack.Quiet (stack : HciStack) : Prop where
  connections : stack.connections = []
  declineReason : stack.declineReason = 0
  newScanEnableValue : stack.newScanEnableValue = 0xff

theorem hciRun_quiet (hquiet : s.stack.Quiet) :
    hciRun handler s = whenCanSend (runState handler) s := by
  have hdecline : declineConnection s = s := by
    rw [declineConnection, if_neg (not_not.mpr hquiet.declineReason)]
  have hscan : sendScanEnable s = s := by
    rw [sendScanEnable, if_neg fun h => h.2 hquiet.newScanEnableValue]
  unfold hciRun
  by_cases hcan : hciCanSendPacketNow s = 0
  · rw [whenCanSend, if_pos hcan, whenCanSend, if_pos hcan]
  · rw [whenCanSend_pos _ hcan, hdecline, whenCanSend_pos _ hcan]
    simp only [hscan, hquiet.connections, List.length_nil, List.range_zero,
      sendPendingCommands]

/-- The script waits, or is through. -/
theorem runState_waits (h : s.stack.state = .initializing → s.stack.substate.toNat % 2 = 1) :
    runState handler s = some s := by
  unfold runState
  by_cases hstate : s.stack.state = .initializing
  · rw [if_pos hstate, if_pos (h hstate)]
  · rw [if_neg hstate]

theorem hciRun_waits (hquiet : s.stack.Quiet)
    (h : s.stack.state = .initializing → s.stack.substate.toNat % 2 = 1) :
    hciRun handler s = some s := by
  rw [hciRun_quiet hquiet, whenCanSend, runState_waits h, ite_self]

/-- The script goes on. -/
theorem hciRun_script (hquiet : s.stack.Quiet) (hcan : hciCanSendPacketNow s ≠ 0)
    (hstate : s.stack.state = .initializing) (heven : ¬ s.stack.substate.toNat % 2 = 1) :
    hciRun handler s = (initScript handler s).map fun s =>
      s.withStack fun stack => { stack with substate := stack.substate + 1 } := by
  rw [hciRun_quiet hquiet, whenCanSend_pos _ hcan, runState, if_pos hstate, if_neg heven]

end

end EbnAnchor.Stack
