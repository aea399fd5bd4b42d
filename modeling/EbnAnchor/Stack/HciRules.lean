import EbnAnchor.Stack.Hci

/-!
The rule for relations that `hci.c` keeps to.

`hci_run` looks at `hci_can_send_packet_now` before each of its commands, and the event
handler sends through `hci_run` alone. `StackRule` lists what the functions of `hci.c` are
made of; a relation that holds across each of these parts holds across `hci_run`
(`StackRule.hciRun`), across every packet (`StackRule.hciPacketHandler`) and across a poll
(`StackRule.h4Poll`).
-/

namespace EbnAnchor.Stack

section

variable {α : Type} {handler : PacketHandler α} {s s' : HciSys α}

/-! ### Sending -/

@[simp] theorem withStack_txState (s : HciSys α) (f : HciStack → HciStack) :
    (s.withStack f).txState = s.txState := rfl

@[simp] theorem withStack_stack (s : HciSys α) (f : HciStack → HciStack) :
    (s.withStack f).stack = f s.stack := rfl

@[simp] theorem withStack_app (s : HciSys α) (f : HciStack → HciStack) :
    (s.withStack f).app = s.app := rfl

@[simp] theorem withStack_sent (s : HciSys α) (f : HciStack → HciStack) :
    (s.withStack f).sent = s.sent := rfl

theorem hciCanSendPacketNow_ne_zero_iff (s : HciSys α) :
    hciCanSendPacketNow s ≠ 0 ↔ s.txState = .idle ∧ s.stack.numCmdPackets ≠ 0 := by
  unfold hciCanSendPacketNow h4CanSendPacketNow
  cases s.txState with
  | idle | w4HeaderSent | w4PacketSent | done => simp

theorem hciCanSendPacketNow_busy (h : s.txState ≠ .idle) : hciCanSendPacketNow s = 0 := by
  by_contra hne
  exact h ((hciCanSendPacketNow_ne_zero_iff s).mp hne).1

/-- The transport accepts exactly when it is idle, and is never idle afterwards. -/
theorem h4SendPacket_cases (tx : TxState) :
    (tx = .idle ∧ h4SendPacket tx = (0, .done)) ∨ (tx ≠ .idle ∧ h4SendPacket tx = (-1, tx)) := by
  by_cases h : tx = .idle
  · subst h
    exact Or.inl ⟨rfl, rfl⟩
  · exact Or.inr ⟨h, by rw [h4SendPacket, if_pos h]⟩

theorem h4SendPacket_busy (tx : TxState) : (h4SendPacket tx).2 ≠ .idle := by
  rcases h4SendPacket_cases tx with ⟨-, h⟩ | ⟨hne, h⟩
  · rw [h]
    decide
  · rw [h]
    exact hne

theorem hciSendCmdPacket_txState (issuer : Issuer) (command : Command) (s : HciSys α) :
    (hciSendCmdPacket issuer command s).txState ≠ .idle := h4SendPacket_busy s.txState

theorem hciSendCmd_txState (command : Command) (s : HciSys α) :
    (hciSendCmd command s).txState ≠ .idle := hciSendCmdPacket_txState .hci command s

/-! ### The script -/

theorem initScript_reset (h : s.stack.substate = 0) : initScript handler s =
    some ((hciSendCmd .reset s).withStack fun stack => { stack with substate := 4 }) := by
  unfold initScript
  rw [h]
  rfl

theorem initScript_readBdAddr (h : s.stack.substate = 6) :
    initScript handler s = some (hciSendCmd .readBdAddr s) := by
  unfold initScript
  rw [h]
  rfl

theorem initScript_readBufferSize (h : s.stack.substate = 8) :
    initScript handler s = some (hciSendCmd .readBufferSize s) := by
  unfold initScript
  rw [h]
  rfl

theorem initScript_working (h : s.stack.substate = 10) : initScript handler s =
    some (hciEmitState handler (s.withStack fun stack => { stack with state := .working })) := by
  unfold initScript
  rw [h]
  rfl

/-! ### The rule -/

/-- The commands `hci_run` sends outside the script. -/
def Command.isHousekeeping : Command → Bool
  | rejectConnectionRequest _ _ => true
  | writeScanEnable _ => true
  | acceptConnectionRequest _ _ => true
  | linkKeyRequestReply _ _ => true
  | linkKeyRequestNegativeReply _ => true
  | _ => false

/-- The events the stack makes itself, but for the state. -/
def ownEvents : List Byte :=
  [hciEventDisconnectionComplete, btstackEventNrConnectionsChanged,
    btstackEventDiscoverableEnabled]

/-- The script is where it was. -/
structure SameScript (stack stack' : HciStack) : Prop where
  state : stack'.state = stack.state
  substate : stack'.substate = stack.substate

/-- A relation that the stack keeps to: it holds across a change of the stack that leaves the
script alone, a command outside the script sent with a credit over an idle transport, a move
of the script, the end of a transmission, and whatever the application does about an event
of the stack's own or one forwarded to it. -/
structure StackRule (handler : PacketHandler α) (forwarded : Packet → Prop)
    (R : HciSys α → HciSys α → Prop) : Prop where
  refl : ∀ s, R s s
  trans : ∀ {s s' s''}, R s s' → R s' s'' → R s s''
  withStack : ∀ s {f}, SameScript s.stack (f s.stack) → R s (s.withStack f)
  sendCmd : ∀ {s} {command : Command}, command.isHousekeeping = true →
    hciCanSendPacketNow s ≠ 0 → R s (hciSendCmd command s)
  runState : ∀ {s s'}, hciCanSendPacketNow s ≠ 0 → runState handler s = some s' → R s s'
  sent : ∀ s, R s { s with txState := .idle }
  emit : ∀ s {packet}, packet 0 ∈ ownEvents → R s (handler packet s)
  forward : ∀ s {packet}, forwarded packet →
    R s (handler packet (s.withStack (noteInitEvent packet)))

/-- One `case` of a `switch`, and the others. -/
theorem of_ite {P c : Prop} [Decidable c] {x y : Option (HciSys α)} {s : HciSys α}
    (hx : x = some s → P) (hy : y = some s → P) (h : (if c then x else y) = some s) : P := by
  by_cases hc : c
  · rw [if_pos hc] at h
    exact hx h
  · rw [if_neg hc] at h
    exact hy h

theorem SameScript.refl (stack : HciStack) : SameScript stack stack := ⟨rfl, rfl⟩

theorem SameScript.trans {stack stack' stack'' : HciStack} (h : SameScript stack stack')
    (h' : SameScript stack' stack'') : SameScript stack stack'' :=
  ⟨h'.state.trans h.state, h'.substate.trans h.substate⟩

theorem numberOfCompletedPackets_script (packet : Packet) (stack : HciStack) :
    SameScript stack (numberOfCompletedPackets packet stack) := by
  unfold numberOfCompletedPackets
  induction List.range (packet 2).toNat generalizing stack with
  | nil => exact .refl stack
  | cons i it ih =>
    rw [List.foldl_cons]
    refine .trans ?_ (ih _)
    exact ⟨rfl, rfl⟩

theorem noteBufferSize_script (packet : Packet) (stack : HciStack) :
    SameScript stack (noteBufferSize packet stack) := by
  unfold noteBufferSize
  simp only
  split
  · exact ⟨rfl, rfl⟩
  · exact ⟨rfl, rfl⟩

theorem createConnectionForAddr_script {addr : BdAddr} {state : ConnectionState}
    {stack stack' : HciStack} (h : stack.createConnectionForAddr addr state = some stack') :
    SameScript stack stack' := by
  unfold HciStack.createConnectionForAddr at h
  split at h
  · cases h
    exact ⟨rfl, rfl⟩
  · cases h

namespace StackRule

variable {forwarded : Packet → Prop} {R : HciSys α → HciSys α → Prop}
  (hR : StackRule handler forwarded R)
include hR

/-! ### `hci_run` -/

theorem whenCanSend {rest : HciSys α → Option (HciSys α)}
    (hrest : hciCanSendPacketNow s ≠ 0 → rest s = some s' → R s s')
    (h : whenCanSend rest s = some s') : R s s' := by
  unfold Stack.whenCanSend at h
  split at h
  · cases h
    exact hR.refl s
  · next hcan => exact hrest hcan h

theorem declineConnection (hcan : hciCanSendPacketNow s ≠ 0) :
    R s (declineConnection s) := by
  unfold Stack.declineConnection
  split
  · exact hR.trans (hR.withStack s ⟨rfl, rfl⟩) (hR.sendCmd rfl hcan)
  · exact hR.refl s

theorem sendScanEnable (hcan : hciCanSendPacketNow s ≠ 0) : R s (sendScanEnable s) := by
  unfold Stack.sendScanEnable
  split
  · exact hR.trans (hR.sendCmd rfl hcan) (hR.withStack _ ⟨rfl, rfl⟩)
  · exact hR.refl s

theorem acceptConnection (i : Nat) (hcan : hciCanSendPacketNow s ≠ 0) :
    R s (acceptConnection i s) := by
  unfold Stack.acceptConnection
  split
  · exact hR.refl s
  · split
    · exact hR.trans (hR.sendCmd rfl hcan) (hR.withStack _ ⟨rfl, rfl⟩)
    · exact hR.refl s

theorem answerLinkKeyRequest (i : Nat) (hcan : hciCanSendPacketNow s ≠ 0) :
    R s (answerLinkKeyRequest i s) := by
  have hanswer : ∀ (addr : BdAddr) (linkKey : Option LinkKey),
      (linkKeyAnswer addr linkKey).isHousekeeping = true := by
    intro addr linkKey
    cases linkKey with
    | none => rfl
    | some linkKey => rfl
  unfold Stack.answerLinkKeyRequest
  split
  · exact hR.refl s
  · split
    · refine hR.trans ?_ (hR.withStack _ ⟨rfl, rfl⟩)
      exact hR.trans (hR.withStack s ⟨rfl, rfl⟩) (hR.sendCmd (hanswer _ _) hcan)
    · exact hR.refl s

theorem sendPendingCommands {rest : HciSys α → Option (HciSys α)}
    (hrest : ∀ {s s'}, rest s = some s' → R s s') (it : List Nat)
    (h : sendPendingCommands rest it s = some s') : R s s' := by
  induction it generalizing s with
  | nil => exact hrest h
  | cons i it ih =>
    refine hR.whenCanSend (fun hcan h => ?_) h
    refine hR.trans (hR.acceptConnection i hcan) (hR.whenCanSend (fun hcan h => ?_) h)
    exact hR.trans (hR.answerLinkKeyRequest i hcan) (ih h)

theorem hciRun (h : hciRun handler s = some s') : R s s' := by
  refine hR.whenCanSend (fun hcan h => ?_) h
  refine hR.trans (hR.declineConnection hcan) (hR.whenCanSend (fun hcan h => ?_) h)
  refine hR.trans (hR.sendScanEnable hcan) (hR.sendPendingCommands (fun h => ?_) _ h)
  exact hR.whenCanSend (fun hcan h => hR.runState hcan h) h

/-! ### Packets -/

theorem emitDisconnection (conHandle : BitVec 16) (reason : Byte) (s : HciSys α) :
    R s (hciEmitDisconnectionComplete handler conHandle reason s) :=
  hR.emit s (List.mem_cons_self ..)

theorem emitNrConnections (s : HciSys α) : R s (hciEmitNrConnectionsChanged handler s) :=
  hR.emit s (List.mem_cons_of_mem _ (List.mem_cons_self ..))

theorem commandComplete (packet : Packet) (s : HciSys α) :
    R s (commandComplete handler packet s) := by
  unfold Stack.commandComplete
  simp only
  split
  · exact hR.trans (hR.withStack s ⟨rfl, rfl⟩)
      (hR.withStack _ (noteBufferSize_script packet _))
  · split
    · refine hR.trans (hR.withStack s ⟨rfl, rfl⟩) (hR.emit _ ?_)
      exact List.mem_cons_of_mem _ (List.mem_cons_of_mem _ (List.mem_cons_self ..))
    · split
      · exact hR.trans (hR.withStack s ⟨rfl, rfl⟩) (hR.withStack _ ⟨rfl, rfl⟩)
      · exact hR.withStack s ⟨rfl, rfl⟩

theorem connectionRequest {packet : Packet}
    (h : connectionRequest handler packet s = some s') : R s s' := by
  unfold Stack.connectionRequest at h
  simp only at h
  split at h
  · split at h
    · exact hR.trans (hR.withStack s ⟨rfl, rfl⟩) (hR.hciRun h)
    · split at h
      · next hcreate =>
        exact hR.trans (hR.withStack s (createConnectionForAddr_script hcreate)) (hR.hciRun h)
      · cases h
        exact hR.withStack s ⟨rfl, rfl⟩
  · cases h
    exact hR.withStack s ⟨rfl, rfl⟩

theorem connectionComplete (packet : Packet) (s : HciSys α) :
    R s (connectionComplete handler packet s) := by
  unfold Stack.connectionComplete
  simp only
  split
  · exact hR.refl s
  · split
    · exact hR.trans (hR.withStack s ⟨rfl, rfl⟩) (hR.emitNrConnections _)
    · split
      · exact hR.withStack s ⟨rfl, rfl⟩
      · exact hR.withStack s ⟨rfl, rfl⟩

theorem disconnectionComplete (packet : Packet) (s : HciSys α) :
    R s (disconnectionComplete handler packet s) := by
  unfold Stack.disconnectionComplete
  simp only
  split
  · split
    · exact hR.refl s
    · refine hR.trans (hR.emitDisconnection (readBt16 packet 3) 0x16 s) ?_
      exact hR.trans (hR.withStack _ ⟨rfl, rfl⟩) (hR.emitNrConnections _)
  · exact hR.refl s

theorem leMeta (packet : Packet) (s : HciSys α) : R s (leMeta handler packet s) := by
  unfold Stack.leMeta
  simp only
  split
  · exact hR.refl s
  · split
    · refine hR.withStack s ?_
      split_ifs
      all_goals exact ⟨rfl, rfl⟩
    · split
      · exact hR.trans (hR.withStack s ⟨rfl, rfl⟩) (hR.emitNrConnections _)
      · split
        · exact hR.refl s
        · next hcreate =>
          refine hR.trans (hR.withStack s ?_) (hR.emitNrConnections _)
          exact (createConnectionForAddr_script hcreate).trans ⟨rfl, rfl⟩

theorem eventSwitch {packet : Packet} (h : eventSwitch handler packet s = some s') :
    R s s' := by
  unfold Stack.eventSwitch at h
  refine of_ite ?_ (of_ite ?_ (of_ite ?_ (of_ite ?_ (of_ite ?_ (of_ite ?_ (of_ite ?_ (of_ite ?_
    (of_ite ?_ (of_ite ?_ ?_))))))))) h
  all_goals intro h
  · cases h
    exact hR.commandComplete packet s
  · cases h
    exact hR.withStack s ⟨rfl, rfl⟩
  · cases h
    exact hR.withStack s (numberOfCompletedPackets_script packet s.stack)
  · exact hR.connectionRequest h
  · cases h
    exact hR.connectionComplete packet s
  · cases h
    exact hR.withStack s ⟨rfl, rfl⟩
  · cases h
    exact hR.withStack s ⟨rfl, rfl⟩
  · cases h
    exact hR.disconnectionComplete packet s
  -- A hardware error has no way on.
  · cases h
  · cases h
    exact hR.leMeta packet s
  · cases h
    exact hR.refl s

theorem eventHandler {packet : Packet} (hevent : forwarded packet)
    (h : eventHandler handler packet s = some s') : R s s' := by
  unfold Stack.eventHandler at h
  split at h
  · exact hR.trans (hR.withStack s ⟨rfl, rfl⟩) (hR.hciRun h)
  · obtain ⟨t, ht, hrest⟩ := Option.bind_eq_some_iff.mp h
    exact hR.trans (hR.eventSwitch ht) (hR.trans (hR.forward t hevent) (hR.hciRun hrest))

theorem aclHandler {packet : Packet} (h : aclHandler handler packet s = some s') :
    R s s' := by
  unfold Stack.aclHandler at h
  simp only at h
  split at h
  · cases h
    exact hR.refl s
  · obtain ⟨conn', -, hrest⟩ := Option.bind_eq_some_iff.mp h
    split at hrest
    · exact hR.trans (hR.withStack s ⟨rfl, rfl⟩) (hR.hciRun hrest)
    · cases hrest
      exact hR.withStack s ⟨rfl, rfl⟩

theorem hciPacketHandler {packetType : Byte} {packet : Packet}
    (hevent : packetType = hciEventPacket → forwarded packet)
    (h : hciPacketHandler handler packetType packet s = some s') : R s s' := by
  unfold Stack.hciPacketHandler at h
  split_ifs at h with hev hacl
  · exact hR.eventHandler (hevent hev) h
  · exact hR.aclHandler h
  · cases h
    exact hR.refl s

/-! ### Polls -/

theorem notifySent (hsent : forwarded (eventPacket [daemonEventHciPacketSent]))
    (h : notifySent handler s = some s') : R s s' := by
  unfold Stack.notifySent at h
  split at h
  · exact hR.trans (hR.sent s) (hR.hciPacketHandler (fun _ => hsent) h)
  · cases h
    exact hR.refl s

theorem h4Poll (hsent : forwarded (eventPacket [daemonEventHciPacketSent]))
    {received : Option Received}
    (hreceived : ∀ packet, received = some packet → packet.packetType = hciEventPacket →
      forwarded packet.packet)
    (h : h4Poll handler received s = some s') : R s s' := by
  obtain ⟨t, ht, hrest⟩ := Option.bind_eq_some_iff.mp h
  have hnotified := hR.notifySent hsent ht
  cases received with
  | none =>
    cases hrest
    exact hnotified
  | some packet => exact hR.trans hnotified (hR.hciPacketHandler (hreceived packet rfl) hrest)

end StackRule

end

end EbnAnchor.Stack
