import EbnAnchor.Main.AppSteps

/-!
Which commands a step of the node sends.

The stack sends no command of `main.c`, and leaves its variables alone (`stackOnly_rule`). A
poll is that, but for the answer to a vendor event (`poll_cases`).
-/

namespace EbnAnchor.Main

open EbnAnchor.Stack EbnAnchor.Core

/-- Sent by `main.c` alone. -/
def isGap : Command → Bool
  | .setParam _ _ => true
  | .configDeviceAddr _ _ => true
  | .updateAdvertisingData _ _ _ => true
  | .makeDiscoverable _ _ _ _ _ => true
  | .endDiscoverable => true
  | .deviceDiscoveryRequest _ _ _ => true
  | _ => false

/-- Between the two states, `main.c` did nothing. -/
structure StackOnly (s t : Node) : Prop where
  app : t.app = s.app
  sent : ∃ new, t.sent = s.sent ++ new ∧ ∀ transmission ∈ new, isGap transmission.command = false

namespace StackOnly

variable {s t u : Node}

theorem of_sent_eq (happ : t.app = s.app) (hsent : t.sent = s.sent) : StackOnly s t :=
  ⟨happ, [], by rw [hsent, List.append_nil], fun _ hmem => absurd hmem List.not_mem_nil⟩

theorem trans (h : StackOnly s t) (h' : StackOnly t u) : StackOnly s u := by
  obtain ⟨new, hnew, hgap⟩ := h.sent
  obtain ⟨new', hnew', hgap'⟩ := h'.sent
  refine ⟨h'.app.trans h.app, new ++ new', by rw [hnew', hnew, List.append_assoc], ?_⟩
  intro transmission hmem
  rcases List.mem_append.mp hmem with hmem | hmem
  · exact hgap transmission hmem
  · exact hgap' transmission hmem

theorem withStack (s : Node) (f : HciStack → HciStack) : StackOnly s (s.withStack f) :=
  .of_sent_eq rfl rfl

theorem sendPacket (issuer : Issuer) {command : Command} (h : isGap command = false) (s : Node) :
    StackOnly s (sendPacket issuer command s) := by
  refine ⟨rfl, _, rfl, fun transmission hmem => ?_⟩
  cases List.mem_singleton.mp hmem
  exact h

theorem sendCmd {command : Command} (h : isGap command = false) (s : Node) :
    StackOnly s (hciSendCmd command s) :=
  (sendPacket .hci h s).trans (.of_sent_eq rfl rfl)

end StackOnly

/-- The vendor event in what a poll finds. -/
def vendorEvent : NodeAction → Option Packet
  | .poll (some received) =>
    if received.packetType = hciEventPacket ∧ received.packet 0 = hciLeExtEvent then
      some received.packet
    else none
  | _ => none

theorem vendorEvent_eq_some {received : Option Received} {packet : Packet}
    (h : vendorEvent (.poll received) = some packet) :
    received = some ⟨hciEventPacket, packet⟩ ∧ packet 0 = hciLeExtEvent := by
  cases received with
  | none => cases h
  | some received =>
    obtain ⟨⟨htype, hcode⟩, hpacket⟩ := Option.ite_none_right_eq_some.mp h
    cases hpacket
    exact ⟨by rw [← htype], hcode⟩

/-! ### Commands of one kind -/

/-- The commands of a kind, handed to the transport so far. -/
def sentOf (kind : Command → Bool) (s : Node) : List Transmission :=
  s.sent.filter fun transmission => kind transmission.command

section

variable {kind : Command → Bool} {s t : Node}

theorem StackOnly.sentOf_eq (h : StackOnly s t)
    (hkind : ∀ command, kind command = true → isGap command = true) :
    sentOf kind t = sentOf kind s := by
  obtain ⟨new, hsent, hgap⟩ := h.sent
  have hnone : (new.filter fun transmission => kind transmission.command) = [] := by
    refine List.filter_eq_nil_iff.mpr fun transmission hmem htrue => ?_
    have hgaps := hkind _ htrue
    rw [hgap transmission hmem] at hgaps
    cases hgaps
  rw [sentOf, hsent, List.filter_append, hnone, List.append_nil]
  rfl

theorem gapSendCmd_sent (command : Command) (s : Node) :
    ∃ transmission, (gapSendCmd command s).sent = s.sent ++ [transmission] ∧
      transmission.command = command ∧ transmission.result = (h4SendPacket s.txState).1 :=
  ⟨_, rfl, rfl, rfl⟩

theorem sentOf_gapSendCmd_of_false {command : Command} (h : kind command = false) (s : Node) :
    sentOf kind (gapSendCmd command s) = sentOf kind s := by
  obtain ⟨transmission, hsent, rfl, -⟩ := gapSendCmd_sent command s
  have hfalse : ¬ kind transmission.command = true := by
    rw [h]
    exact Bool.false_ne_true
  rw [sentOf, hsent, List.filter_append,
    List.filter_cons_of_neg (p := fun t : Transmission => kind t.command) hfalse,
    List.filter_nil, List.append_nil]
  rfl

theorem sentOf_gapSendCmd_of_true {command : Command} (h : kind command = true) (s : Node) :
    ∃ transmission, sentOf kind (gapSendCmd command s) = sentOf kind s ++ [transmission] ∧
      transmission.result = (h4SendPacket s.txState).1 := by
  obtain ⟨transmission, hsent, rfl, hresult⟩ := gapSendCmd_sent command s
  refine ⟨transmission, ?_, hresult⟩
  rw [sentOf, hsent, List.filter_append,
    List.filter_cons_of_pos (p := fun t : Transmission => kind t.command) h, List.filter_nil]
  rfl

end

/-! ### What a step sends -/

section

variable {env : EbnEnv} {r : NodeRun env} {s t : Node}

/-- The epoch timer sends no commands but these two kinds. -/
theorem sentOf_epochChangeHandler {kind : Command → Bool}
    (hupdate : ∀ adType len data, kind (.updateAdvertisingData adType len data) = false)
    (hend : kind .endDiscoverable = false) (s : Node) :
    sentOf kind (epochChangeHandler r s) = sentOf kind s := by
  rcases epochChangeHandler_returned (r := r) s with ⟨-, -, heq⟩ | ⟨-, heq⟩
  · rw [heq]
    refine (sentOf_gapSendCmd_of_false (hupdate _ _ _) _).trans ?_
    exact sentOf_gapSendCmd_of_false hend (tick s)
  · rw [heq]
    exact sentOf_gapSendCmd_of_false (hupdate _ _ _) (tick s)

theorem epochChangeHandler_app (s : Node) :
    (epochChangeHandler r s).app.startScan = s.app.startScan ∧
      (epochChangeHandler r s).app.scanningNow = s.app.scanningNow ∧
      (epochChangeHandler r s).app.broadcasting = s.app.broadcasting := by
  rcases epochChangeHandler_returned (r := r) s with ⟨-, -, heq⟩ | ⟨-, heq⟩
  · rw [heq]
    exact ⟨rfl, rfl, rfl⟩
  · rw [heq]
    exact ⟨rfl, rfl, rfl⟩

theorem sentOf_leExtEvent {kind : Command → Bool} {branch : LeBranch}
    (h : ∀ command, branch.command r (blankAddr r s) s.app = some command → kind command = false)
    (packet : Packet) : sentOf kind (leExtEvent r branch packet s) = sentOf kind s := by
  rw [leExtEvent_eq]
  cases hcommand : branch.command r (blankAddr r s) s.app with
  | none => rfl
  | some command => exact sentOf_gapSendCmd_of_false (h command hcommand) s

theorem packetHandler_stackOnly {packet : Packet} (h : packet 0 ≠ hciLeExtEvent) (s : Node) :
    StackOnly s (packetHandler r packet s) := by
  rcases packetHandler_other h s with heq | heq
  · rw [heq]
    exact .of_sent_eq rfl rfl
  · rw [heq]
    exact .sendPacket .deviceInt rfl s

theorem initScript_stackOnly (h : initScript (packetHandler r) s = some t) : StackOnly s t := by
  unfold initScript at h
  split at h
  · cases h
    exact (StackOnly.sendCmd rfl s).trans (.withStack _ _)
  · cases h
  · cases h
  · cases h
    exact .sendCmd rfl s
  · cases h
    exact .sendCmd rfl s
  · cases h
    have hstate : btstackEventState ≠ hciLeExtEvent := by decide
    exact (StackOnly.withStack s _).trans (packetHandler_stackOnly hstate _)
  · cases h
    exact .of_sent_eq rfl rfl

theorem stackOnly_rule :
    StackRule (packetHandler r) (fun packet => packet 0 ≠ hciLeExtEvent) StackOnly where
  refl _ := .of_sent_eq rfl rfl
  trans := .trans
  withStack s _ _ := .withStack s _
  sendCmd {s command} hown _ := by
    refine .sendCmd ?_ s
    cases command
    all_goals first | rfl | cases hown
  runState {s t} _ h := by
    unfold runState at h
    split at h
    · split at h
      · cases h
        exact .of_sent_eq rfl rfl
      · obtain ⟨u, hu, rfl⟩ := Option.map_eq_some_iff.mp h
        exact (initScript_stackOnly hu).trans (.withStack _ _)
    · cases h
      exact .of_sent_eq rfl rfl
  sent _ := .of_sent_eq rfl rfl
  emit s packet hown := by
    refine packetHandler_stackOnly (fun hcode => ?_) s
    rw [hcode] at hown
    exact absurd hown (by decide)
  forward s _ hevent := (StackOnly.withStack s _).trans (packetHandler_stackOnly hevent _)

/-- A poll is the stack alone, or the stack around the answer to a vendor event. -/
theorem poll_cases {received : Option Received}
    (h : nodeStep r s (.poll received) = some t) :
    (vendorEvent (.poll received) = none ∧ StackOnly s t) ∨
    ∃ packet u, vendorEvent (.poll received) = some packet ∧ StackOnly s u ∧
      StackOnly (leExtEvent r (leBranch s.app.paramState packet) packet u) t := by
  by_cases hvendor : ∃ packet, vendorEvent (.poll received) = some packet
  · obtain ⟨packet, hevent⟩ := hvendor
    obtain ⟨rfl, hcode⟩ := vendorEvent_eq_some hevent
    obtain ⟨u, hsent, hrest⟩ := Option.bind_eq_some_iff.mp h
    have hu := stackOnly_rule.notifySent (by decide) hsent
    have hother : packet 0 ∉ stackEvents := by
      rw [hcode]
      decide
    have hrest : hciPacketHandler (packetHandler r) hciEventPacket packet u = some t := hrest
    rw [hciPacketHandler, if_pos rfl, eventHandler_other hother, packetHandler_vendor hcode,
      hu.app] at hrest
    exact Or.inr ⟨packet, u, hevent, hu, stackOnly_rule.hciRun hrest⟩
  · have hnone := Option.eq_none_iff_forall_ne_some.mpr (not_exists.mp hvendor)
    refine Or.inl ⟨hnone, stackOnly_rule.h4Poll (by decide) (fun packet hsome htype hcode => ?_) h⟩
    rw [hsome, vendorEvent, if_pos ⟨htype, hcode⟩] at hnone
    cases hnone

end

end EbnAnchor.Main
