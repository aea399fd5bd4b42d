import EbnAnchor.Main.Dispatch
import EbnAnchor.Main.Polls
import EbnAnchor.Main.Sends

/-!
Discovery.

The controller ends each discovery it accepted with one `GAP_DeviceDiscoveryDone`, and holds a
tested opcode in bytes 5 and 6 of a command status only. `SCANNING_NOW` then counts the
discovery under way (`discovery_exclusive`).
-/

namespace EbnAnchor.Main

open EbnAnchor.Stack EbnAnchor.Core

/-! ### The system -/

def isDiscoveryRequest : Command → Bool
  | .deviceDiscoveryRequest _ _ _ => true
  | _ => false

/-- The discovery requests handed to the transport. -/
def requests (s : Node) : List Transmission := sentOf isDiscoveryRequest s

/-- Those it accepted. -/
def acceptedRequests (s : Node) : List Transmission :=
  (requests s).filter fun t => t.result = 0

structure Discovery where
  node : Node
  /-- The `GAP_DeviceDiscoveryDone` events handled. -/
  done : Nat
  /-- The updates of the scan response handled. -/
  responses : Nat

def isDiscoveryDone (packet : Packet) : Bool :=
  readBt16 packet 2 = gapDeviceDiscoveryDone

def isScanResponseUpdate (packet : Packet) : Bool :=
  readBt16 packet 2 = gapAdvertDataUpdate ∧ packet 5 = 0x00

/-- What the controller keeps to. -/
def Discovery.allows (s : Discovery) (packet : Packet) : Bool :=
  (readBt16 packet 2 = gapHciExtentionCommandStatus ∨ (readBt16 packet 5 ≠ gapSetParam ∧
    readBt16 packet 5 ≠ gapConfigDeviceAddr ∧ readBt16 packet 5 ≠ gapMakeDiscoverable)) ∧
  (isDiscoveryDone packet = true → s.done < (acceptedRequests s.node).length)

section

variable {env : EbnEnv} (r : NodeRun env)

def discoveryStep (s : Discovery) (action : NodeAction) : Option Discovery :=
  if (vendorEvent action).all s.allows then
    (nodeStep r s.node action).map fun node =>
      { node := node
        done := s.done + (vendorEvent action).toList.countP isDiscoveryDone
        responses := s.responses + (vendorEvent action).toList.countP isScanResponseUpdate }
  else none

def discoveryInit : Discovery := ⟨poweredOn, 0, 0⟩

end

/-! ### Branches -/

/-- Under the controller's rules the branch is that of the event code, or one behind an opcode
in a command status. -/
theorem Discovery.allows.branch {s : Discovery} {packet : Packet} (h : s.allows packet = true)
    (paramState : Byte) :
    leBranch paramState packet = eventBranch (readBt16 packet 2) (packet 5) ∨
      (readBt16 packet 2 = gapHciExtentionCommandStatus ∧
        (leBranch paramState packet).OnOpcode) := by
  by_cases htested : readBt16 packet 2 ≠ gapDeviceInitDone ∧
      TestedOpcode paramState (readBt16 packet 5)
  · refine Or.inr ⟨?_, (onOpcode_iff _ _).mpr htested⟩
    refine (of_decide_eq_true h).1.resolve_right fun ⟨hparam, haddr, hdiscoverable⟩ => ?_
    rcases htested.2 with ⟨hopcode, -⟩ | hopcode | hopcode
    · exact hparam hopcode
    · exact haddr hopcode
    · exact hdiscoverable hopcode
  · exact Or.inl (by rw [leBranch_eq, if_neg htested])

theorem Discovery.allows.done_iff {s : Discovery} {packet : Packet} (h : s.allows packet = true)
    (paramState : Byte) : leBranch paramState packet = .deviceDiscoveryDone ↔
      isDiscoveryDone packet = true := by
  rw [isDiscoveryDone, decide_eq_true_iff]
  rcases Discovery.allows.branch h paramState with heq | ⟨hstatus, hon⟩
  · rw [heq]
    exact eventBranch_eq_done_iff _ _
  · refine iff_of_false (fun hdone => ?_) (by rw [hstatus]; decide)
    rw [hdone] at hon
    exact hon

theorem Discovery.allows.response_iff {s : Discovery} {packet : Packet}
    (h : s.allows packet = true) (paramState : Byte) :
    leBranch paramState packet = .scanResponseUpdate ↔ isScanResponseUpdate packet = true := by
  rw [isScanResponseUpdate, decide_eq_true_iff]
  rcases Discovery.allows.branch h paramState with heq | ⟨hstatus, hon⟩
  · rw [heq]
    exact eventBranch_eq_response_iff _ _
  · refine iff_of_false (fun hresponse => ?_) fun hresponse => ?_
    · rw [hresponse] at hon
      exact hon
    · rw [hstatus] at hresponse
      exact absurd hresponse.1 (by decide)

/-! ### The invariant -/

/-- The scan variables after `done` discoveries and `responses` scan responses. -/
structure DiscoveryInv (s : Discovery) : Prop where
  accepted : ∀ t ∈ requests s.node, t.result = 0
  count : (requests s.node).length = s.done + s.node.app.scanningNow.toNat
  flag : s.node.app.scanningNow = 0 ∨ s.node.app.scanningNow = 1
  started : s.node.app.startScan ≠ 0 ∨ requests s.node ≠ [] → 0 < s.responses

namespace DiscoveryInv

variable {s : Discovery}

theorem acceptedRequests_eq (h : DiscoveryInv s) :
    acceptedRequests s.node = requests s.node := by
  refine List.filter_eq_self.mpr fun t hmem => ?_
  exact decide_eq_true (h.accepted t hmem)

/-- A step that leaves the scan variables and the requests alone. -/
theorem of_same (h : DiscoveryInv s) {t : Node} {done responses : Nat}
    (hrequests : requests t = requests s.node)
    (hstart : t.app.startScan = s.node.app.startScan)
    (hscan : t.app.scanningNow = s.node.app.scanningNow) (hdone : done = s.done)
    (hresponses : s.responses ≤ responses) : DiscoveryInv ⟨t, done, responses⟩ where
  accepted := by
    rw [hrequests]
    exact h.accepted
  count := by
    rw [hrequests, hscan, hdone]
    exact h.count
  flag := by
    rw [hscan]
    exact h.flag
  started := by
    rw [hrequests, hstart]
    exact fun hor => Nat.lt_of_lt_of_le (h.started hor) hresponses

end DiscoveryInv

section

variable {env : EbnEnv} {r : NodeRun env} {s s' : Discovery}

/-- The branches send no discovery request. -/
theorem requests_leExtEvent (branch : LeBranch) (packet : Packet) (s : Node) :
    requests (leExtEvent r branch packet s) = requests s := by
  refine sentOf_leExtEvent (fun command hcommand => ?_) packet
  cases branch with
  | scanResponseUpdate =>
    simp only [LeBranch.command] at hcommand
    split at hcommand
    · cases hcommand
      rfl
    · cases hcommand
  | makeDiscoverable | deviceDiscoveryDone | ignored => cases hcommand
  | _ =>
    cases hcommand
    rfl

theorem StackOnly.requests_eq {s t : Node} (h : StackOnly s t) : requests t = requests s := by
  refine h.sentOf_eq fun command hrequest => ?_
  cases command
  all_goals first | rfl | cases hrequest

/-- What a step may do about requests: nothing, or one that is accepted, with no discovery
under way, after the first scan response. -/
def RequestsAlone (s : Discovery) (t : Node) : Prop :=
  requests t = requests s.node ∨ ∃ request, requests t = requests s.node ++ [request] ∧
    request.result = 0 ∧ (acceptedRequests s.node).length = s.done ∧ 0 < s.responses

namespace DiscoveryInv

theorem scanTimer (h : DiscoveryInv s) :
    DiscoveryInv ⟨scanHandler s.node, s.done, s.responses⟩ ∧
      RequestsAlone s (scanHandler s.node) := by
  unfold scanHandler
  split
  · next hscan =>
    obtain ⟨hcan, hstart, hnow⟩ := hscan
    have hidle := ((hciCanSendPacketNow_ne_zero_iff s.node).mp hcan).1
    have hkind : isDiscoveryRequest (.deviceDiscoveryRequest 0x03 0x00 0x00) = true := rfl
    obtain ⟨request, hsent, hresult⟩ := sentOf_gapSendCmd_of_true hkind s.node
    rw [hidle] at hresult
    have hstarted : 0 < s.responses := h.started (Or.inl (by rw [hstart]; decide))
    have hcount := h.count
    rw [hnow] at hcount
    have hrequests : requests (withApp
        (gapSendCmd (.deviceDiscoveryRequest 0x03 0x00 0x00) s.node) fun app =>
          { app with scanningNow := 1 }) = requests s.node ++ [request] := hsent
    refine ⟨⟨?_, ?_, Or.inr rfl, fun _ => hstarted⟩, Or.inr ⟨request, hrequests, hresult, ?_,
      hstarted⟩⟩
    · intro t hmem
      rw [hrequests] at hmem
      rcases List.mem_append.mp hmem with hmem | hmem
      · exact h.accepted t hmem
      · cases List.mem_singleton.mp hmem
        exact hresult
    · rw [hrequests, List.length_append, hcount]
      rfl
    · rw [h.acceptedRequests_eq]
      exact hcount
  · exact ⟨h, Or.inl rfl⟩

theorem epochTimer (h : DiscoveryInv s) :
    DiscoveryInv ⟨epochChangeHandler r s.node, s.done, s.responses⟩ ∧
      RequestsAlone s (epochChangeHandler r s.node) := by
  have hrequests : requests (epochChangeHandler r s.node) = requests s.node :=
    sentOf_epochChangeHandler (fun _ _ _ => rfl) rfl s.node
  obtain ⟨hstart, hscan, -⟩ := epochChangeHandler_app (r := r) s.node
  exact ⟨h.of_same hrequests hstart hscan rfl (Nat.le_refl _), Or.inl hrequests⟩

/-- A vendor event the controller may send. -/
theorem vendor (h : DiscoveryInv s) {packet : Packet} (hallows : s.allows packet = true)
    {t : Node} (hrequests : requests t = requests s.node)
    (happ : t.app = (leBranch s.node.app.paramState packet).effect packet s.node.app) :
    DiscoveryInv ⟨t, s.done + [packet].countP isDiscoveryDone,
      s.responses + [packet].countP isScanResponseUpdate⟩ := by
  have hdone := Discovery.allows.done_iff hallows s.node.app.paramState
  have hresponse := Discovery.allows.response_iff hallows s.node.app.paramState
  rw [List.countP_singleton, List.countP_singleton]
  cases hbranch : leBranch s.node.app.paramState packet with
  | deviceDiscoveryDone =>
    have hevent := hdone.mp hbranch
    have hlt := (of_decide_eq_true hallows).2 hevent
    rw [h.acceptedRequests_eq, h.count] at hlt
    have hnow : s.node.app.scanningNow = 1 := h.flag.resolve_left fun hzero => by
      rw [hzero] at hlt
      exact absurd hlt (Nat.lt_irrefl _)
    have hstarted : 0 < s.responses := h.started (Or.inr fun hnil => by
      have hcount := h.count
      rw [hnil, hnow] at hcount
      cases hcount)
    rw [hbranch] at happ
    refine ⟨?_, ?_, ?_, fun _ => Nat.lt_of_lt_of_le hstarted (Nat.le_add_right _ _)⟩
    · rw [hrequests]
      exact h.accepted
    · rw [hrequests, h.count, happ, hnow, hevent]
      rfl
    · rw [happ]
      exact Or.inl rfl
  | scanResponseUpdate =>
    have hevent := hresponse.mp hbranch
    have hother : ¬ isDiscoveryDone packet = true := fun hdone' => by
      rw [hdone.mpr hdone'] at hbranch
      cases hbranch
    rw [hbranch] at happ
    rw [if_neg hother, if_pos hevent]
    refine ⟨?_, ?_, ?_, fun _ => Nat.succ_pos _⟩
    · rw [hrequests]
      exact h.accepted
    · rw [hrequests, h.count, happ]
      rfl
    · rw [happ]
      exact h.flag
  | _ =>
    have hother : ¬ isDiscoveryDone packet = true := fun hdone' => by
      rw [hdone.mpr hdone'] at hbranch
      cases hbranch
    rw [hbranch] at happ
    rw [if_neg hother]
    exact h.of_same hrequests (by rw [happ]; rfl) (by rw [happ]; rfl) rfl (Nat.le_add_right _ _)

/-- What one step does. -/
theorem step (h : DiscoveryInv s) {action : NodeAction}
    (hstep : discoveryStep r s action = some s') :
    DiscoveryInv s' ∧ RequestsAlone s s'.node := by
  unfold discoveryStep at hstep
  split at hstep
  · next hallows =>
    obtain ⟨t, hnode, rfl⟩ := Option.map_eq_some_iff.mp hstep
    cases action with
    | scanTimer =>
      cases hnode
      exact h.scanTimer
    | epochTimer =>
      obtain ⟨-, rfl⟩ := nodeStep_epochTimer hnode
      exact h.epochTimer
    | poll received =>
      rcases poll_cases hnode with ⟨hnone, honly⟩ | ⟨packet, u, hevent, honly, honly'⟩
      · rw [hnone]
        refine ⟨h.of_same honly.requests_eq ?_ ?_ rfl (Nat.le_refl _), Or.inl honly.requests_eq⟩
        · rw [honly.app]
        · rw [honly.app]
      · rw [hevent] at hallows ⊢
        have hrequests : requests t = requests s.node := by
          rw [honly'.requests_eq, requests_leExtEvent, honly.requests_eq]
        refine ⟨h.vendor hallows hrequests ?_, Or.inl hrequests⟩
        rw [honly'.app, leExtEvent_app, honly.app]
  · cases hstep

theorem init : DiscoveryInv discoveryInit := by
  have hnone : requests poweredOn = [] := rfl
  refine ⟨?_, rfl, Or.inl rfl, ?_⟩
  · intro t hmem
    rw [discoveryInit, hnone] at hmem
    cases hmem
  · rintro (hstart | hrequest)
    · exact absurd rfl hstart
    · exact absurd hnone hrequest

end DiscoveryInv

end

/-- In every run, `SCANNING_NOW` is the number of accepted discovery requests whose end is not
handled, no request is rejected, and a request is issued only with none under way and after
the first scan response. -/
theorem discovery_exclusive {env : EbnEnv} (r : NodeRun env) {actions : List NodeAction}
    {s : Discovery} (h : Steps.run (discoveryStep r) discoveryInit actions = some s) :
    ((s.node.app.scanningNow = 0 ∨ s.node.app.scanningNow = 1) ∧
      (acceptedRequests s.node).length = s.done + s.node.app.scanningNow.toNat) ∧
    (∀ t ∈ requests s.node, t.result = 0) ∧
    ∀ action s', discoveryStep r s action = some s' →
      requests s'.node = requests s.node ∨ ∃ request,
        requests s'.node = requests s.node ++ [request] ∧ request.result = 0 ∧
          (acceptedRequests s.node).length = s.done ∧ 0 < s.responses := by
  have hinv : DiscoveryInv s := Steps.run_invariant
    (fun _ _ _ hs hstep => (DiscoveryInv.step hs hstep).1) h DiscoveryInv.init
  refine ⟨⟨hinv.flag, ?_⟩, hinv.accepted, fun action s' hstep => (hinv.step hstep).2⟩
  rw [hinv.acceptedRequests_eq]
  exact hinv.count

/-- A scan response, the end of the transmission that answers it, and the scan timer. -/
theorem discovery_exclusive_first :
    ∃ r : NodeRun onesEnv, ∃ s, Steps.run (discoveryStep r) discoveryInit
      [.poll (some ⟨hciEventPacket, scanResponseUpdated⟩), .poll none, .scanTimer] = some s ∧
      s.node.app.scanningNow = 1 ∧ (acceptedRequests s.node).length = s.done + 1 := by
  obtain ⟨r, hcalls⟩ := exists_onesNodeRun 1
  let s₁ : Node := leExtEvent r .scanResponseUpdate scanResponseUpdated (idled poweredOn)
  have hwaits : Waits poweredOn := fun _ => by rw [poweredOn_substate]; decide
  have hsettled₁ : Settled s₁ := leExtEvent_settled poweredOn_settled.idled _ _
  have hwaits₁ : Waits s₁ := leExtEvent_waits (s := idled poweredOn) hwaits _ _
  have hvendor : nodeStep r poweredOn (.poll (some ⟨hciEventPacket, scanResponseUpdated⟩)) =
      some s₁ := poll_vendor poweredOn_settled hwaits rfl
  have hpoll : nodeStep r s₁ (.poll none) = some (idled s₁) := by
    rw [nodeStep, h4Poll, notifySent_waits hsettled₁ hwaits₁]
    rfl
  have hstep₁ : discoveryStep r discoveryInit
      (.poll (some ⟨hciEventPacket, scanResponseUpdated⟩)) = some ⟨s₁, 0, 1⟩ := by
    rw [discoveryStep, if_pos (by rfl), discoveryInit, hvendor]
    rfl
  have hstep₂ : discoveryStep r ⟨s₁, 0, 1⟩ (.poll none) = some ⟨idled s₁, 0, 1⟩ := by
    rw [discoveryStep, if_pos (by rfl), hpoll]
    rfl
  have hrun : Steps.run (discoveryStep r) discoveryInit
      [.poll (some ⟨hciEventPacket, scanResponseUpdated⟩), .poll none, .scanTimer] =
        some ⟨scanHandler (idled s₁), 0, 1⟩ := by
    rw [Steps.run, hstep₁, Option.bind_some, Steps.run, hstep₂]
    rfl
  have hnow : (scanHandler (idled s₁)).app.scanningNow = 1 := rfl
  have hcount := (discovery_exclusive r hrun).1.2
  rw [hnow] at hcount
  exact ⟨r, _, hrun, hnow, hcount⟩

end EbnAnchor.Main
