import EbnAnchor.Main.Dispatch
import EbnAnchor.Main.Polls
import EbnAnchor.Main.Sends

/-!
The broadcasting flag.

The controller carries out the make- and end-discoverable commands it accepted in order, and
its answers arrive in order. `packet_handler` raises `BROADCASTING` at every answer to a
make-discoverable command and does not look at the status in it, so that the flag tracks the
controller when a make-discoverable command fails only while the controller broadcasts, and
the command is not issued again while its answer is on the way (`broadcasting_tracks`). A
first command that fails leaves the node dark (`makeDiscoverable_fails`).
-/

namespace EbnAnchor.Main

open EbnAnchor.Stack EbnAnchor.Core

/-! ### The system -/

def isMakeDiscoverable : Command → Bool
  | .makeDiscoverable _ _ _ _ _ => true
  | _ => false

def isEndDiscoverable : Command → Bool
  | .endDiscoverable => true
  | _ => false

/-- An answer on the way to the node. -/
inductive BroadcastAnswer where
  /-- The command status of a make-discoverable command. -/
  | made (status : Byte)
  /-- `GAP_EndDiscoverable_Event`. -/
  | ended

def BroadcastAnswer.isMade : BroadcastAnswer → Bool
  | made _ => true
  | ended => false

/-- The packet holds the answer. -/
def BroadcastAnswer.Matches (packet : Packet) : BroadcastAnswer → Prop
  | made status => packet 0 = hciLeExtEvent ∧
    readBt16 packet 2 = gapHciExtentionCommandStatus ∧ packet 4 = status ∧
    readBt16 packet 5 = gapMakeDiscoverable
  | ended => packet 0 = hciLeExtEvent ∧ readBt16 packet 2 = gapEndDiscoverableEvent ∧
    readBt16 packet 5 ∉ [gapSetParam, gapConfigDeviceAddr, gapMakeDiscoverable]

instance (packet : Packet) : DecidablePred (BroadcastAnswer.Matches packet)
  | .made _ => inferInstanceAs (Decidable (_ ∧ _ ∧ _ ∧ _))
  | .ended => inferInstanceAs (Decidable (_ ∧ _ ∧ _))

structure Broadcast where
  node : Node
  /-- The accepted make- and end-discoverable commands the controller has not come to. -/
  pending : List Command
  answers : List BroadcastAnswer
  /-- The controller broadcasts. -/
  broadcasting : Bool

inductive BroadcastAction where
  /-- The controller carries out its next command, with this status. -/
  | execute (status : Byte)
  /-- The next answer arrives. -/
  | deliver (packet : Packet)
  /-- Anything else at the node. -/
  | other (action : NodeAction)

/-- No answer to these commands, and no tested opcode outside a command status. -/
def isOther (packet : Packet) : Bool :=
  readBt16 packet 2 ≠ gapEndDiscoverableEvent ∧
    if readBt16 packet 2 = gapHciExtentionCommandStatus then
      readBt16 packet 5 ≠ gapMakeDiscoverable
    else readBt16 packet 5 ∉ [gapSetParam, gapConfigDeviceAddr, gapMakeDiscoverable]

/-- The controller's next command, carried out. -/
def Broadcast.execute (status : Byte) (s : Broadcast) : Option Broadcast :=
  match s.pending with
  | [] => none
  | .makeDiscoverable _ _ _ _ _ :: pending =>
    some { s with
      pending := pending
      answers := s.answers ++ [.made status]
      broadcasting := if status = 0 then true else s.broadcasting }
  | _ :: pending =>
    some (if status = 0 then { s with
        pending := pending
        answers := s.answers ++ [.ended]
        broadcasting := false }
      else { s with pending := pending })

section

variable {env : EbnEnv} (r : NodeRun env)

/-- A step of the node; what it sends and the transport accepts is pending then. -/
def Broadcast.nodeStep (s : Broadcast) (action : NodeAction) : Option Broadcast :=
  (Main.nodeStep r s.node action).map fun node =>
    { s with
      node := node
      pending := s.pending ++ (accepted (node.sent.drop s.node.sent.length)).filter
        fun command => isMakeDiscoverable command || isEndDiscoverable command }

def broadcastStep (s : Broadcast) : BroadcastAction → Option Broadcast
  | .execute status => s.execute status
  | .deliver packet =>
    match s.answers with
    | [] => none
    | answer :: answers =>
      if answer.Matches packet then
        { s with answers := answers }.nodeStep r (.poll (some ⟨hciEventPacket, packet⟩))
      else none
  | .other action =>
    if (vendorEvent action).all isOther then s.nodeStep r action else none

def broadcastInit : Broadcast := ⟨poweredOn, [], [], false⟩

/-- A make-discoverable command fails only while the controller broadcasts; and the update of
the scan response, while `BROADCASTING` is 0, is not handled when the answer to a
make-discoverable command arrives last of the answers on the way. -/
def BroadcastSafe (s : Broadcast) : BroadcastAction → Prop
  | .execute status =>
    s.pending.head?.all isEndDiscoverable = true ∨ status = 0 ∨ s.broadcasting = true
  | .deliver _ => True
  | .other action => ∀ packet, vendorEvent action = some packet →
    readBt16 packet 2 = gapAdvertDataUpdate → packet 5 = 0x00 →
    s.node.app.broadcasting = 0 → s.answers.getLast?.all (fun answer => !answer.isMade) = true

end

/-! ### Branches -/

theorem isOther_branch {packet : Packet} (h : isOther packet = true) (paramState : Byte) :
    leBranch paramState packet ≠ .makeDiscoverable ∧
      leBranch paramState packet ≠ .endDiscoverable := by
  obtain ⟨hend, hopcode⟩ := of_decide_eq_true h
  rw [leBranch_eq]
  split
  · next htested =>
    unfold opcodeBranch
    split_ifs at hopcode with hstatus
    · rw [if_neg hopcode]
      split_ifs
      all_goals exact ⟨nofun, nofun⟩
    · rcases htested.2 with ⟨hset, -⟩ | hconfig | hmake
      · exact absurd (hset ▸ List.mem_cons_self ..) hopcode
      · exact absurd (hconfig ▸ List.mem_cons_of_mem _ (List.mem_cons_self ..)) hopcode
      · exact absurd (hmake ▸ List.mem_cons_of_mem _ (List.mem_cons_of_mem _
          (List.mem_cons_self ..))) hopcode
  · unfold eventBranch
    rw [if_neg hend]
    split_ifs
    all_goals exact ⟨nofun, nofun⟩

theorem BroadcastAnswer.Matches.branch {packet : Packet} {answer : BroadcastAnswer}
    (h : answer.Matches packet) (paramState : Byte) :
    leBranch paramState packet = if answer.isMade then .makeDiscoverable else .endDiscoverable := by
  cases answer with
  | made status =>
    obtain ⟨-, hstatus, -, hopcode⟩ := h
    have htested : readBt16 packet 2 ≠ gapDeviceInitDone ∧
        TestedOpcode paramState (readBt16 packet 5) :=
      ⟨by rw [hstatus]; decide, Or.inr (Or.inr hopcode)⟩
    rw [leBranch_eq, if_pos htested, hopcode]
    rfl
  | ended =>
    obtain ⟨-, hevent, hopcode⟩ := h
    have huntested : ¬ TestedOpcode paramState (readBt16 packet 5) := by
      rintro (⟨hset, -⟩ | hconfig | hmake)
      · exact hopcode (hset ▸ List.mem_cons_self ..)
      · exact hopcode (hconfig ▸ List.mem_cons_of_mem _ (List.mem_cons_self ..))
      · exact hopcode (hmake ▸ List.mem_cons_of_mem _ (List.mem_cons_of_mem _
          (List.mem_cons_self ..)))
    rw [leBranch_eq, if_neg fun hall => huntested hall.2, hevent]
    rfl

/-! ### The invariant -/

/-- `BROADCASTING` after the answers on the way. -/
def Broadcast.expected (s : Broadcast) : Bool :=
  (s.answers.getLast?.map BroadcastAnswer.isMade).getD (s.node.app.broadcasting = 1)

/-- Once all answers are in, the flag is right. -/
structure BroadcastInv (s : Broadcast) : Prop where
  flag : s.node.app.broadcasting = 0 ∨ s.node.app.broadcasting = 1
  expected : s.expected = s.broadcasting

section

variable {env : EbnEnv} {r : NodeRun env} {s s' : Broadcast}

/-- Only the update of the scan response makes the node discoverable. -/
theorem sentOf_make_leExtEvent {branch : LeBranch} {s : Node} {packet : Packet}
    (h : branch ≠ .scanResponseUpdate ∨ s.app.broadcasting ≠ 0) :
    sentOf isMakeDiscoverable (leExtEvent r branch packet s) = sentOf isMakeDiscoverable s := by
  refine sentOf_leExtEvent (fun command hcommand => ?_) packet
  cases branch with
  | scanResponseUpdate =>
    simp only [LeBranch.command, if_neg (h.resolve_left (not_not.mpr rfl))] at hcommand
    cases hcommand
  | makeDiscoverable | deviceDiscoveryDone | ignored => cases hcommand
  | _ =>
    cases hcommand
    rfl

theorem StackOnly.make_eq {s t : Node} (h : StackOnly s t) :
    sentOf isMakeDiscoverable t = sentOf isMakeDiscoverable s := by
  refine h.sentOf_eq fun command hmake => ?_
  cases command
  all_goals first | rfl | cases hmake

theorem scanHandler_app (s : Node) :
    (scanHandler s).app.broadcasting = s.app.broadcasting ∧
      sentOf isMakeDiscoverable (scanHandler s) = sentOf isMakeDiscoverable s := by
  unfold scanHandler
  split
  · exact ⟨rfl, sentOf_gapSendCmd_of_false rfl s⟩
  · exact ⟨rfl, rfl⟩

/-- What a step at the node does, but for the answers. -/
theorem nodeStep_other {action : NodeAction} {s t : Node}
    (hother : (vendorEvent action).all isOther = true)
    (h : nodeStep r s action = some t) :
    t.app.broadcasting = s.app.broadcasting ∧
      (sentOf isMakeDiscoverable t = sentOf isMakeDiscoverable s ∨
        ∃ packet, vendorEvent action = some packet ∧ readBt16 packet 2 = gapAdvertDataUpdate ∧
          packet 5 = 0x00 ∧ s.app.broadcasting = 0) := by
  cases action with
  | scanTimer =>
    cases h
    exact ⟨(scanHandler_app s).1, Or.inl (scanHandler_app s).2⟩
  | epochTimer =>
    obtain ⟨-, rfl⟩ := nodeStep_epochTimer h
    exact ⟨(epochChangeHandler_app s).2.2,
      Or.inl (sentOf_epochChangeHandler (fun _ _ _ => rfl) rfl s)⟩
  | poll received =>
    rcases poll_cases h with ⟨-, honly⟩ | ⟨packet, u, hevent, honly, honly'⟩
    · exact ⟨by rw [honly.app], Or.inl honly.make_eq⟩
    · rw [hevent] at hother
      obtain ⟨hmake, hend⟩ := isOther_branch hother s.app.paramState
      constructor
      · rw [honly'.app, leExtEvent_app, honly.app]
        cases hbranch : leBranch s.app.paramState packet with
        | makeDiscoverable => exact absurd hbranch hmake
        | endDiscoverable => exact absurd hbranch hend
        | _ => rfl
      · rw [honly'.make_eq, ← honly.make_eq]
        by_cases hscan : leBranch s.app.paramState packet = .scanResponseUpdate ∧
            s.app.broadcasting = 0
        · refine Or.inr ⟨packet, hevent, ?_⟩
          obtain ⟨hcode, hbyte⟩ := (leBranch_eq_response_iff _ _).mp hscan.1
          exact ⟨hcode, hbyte, hscan.2⟩
        · refine Or.inl (sentOf_make_leExtEvent ?_)
          rw [honly.app]
          exact (not_and_or.mp hscan)

/-- What an answer does at the node. -/
theorem nodeStep_answer {answer : BroadcastAnswer} {packet : Packet} {s t : Node}
    (hmatches : answer.Matches packet)
    (h : nodeStep r s (.poll (some ⟨hciEventPacket, packet⟩)) = some t) :
    t.app.broadcasting = (if answer.isMade then 1 else 0) ∧
      sentOf isMakeDiscoverable t = sentOf isMakeDiscoverable s := by
  have hcode : packet 0 = hciLeExtEvent := by
    cases answer with
    | made status => exact hmatches.1
    | ended => exact hmatches.1
  have hvendor : vendorEvent (.poll (some ⟨hciEventPacket, packet⟩)) = some packet :=
    if_pos ⟨rfl, hcode⟩
  rcases poll_cases h with ⟨hnone, -⟩ | ⟨packet', u, hevent, honly, honly'⟩
  · rw [hvendor] at hnone
    cases hnone
  · cases hvendor.symm.trans hevent
    rw [honly'.app, honly'.make_eq, ← honly.make_eq, hmatches.branch, leExtEvent_app]
    cases answer with
    | made status => exact ⟨rfl, sentOf_make_leExtEvent (Or.inl nofun)⟩
    | ended => exact ⟨rfl, sentOf_make_leExtEvent (Or.inl nofun)⟩

namespace BroadcastInv

theorem execute (h : BroadcastInv s) {status : Byte}
    (hsafe : BroadcastSafe s (.execute status)) (hstep : s.execute status = some s') :
    BroadcastInv s' ∧ s'.node = s.node := by
  unfold Broadcast.execute at hstep
  split at hstep
  · cases hstep
  · next hpending =>
    cases hstep
    have hexpected : ∀ pending broadcasting, Broadcast.expected
        ⟨s.node, pending, s.answers ++ [.made status], broadcasting⟩ = true := by
      intro pending broadcasting
      rw [Broadcast.expected, List.getLast?_append]
      rfl
    refine ⟨⟨h.flag, ?_⟩, rfl⟩
    rw [hexpected]
    rcases hsafe with hend | hstatus | hon
    · rw [hpending] at hend
      cases hend
    · exact (if_pos hstatus).symm
    · rw [hon, ite_self]
  · cases hstep
    split
    · refine ⟨⟨h.flag, ?_⟩, rfl⟩
      rw [Broadcast.expected, List.getLast?_append]
      rfl
    · exact ⟨⟨h.flag, h.expected⟩, rfl⟩

/-- What one step does. -/
theorem step (h : BroadcastInv s) {action : BroadcastAction} (hsafe : BroadcastSafe s action)
    (hstep : broadcastStep r s action = some s') :
    BroadcastInv s' ∧ (sentOf isMakeDiscoverable s'.node ≠ sentOf isMakeDiscoverable s.node →
      s.broadcasting = false) := by
  cases action with
  | execute status =>
    obtain ⟨hinv, hnode⟩ := h.execute hsafe hstep
    exact ⟨hinv, fun hne => absurd (by rw [hnode]) hne⟩
  | deliver packet =>
    simp only [broadcastStep] at hstep
    split at hstep
    · cases hstep
    · next answer answers hanswers =>
      split at hstep
      · next hmatches =>
        obtain ⟨t, hnode, rfl⟩ := Option.map_eq_some_iff.mp hstep
        obtain ⟨hflag, hsame⟩ := nodeStep_answer hmatches hnode
        refine ⟨⟨?_, ?_⟩, fun hne => absurd hsame hne⟩
        · rw [hflag]
          cases answer with
          | made status => exact Or.inr rfl
          | ended => exact Or.inl rfl
        · have hexpected := h.expected
          rw [Broadcast.expected, hanswers, List.getLast?_cons] at hexpected
          rw [Broadcast.expected, hflag, ← hexpected]
          cases answers.getLast? with
          | some last => rfl
          | none =>
            cases answer with
            | made status => rfl
            | ended => rfl
      · cases hstep
  | other action =>
    simp only [broadcastStep] at hstep
    split at hstep
    · next hother =>
      obtain ⟨t, hnode, rfl⟩ := Option.map_eq_some_iff.mp hstep
      obtain ⟨hflag, hmake⟩ := nodeStep_other hother hnode
      refine ⟨⟨?_, ?_⟩, fun hne => ?_⟩
      · rw [hflag]
        exact h.flag
      · rw [Broadcast.expected, hflag]
        exact h.expected
      · obtain ⟨packet, hevent, hcode, hbyte, hoff⟩ := hmake.resolve_left hne
        have hlast := hsafe packet hevent hcode hbyte hoff
        have hexpected := h.expected
        rw [Broadcast.expected, hoff] at hexpected
        rw [← hexpected]
        cases hanswers : s.answers.getLast? with
        | none => rfl
        | some answer =>
          rw [hanswers] at hlast
          exact (Bool.not_eq_true' _).mp hlast
    · cases hstep

theorem init : BroadcastInv broadcastInit := ⟨Or.inl rfl, rfl⟩

end BroadcastInv

end

/-- In a run whose steps are safe, `BROADCASTING` is 1 exactly when the controller broadcasts,
whenever nothing is on the way, and make-discoverable is never issued while it broadcasts. -/
theorem broadcasting_tracks {env : EbnEnv} (r : NodeRun env) {actions : List BroadcastAction}
    {s : Broadcast} (h : Steps.run (broadcastStep r) broadcastInit actions = some s)
    (hsafe : Steps.Meets (broadcastStep r) BroadcastSafe broadcastInit actions) :
    (s.pending = [] → s.answers = [] →
      (s.node.app.broadcasting = 1 ↔ s.broadcasting = true)) ∧
    ∀ action s', BroadcastSafe s action → broadcastStep r s action = some s' →
      sentOf isMakeDiscoverable s'.node ≠ sentOf isMakeDiscoverable s.node →
        s.broadcasting = false := by
  have hinv : BroadcastInv s := Steps.run_invariant_of_meets
    (fun _ _ _ hs hcond hstep => (BroadcastInv.step hs hcond hstep).1) hsafe h BroadcastInv.init
  refine ⟨fun _ hanswers => ?_, fun action s' hcond hstep => (hinv.step hcond hstep).2⟩
  rw [← hinv.expected, Broadcast.expected, hanswers]
  exact decide_eq_true_iff.symm

/-- The command status of a make-discoverable command. -/
def makeStatus (status : Byte) : Packet :=
  eventPacket [0xFF, 5, 0x7F, 0x06, status, 0x06, 0xFE]

/-- The first make-discoverable command, answered with the status: afterwards nothing is on
the way, and `BROADCASTING` is 1. -/
theorem broadcast_answered (r : NodeRun onesEnv) (status : Byte) :
    ∃ s₁ s₂ s₃,
      broadcastStep r broadcastInit
        (.other (.poll (some ⟨hciEventPacket, scanResponseUpdated⟩))) = some s₁ ∧
      broadcastStep r s₁ (.execute status) = some s₂ ∧
      broadcastStep r s₂ (.deliver (makeStatus status)) = some s₃ ∧
      s₃.pending = [] ∧ s₃.answers = [] ∧ s₃.node.app.broadcasting = 1 ∧
      s₃.broadcasting = if status = 0 then true else false := by
  let node₁ : Node := leExtEvent r .scanResponseUpdate scanResponseUpdated (idled poweredOn)
  let node₂ : Node := leExtEvent r .makeDiscoverable (makeStatus status) (idled node₁)
  have hwaits : Waits poweredOn := fun _ => by rw [poweredOn_substate]; decide
  have hsettled₁ : Settled node₁ := leExtEvent_settled poweredOn_settled.idled _ _
  have hwaits₁ : Waits node₁ := leExtEvent_waits (s := idled poweredOn) hwaits _ _
  have hdelivers : Delivers poweredOn node₁
      [.makeDiscoverable 0x03 0x01 (blankAddr r (idled poweredOn)) 0x07 0] :=
    leExtEvent_delivers (s := idled poweredOn) rfl .scanResponseUpdate scanResponseUpdated
  have hcode : (0x06 : Byte) ++ (0x7F : Byte) = gapHciExtentionCommandStatus := by decide
  have hopcode : (0xFE : Byte) ++ (0x06 : Byte) = gapMakeDiscoverable := by decide
  have hmatches : (BroadcastAnswer.made status).Matches (makeStatus status) :=
    ⟨rfl, hcode, rfl, hopcode⟩
  have hvendor : nodeStep r poweredOn (.poll (some ⟨hciEventPacket, scanResponseUpdated⟩)) =
      some node₁ := poll_vendor poweredOn_settled hwaits rfl
  have hanswer : nodeStep r node₁ (.poll (some ⟨hciEventPacket, makeStatus status⟩)) =
      some node₂ := by
    rw [poll_vendor hsettled₁ hwaits₁ rfl, hmatches.branch]
    rfl
  refine ⟨⟨node₁, [.makeDiscoverable 0x03 0x01 (blankAddr r (idled poweredOn)) 0x07 0], [], false⟩,
    ⟨node₁, [], [.made status], if status = 0 then true else false⟩,
    ⟨node₂, [], [], if status = 0 then true else false⟩, ?_, rfl, ?_, rfl, rfl, rfl, rfl⟩
  · rw [broadcastStep, if_pos (by rfl), Broadcast.nodeStep, broadcastInit, hvendor,
      Option.map_some, hdelivers.drop_eq]
    rfl
  · simp only [broadcastStep]
    rw [if_pos hmatches, Broadcast.nodeStep, hanswer, Option.map_some]
    have hnone : Delivers node₁ node₂ [] := .of_sent_eq rfl
    rw [hnone.drop_eq]
    rfl

/-- The run to the first broadcast. -/
def firstBroadcast (status : Byte) : List BroadcastAction :=
  [.other (.poll (some ⟨hciEventPacket, scanResponseUpdated⟩)), .execute status,
    .deliver (makeStatus status)]

theorem broadcasting_tracks_first :
    ∃ r : NodeRun onesEnv, ∃ s,
      Steps.run (broadcastStep r) broadcastInit (firstBroadcast 0) = some s ∧
      (s.node.app.broadcasting = 1 ↔ s.broadcasting = true) := by
  obtain ⟨r, hcalls⟩ := exists_onesNodeRun 1
  obtain ⟨s₁, s₂, s₃, hstep₁, hstep₂, hstep₃, hpending, hanswers, -, -⟩ := broadcast_answered r 0
  have hrun : Steps.run (broadcastStep r) broadcastInit (firstBroadcast 0) = some s₃ := by
    rw [firstBroadcast, Steps.run, hstep₁, Option.bind_some, Steps.run, hstep₂, Option.bind_some,
      Steps.run, hstep₃]
    rfl
  have hsafe₁ : BroadcastSafe broadcastInit
      (.other (.poll (some ⟨hciEventPacket, scanResponseUpdated⟩))) := fun _ _ _ _ _ => rfl
  have hsafe : Steps.Meets (broadcastStep r) BroadcastSafe broadcastInit (firstBroadcast 0) :=
    .cons hstep₁ hsafe₁ (.cons hstep₂ (Or.inr (Or.inl rfl)) (.cons hstep₃ trivial trivial))
  exact ⟨r, s₃, hrun, (broadcasting_tracks r hrun hsafe).1 hpending hanswers⟩

/-- The controller answers the first make-discoverable command with an error. Nothing is on
the way any more, `BROADCASTING` is 1, and the node is dark. -/
theorem makeDiscoverable_fails :
    ∃ r : NodeRun onesEnv, ∃ s,
      Steps.run (broadcastStep r) broadcastInit (firstBroadcast 0x0C) = some s ∧
      s.pending = [] ∧ s.answers = [] ∧
      ¬ (s.node.app.broadcasting = 1 ↔ s.broadcasting = true) := by
  obtain ⟨r, hcalls⟩ := exists_onesNodeRun 1
  obtain ⟨s₁, s₂, s₃, hstep₁, hstep₂, hstep₃, hpending, hanswers, hflag, hoff⟩ :=
    broadcast_answered r 0x0C
  have hrun : Steps.run (broadcastStep r) broadcastInit (firstBroadcast 0x0C) = some s₃ := by
    rw [firstBroadcast, Steps.run, hstep₁, Option.bind_some, Steps.run, hstep₂, Option.bind_some,
      Steps.run, hstep₃]
    rfl
  refine ⟨r, s₃, hrun, hpending, hanswers, fun hiff => ?_⟩
  have hon := hiff.mp hflag
  rw [hoff] at hon
  exact absurd hon (by decide)

end EbnAnchor.Main
