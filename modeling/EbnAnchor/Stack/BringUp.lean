import EbnAnchor.Stack.HciRules
import Mathlib.Data.List.Infix
import Mathlib.Tactic.IntervalCases

/-!
Bring-up: the script of `hci_run`.

The script waits on odd substates for a completed command and moves on from even ones. `Stage`
says where it is by the commands it has sent and the completions that count; `ScriptInv` ties
both to what was sent and to what the application has seen, for any application that keeps
away from the script. `WorkingInv` does the same for `HCI_STATE_WORKING`.
-/

namespace EbnAnchor.Stack

/-! ### What the application sees -/

/-- An event given to the application, and the commands sent before it. -/
structure Seen where
  packet : Packet
  sent : List Transmission

section

variable {α : Type}

def HciSys.unrecorded (s : HciSys (α × List Seen)) : HciSys α where
  txState := s.txState
  stack := s.stack
  app := s.app.1
  sent := s.sent

def HciSys.record (t : HciSys α) (seen : List Seen) : HciSys (α × List Seen) where
  txState := t.txState
  stack := t.stack
  app := (t.app, seen)
  sent := t.sent

/-- The application with a record of the events it is given. -/
def recorded (handler : PacketHandler α) : PacketHandler (α × List Seen) := fun packet s =>
  (handler packet s.unrecorded).record (s.app.2 ++ [⟨packet, s.sent⟩])

/-! ### The script -/

/-- The commands of the script, in order. -/
def script : List Command := [.reset, .readBdAddr, .readBufferSize]

def Command.inScript : Command → Bool
  | reset => true
  | readBdAddr => true
  | readBufferSize => true
  | _ => false

def scriptSent (sent : List Transmission) : List Command :=
  (sent.map fun t => t.command).filter Command.inScript

/-- A command completed when the script had sent just these commands. -/
def CompletedAfter (seen : List Seen) (commands : List Command) : Prop :=
  ∃ e ∈ seen, e.packet 0 = hciEventCommandComplete ∧ scriptSent e.sent = commands

/-- `BTSTACK_EVENT_STATE` with the value `HCI_STATE_WORKING`. -/
def isWorking (packet : Packet) : Bool :=
  packet 0 = btstackEventState ∧ packet 2 = HciState.working.code

/-- The application leaves the script alone, and initialises the device only when it is told
that the stack works. -/
structure Application (handler : PacketHandler α) : Prop where
  script : ∀ packet s, SameScript s.stack (handler packet s).stack
  sent : ∀ packet s, ∃ new, (handler packet s).sent = s.sent ++ new ∧ ∀ t ∈ new,
    t.command.inScript = false ∧ (t.command = .deviceInit → isWorking packet = true)

/-- The script has sent so many commands, and so many completions count. -/
inductive Stage (stack : HciStack) : Nat → Nat → Prop where
  | start (hstate : stack.state = .initializing) (hsub : stack.substate = 0) : Stage stack 0 0
  | waiting {k : Nat} (hk : k < 3) (hstate : stack.state = .initializing)
      (hsub : stack.substate = BitVec.ofNat 8 (2 * k + 5)) : Stage stack (k + 1) k
  | ready {k : Nat} (hk : k < 3) (hstate : stack.state = .initializing)
      (hsub : stack.substate = BitVec.ofNat 8 (2 * k + 6)) : Stage stack (k + 1) (k + 1)
  | through (hstate : stack.state = .working) : Stage stack 3 3

theorem Stage.congr {stack stack' : HciStack} (h : SameScript stack stack') {k c : Nat}
    (hstage : Stage stack k c) : Stage stack' k c := by
  cases hstage with
  | start hstate hsub => exact .start (h.state.trans hstate) (h.substate.trans hsub)
  | waiting hk hstate hsub => exact .waiting hk (h.state.trans hstate) (h.substate.trans hsub)
  | ready hk hstate hsub => exact .ready hk (h.state.trans hstate) (h.substate.trans hsub)
  | through hstate => exact .through (h.state.trans hstate)

theorem Stage.of_working {stack : HciStack} {k c : Nat} (h : Stage stack k c)
    (hstate : stack.state = .working) : k = 3 ∧ c = 3 := by
  cases h with
  | start hstate' hsub =>
    rw [hstate] at hstate'
    cases hstate'
  | waiting hk hstate' hsub =>
    rw [hstate] at hstate'
    cases hstate'
  | ready hk hstate' hsub =>
    rw [hstate] at hstate'
    cases hstate'
  | through hstate' => exact ⟨rfl, rfl⟩

theorem noteInitEvent_of_not {packet : Packet} {stack : HciStack}
    (h : ¬ (stack.state = .initializing ∧ stack.substate.toNat % 2 = 1 ∧
      packet 0 = hciEventCommandComplete)) : noteInitEvent packet stack = stack := if_neg h

/-- A completed command counts while the script waits. -/
theorem Stage.note {stack : HciStack} {k c : Nat} (h : Stage stack k c) (packet : Packet) :
    Stage (noteInitEvent packet stack) k c ∨
      (packet 0 = hciEventCommandComplete ∧ k = c + 1 ∧
        Stage (noteInitEvent packet stack) k (c + 1)) := by
  cases h with
  | start hstate hsub =>
    rw [noteInitEvent_of_not fun hall => absurd hall.2.1 (by rw [hsub]; decide)]
    exact Or.inl (.start hstate hsub)
  | waiting hk hstate hsub =>
    by_cases hcode : packet 0 = hciEventCommandComplete
    · have hodd : stack.substate.toNat % 2 = 1 := by
        rw [hsub]
        interval_cases c
        all_goals rfl
      refine Or.inr ⟨hcode, rfl, ?_⟩
      rw [noteInitEvent, if_pos ⟨hstate, hodd, hcode⟩]
      refine .ready hk hstate ?_
      simp only [hsub]
      interval_cases c
      all_goals rfl
    · rw [noteInitEvent_of_not fun hall => hcode hall.2.2]
      exact Or.inl (.waiting hk hstate hsub)
  | @ready k hk hstate hsub =>
    have heven : ¬ stack.substate.toNat % 2 = 1 := by
      rw [hsub]
      interval_cases k
      all_goals decide
    rw [noteInitEvent_of_not fun hall => heven hall.2.1]
    exact Or.inl (.ready hk hstate hsub)
  | through hstate =>
    have hnot : ¬ stack.state = .initializing := by
      rw [hstate]
      decide
    rw [noteInitEvent_of_not fun hall => hnot hall.1]
    exact Or.inl (.through hstate)

/-! ### Logs -/

/-- Each command of the log is related to what was sent before it. -/
def Each (P : List Transmission → Transmission → Prop) (sent : List Transmission) : Prop :=
  ∀ before t, before ++ [t] <+: sent → P before t

theorem each_nil (P : List Transmission → Transmission → Prop) : Each P [] := by
  intro before t h
  have hnil := List.prefix_nil.mp h
  exact absurd hnil (List.append_ne_nil_of_right_ne_nil before (List.cons_ne_nil t []))

theorem Each.mono {P Q : List Transmission → Transmission → Prop} {sent : List Transmission}
    (h : Each P sent) (hPQ : ∀ before t, P before t → Q before t) : Each Q sent :=
  fun before t hbefore => hPQ before t (h before t hbefore)

theorem Each.concat {P : List Transmission → Transmission → Prop} {sent : List Transmission}
    {t : Transmission} (h : Each P sent) (ht : P sent t) : Each P (sent ++ [t]) := by
  intro before t' hbefore
  rcases List.prefix_concat_iff.mp hbefore with heq | hbefore
  · obtain ⟨rfl, htt⟩ := List.append_inj' heq rfl
    cases htt
    exact ht
  · exact h before t' hbefore

theorem Each.append {P : List Transmission → Transmission → Prop}
    {sent new : List Transmission} (h : Each P sent)
    (hnew : ∀ t ∈ new, ∀ before, sent <+: before → P before t) : Each P (sent ++ new) := by
  induction new generalizing sent with
  | nil =>
    rw [List.append_nil]
    exact h
  | cons t new ih =>
    rw [List.append_cons]
    refine ih (h.concat (hnew t (List.mem_cons_self ..) sent (List.prefix_refl sent))) ?_
    intro t' hmem before hbefore
    exact hnew t' (List.mem_cons_of_mem t hmem) before ((List.prefix_append sent [t]).trans hbefore)

theorem scriptSent_append (sent new : List Transmission) :
    scriptSent (sent ++ new) = scriptSent sent ++ scriptSent new := by
  rw [scriptSent, List.map_append, List.filter_append]
  rfl

theorem scriptSent_eq_nil {new : List Transmission}
    (h : ∀ t ∈ new, t.command.inScript = false) : scriptSent new = [] := by
  refine List.filter_eq_nil_iff.mpr fun command hmem htrue => ?_
  obtain ⟨t, ht, rfl⟩ := List.mem_map.mp hmem
  rw [h t ht] at htrue
  cases htrue

/-! ### The invariant of the script -/

/-- A command of the script follows a completed command that came after the one before it. -/
def AfterCompletion (seen : List Seen) (before : List Transmission) (t : Transmission) : Prop :=
  t.command.inScript = true → scriptSent before ≠ [] →
    ∃ e ∈ seen, e.packet 0 = hciEventCommandComplete ∧ e.sent <+: before ∧
      scriptSent e.sent = scriptSent before

theorem AfterCompletion.mono {seen more : List Seen} {before : List Transmission}
    {t : Transmission} (h : AfterCompletion seen before t) :
    AfterCompletion (seen ++ more) before t := by
  intro hscript hbefore
  obtain ⟨e, hmem, he⟩ := h hscript hbefore
  exact ⟨e, List.mem_append_left more hmem, he⟩

theorem CompletedAfter.mono {seen more : List Seen} {commands : List Command}
    (h : CompletedAfter seen commands) : CompletedAfter (seen ++ more) commands := by
  obtain ⟨e, hmem, he⟩ := h
  exact ⟨e, List.mem_append_left more hmem, he⟩

/-- The script is at a stage that what was sent and seen bears out. -/
def StageOf (stack : HciStack) (sent : List Transmission) (seen : List Seen) : Prop :=
  ∃ k c, Stage stack k c ∧ scriptSent sent = script.take k ∧
    ∀ j, 1 ≤ j → j ≤ c → CompletedAfter seen (script.take j)

structure ScriptInv (received : Packet → Prop) (s : HciSys (α × List Seen)) : Prop where
  seen : ∀ e ∈ s.app.2, e.sent <+: s.sent ∧
    (e.packet 0 = hciEventCommandComplete → received e.packet)
  accepted : ∀ t ∈ s.sent, t.command.inScript = true → t.result = 0
  completed : Each (AfterCompletion s.app.2) s.sent
  stage : StageOf s.stack s.sent s.app.2

theorem StageOf.mono {stack stack' : HciStack} {sent new : List Transmission}
    {seen more : List Seen} (h : StageOf stack sent seen) (hstack : SameScript stack stack')
    (hnew : ∀ t ∈ new, t.command.inScript = false) :
    StageOf stack' (sent ++ new) (seen ++ more) := by
  obtain ⟨k, c, hstage, hsent, hseen⟩ := h
  refine ⟨k, c, hstage.congr hstack, ?_, fun j hj hjc => (hseen j hj hjc).mono⟩
  rw [scriptSent_append, scriptSent_eq_nil hnew, List.append_nil]
  exact hsent

namespace ScriptInv

variable {received : Packet → Prop} {s s' : HciSys (α × List Seen)}

/-- More was seen, and commands outside the script were sent. -/
theorem extend (h : ScriptInv received s) {more : List Seen} {new : List Transmission}
    (hstage : StageOf s'.stack s'.sent s'.app.2) (hseen : s'.app.2 = s.app.2 ++ more)
    (hmore : ∀ e ∈ more, e.sent <+: s.sent ∧
      (e.packet 0 = hciEventCommandComplete → received e.packet))
    (hsent : s'.sent = s.sent ++ new) (hnew : ∀ t ∈ new, t.command.inScript = false) :
    ScriptInv received s' := by
  have hprefix : s.sent <+: s'.sent := by
    rw [hsent]
    exact List.prefix_append s.sent new
  refine ⟨fun e hmem => ?_, fun t hmem hscript => ?_, ?_, hstage⟩
  · rw [hseen] at hmem
    rcases List.mem_append.mp hmem with hmem | hmem
    · exact ⟨(h.seen e hmem).1.trans hprefix, (h.seen e hmem).2⟩
    · exact ⟨(hmore e hmem).1.trans hprefix, (hmore e hmem).2⟩
  · rw [hsent] at hmem
    rcases List.mem_append.mp hmem with hmem | hmem
    · exact h.accepted t hmem hscript
    · rw [hnew t hmem] at hscript
      cases hscript
  · rw [hsent, hseen]
    refine (h.completed.mono fun _ _ hbefore => hbefore.mono).append ?_
    intro t hmem before _ hscript
    rw [hnew t hmem] at hscript
    cases hscript

theorem quiet (h : ScriptInv received s) {new : List Transmission}
    (hstack : SameScript s.stack s'.stack) (hseen : s'.app.2 = s.app.2)
    (hsent : s'.sent = s.sent ++ new) (hnew : ∀ t ∈ new, t.command.inScript = false) :
    ScriptInv received s' := by
  have hseen' : s'.app.2 = s.app.2 ++ [] := by
    rw [hseen, List.append_nil]
  refine h.extend ?_ hseen' (fun e hmem => absurd hmem List.not_mem_nil) hsent hnew
  rw [hsent, hseen']
  exact h.stage.mono hstack hnew

/-- The next command of the script, when the one before is completed. -/
theorem send (h : ScriptInv received s) {command : Command} {k : Nat}
    {f : HciStack → HciStack} (hscript : command.inScript = true) (hidle : s.txState = .idle)
    (hsent : scriptSent s.sent = script.take k)
    (hseen : ∀ j, 1 ≤ j → j ≤ k → CompletedAfter s.app.2 (script.take j))
    (hnext : script.take (k + 1) = script.take k ++ [command])
    (hstage : Stage (f (hciSendCmd command s).stack) (k + 1) k) :
    ScriptInv received ((hciSendCmd command s).withStack f) := by
  have hresult : (h4SendPacket s.txState).1 = 0 := by
    rw [hidle]
    rfl
  refine ⟨fun e hmem => ?_, fun t hmem htrue => ?_, h.completed.concat ?_, ?_⟩
  · exact ⟨(h.seen e hmem).1.trans (List.prefix_append s.sent _), (h.seen e hmem).2⟩
  · rcases List.mem_append.mp hmem with hmem | hmem
    · exact h.accepted t hmem htrue
    · cases List.mem_singleton.mp hmem
      exact hresult
  · -- the completion of the command before
    intro _ hbefore
    have hk : 1 ≤ k := by
      cases k with
      | zero => exact absurd hsent hbefore
      | succ k => exact Nat.le_add_left 1 k
    obtain ⟨e, hmem, hcode, hat⟩ := hseen k hk (Nat.le_refl k)
    exact ⟨e, hmem, hcode, (h.seen e hmem).1, hat.trans hsent.symm⟩
  · refine ⟨k + 1, k, hstage, ?_, hseen⟩
    have hnew : (hciSendCmd command s).sent = s.sent ++ [_] := rfl
    rw [withStack_sent, hnew, scriptSent_append, hsent, hnext, scriptSent, List.map_singleton,
      List.filter_cons_of_pos hscript, List.filter_nil]

/-- The application is told of an event. -/
theorem forward (h : ScriptInv received s) {handler : PacketHandler α}
    (happ : Application handler) {packet : Packet}
    (hreceived : packet 0 = hciEventCommandComplete → received packet) :
    ScriptInv received (recorded handler packet (s.withStack (noteInitEvent packet))) := by
  let t := s.withStack (noteInitEvent packet)
  have hscript : SameScript t.stack (recorded handler packet t).stack :=
    happ.script packet t.unrecorded
  obtain ⟨new, hsent, hnew⟩ := happ.sent packet t.unrecorded
  have hsent' : (recorded handler packet t).sent = s.sent ++ new := hsent
  have hseen : (recorded handler packet t).app.2 = s.app.2 ++ [⟨packet, s.sent⟩] := rfl
  refine h.extend ?_ hseen (fun e hmem => ?_) hsent' fun t hmem => (hnew t hmem).1
  · obtain ⟨k, c, hstage, hk, hc⟩ := h.stage
    rw [hsent', hseen]
    rcases hstage.note packet with hsame | ⟨hcode, rfl, hnext⟩
    · have hstageOf : StageOf t.stack s.sent s.app.2 := ⟨k, c, hsame, hk, hc⟩
      exact hstageOf.mono hscript fun t hmem => (hnew t hmem).1
    · -- this is the completion the script waits for
      refine ⟨c + 1, c + 1, hnext.congr hscript, ?_, fun j hj hjc => ?_⟩
      · rw [scriptSent_append, scriptSent_eq_nil fun t hmem => (hnew t hmem).1, List.append_nil]
        exact hk
      · rcases Nat.le_or_eq_of_le_succ hjc with hjc | rfl
        · exact (hc j hj hjc).mono
        · exact ⟨_, List.mem_append_right _ (List.mem_singleton_self _), hcode, hk⟩
  · cases List.mem_singleton.mp hmem
    exact ⟨List.prefix_refl s.sent, hreceived⟩

/-- An event of the stack's own. -/
theorem emit (h : ScriptInv received s) {handler : PacketHandler α}
    (happ : Application handler) (packet : Packet)
    (hcode : packet 0 ≠ hciEventCommandComplete) :
    ScriptInv received (recorded handler packet s) := by
  have hnote : s.withStack (noteInitEvent packet) = s := by
    rw [HciSys.withStack, noteInitEvent_of_not fun hall => hcode hall.2.2]
  have hforward := h.forward happ fun hcomplete => absurd hcomplete hcode
  rw [hnote] at hforward
  exact hforward

theorem mono {received' : Packet → Prop} (h : ScriptInv received s)
    (himp : ∀ packet, received packet → received' packet) : ScriptInv received' s where
  seen e hmem := ⟨(h.seen e hmem).1, fun hcode => himp _ ((h.seen e hmem).2 hcode)⟩
  accepted := h.accepted
  completed := h.completed
  stage := h.stage

/-- The script moved on, and nothing else did. -/
theorem restage (h : ScriptInv received s) {f : HciStack → HciStack}
    (hstage : StageOf (f s.stack) s.sent s.app.2) : ScriptInv received (s.withStack f) where
  seen := h.seen
  accepted := h.accepted
  completed := h.completed
  stage := hstage

/-- One move of the script. -/
theorem runState (h : ScriptInv received s) {handler : PacketHandler α}
    (happ : Application handler) (hcan : hciCanSendPacketNow s ≠ 0)
    (hrun : runState (recorded handler) s = some s') : ScriptInv received s' := by
  have hidle := ((hciCanSendPacketNow_ne_zero_iff s).mp hcan).1
  obtain ⟨k, c, hstage, hk, hc⟩ := h.stage
  unfold Stack.runState at hrun
  cases hstage with
  | start hstate hsub =>
    rw [if_pos hstate, hsub, if_neg (by decide), initScript_reset hsub] at hrun
    cases hrun
    exact h.send (f := fun stack => { stack with substate := 4 + 1 }) rfl hidle hk hc rfl
      (.waiting (by decide) hstate rfl)
  | waiting hlt hstate hsub =>
    have hodd : s.stack.substate.toNat % 2 = 1 := by
      rw [hsub]
      interval_cases c
      all_goals rfl
    rw [if_pos hstate, if_pos hodd] at hrun
    cases hrun
    exact h
  | @ready k hlt hstate hsub =>
    have heven : ¬ s.stack.substate.toNat % 2 = 1 := by
      rw [hsub]
      interval_cases k
      all_goals decide
    rw [if_pos hstate, if_neg heven] at hrun
    have hcases : k = 0 ∨ k = 1 ∨ k = 2 := by omega
    rcases hcases with rfl | rfl | rfl
    · rw [initScript_readBdAddr hsub] at hrun
      cases hrun
      refine h.send rfl hidle hk hc rfl (.waiting (by decide) hstate ?_)
      exact congrArg (· + 1) hsub
    · rw [initScript_readBufferSize hsub] at hrun
      cases hrun
      refine h.send rfl hidle hk hc rfl (.waiting (by decide) hstate ?_)
      exact congrArg (· + 1) hsub
    · rw [initScript_working hsub] at hrun
      cases hrun
      have hworking := h.restage (f := fun stack => { stack with state := .working })
        ⟨3, 3, .through rfl, hk, hc⟩
      have hemitted := hworking.emit happ
        (eventPacket [btstackEventState, 1, HciState.working.code]) (by decide)
      obtain ⟨k, c, hstage, hk, hc⟩ := hemitted.stage
      obtain ⟨rfl, rfl⟩ := hstage.of_working (happ.script _ _).state
      exact hemitted.restage ⟨3, 3, .through (happ.script _ _).state, hk, hc⟩
  | through hstate =>
    have hnot : ¬ s.stack.state = .initializing := by
      rw [hstate]
      decide
    rw [if_neg hnot] at hrun
    cases hrun
    exact h

end ScriptInv

theorem hciSendCmd_script (command : Command) (s : HciSys α) :
    SameScript s.stack (hciSendCmd command s).stack := by
  cases command
  all_goals exact ⟨rfl, rfl⟩

theorem not_inScript_of_isHousekeeping {command : Command} (h : command.isHousekeeping = true) :
    command.inScript = false := by
  cases command
  all_goals first | rfl | cases h

theorem ownEvents_ne_commandComplete {packet : Packet} (h : packet 0 ∈ ownEvents) :
    packet 0 ≠ hciEventCommandComplete := by
  intro hcode
  rw [hcode] at h
  exact absurd h (by decide)

/-- The stack keeps to the script, as long as the application leaves it alone. -/
theorem ScriptInv.rule {handler : PacketHandler α} (happ : Application handler)
    (received : Packet → Prop) :
    StackRule (recorded handler)
      (fun packet => packet 0 = hciEventCommandComplete → received packet)
      (fun s s' => ScriptInv received s → ScriptInv received s') where
  refl _ h := h
  trans h h' := h' ∘ h
  withStack s f hf h := by
    refine h.quiet hf rfl (List.append_nil s.sent).symm ?_
    exact fun t hmem => absurd hmem List.not_mem_nil
  sendCmd {s command} hkeep _ h := by
    refine h.quiet (hciSendCmd_script command s) rfl rfl fun t hmem => ?_
    cases List.mem_singleton.mp hmem
    exact not_inScript_of_isHousekeeping hkeep
  runState hcan hrun h := h.runState happ hcan hrun
  sent s h := by
    refine h.quiet (.refl s.stack) rfl (List.append_nil s.sent).symm ?_
    exact fun t hmem => absurd hmem List.not_mem_nil
  emit s packet hown h := h.emit happ packet (ownEvents_ne_commandComplete hown)
  forward s packet hreceived h := h.forward happ hreceived

/-! ### No null pointer -/

theorem declineConnection_script (s : HciSys α) :
    SameScript s.stack (declineConnection s).stack := by
  unfold declineConnection
  split
  · exact ⟨rfl, rfl⟩
  · exact .refl s.stack

theorem sendScanEnable_script (s : HciSys α) : SameScript s.stack (sendScanEnable s).stack := by
  unfold sendScanEnable
  split
  · exact ⟨rfl, rfl⟩
  · exact .refl s.stack

theorem acceptConnection_script (i : Nat) (s : HciSys α) :
    SameScript s.stack (acceptConnection i s).stack := by
  unfold acceptConnection
  split
  · exact .refl s.stack
  · split
    · exact ⟨rfl, rfl⟩
    · exact .refl s.stack

theorem answerLinkKeyRequest_script (i : Nat) (s : HciSys α) :
    SameScript s.stack (answerLinkKeyRequest i s).stack := by
  unfold answerLinkKeyRequest
  split
  · exact .refl s.stack
  · split
    · have hsend := fun command t => hciSendCmd_script (α := α) command t
      exact ⟨(hsend _ _).state, (hsend _ _).substate⟩
    · exact .refl s.stack

section

variable {handler : PacketHandler α} {s : HciSys α}

theorem whenCanSend_returns {rest : HciSys α → Option (HciSys α)}
    (hrest : ∃ s', rest s = some s') : ∃ s', whenCanSend rest s = some s' := by
  unfold whenCanSend
  split
  · exact ⟨s, rfl⟩
  · exact hrest

theorem sendPendingCommands_returns {rest : HciSys α → Option (HciSys α)}
    (hrest : ∀ t, SameScript s.stack t.stack → ∃ t', rest t = some t') (it : List Nat) :
    ∃ s', sendPendingCommands rest it s = some s' := by
  induction it generalizing s with
  | nil => exact hrest s (.refl s.stack)
  | cons i it ih =>
    refine whenCanSend_returns (whenCanSend_returns (ih fun t ht => hrest t ?_))
    have haccept := acceptConnection_script i s
    exact (haccept.trans (answerLinkKeyRequest_script i _)).trans ht

/-- `hci_run` returns where the script does. -/
theorem hciRun_returns (hscript : ∀ t, SameScript s.stack t.stack →
    ∃ t', runState handler t = some t') : ∃ s', hciRun handler s = some s' := by
  refine whenCanSend_returns (whenCanSend_returns ?_)
  refine sendPendingCommands_returns (fun t ht => whenCanSend_returns (hscript t ?_)) _
  have hdecline := declineConnection_script s
  exact (hdecline.trans (sendScanEnable_script _)).trans ht

theorem Stage.runState_returns {k c : Nat} (h : Stage s.stack k c) :
    ∃ s', runState handler s = some s' := by
  unfold runState
  cases h with
  | start hstate hsub =>
    rw [if_pos hstate, hsub, if_neg (by decide), initScript_reset hsub]
    exact ⟨_, rfl⟩
  | waiting hk hstate hsub =>
    rw [if_pos hstate]
    split
    · exact ⟨s, rfl⟩
    · next heven =>
      refine absurd ?_ heven
      rw [hsub]
      interval_cases c
      all_goals rfl
  | @ready k hk hstate hsub =>
    rw [if_pos hstate]
    split
    · exact ⟨s, rfl⟩
    · have hcases : k = 0 ∨ k = 1 ∨ k = 2 := by omega
      rcases hcases with rfl | rfl | rfl
      · rw [initScript_readBdAddr hsub]
        exact ⟨_, rfl⟩
      · rw [initScript_readBufferSize hsub]
        exact ⟨_, rfl⟩
      · rw [initScript_working hsub]
        exact ⟨_, rfl⟩
  | through hstate =>
    rw [if_neg (by rw [hstate]; decide)]
    exact ⟨s, rfl⟩

end

theorem ScriptInv.hciRun_returns {received : Packet → Prop} {s : HciSys (α × List Seen)}
    (h : ScriptInv received s) (handler : PacketHandler (α × List Seen)) :
    ∃ s', hciRun handler s = some s' := by
  obtain ⟨k, c, hstage, -⟩ := h.stage
  exact Stack.hciRun_returns fun t ht => (hstage.congr ht).runState_returns

/-! ### `HCI_STATE_WORKING` -/

/-- The device is initialised after the application was told that the stack works. -/
def AfterWorking (seen : List Seen) (before : List Transmission) (t : Transmission) : Prop :=
  t.command = .deviceInit → ∃ e ∈ seen, isWorking e.packet = true ∧ e.sent <+: before

/-- How often the application was told that the stack works. -/
def timesWorking (seen : List Seen) : Nat :=
  seen.countP fun e => isWorking e.packet

theorem timesWorking_concat (seen : List Seen) (packet : Packet) (sent : List Transmission) :
    timesWorking (seen ++ [⟨packet, sent⟩]) =
      timesWorking seen + if isWorking packet then 1 else 0 := by
  rw [timesWorking, List.countP_append, List.countP_singleton]
  rfl

/-- So many of the events came from the controller. -/
structure WorkingInv (received : Nat) (s : HciSys (α × List Seen)) : Prop where
  times : timesWorking s.app.2 ≤ received + if s.stack.state = .working then 1 else 0
  deviceInit : Each (AfterWorking s.app.2) s.sent

namespace WorkingInv

variable {received : Nat} {s s' : HciSys (α × List Seen)}

theorem quiet (h : WorkingInv received s) {new : List Transmission}
    (hstack : s'.stack.state = s.stack.state) (hseen : s'.app.2 = s.app.2)
    (hsent : s'.sent = s.sent ++ new) (hnew : ∀ t ∈ new, t.command ≠ .deviceInit) :
    WorkingInv received s' := by
  refine ⟨?_, ?_⟩
  · rw [hseen, hstack]
    exact h.times
  · rw [hseen, hsent]
    exact h.deviceInit.append fun t hmem before _ hdevice => absurd hdevice (hnew t hmem)

/-- The application is told of an event, and there is room for it. -/
theorem told {handler : PacketHandler α} (happ : Application handler) (packet : Packet)
    (htimes : timesWorking s.app.2 + (if isWorking packet then 1 else 0) ≤
      received + if s.stack.state = .working then 1 else 0)
    (hdevice : Each (AfterWorking s.app.2) s.sent) :
    WorkingInv received (recorded handler packet s) := by
  have hscript : SameScript s.stack (recorded handler packet s).stack :=
    happ.script packet s.unrecorded
  obtain ⟨new, hsent, hnew⟩ := happ.sent packet s.unrecorded
  have hsent' : (recorded handler packet s).sent = s.sent ++ new := hsent
  have hseen : (recorded handler packet s).app.2 = s.app.2 ++ [⟨packet, s.sent⟩] := rfl
  refine ⟨?_, ?_⟩
  · rw [hseen, hscript.state, timesWorking_concat]
    exact htimes
  · rw [hseen, hsent']
    refine (hdevice.mono fun before t hbefore hinit => ?_).append ?_
    · obtain ⟨e, hmem, he⟩ := hbefore hinit
      exact ⟨e, List.mem_append_left _ hmem, he⟩
    · intro t hmem before hbefore hinit
      refine ⟨_, List.mem_append_right _ (List.mem_singleton_self _), ?_, hbefore⟩
      exact (hnew t hmem).2 hinit

/-- An event from the controller. -/
theorem receive (h : WorkingInv received s) {handler : PacketHandler α}
    (happ : Application handler) {packet : Packet} (hpacket : isWorking packet = true) :
    WorkingInv (received + 1) (recorded handler packet s) := by
  have htimes := h.times
  refine told happ packet ?_ h.deviceInit
  rw [hpacket, if_pos rfl]
  omega

theorem tell (h : WorkingInv received s) {handler : PacketHandler α}
    (happ : Application handler) {packet : Packet} (hpacket : isWorking packet = false) :
    WorkingInv received (recorded handler packet s) := by
  refine told happ packet ?_ h.deviceInit
  rw [hpacket]
  exact h.times

theorem withStack (h : WorkingInv received s) {f : HciStack → HciStack}
    (hstate : (f s.stack).state = s.stack.state) : WorkingInv received (s.withStack f) := by
  refine h.quiet hstate rfl (List.append_nil s.sent).symm ?_
  exact fun t hmem => absurd hmem List.not_mem_nil

theorem sendCmd (h : WorkingInv received s) {command : Command}
    (hcommand : command ≠ .deviceInit) : WorkingInv received (hciSendCmd command s) := by
  refine h.quiet (hciSendCmd_script command s).state rfl rfl fun t hmem => ?_
  cases List.mem_singleton.mp hmem
  exact hcommand

/-- The script tells the application that the stack works, and its state says so. -/
theorem emitWorking (h : WorkingInv received s) {handler : PacketHandler α}
    (happ : Application handler) (hstate : s.stack.state = .initializing) :
    WorkingInv received (hciEmitState (recorded handler)
      (s.withStack fun stack => { stack with state := .working })) := by
  refine told happ _ ?_ h.deviceInit
  have htimes := h.times
  have hnot : ¬ s.stack.state = .working := by
    rw [hstate]
    decide
  rw [if_neg hnot] at htimes
  exact Nat.add_le_add htimes (Nat.le_refl 1)

theorem initScript (h : WorkingInv received s) {handler : PacketHandler α}
    (happ : Application handler) (hstate : s.stack.state = .initializing)
    (hscript : initScript (recorded handler) s = some s') : WorkingInv received s' := by
  unfold Stack.initScript at hscript
  split at hscript
  · cases hscript
    have hreset : WorkingInv received (hciSendCmd .reset s) := h.sendCmd nofun
    refine hreset.withStack ?_
    rfl
  · cases hscript
  · cases hscript
  · cases hscript
    exact h.sendCmd nofun
  · cases hscript
    exact h.sendCmd nofun
  · cases hscript
    exact h.emitWorking happ hstate
  · cases hscript
    exact h

theorem runState (h : WorkingInv received s) {handler : PacketHandler α}
    (happ : Application handler) (hrun : runState (recorded handler) s = some s') :
    WorkingInv received s' := by
  unfold Stack.runState at hrun
  split at hrun
  · next hstate =>
    split at hrun
    · cases hrun
      exact h
    · obtain ⟨t, hscript, rfl⟩ := Option.map_eq_some_iff.mp hrun
      exact (h.initScript happ hstate hscript).withStack rfl
  · cases hrun
    exact h

end WorkingInv

theorem ownEvents_ne_working {packet : Packet} (h : packet 0 ∈ ownEvents) :
    isWorking packet = false := by
  refine decide_eq_false fun hworking => ?_
  rw [hworking.1] at h
  exact absurd h (by decide)

theorem ne_deviceInit_of_isHousekeeping {command : Command}
    (h : command.isHousekeeping = true) : command ≠ .deviceInit := by
  rintro rfl
  cases h

theorem noteInitEvent_state (packet : Packet) (stack : HciStack) :
    (noteInitEvent packet stack).state = stack.state := by
  unfold noteInitEvent
  split
  · rfl
  · rfl

theorem WorkingInv.rule {handler : PacketHandler α} (happ : Application handler)
    (received : Nat) :
    StackRule (recorded handler) (fun packet => isWorking packet = false)
      (fun s s' => WorkingInv received s → WorkingInv received s') where
  refl _ h := h
  trans h h' := h' ∘ h
  withStack s f hf h := h.withStack hf.state
  sendCmd hkeep _ h := h.sendCmd (ne_deviceInit_of_isHousekeeping hkeep)
  runState _ hrun h := h.runState happ hrun
  sent s h := by
    refine h.quiet rfl rfl (List.append_nil s.sent).symm ?_
    exact fun t hmem => absurd hmem List.not_mem_nil
  emit s packet hown h := h.tell happ (ownEvents_ne_working hown)
  forward s packet hpacket h := (h.withStack (noteInitEvent_state packet s.stack)).tell happ hpacket

end

end EbnAnchor.Stack
