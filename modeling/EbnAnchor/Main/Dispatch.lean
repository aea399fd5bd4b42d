import EbnAnchor.Main.AppSteps

/-!
Dispatch of the vendor events.

`packet_handler` compares bytes 5 and 6 with an opcode whatever the event code says, and
reads them from the buffer when the packet is shorter. `leBranch_eq` separates the two kinds
of tests; a packet is handled on its own content exactly when it is long enough for the tests
it reaches, none of them takes its data for an opcode, and it does not have the node send
`blank_addr`, which nothing has written (`dispatchedOnContent_iff`).
-/

namespace EbnAnchor.Main

open EbnAnchor.Stack EbnAnchor.Core

/-- A packet in the receive buffer, over what is left there. -/
def bufferPacket (bytes : List Byte) (residue : Packet) : Packet := fun i =>
  bytes[i]?.getD (residue i)

/-- The branches behind a comparison with an opcode. -/
def LeBranch.OnOpcode : LeBranch → Prop
  | .setParam1 => True
  | .setParam2 => True
  | .setParam3 => True
  | .configDeviceAddr => True
  | .makeDiscoverable => True
  | _ => False

/-- One of the comparisons with an opcode succeeds. -/
def TestedOpcode (paramState : Byte) (opcode : BitVec 16) : Prop :=
  (opcode = gapSetParam ∧ (paramState = 1 ∨ paramState = 2 ∨ paramState = 3)) ∨
    opcode = gapConfigDeviceAddr ∨ opcode = gapMakeDiscoverable

instance (paramState : Byte) (opcode : BitVec 16) : Decidable (TestedOpcode paramState opcode) :=
  inferInstanceAs (Decidable (_ ∨ _))

/-! ### The two kinds of tests -/

/-- The tests of an opcode alone. -/
def opcodeBranch (paramState : Byte) (opcode : BitVec 16) : LeBranch :=
  if opcode = gapConfigDeviceAddr then .configDeviceAddr
  else if opcode = gapMakeDiscoverable then .makeDiscoverable
  else if paramState = 1 then .setParam1
  else if paramState = 2 then .setParam2
  else .setParam3

/-- The tests of the event code alone. -/
def eventBranch (event : BitVec 16) (adType : Byte) : LeBranch :=
  if event = gapDeviceInitDone then .deviceInitDone
  else if event = gapAdvertDataUpdate ∧ adType = 0x01 then .advertisementUpdate
  else if event = gapAdvertDataUpdate ∧ adType = 0x00 then .scanResponseUpdate
  else if event = gapEndDiscoverableEvent then .endDiscoverable
  else if event = gapDeviceDiscoveryDone then .deviceDiscoveryDone
  else .ignored

theorem readBt16_low (packet : Packet) (pos : Nat) :
    (readBt16 packet pos).setWidth 8 = packet pos := by
  rw [readBt16, BitVec.setWidth_append, dif_pos (Nat.le_refl 8), BitVec.setWidth_eq]

theorem readBt16_high (packet : Packet) (pos : Nat) :
    (readBt16 packet pos).extractLsb' 8 8 = packet (pos + 1) := by
  rw [readBt16, BitVec.extractLsb'_append_eq_of_le (Nat.le_refl 8)]
  exact BitVec.extractLsb'_eq_self

/-- The opcodes win over every event code but that of the device initialisation. -/
theorem leBranch_eq (paramState : Byte) (packet : Packet) : leBranch paramState packet =
    if readBt16 packet 2 ≠ gapDeviceInitDone ∧ TestedOpcode paramState (readBt16 packet 5) then
      opcodeBranch paramState (readBt16 packet 5)
    else eventBranch (readBt16 packet 2) (packet 5) := by
  by_cases hinit : readBt16 packet 2 = gapDeviceInitDone
  · rw [if_neg fun hall => hall.1 hinit, leBranch, if_pos hinit, eventBranch, if_pos hinit]
  · by_cases htested : TestedOpcode paramState (readBt16 packet 5)
    · rw [if_pos ⟨hinit, htested⟩]
      unfold leBranch opcodeBranch
      rw [if_neg hinit]
      rcases htested with ⟨hopcode, hstate⟩ | hopcode | hopcode
      · rw [hopcode, if_neg (by decide : gapSetParam ≠ gapConfigDeviceAddr),
          if_neg (by decide : gapSetParam ≠ gapMakeDiscoverable)]
        rcases hstate with rfl | rfl | rfl
        · rfl
        · rfl
        · rfl
      · rw [hopcode, if_pos rfl, if_neg fun h => absurd h.1 (by decide),
          if_neg fun h => absurd h.1 (by decide), if_neg fun h => absurd h.1 (by decide),
          if_pos rfl]
      · -- the tests of the update look at the first byte of the opcode
        have hlow : packet 5 = 0x06 := by
          rw [← readBt16_low packet 5, hopcode]
          rfl
        rw [hopcode, hlow, if_neg fun h => absurd h.1 (by decide),
          if_neg fun h => absurd h.1 (by decide), if_neg fun h => absurd h.1 (by decide),
          if_neg (by decide), if_neg fun h => absurd h.2 (by decide),
          if_neg fun h => absurd h.2 (by decide), if_pos rfl, if_neg (by decide), if_pos rfl]
    · have hset : ∀ state, state = 1 ∨ state = 2 ∨ state = 3 →
          ¬ (readBt16 packet 5 = gapSetParam ∧ paramState = state) := by
        rintro state hstate ⟨hopcode, rfl⟩
        exact htested (Or.inl ⟨hopcode, hstate⟩)
      rw [if_neg fun hall => htested hall.2, leBranch, eventBranch, if_neg hinit, if_neg hinit,
        if_neg (hset 1 (Or.inl rfl)), if_neg (hset 2 (Or.inr (Or.inl rfl))),
        if_neg (hset 3 (Or.inr (Or.inr rfl))), if_neg fun h => htested (Or.inr (Or.inl h)),
        if_neg fun h => htested (Or.inr (Or.inr h))]

/-- Neither byte of an opcode compared with is zero. -/
theorem TestedOpcode.bytes_ne {paramState : Byte} {packet : Packet} {pos : Nat}
    (h : TestedOpcode paramState (readBt16 packet pos)) :
    packet pos ≠ 0x00 ∧ packet (pos + 1) ≠ 0x00 := by
  rw [← readBt16_low packet pos, ← readBt16_high packet pos]
  rcases h with ⟨hopcode, -⟩ | hopcode | hopcode
  · rw [hopcode]
    decide
  · rw [hopcode]
    decide
  · rw [hopcode]
    decide

/-- The first byte tells `GAP_MakeDiscoverable` from the other opcodes compared with. -/
theorem TestedOpcode.eq_makeDiscoverable {paramState : Byte} {packet : Packet} {pos : Nat}
    (h : TestedOpcode paramState (readBt16 packet pos)) (hlow : packet pos = 0x06) :
    readBt16 packet pos = gapMakeDiscoverable := by
  rw [← readBt16_low packet pos] at hlow
  rcases h with ⟨hset, -⟩ | hconfig | hmake
  · rw [hset] at hlow
    exact absurd hlow (by decide)
  · rw [hconfig] at hlow
    exact absurd hlow (by decide)
  · exact hmake

theorem opcodeBranch_onOpcode (paramState : Byte) (opcode : BitVec 16) :
    (opcodeBranch paramState opcode).OnOpcode := by
  unfold opcodeBranch
  split_ifs
  all_goals trivial

theorem eventBranch_not_onOpcode (event : BitVec 16) (adType : Byte) :
    ¬ (eventBranch event adType).OnOpcode := by
  unfold eventBranch
  split_ifs
  all_goals exact id

theorem eventBranch_eq_done_iff (event : BitVec 16) (adType : Byte) :
    eventBranch event adType = .deviceDiscoveryDone ↔ event = gapDeviceDiscoveryDone := by
  constructor
  · intro h
    unfold eventBranch at h
    split_ifs at h with _ _ _ _ hdone
    exact hdone
  · rintro rfl
    rfl

theorem eventBranch_eq_response_iff (event : BitVec 16) (adType : Byte) :
    eventBranch event adType = .scanResponseUpdate ↔
      event = gapAdvertDataUpdate ∧ adType = 0x00 := by
  constructor
  · intro h
    unfold eventBranch at h
    split_ifs at h with _ _ hresponse
    exact hresponse
  · rintro ⟨rfl, rfl⟩
    rfl

theorem leBranch_eq_response_iff (paramState : Byte) (packet : Packet) :
    leBranch paramState packet = .scanResponseUpdate ↔
      readBt16 packet 2 = gapAdvertDataUpdate ∧ packet 5 = 0x00 := by
  rw [leBranch_eq]
  split
  · next h =>
    refine iff_of_false (fun heq => ?_) fun hall => h.2.bytes_ne.1 hall.2
    have hon := opcodeBranch_onOpcode paramState (readBt16 packet 5)
    rw [heq] at hon
    exact hon.elim
  · exact eventBranch_eq_response_iff _ _

theorem onOpcode_iff (paramState : Byte) (packet : Packet) :
    (leBranch paramState packet).OnOpcode ↔ readBt16 packet 2 ≠ gapDeviceInitDone ∧
      TestedOpcode paramState (readBt16 packet 5) := by
  rw [leBranch_eq]
  split
  · next h => exact iff_of_true (opcodeBranch_onOpcode _ _) h
  · next h => exact iff_of_false (eventBranch_not_onOpcode _ _) h

/-! ### Packets of any size -/

section

variable {env : EbnEnv} (r : NodeRun env)

/-- The run with something else in `blank_addr`. -/
def withBlank (blank : Nat → BdAddr) : NodeRun env := { r with blank := blank }

/-- An opcode counts only in a command status event, and what is left in the buffer and in
`blank_addr` does not matter. -/
def DispatchedOnContent (bytes : List Byte) (s : Node) : Prop :=
  (∀ residue, (leBranch s.app.paramState (bufferPacket bytes residue)).OnOpcode →
    readBt16 (bufferPacket bytes residue) 2 = gapHciExtentionCommandStatus) ∧
  ∀ residue residue' blank blank',
    packetHandler (withBlank r blank) (bufferPacket bytes residue) s =
      packetHandler (withBlank r blank') (bufferPacket bytes residue') s

/-- The updated scan response, while nothing is broadcast: the node answers with
`blank_addr`. -/
def AsksForBlank (packet : Packet) (app : AppState) : Prop :=
  readBt16 packet 2 = gapAdvertDataUpdate ∧ packet 5 = 0x00 ∧ app.broadcasting = 0

/-- The packet does not ask for `blank_addr`. It holds its event code, and all that the tests it
reaches read: the event code is that of the device initialisation; or the opcode is there, and
is compared with in a command status event only; or its second byte is missing and cannot
matter. -/
def OwnContent (bytes : List Byte) (app : AppState) : Prop :=
  4 ≤ bytes.length ∧ ¬ AsksForBlank (eventPacket bytes) app ∧
    (readBt16 (eventPacket bytes) 2 = gapDeviceInitDone ∨
      (7 ≤ bytes.length ∧ (readBt16 (eventPacket bytes) 2 = gapHciExtentionCommandStatus ∨
        ¬ TestedOpcode app.paramState (readBt16 (eventPacket bytes) 5))) ∨
      (bytes.length = 6 ∧
        ((∀ high : Byte, ¬ TestedOpcode app.paramState (high ++ eventPacket bytes 5)) ∨
          (readBt16 (eventPacket bytes) 2 = gapHciExtentionCommandStatus ∧
            eventPacket bytes 5 = 0x06 ∧ app.broadcasting = 1))))

theorem bufferPacket_of_lt {bytes : List Byte} {i : Nat} (h : i < bytes.length)
    (residue : Packet) : bufferPacket bytes residue i = eventPacket bytes i := by
  rw [bufferPacket, eventPacket, List.getD_eq_getElem?_getD, List.getElem?_eq_getElem h]
  rfl

theorem bufferPacket_of_ge {bytes : List Byte} {i : Nat} (h : bytes.length ≤ i)
    (residue : Packet) : bufferPacket bytes residue i = residue i := by
  rw [bufferPacket, List.getElem?_eq_none h]
  rfl

theorem readBt16_bufferPacket {bytes : List Byte} {pos : Nat} (h : pos + 1 < bytes.length)
    (residue : Packet) : readBt16 (bufferPacket bytes residue) pos =
      readBt16 (eventPacket bytes) pos := by
  rw [readBt16, readBt16, bufferPacket_of_lt h, bufferPacket_of_lt (Nat.lt_of_succ_lt h)]

variable {r} {s : Node} {rest : List Byte}

theorem packetHandler_bufferPacket (residue : Packet) (s : Node) :
    packetHandler r (bufferPacket (hciLeExtEvent :: rest) residue) s =
      leExtEvent r (leBranch s.app.paramState (bufferPacket (hciLeExtEvent :: rest) residue))
        (bufferPacket (hciLeExtEvent :: rest) residue) s := packetHandler_vendor rfl s

/-- The updated scan response is answered with `blank_addr`, and the end of discovery counts the
devices; no other branch looks at either. -/
theorem leExtEvent_congr {branch : LeBranch} {packet packet' : Packet}
    (hresponse : branch = .scanResponseUpdate → s.app.broadcasting ≠ 0)
    (hdone : branch = .deviceDiscoveryDone → packet 5 = packet' 5) (blank blank' : Nat → BdAddr) :
    leExtEvent (withBlank r blank) branch packet s =
      leExtEvent (withBlank r blank') branch packet' s := by
  rw [leExtEvent_eq, leExtEvent_eq]
  cases branch with
  | scanResponseUpdate =>
    simp only [LeBranch.command, if_neg (hresponse rfl)]
    rfl
  | deviceDiscoveryDone =>
    unfold LeBranch.effect
    rw [hdone rfl]
    rfl
  | _ => rfl

/-- A branch behind an opcode sends a command, or raises the flag. -/
theorem leExtEvent_onOpcode {branch : LeBranch} (h : branch.OnOpcode) (packet : Packet)
    (s : Node) : (leExtEvent r branch packet s).sent.length = s.sent.length + 1 ∨
      (branch = .makeDiscoverable ∧
        leExtEvent r branch packet s = withApp s fun app => { app with broadcasting := 1 }) := by
  cases branch with
  | setParam1 | setParam2 | setParam3 | configDeviceAddr => exact Or.inl List.length_append
  | makeDiscoverable => exact Or.inr ⟨rfl, rfl⟩
  | _ => cases h

/-- A command status is ignored when its opcode is not compared with. -/
theorem packetHandler_status {packet : Packet} (hcode : packet 0 = hciLeExtEvent)
    (hstatus : readBt16 packet 2 = gapHciExtentionCommandStatus)
    (huntested : ¬ TestedOpcode s.app.paramState (readBt16 packet 5)) :
    packetHandler r packet s = s := by
  have hignored : leBranch s.app.paramState packet = .ignored := by
    rw [leBranch_eq, if_neg fun h => huntested h.2, hstatus, eventBranch, if_neg (by decide),
      if_neg fun h => absurd h.1 (by decide), if_neg fun h => absurd h.1 (by decide),
      if_neg (by decide), if_neg (by decide)]
  rw [packetHandler_vendor hcode, hignored]
  rfl

/-- The one comparison that may leave everything as it is. -/
theorem makeDiscoverable_of_same {packet packet' : Packet} (hcode : packet 0 = hciLeExtEvent)
    (hcode' : packet' 0 = hciLeExtEvent)
    (hstatus : readBt16 packet 2 = gapHciExtentionCommandStatus)
    (hstatus' : readBt16 packet' 2 = gapHciExtentionCommandStatus)
    (htested : TestedOpcode s.app.paramState (readBt16 packet 5))
    (huntested : ¬ TestedOpcode s.app.paramState (readBt16 packet' 5))
    (hsame : packetHandler r packet s = packetHandler r packet' s) :
    readBt16 packet 5 = gapMakeDiscoverable ∧ s.app.broadcasting = 1 := by
  have hinit : readBt16 packet 2 ≠ gapDeviceInitDone := by
    rw [hstatus]
    decide
  have hbranch := leBranch_eq s.app.paramState packet
  rw [if_pos ⟨hinit, htested⟩] at hbranch
  rw [packetHandler_status hcode' hstatus' huntested, packetHandler_vendor hcode, hbranch] at hsame
  rcases leExtEvent_onOpcode (opcodeBranch_onOpcode s.app.paramState (readBt16 packet 5)) packet s
    with hsent | ⟨hmake, hflag⟩
  · rw [hsame] at hsent
    omega
  · constructor
    · unfold opcodeBranch at hmake
      split_ifs at hmake with hconfig hopcode
      exact hopcode
    · have happ : (withApp s fun app => { app with broadcasting := 1 }).app.broadcasting =
          s.app.broadcasting := by rw [← hflag, hsame]
      exact happ.symm

/-- What is left in the buffer and in `blank_addr` does not matter where it does not matter for
the branch. -/
theorem dispatched_of_leBranch (branch : LeBranch) (hlen : 4 ≤ (hciLeExtEvent :: rest).length)
    (hbranch : ∀ residue, leBranch s.app.paramState
      (bufferPacket (hciLeExtEvent :: rest) residue) = branch)
    (hopcode : branch.OnOpcode →
      readBt16 (eventPacket (hciLeExtEvent :: rest)) 2 = gapHciExtentionCommandStatus)
    (hasks : ¬ AsksForBlank (eventPacket (hciLeExtEvent :: rest)) s.app)
    (hbyte : branch = .deviceInitDone ∨ 5 < (hciLeExtEvent :: rest).length) :
    DispatchedOnContent r (hciLeExtEvent :: rest) s := by
  refine ⟨fun residue hon => ?_, fun residue residue' blank blank' => ?_⟩
  · rw [hbranch] at hon
    rw [readBt16_bufferPacket hlen]
    exact hopcode hon
  · rw [packetHandler_bufferPacket, packetHandler_bufferPacket, hbranch, hbranch]
    rcases hbyte with rfl | hfive
    · rfl
    · refine leExtEvent_congr (fun hresponse hoff => ?_) (fun _ => ?_) blank blank'
      · obtain ⟨hcode, hzero⟩ :=
          (leBranch_eq_response_iff _ _).mp ((hbranch residue).trans hresponse)
        rw [readBt16_bufferPacket hlen] at hcode
        rw [bufferPacket_of_lt hfive] at hzero
        exact hasks ⟨hcode, hzero, hoff⟩
      · rw [bufferPacket_of_lt hfive, bufferPacket_of_lt hfive]

/-- When the flag is up already, it makes no difference whether the byte that is missing makes
the opcode `GAP_MakeDiscoverable`. -/
theorem packetHandler_of_flag (hfive : 5 < (hciLeExtEvent :: rest).length)
    (hstatus : readBt16 (eventPacket (hciLeExtEvent :: rest)) 2 = gapHciExtentionCommandStatus)
    (hlow : eventPacket (hciLeExtEvent :: rest) 5 = 0x06) (hflag : s.app.broadcasting = 1)
    (residue : Packet) : packetHandler r (bufferPacket (hciLeExtEvent :: rest) residue) s = s := by
  have hevent : readBt16 (bufferPacket (hciLeExtEvent :: rest) residue) 2 =
      gapHciExtentionCommandStatus := by
    rw [readBt16_bufferPacket (by omega), hstatus]
  by_cases htested : TestedOpcode s.app.paramState
      (readBt16 (bufferPacket (hciLeExtEvent :: rest) residue) 5)
  · have hmake := htested.eq_makeDiscoverable ((bufferPacket_of_lt hfive residue).trans hlow)
    have hbranch : leBranch s.app.paramState
        (bufferPacket (hciLeExtEvent :: rest) residue) = .makeDiscoverable := by
      rw [leBranch_eq, if_pos ⟨by rw [hevent]; decide, htested⟩, hmake]
      rfl
    rw [packetHandler_bufferPacket, hbranch]
    have happ : { s.app with broadcasting := 1 } = s.app := by rw [← hflag]
    exact congrArg (fun app : AppState => { s with app := app }) happ
  · exact packetHandler_status rfl hevent htested

theorem OwnContent.dispatched (h : OwnContent (hciLeExtEvent :: rest) s.app) :
    DispatchedOnContent r (hciLeExtEvent :: rest) s := by
  obtain ⟨hlen, hasks, hcontent⟩ := h
  have hevent : ∀ residue, readBt16 (bufferPacket (hciLeExtEvent :: rest) residue) 2 =
      readBt16 (eventPacket (hciLeExtEvent :: rest)) 2 := fun residue =>
    readBt16_bufferPacket hlen residue
  rcases hcontent with hinit | ⟨hlong, hopcode⟩ | ⟨hsix, hopcode⟩
  · refine dispatched_of_leBranch .deviceInitDone hlen (fun residue => ?_) False.elim hasks
      (Or.inl rfl)
    rw [leBranch, hevent, if_pos hinit]
  · refine dispatched_of_leBranch
      (leBranch s.app.paramState (eventPacket (hciLeExtEvent :: rest))) hlen (fun residue => ?_)
      (fun hon => ?_) hasks (Or.inr (Nat.lt_of_succ_lt hlong))
    · rw [leBranch_eq, leBranch_eq, hevent, readBt16_bufferPacket hlong,
        bufferPacket_of_lt (Nat.lt_of_succ_lt hlong)]
    · exact hopcode.resolve_right (not_not.mpr ((onOpcode_iff _ _).mp hon).2)
  · have hfive : 5 < (hciLeExtEvent :: rest).length := by omega
    rcases hopcode with hnone | ⟨hstatus, hlow, hflag⟩
    · refine dispatched_of_leBranch (eventBranch (readBt16 (eventPacket (hciLeExtEvent :: rest)) 2)
        (eventPacket (hciLeExtEvent :: rest) 5)) hlen (fun residue => ?_)
        (fun hon => absurd hon (eventBranch_not_onOpcode _ _)) hasks (Or.inr hfive)
      have hopcode : readBt16 (bufferPacket (hciLeExtEvent :: rest) residue) 5 =
          residue 6 ++ eventPacket (hciLeExtEvent :: rest) 5 := by
        rw [readBt16, bufferPacket_of_lt hfive, bufferPacket_of_ge (by omega)]
      have huntested := hnone (residue 6)
      rw [← hopcode] at huntested
      rw [leBranch_eq, if_neg fun hall => huntested hall.2, hevent, bufferPacket_of_lt hfive]
    · refine ⟨fun residue _ => (hevent residue).trans hstatus,
        fun residue residue' blank blank' => ?_⟩
      rw [packetHandler_of_flag hfive hstatus hlow hflag,
        packetHandler_of_flag hfive hstatus hlow hflag]

/-- What may be left in the buffer: an event code with the high byte `0xFF`, and
`GAP_ConfigDeviceAddr`. -/
def configResidue : Packet := eventPacket [0, 0, 0, 0xFF, 0, 0x03, 0xFE]

/-- Without all bytes of the event code, the residue decides. -/
theorem DispatchedOnContent.four_le (h : DispatchedOnContent r (hciLeExtEvent :: rest) s) :
    4 ≤ (hciLeExtEvent :: rest).length := by
  by_contra hshort
  have hlen : (hciLeExtEvent :: rest).length ≤ 3 := by omega
  have hhigh := readBt16_high (bufferPacket (hciLeExtEvent :: rest) configResidue) 2
  rw [bufferPacket_of_ge hlen] at hhigh
  have hopcode : readBt16 (bufferPacket (hciLeExtEvent :: rest) configResidue) 5 =
      gapConfigDeviceAddr := by
    rw [readBt16, bufferPacket_of_ge (by omega), bufferPacket_of_ge (by omega)]
    rfl
  have hinit : readBt16 (bufferPacket (hciLeExtEvent :: rest) configResidue) 2 ≠
      gapDeviceInitDone := fun hinit => by
    rw [hinit] at hhigh
    exact absurd hhigh (by decide)
  have hstatus := h.1 configResidue ((onOpcode_iff _ _).mpr ⟨hinit, Or.inr (Or.inl hopcode)⟩)
  rw [hstatus] at hhigh
  exact absurd hhigh (by decide)

theorem bufferPacket_zero (bytes : List Byte) :
    bufferPacket bytes (eventPacket []) = eventPacket bytes := by
  funext i
  rw [bufferPacket, eventPacket, List.getD_eq_getElem?_getD]
  rfl

/-- Two different addresses in `blank_addr` make two different commands. -/
theorem DispatchedOnContent.not_asksForBlank
    (h : DispatchedOnContent r (hciLeExtEvent :: rest) s) :
    ¬ AsksForBlank (eventPacket (hciLeExtEvent :: rest)) s.app := by
  rintro ⟨hcode, hzero, hoff⟩
  have hsent : ∀ blank, (packetHandler (withBlank r blank)
      (bufferPacket (hciLeExtEvent :: rest) (eventPacket [])) s).sent.getLast?.map
        Transmission.command = some (.makeDiscoverable 0x03 0x01 (blank s.sent.length) 0x07 0) := by
    intro blank
    rw [bufferPacket_zero, packetHandler_vendor rfl,
      (leBranch_eq_response_iff _ _).mpr ⟨hcode, hzero⟩, leExtEvent_eq]
    unfold LeBranch.command
    rw [if_pos hoff]
    exact congrArg (Option.map Transmission.command) List.getLast?_concat
  have hsame := h.2 (eventPacket []) (eventPacket []) (fun _ => Vector.replicate 6 0)
    fun _ => Vector.replicate 6 1
  have hcommand := (hsent _).symm.trans ((congrArg (fun t : Node =>
    t.sent.getLast?.map Transmission.command) hsame).trans (hsent _))
  exact absurd hcommand (by decide)

/-- Whatever the residue makes of it, an opcode is compared with in a command status only. -/
theorem DispatchedOnContent.status_of_tested (h : DispatchedOnContent r (hciLeExtEvent :: rest) s)
    (hinit : readBt16 (eventPacket (hciLeExtEvent :: rest)) 2 ≠ gapDeviceInitDone)
    {residue : Packet} (htested : TestedOpcode s.app.paramState
      (readBt16 (bufferPacket (hciLeExtEvent :: rest) residue) 5)) :
    readBt16 (eventPacket (hciLeExtEvent :: rest)) 2 = gapHciExtentionCommandStatus := by
  have hevent := readBt16_bufferPacket (show 2 + 1 < _ from h.four_le) residue
  rw [← hevent] at hinit ⊢
  exact h.1 residue ((onOpcode_iff _ _).mpr ⟨hinit, htested⟩)

/-- Where the second byte of the opcode is missing, the residue may make an opcode or none: the
flag alone hides the difference. -/
theorem DispatchedOnContent.of_tested (h : DispatchedOnContent r (hciLeExtEvent :: rest) s)
    (hinit : readBt16 (eventPacket (hciLeExtEvent :: rest)) 2 ≠ gapDeviceInitDone)
    (hshort : (hciLeExtEvent :: rest).length ≤ 6) {residue : Packet}
    (htested : TestedOpcode s.app.paramState
      (readBt16 (bufferPacket (hciLeExtEvent :: rest) residue) 5)) :
    readBt16 (bufferPacket (hciLeExtEvent :: rest) residue) 5 = gapMakeDiscoverable ∧
      s.app.broadcasting = 1 := by
  have hcode := h.status_of_tested hinit htested
  have hevent := readBt16_bufferPacket (show 2 + 1 < _ from h.four_le)
  have huntested : ¬ TestedOpcode s.app.paramState
      (readBt16 (bufferPacket (hciLeExtEvent :: rest) (eventPacket [])) 5) := by
    intro hzero
    have hhigh := hzero.bytes_ne.2
    rw [bufferPacket_of_ge hshort] at hhigh
    exact hhigh rfl
  exact makeDiscoverable_of_same rfl rfl ((hevent _).trans hcode) ((hevent _).trans hcode) htested
    huntested (h.2 _ (eventPacket []) r.blank r.blank)

theorem DispatchedOnContent.six_le (h : DispatchedOnContent r (hciLeExtEvent :: rest) s)
    (hinit : readBt16 (eventPacket (hciLeExtEvent :: rest)) 2 ≠ gapDeviceInitDone) :
    6 ≤ (hciLeExtEvent :: rest).length := by
  by_contra hshort
  have hconfig : readBt16 (bufferPacket (hciLeExtEvent :: rest) configResidue) 5 =
      gapConfigDeviceAddr := by
    rw [readBt16, bufferPacket_of_ge (by omega), bufferPacket_of_ge (by omega)]
    rfl
  obtain ⟨hmake, -⟩ := h.of_tested hinit (by omega) (Or.inr (Or.inl hconfig))
  rw [hconfig] at hmake
  exact absurd hmake (by decide)

theorem DispatchedOnContent.ownContent (h : DispatchedOnContent r (hciLeExtEvent :: rest) s) :
    OwnContent (hciLeExtEvent :: rest) s.app := by
  refine ⟨h.four_le, h.not_asksForBlank, ?_⟩
  by_cases hinit : readBt16 (eventPacket (hciLeExtEvent :: rest)) 2 = gapDeviceInitDone
  · exact Or.inl hinit
  rcases Nat.eq_or_lt_of_le (h.six_le hinit) with hsix | hlong
  · refine Or.inr (Or.inr ⟨hsix.symm, ?_⟩)
    by_cases hnone : ∀ high : Byte,
        ¬ TestedOpcode s.app.paramState (high ++ eventPacket (hciLeExtEvent :: rest) 5)
    · exact Or.inl hnone
    · obtain ⟨high, htested⟩ := not_forall_not.mp hnone
      have hopcode : readBt16 (bufferPacket (hciLeExtEvent :: rest) fun _ => high) 5 =
          high ++ eventPacket (hciLeExtEvent :: rest) 5 := by
        rw [readBt16, bufferPacket_of_lt (i := 5) (by omega), bufferPacket_of_ge (by omega)]
      rw [← hopcode] at htested
      obtain ⟨hmake, hflag⟩ := h.of_tested hinit (by omega) htested
      refine Or.inr ⟨h.status_of_tested hinit htested, ?_, hflag⟩
      have hlow := readBt16_low (bufferPacket (hciLeExtEvent :: rest) fun _ => high) 5
      rw [hmake, bufferPacket_of_lt (by omega)] at hlow
      exact hlow.symm
  · refine Or.inr (Or.inl ⟨hlong, ?_⟩)
    by_cases htested : TestedOpcode s.app.paramState
        (readBt16 (eventPacket (hciLeExtEvent :: rest)) 5)
    · rw [← bufferPacket_zero] at htested
      exact Or.inl (h.status_of_tested hinit htested)
    · exact Or.inr htested

end

/-- For every vendor event, of any size, in every state: it is dispatched on its own content
exactly when it holds the content it is dispatched on. -/
theorem dispatchedOnContent_iff {env : EbnEnv} (r : NodeRun env) (rest : List Byte) (s : Node) :
    DispatchedOnContent r (hciLeExtEvent :: rest) s ↔
      OwnContent (hciLeExtEvent :: rest) s.app := by
  constructor
  · intro h
    exact h.ownContent
  · intro h
    exact h.dispatched

/-- A device report whose data holds the opcode of `gap_config_device_addr` there. -/
theorem deviceInformation_as_opcode :
    ∃ r : NodeRun onesEnv,
      ¬ DispatchedOnContent r [0xFF, 5, 0x0D, 0x06, 0, 0x03, 0xFE] poweredOn := by
  obtain ⟨r, hcalls⟩ := exists_onesNodeRun 1
  refine ⟨r, fun h => ?_⟩
  exact absurd (h.1 (eventPacket []) trivial) (by decide)

end EbnAnchor.Main
