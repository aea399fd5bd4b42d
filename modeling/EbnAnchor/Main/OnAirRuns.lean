import EbnAnchor.Main.Polls

/-!
Epoch consistency on air.

Before the address is configured nothing the controller accepts is heard
(`Unconfigured`). From then on, the data is of the current epoch whenever the controller
broadcasts or an update is on its way, and the address is whenever the controller
broadcasts or `main.c` would start to (`Tracks`). Every step keeps this but the epoch timer,
which keeps it when it may fire (`onAir_consistent`).
-/

namespace EbnAnchor.Main

open EbnAnchor.Stack EbnAnchor.Core

section

variable {env : EbnEnv} {r : NodeRun env} {s t : Node}

/-! ### Before the address is configured -/

/-- Only preliminary commands so far, and `main.c` has not got further either. -/
structure Unconfigured (s : OnAir) : Prop where
  live : s.node.stack.state ≠ .off
  startScan : s.node.app.startScan = 0
  state : s.node.app.state = 0
  accepted : ∀ command ∈ accepted s.node.sent, isPreliminary command = true
  awaiting : ∀ command ∈ s.awaiting, isPreliminary command = true
  script : s.node.stack.state = .initializing → ∀ command ∈ s.awaiting, isHci command = true

theorem execute_preliminary {command : Command} (h : isPreliminary command = true)
    (c : Controller) : c.execute command = c := by
  cases command
  all_goals first | rfl | cases h

theorem after_preliminary {commands new : List Command}
    (h : ∀ command ∈ new, isPreliminary command = true) :
    Controller.after (commands ++ new) = Controller.after commands := by
  induction new using List.reverseRecOn with
  | nil => rw [List.append_nil]
  | append_singleton new command ih =>
    rw [← List.append_assoc, Controller.after_append,
      execute_preliminary (h command (List.mem_append_right _ (List.mem_singleton_self _)))]
    exact ih fun c hc => h c (List.mem_append_left _ hc)

theorem after_of_preliminary {commands : List Command}
    (h : ∀ command ∈ commands, isPreliminary command = true) :
    Controller.after commands = .reset :=
  (after_preliminary h : Controller.after ([] ++ commands) = .after [])

theorem Unconfigured.address {s : OnAir} (h : Unconfigured s) :
    (Controller.after (Main.accepted s.node.sent)).address = none := by
  rw [after_of_preliminary h.accepted]
  rfl

/-- Preliminary commands change nothing on air. -/
theorem consistent_append {commands new : List Command}
    (hnew : ∀ command ∈ new, isPreliminary command = true)
    (h : ∀ first, first <+: commands → Consistent r (.after first)) :
    ∀ first, first <+: commands ++ new → Consistent r (.after first) := by
  intro first hfirst
  rcases List.prefix_or_prefix_of_prefix hfirst (List.prefix_append commands new) with
    hpre | ⟨rest, rfl⟩
  · exact h first hpre
  · have hrest := (List.prefix_append_right_inj commands).mp hfirst
    rw [after_preliminary fun c hc => hnew c (hrest.subset hc)]
    exact h commands List.prefix_rfl

/-! ### After -/

def AddressCurrent (r : NodeRun env) (app : AppState) (c : Controller) : Prop :=
  ∀ address, c.address = some address → IsMacOf r (r.epoch app.ticks) address

def AdvertCurrent (r : NodeRun env) (app : AppState) (c : Controller) : Prop :=
  ∀ advert, c.advert = some advert → IsAdvertOf r (r.epoch app.ticks) advert

/-- The data is current while it is on air or an update is answered later, the address
while it is on air or `main.c` may start broadcasting. -/
structure Tracks (r : NodeRun env) (app : AppState) (c : Controller) (awaiting : List Command) :
    Prop where
  configured : c.address ≠ none
  advert : c.broadcasting = true ∨ (∃ command ∈ awaiting, isUpdate command = true) →
    AdvertCurrent r app c
  address : c.broadcasting = true ∨ app.broadcasting ≠ 1 → AddressCurrent r app c

namespace Tracks

variable {app app' : AppState} {c : Controller} {awaiting awaiting' : List Command}

theorem consistent (h : Tracks r app c awaiting) : Consistent r c := by
  intro hon
  obtain ⟨address, haddress⟩ := Option.ne_none_iff_exists'.mp h.configured
  exact ⟨r.epoch app.ticks, ⟨address, haddress, h.address (Or.inl hon) address haddress⟩,
    h.advert (Or.inl hon)⟩

/-- Nothing changes but the variables that do not matter and what is not an update. -/
theorem mono (h : Tracks r app c awaiting)
    (hepoch : r.epoch app'.ticks = r.epoch app.ticks)
    (hflag : app'.broadcasting ≠ 1 → app.broadcasting ≠ 1)
    (hawaiting : ∀ command ∈ awaiting', isUpdate command = true → command ∈ awaiting) :
    Tracks r app' c awaiting' where
  configured := h.configured
  advert hor := by
    rw [AdvertCurrent, hepoch]
    refine h.advert (hor.imp_right ?_)
    rintro ⟨command, hmem, hupdate⟩
    exact ⟨command, hawaiting command hmem hupdate, hupdate⟩
  address hor := by
    rw [AddressCurrent, hepoch]
    exact h.address (hor.imp_right hflag)

/-- A new address. -/
theorem configure (hticks : app.ticks ≤ r.calls) (hadvert : c.broadcasting = true ∨
      (∃ command ∈ awaiting, isUpdate command = true) → AdvertCurrent r app c)
    (hepoch : r.epoch app'.ticks = r.epoch app.ticks)
    (hawaiting : ∀ command ∈ awaiting', isUpdate command = true → command ∈ awaiting) :
    Tracks r app' (c.execute (configAddr r app)) awaiting' where
  configured := nofun
  advert hor := by
    rw [AdvertCurrent, hepoch]
    refine hadvert (hor.imp_right ?_)
    rintro ⟨command, hmem, hupdate⟩
    exact ⟨command, hawaiting command hmem hupdate, hupdate⟩
  address _ address haddress := by
    have hsome : some (ebnGetMacAddress (r.states app.ticks)).bytes = some address := haddress
    exact ⟨app.ticks, hticks, hepoch.symm, (Option.some.inj hsome).symm⟩

/-- New data. -/
theorem update (h : Tracks r app c awaiting) (hticks : app.ticks ≤ r.calls) :
    Tracks r app (c.execute (updateAdvert r 0x01 app)) awaiting' where
  configured := h.configured
  advert _ advert hadvert := by
    have hsome : some (r.advert app.ticks).bytes = some advert := hadvert
    refine ⟨app.ticks, hticks, rfl, ?_⟩
    rw [r.ebnGetAdvert_eq hticks]
    exact hsome
  address := h.address

/-- Once the data is current, more updates may be on their way. -/
theorem known (h : Tracks r app c awaiting) (hadvert : AdvertCurrent r app c) :
    Tracks r app c awaiting' where
  configured := h.configured
  advert _ := hadvert
  address := h.address

/-- Broadcasting starts. -/
theorem broadcast (h : Tracks r app c awaiting) (hadvert : AdvertCurrent r app c)
    (hoff : app.broadcasting = 0) (hticks : app'.ticks = app.ticks) :
    Tracks r app' { c with broadcasting := true } awaiting' where
  configured := h.configured
  advert _ := by
    rw [AdvertCurrent, hticks]
    exact hadvert
  address _ := by
    rw [AddressCurrent, hticks]
    refine h.address (Or.inr ?_)
    rw [hoff]
    decide

end Tracks

/-! ### Answers -/

theorem matches_cases {packet : Packet} {command : Command}
    (h : (answerOf command).Matches packet) :
    (isHci command = true ∧ packet 0 = hciEventCommandComplete) ∨
      (isHci command = false ∧ packet 0 = hciLeExtEvent) := by
  cases command
  all_goals first
    | exact Or.inl ⟨rfl, h.1⟩
    | exact Or.inr ⟨rfl, h.1⟩

/-- Only an update of the data is answered as one. -/
theorem isUpdate_of_matches {packet : Packet} {command : Command}
    (h : (answerOf command).Matches packet) (hvendor : packet 0 = hciLeExtEvent)
    (hcode : readBt16 packet 2 = gapAdvertDataUpdate) : isUpdate command = true := by
  cases hanswer : answerOf command with
  | advertDataUpdate adType =>
    cases command
    all_goals first | rfl | cases hanswer
  | commandComplete opcode =>
    rw [hanswer] at h
    exact absurd (hvendor.symm.trans h.1) (by decide)
  | commandStatus opcode =>
    rw [hanswer] at h
    exact absurd (hcode.symm.trans h.2.1) (by decide)
  | event code =>
    rw [hanswer] at h
    have hne : code ≠ gapAdvertDataUpdate := by
      cases command
      all_goals
        cases hanswer
        all_goals decide
    exact absurd (h.2.symm.trans hcode) hne

/-- The answer to a preliminary command leaves the data alone. -/
theorem leBranch_preliminary (paramState : Byte) {packet : Packet} {command : Command}
    (hprelim : isPreliminary command = true) (h : (answerOf command).Matches packet)
    (hvendor : packet 0 = hciLeExtEvent) :
    leBranch paramState packet = .deviceInitDone ∨ leBranch paramState packet = .setParam1 ∨
      leBranch paramState packet = .setParam2 ∨ leBranch paramState packet = .setParam3 ∨
      leBranch paramState packet = .ignored := by
  have hvendor' := (matches_cases h).resolve_left fun hhci => by
    rw [hvendor] at hhci
    exact absurd hhci.2 (by decide)
  cases command with
  | deviceInit =>
    have hdone : readBt16 packet 2 = gapDeviceInitDone := h.2
    rw [leBranch, if_pos hdone]
    exact Or.inl rfl
  | setParam paramId paramValue =>
    have hstatus : readBt16 packet 2 = gapHciExtentionCommandStatus := h.2.1
    have hopcode : readBt16 packet 5 = gapSetParam := h.2.2
    have hupdate : ¬ gapHciExtentionCommandStatus = gapAdvertDataUpdate := by decide
    unfold leBranch
    rw [hstatus, hopcode, if_neg (by decide)]
    by_cases h1 : paramState = 1
    · rw [if_pos ⟨rfl, h1⟩]
      exact Or.inr (Or.inl rfl)
    rw [if_neg fun h => h1 h.2]
    by_cases h2 : paramState = 2
    · rw [if_pos ⟨rfl, h2⟩]
      exact Or.inr (Or.inr (Or.inl rfl))
    rw [if_neg fun h => h2 h.2]
    by_cases h3 : paramState = 3
    · rw [if_pos ⟨rfl, h3⟩]
      exact Or.inr (Or.inr (Or.inr (Or.inl rfl)))
    -- no other branch is for this event and this opcode
    rw [if_neg fun h => h3 h.2, if_neg (by decide), if_neg fun h => hupdate h.1,
      if_neg fun h => hupdate h.1, if_neg (by decide), if_neg (by decide), if_neg (by decide)]
    exact Or.inr (Or.inr (Or.inr (Or.inr rfl)))
  | _ => first | cases hprelim; done | cases hvendor'.1

theorem leBranch_update {paramState : Byte} {packet : Packet}
    (h : leBranch paramState packet = .advertisementUpdate ∨
      leBranch paramState packet = .scanResponseUpdate) :
    readBt16 packet 2 = gapAdvertDataUpdate := by
  by_contra hne
  unfold leBranch at h
  simp only [hne, false_and, if_false] at h
  split_ifs at h
  all_goals simp at h

theorem mem_remaining {awaiting new : List Command} {answered : Command}
    (hnew : ∀ command ∈ new, isUpdate command = false) :
    ∀ command ∈ awaiting.erase answered ++ new, isUpdate command = true →
      command ∈ awaiting := by
  intro command hmem hupdate
  rcases List.mem_append.mp hmem with hmem | hmem
  · exact List.mem_of_mem_erase hmem
  · rw [hnew command hmem] at hupdate
    cases hupdate

/-- The answer of `main.c` to the answer of the controller. -/
theorem Tracks.answer {app : AppState} {c : Controller} {awaiting : List Command}
    (h : Tracks r app c awaiting) (hticks : app.ticks ≤ r.calls) (blank : BdAddr)
    {answered : Command} (hmem : answered ∈ awaiting) {packet : Packet}
    (hmatches : (answerOf answered).Matches packet)
    (hvendor : packet 0 = hciLeExtEvent) {branch : LeBranch}
    (hbranch : leBranch app.paramState packet = branch) :
    Tracks r (branch.effect packet app)
      ((branch.command r blank app).toList.foldl Controller.execute c)
      (awaiting.erase answered ++ (branch.command r blank app).toList) := by
  have hother : ∀ command : Command, isUpdate command = false →
      ∀ new ∈ [command], isUpdate new = false := fun command hfalse new hnew => by
    cases List.mem_singleton.mp hnew
    exact hfalse
  have hupdate : branch = .advertisementUpdate ∨ branch = .scanResponseUpdate →
      AdvertCurrent r app c := fun hor => by
    refine h.advert (Or.inr ⟨answered, hmem, ?_⟩)
    exact isUpdate_of_matches hmatches hvendor (leBranch_update (by rwa [hbranch]))
  cases branch with
  | deviceInitDone | setParam1 | setParam2 => exact h.mono rfl id (mem_remaining (hother _ rfl))
  | setParam3 => exact .configure hticks h.advert rfl (mem_remaining (hother _ rfl))
  | configDeviceAddr => exact h.update hticks
  | advertisementUpdate => exact h.known (hupdate (Or.inl rfl))
  | scanResponseUpdate =>
    simp only [LeBranch.command]
    by_cases hoff : app.broadcasting = 0
    · rw [if_pos hoff]
      exact h.broadcast (hupdate (Or.inr rfl)) hoff rfl
    · rw [if_neg hoff]
      exact h.mono rfl id (mem_remaining fun _ hnew => absurd hnew List.not_mem_nil)
  | makeDiscoverable =>
    exact h.mono rfl (fun hne => absurd rfl hne)
      (mem_remaining fun _ hnew => absurd hnew List.not_mem_nil)
  | endDiscoverable => exact .configure hticks h.advert rfl (mem_remaining (hother _ rfl))
  | deviceDiscoveryDone =>
    exact h.mono rfl id (mem_remaining fun _ hnew => absurd hnew List.not_mem_nil)
  | ignored => exact h.mono rfl id (mem_remaining fun _ hnew => absurd hnew List.not_mem_nil)

/-! ### The invariant -/

/-- The address is configured. -/
structure Running (r : NodeRun env) (s : OnAir) : Prop where
  working : s.node.stack.state = .working
  tracks : Tracks r s.node.app (.after (Main.accepted s.node.sent)) s.awaiting

structure OnAirInv (r : NodeRun env) (s : OnAir) : Prop where
  settled : Settled s.node
  ticks : s.node.app.ticks ≤ r.calls
  consistent : OnAirConsistent r s
  phase : Unconfigured s ∨ Running r s

/-- The state after a step that ends in `t` and leaves `remaining` without an answer. -/
def OnAir.next (s : OnAir) (t : Node) (remaining : List Command) : OnAir where
  node := t
  awaiting := remaining ++ accepted (t.sent.drop s.node.sent.length)

namespace OnAirInv

variable {s : OnAir} {t : Node} {remaining : List Command}

/-- Preliminary commands, before the address is configured. -/
theorem prelude (h : OnAirInv r s) (hphase : Unconfigured s) {new : List Command}
    (hsettled : Settled t) (hticks : t.app.ticks ≤ r.calls) (hnew : Delivers s.node t new)
    (hprelim : ∀ command ∈ new, isPreliminary command = true)
    (hlive : t.stack.state ≠ .off)
    (hscript : t.stack.state = .initializing → s.node.stack.state = .initializing ∧
      ∀ command ∈ new, isHci command = true)
    (hscan : t.app.startScan = s.node.app.startScan) (hflag : t.app.state = s.node.app.state)
    (hremaining : remaining ⊆ s.awaiting) : OnAirInv r (s.next t remaining) := by
  refine ⟨hsettled, hticks, fun commands hpre => ?_, Or.inl ⟨hlive, ?_, ?_, ?_, ?_, ?_⟩⟩
  · rw [OnAir.next, hnew.accepted_eq] at hpre
    exact consistent_append hprelim h.consistent commands hpre
  · exact hscan.trans hphase.startScan
  · exact hflag.trans hphase.state
  · rw [OnAir.next, hnew.accepted_eq]
    intro command hmem
    rcases List.mem_append.mp hmem with hmem | hmem
    · exact hphase.accepted command hmem
    · exact hprelim command hmem
  · rw [OnAir.next, hnew.drop_eq]
    intro command hmem
    rcases List.mem_append.mp hmem with hmem | hmem
    · exact hphase.awaiting command (hremaining hmem)
    · exact hprelim command hmem
  · rw [OnAir.next, hnew.drop_eq]
    intro hstate command hmem
    obtain ⟨hinit, hhci⟩ := hscript hstate
    rcases List.mem_append.mp hmem with hmem | hmem
    · exact hphase.script hinit command (hremaining hmem)
    · exact hhci command hmem

/-- A step that accepts at most one command, once the stack works. -/
theorem deliver (h : OnAirInv r s) (command : Option Command) (hsettled : Settled t)
    (hticks : t.app.ticks ≤ r.calls) (hstate : t.stack.state = .working)
    (hnew : Delivers s.node t command.toList)
    (htracks : Tracks r t.app
      (command.toList.foldl Controller.execute (.after (accepted s.node.sent)))
      (remaining ++ command.toList)) : OnAirInv r (s.next t remaining) := by
  have hafter : Controller.after (accepted t.sent) =
      command.toList.foldl Controller.execute (.after (accepted s.node.sent)) := by
    rw [hnew.accepted_eq, Controller.after, List.foldl_append, Controller.after]
  have htracks' : Tracks r t.app (.after (accepted t.sent))
      (remaining ++ accepted (t.sent.drop s.node.sent.length)) := by
    rw [hafter, hnew.drop_eq]
    exact htracks
  refine ⟨hsettled, hticks, fun commands hpre => ?_, Or.inr ⟨hstate, htracks'⟩⟩
  -- a first part lies before the command, or is everything
  have hpre : commands <+: accepted t.sent := hpre
  cases command with
  | none =>
    rw [hnew.accepted_eq, Option.toList_none, List.append_nil] at hpre
    exact h.consistent commands hpre
  | some command =>
    rw [hnew.accepted_eq, Option.toList_some, List.prefix_concat_iff] at hpre
    rcases hpre with rfl | hpre
    · have hall := htracks'.consistent
      rwa [hnew.accepted_eq] at hall
    · exact h.consistent commands hpre

/-- What the stack does on its own keeps the invariant. -/
theorem bringsUp (h : OnAirInv r s) (hup : BringsUp s.node t)
    (hremaining : remaining ⊆ s.awaiting) : OnAirInv r (s.next t remaining) := by
  obtain ⟨new, hnew, hprelim, hscript⟩ := hup.delivers
  have hticks : t.app.ticks ≤ r.calls := by
    rw [hup.app]
    exact h.ticks
  rcases h.phase with hphase | hphase
  · exact h.prelude hphase hup.settled hticks hnew hprelim (hup.live hphase.live) hscript
      (by rw [hup.app]) (by rw [hup.app]) hremaining
  · have hworking : t.stack.state = .working := by
      have hstate := hphase.working
      cases hstate' : t.stack.state with
      | off => exact absurd hstate' (hup.live fun hoff => by rw [hstate] at hoff; cases hoff)
      | initializing =>
        have hinit := (hscript hstate').1
        rw [hstate] at hinit
        cases hinit
      | working => rfl
    refine ⟨hup.settled, hticks, fun commands hpre => ?_, Or.inr ⟨hworking, ?_⟩⟩
    · rw [OnAir.next, hnew.accepted_eq] at hpre
      exact consistent_append hprelim h.consistent commands hpre
    · rw [OnAir.next, hnew.accepted_eq, hnew.drop_eq, after_preliminary hprelim, hup.app]
      refine hphase.tracks.mono rfl id fun command hmem hupdate => ?_
      rcases List.mem_append.mp hmem with hmem | hmem
      · exact hremaining hmem
      · have hfalse := hprelim command hmem
        cases command
        all_goals first | cases hupdate; done | cases hfalse

/-- The scan timer asks first, and its command changes nothing on air. -/
theorem scanTimer (h : OnAirInv r s) : OnAirInv r (s.next (scanHandler s.node) s.awaiting) := by
  unfold scanHandler
  split
  · next hscan =>
    rcases h.phase with hphase | hphase
    · rw [hphase.startScan] at hscan
      exact absurd hscan.2.1 (by decide)
    · have hidle := ((hciCanSendPacketNow_ne_zero_iff s.node).mp hscan.1).1
      refine h.deliver (some (.deviceDiscoveryRequest 0x03 0x00 0x00))
        ((h.settled.sendCmdPacket .gap _).withApp _) h.ticks
        ((hciSendCmdPacket_state .gap _ _).trans hphase.working)
        (Delivers.sendPacket_idle .gap _ hidle) ?_
      refine hphase.tracks.mono rfl id fun command hmem hupdate => ?_
      rcases List.mem_append.mp hmem with hmem | hmem
      · exact hmem
      · cases List.mem_singleton.mp hmem
        cases hupdate
  · exact h.bringsUp (.refl h.settled) (List.Subset.refl _)

theorem epoch_tick {app : AppState} (hticks : app.ticks < r.calls) (h : ¬ EndsEpoch r app) :
    r.epoch (app.ticks + 1) = r.epoch app.ticks := by
  have hzero : r.returned app.ticks = 0 := by
    by_contra hne
    exact h ((returned_ne_zero_iff hticks).mp hne)
  rw [Run.epoch, hzero]
  rfl

/-- The epoch timer keeps the invariant when it may fire. -/
theorem epochTimer (h : OnAirInv r s) (hticks : s.node.app.ticks < r.calls)
    (hsafe : OnAirSafe r s .epochTimer) :
    OnAirInv r (s.next (epochChangeHandler r s.node) s.awaiting) := by
  have htick : Settled (tick s.node) := h.settled.withApp _
  have hsame : Delivers s.node (tick s.node) [] := .of_sent_eq rfl
  simp only [OnAirSafe] at hsafe
  rcases h.phase with hphase | hphase
  · -- the advert finds the transport busy
    rw [if_pos hphase.address] at hsafe
    rcases epochChangeHandler_cases hticks with ⟨-, hflag, -⟩ | ⟨-, heq⟩
    · exact absurd hphase.state hflag
    · rw [heq]
      exact h.prelude hphase (htick.sendCmdPacket .gap _) hticks
        (hsame.trans (Delivers.sendPacket_busy .gap _ hsafe))
        (fun _ hmem => absurd hmem List.not_mem_nil)
        (by rw [gapSendCmd, hciSendCmdPacket_state]; exact hphase.live)
        (fun hinit => ⟨hinit, fun _ hmem => absurd hmem List.not_mem_nil⟩)
        rfl rfl (List.Subset.refl _)
  · rw [if_neg hphase.tracks.configured] at hsafe
    rcases epochChangeHandler_cases hticks with ⟨hends, -, heq⟩ | ⟨hnot, heq⟩
    · -- broadcasting ends, and the advert finds the transport busy
      obtain ⟨hidle, -, hflag, hupdates⟩ := hsafe hends
      have hbusy := hciSendCmdPacket_txState .gap .endDiscoverable (tick s.node)
      rw [heq]
      refine h.deliver (some .endDiscoverable)
        (((htick.sendCmdPacket .gap _).withApp _).sendCmdPacket .gap _) hticks ?_
        ((hsame.trans (Delivers.sendPacket_idle .gap _ hidle)).trans
          (Delivers.sendPacket_busy .gap _ hbusy)) ?_
      · rw [gapSendCmd, hciSendCmdPacket_state]
        exact (hciSendCmdPacket_state .gap _ _).trans hphase.working
      · refine ⟨hphase.tracks.configured, fun hor => ?_, fun hor => ?_⟩
        · rcases hor with hon | ⟨command, hmem, hupdate⟩
          · cases hon
          · rcases List.mem_append.mp hmem with hmem | hmem
            · rw [hupdates command hmem] at hupdate
              cases hupdate
            · cases List.mem_singleton.mp hmem
              cases hupdate
        · rcases hor with hon | hoff
          · cases hon
          · exact absurd hflag hoff
    · have hsameEpoch : ¬ EndsEpoch r s.node.app := fun hends =>
        hnot ⟨hends, (hsafe hends).2.1⟩
      have htracks : Tracks r (tick s.node).app (.after (accepted s.node.sent)) s.awaiting :=
        hphase.tracks.mono (epoch_tick hticks hsameEpoch) id fun _ hmem _ => hmem
      have hworking : (gapSendCmd (updateAdvert r 0x01 (tick s.node).app)
          (tick s.node)).stack.state = .working :=
        (hciSendCmdPacket_state .gap _ _).trans hphase.working
      rw [heq]
      by_cases hidle : s.node.txState = .idle
      · exact h.deliver (some _) (htick.sendCmdPacket .gap _) hticks hworking
          (hsame.trans (Delivers.sendPacket_idle .gap _ hidle)) (htracks.update hticks)
      · refine h.deliver none (htick.sendCmdPacket .gap _) hticks hworking
          (hsame.trans (Delivers.sendPacket_busy .gap _ hidle)) ?_
        rw [Option.toList_none, List.append_nil]
        exact htracks

/-- A vendor event that answers, once the stack works. -/
theorem vendor (h : OnAirInv r s) (hphase : Running r s) {answered : Command}
    (hmem : answered ∈ s.awaiting) {packet : Packet}
    (hmatches : (answerOf answered).Matches packet) (hcode : packet 0 = hciLeExtEvent) :
    OnAirInv r (s.next
      (leExtEvent r (leBranch s.node.app.paramState packet) packet (idled s.node))
      (s.awaiting.erase answered)) := by
  refine h.deliver ((leBranch s.node.app.paramState packet).command r
      (blankAddr r (idled s.node)) s.node.app)
    (leExtEvent_settled h.settled.idled _ _)
    ((leExtEvent_ticks _ _ (idled s.node)).trans_le h.ticks)
    ((leExtEvent_state _ _ _).trans hphase.working)
    (leExtEvent_delivers (s := idled s.node) rfl _ _) ?_
  rw [leExtEvent_app]
  exact hphase.tracks.answer h.ticks _ hmem hmatches hcode rfl

/-- A vendor event that answers a preliminary command. -/
theorem vendor_preliminary (h : OnAirInv r s) (hphase : Unconfigured s)
    (hworking : s.node.stack.state = .working) {answered : Command}
    (hmem : answered ∈ s.awaiting) {packet : Packet}
    (hmatches : (answerOf answered).Matches packet) (hcode : packet 0 = hciLeExtEvent) :
    OnAirInv r (s.next
      (leExtEvent r (leBranch s.node.app.paramState packet) packet (idled s.node))
      (s.awaiting.erase answered)) := by
  have hprelude : ∀ branch : LeBranch,
      (∀ command ∈ (branch.command r (blankAddr r (idled s.node)) s.node.app).toList,
        isPreliminary command = true) →
      (branch.effect packet s.node.app).startScan = s.node.app.startScan →
      (branch.effect packet s.node.app).state = s.node.app.state →
      OnAirInv r (s.next (leExtEvent r branch packet (idled s.node))
        (s.awaiting.erase answered)) := by
    intro branch hprelim hscan hflag
    have hstate : (leExtEvent r branch packet (idled s.node)).stack.state = .working :=
      (leExtEvent_state _ _ _).trans hworking
    refine h.prelude hphase (leExtEvent_settled h.settled.idled _ _)
      ((leExtEvent_ticks _ _ (idled s.node)).trans_le h.ticks)
      (leExtEvent_delivers (s := idled s.node) rfl _ _) hprelim ?_ ?_ ?_ ?_ List.erase_subset
    · rw [hstate]
      decide
    · rw [hstate]
      exact nofun
    · rw [leExtEvent_app]
      exact hscan
    · rw [leExtEvent_app]
      exact hflag
  have hsingle : ∀ command : Command, isPreliminary command = true →
      ∀ new ∈ [command], isPreliminary new = true := fun command htrue new hnew => by
    cases List.mem_singleton.mp hnew
    exact htrue
  rcases leBranch_preliminary s.node.app.paramState (hphase.awaiting answered hmem) hmatches
    hcode with heq | heq | heq | heq | heq
  · rw [heq]
    exact hprelude .deviceInitDone (hsingle _ rfl) rfl rfl
  · rw [heq]
    exact hprelude .setParam1 (hsingle _ rfl) rfl rfl
  · rw [heq]
    exact hprelude .setParam2 (hsingle _ rfl) rfl rfl
  · -- the address is configured, with nothing on air and no data accepted
    rw [heq]
    refine h.deliver (some (configAddr r s.node.app))
      (leExtEvent_settled h.settled.idled .setParam3 packet)
      ((leExtEvent_ticks _ _ (idled s.node)).trans_le h.ticks)
      ((leExtEvent_state .setParam3 _ _).trans hworking)
      (leExtEvent_delivers (s := idled s.node) rfl .setParam3 packet) ?_
    rw [after_of_preliminary hphase.accepted, leExtEvent_app]
    refine .configure h.ticks (fun _ => nofun) rfl (mem_remaining fun command hnew => ?_)
    cases List.mem_singleton.mp hnew
    rfl
  · rw [heq]
    exact hprelude .ignored (fun _ hnew => absurd hnew List.not_mem_nil) rfl rfl

/-- Every answer of the controller keeps the invariant. -/
theorem answer (h : OnAirInv r s) {answered : Command} (hmem : answered ∈ s.awaiting)
    {packet : Packet} (hmatches : (answerOf answered).Matches packet)
    (hstep : nodeStep r s.node (.poll (some ⟨hciEventPacket, packet⟩)) = some t) :
    OnAirInv r (s.next t (s.awaiting.erase answered)) := by
  rcases matches_cases hmatches with ⟨-, hcode⟩ | ⟨hvendor, hcode⟩
  · refine h.bringsUp (poll_bringsUp h.settled (fun packet heq => ?_) hstep) List.erase_subset
    cases heq
    exact ⟨rfl, Or.inl hcode⟩
  · rcases h.phase with hphase | hphase
    · have hworking : s.node.stack.state = .working := by
        cases hstate : s.node.stack.state with
        | off => exact absurd hstate hphase.live
        | initializing =>
          have hhci := hphase.script hstate answered hmem
          rw [hvendor] at hhci
          cases hhci
        | working => rfl
      cases hstep.symm.trans (poll_vendor h.settled (.of_working hworking) hcode)
      exact h.vendor_preliminary hphase hworking hmem hmatches hcode
    · cases hstep.symm.trans (poll_vendor h.settled (.of_working hphase.working) hcode)
      exact h.vendor hphase hmem hmatches hcode

/-- What one step does: it keeps the invariant, if the epoch timer may fire. -/
theorem step (s : OnAir) (action : OnAirAction) (s' : OnAir) (h : OnAirInv r s)
    (hsafe : OnAirSafe r s action) (hstep : onAirStep r s action = some s') :
    OnAirInv r s' := by
  unfold onAirStep at hstep
  split at hstep
  · next henabled =>
    obtain ⟨t, hnode, rfl⟩ := Option.map_eq_some_iff.mp hstep
    cases action with
    | answer answered packet =>
      obtain ⟨hmem, hmatches⟩ := of_decide_eq_true henabled
      exact h.answer hmem hmatches hnode
    | notice packet =>
      have hignored := of_decide_eq_true henabled
      refine h.bringsUp (poll_bringsUp h.settled (fun packet heq => ?_) hnode)
        (List.Subset.refl _)
      cases heq
      exact ⟨rfl, Or.inr hignored⟩
    | poll =>
      exact h.bringsUp (poll_bringsUp h.settled (fun _ heq => by cases heq) hnode)
        (List.Subset.refl _)
    | scanTimer =>
      cases hnode
      exact h.scanTimer
    | epochTimer =>
      obtain ⟨hticks, rfl⟩ := nodeStep_epochTimer hnode
      exact h.epochTimer hticks hsafe
  · cases hstep

theorem init : OnAirInv r onAirInit := by
  have haccepted : accepted poweredOn.sent = [.reset] := rfl
  have hhci : ∀ command ∈ accepted poweredOn.sent, isHci command = true := by
    intro command hmem
    rw [haccepted] at hmem
    cases List.mem_singleton.mp hmem
    rfl
  have hprelim : ∀ command ∈ accepted poweredOn.sent, isPreliminary command = true :=
    fun command hmem => isPreliminary_of_isHci (hhci command hmem)
  refine ⟨poweredOn_settled, Nat.zero_le _, fun commands hpre => ?_, Or.inl ?_⟩
  · rw [after_of_preliminary fun command hmem => hprelim command (hpre.subset hmem)]
    exact nofun
  · exact ⟨nofun, rfl, rfl, hprelim, hprelim, fun _ => hhci⟩

end OnAirInv

/-! ### Single steps -/

/-- The stack after the answer to a command of the script, when it sends the next one. -/
def scripted (command : Command) (s : Node) : Node :=
  (hciSendCmd command ((idled s).withStack fun stack =>
    { stack with numCmdPackets := 1, substate := stack.substate + 1 })).withStack fun stack =>
      { stack with substate := stack.substate + 1 }

theorem scripted_settled (h : Settled s) (command : Command) : Settled (scripted command s) := by
  have hidled : Settled ((idled s).withStack fun stack =>
      { stack with numCmdPackets := 1, substate := stack.substate + 1 }) :=
    h.idled.withStack ⟨fun _ => rfl, fun _ => rfl, fun _ => rfl, fun _ => rfl⟩
  exact (hidled.sendCmdPacket .hci command).withStack
    ⟨fun _ => rfl, fun _ => rfl, fun _ => rfl, fun _ => rfl⟩

theorem scripted_substate (command : Command) (s : Node) :
    (scripted command s).stack.substate = s.stack.substate + 1 + 1 :=
  congrArg (fun b : Byte => b + 1) (hciSendCmdPacket_substate .hci command _)

theorem scripted_delivers (command : Command) (s : Node) :
    Delivers s (scripted command s) [command] :=
  Delivers.sendPacket_idle (s := (idled s).withStack _) .hci command rfl

/-- A completed command of the script, with a credit for the next step of it. -/
theorem poll_completed (h : Settled s) (hstate : s.stack.state = .initializing)
    (hodd : s.stack.substate.toNat % 2 = 1) {packet : Packet}
    (hcode : packet 0 = hciEventCommandComplete) {f : HciStack → HciStack} (hf : Harmless f)
    (hcomplete : commandComplete (packetHandler r) packet (idled s) = (idled s).withStack f)
    (hcredit : (f s.stack).numCmdPackets ≠ 0)
    (hsame : (f s.stack).substate = s.stack.substate)
    (hscript : initScript (packetHandler r) ((idled s).withStack fun stack =>
      { f stack with substate := stack.substate + 1 }) = some t) :
    nodeStep r s (.poll (some ⟨hciEventPacket, packet⟩)) =
      some (t.withStack fun stack => { stack with substate := stack.substate + 1 }) := by
  have hnoted : noteInitEvent packet (f s.stack) =
      { f s.stack with substate := s.stack.substate + 1 } := by
    have hodd' : (f s.stack).substate.toNat % 2 = 1 := by
      rw [hsame]
      exact hodd
    rw [noteInitEvent, if_pos ⟨(hf.state _).trans hstate, hodd', hcode⟩, hsame]
  have heven : ¬ (s.stack.substate + 1).toNat % 2 = 1 := by
    have hone : (1 : Byte).toNat = 1 := rfl
    rw [BitVec.toNat_add, hone]
    omega
  have hwaits : Waits s := fun _ => hodd
  rw [nodeStep, h4Poll, notifySent_waits h hwaits, Option.bind_some]
  have hevent : hciPacketHandler (packetHandler r) hciEventPacket packet (idled s) =
      hciRun (packetHandler r) ((idled s).withStack fun stack =>
        { f stack with substate := stack.substate + 1 }) := by
    rw [hciPacketHandler, if_pos rfl, eventHandler_commandComplete hcode, hcomplete, forwardEvent,
      packetHandler_ignores (by rw [hcode]; decide) (by rw [hcode]; decide)]
    exact congrArg (fun stack : HciStack => hciRun _ { idled s with stack := stack }) hnoted
  have hnext : Settled ((idled s).withStack fun stack =>
      { f stack with substate := stack.substate + 1 }) :=
    h.idled.withStack ⟨hf.connections, hf.declineReason, hf.newScanEnableValue, hf.state⟩
  refine hevent.trans ((hciRun_script hnext.quiet ?_ ?_ heven).trans ?_)
  · exact (hciCanSendPacketNow_ne_zero_iff _).mpr ⟨rfl, hcredit⟩
  · exact (hf.state s.stack).trans hstate
  · rw [hscript]
    rfl

/-- The answer to one of the first two commands of the script, with a credit. -/
theorem poll_script (h : Settled s) (hstate : s.stack.state = .initializing)
    (hodd : s.stack.substate.toNat % 2 = 1) {packet : Packet}
    (hcode : packet 0 = hciEventCommandComplete) (hcredit : packet 2 = 1)
    (hopcode : readBt16 packet 3 = Command.opcode .reset ∨
      readBt16 packet 3 = Command.opcode .readBdAddr) {next : Command}
    (hscript : ∀ u : Node, u.stack.substate = s.stack.substate + 1 →
      initScript (packetHandler r) u = some (hciSendCmd next u)) :
    nodeStep r s (.poll (some ⟨hciEventPacket, packet⟩)) = some (scripted next s) := by
  have hcomplete : commandComplete (packetHandler r) packet (idled s) =
      (idled s).withStack fun stack => { stack with numCmdPackets := 1 } := by
    unfold commandComplete
    rw [hcredit]
    rcases hopcode with hopcode | hopcode
    all_goals rw [hopcode, if_neg (by decide), if_neg (by decide), if_neg (by decide)]
  exact poll_completed (f := fun stack => { stack with numCmdPackets := 1 }) h hstate hodd hcode
    ⟨fun _ => rfl, fun _ => rfl, fun _ => rfl, fun _ => rfl⟩ hcomplete
    (by decide : (1 : Byte) ≠ 0) rfl (hscript _ rfl)

theorem onAirStep_eq {s : OnAir} {action : OnAirAction} {new : List Command}
    (henabled : s.enabled action = true) (hnode : nodeStep r s.node action.nodeAction = some t)
    (hnew : Delivers s.node t new) :
    onAirStep r s action = some ⟨t, s.remaining action ++ new⟩ := by
  rw [onAirStep, if_pos henabled, hnode, Option.map_some, hnew.drop_eq]

/-- The controller answers the command that waits longest. -/
theorem onAirStep_answer {command : Command} {awaiting new : List Command} {packet : Packet}
    (hmatches : (answerOf command).Matches packet)
    (hnode : nodeStep r s (.poll (some ⟨hciEventPacket, packet⟩)) = some t)
    (hnew : Delivers s t new) :
    onAirStep r ⟨s, command :: awaiting⟩ (.answer command packet) = some ⟨t, awaiting ++ new⟩ := by
  have hstep : onAirStep r ⟨s, command :: awaiting⟩ (.answer command packet) = some _ :=
    onAirStep_eq (decide_eq_true ⟨List.mem_cons_self .., hmatches⟩) hnode hnew
  rwa [OnAir.remaining, List.erase_cons_head] at hstep

/-- The answers of a controller that gives back one credit each time. -/
def resetDone : Packet := eventPacket [0x0E, 4, 1, 0x03, 0x0C, 0]
def bdAddrDone : Packet := eventPacket [0x0E, 4, 1, 0x09, 0x10, 0]
def bufferSizeDone : Packet := eventPacket [0x0E, 11, 1, 0x05, 0x10, 0, 0x36, 0x01, 0, 10, 0, 0, 0]
def deviceInitDone : Packet := eventPacket [0xFF, 2, 0x00, 0x06]

/-- The command status of a command without an error. -/
def statusOf (opcode : BitVec 16) : Packet :=
  eventPacket [0xFF, 5, 0x7F, 0x06, 0, opcode.setWidth 8, opcode.extractLsb' 8 8]

/-- The third completed command, with a credit: the stack works, and `main.c` answers. -/
theorem poll_working (h : Settled s) (hstate : s.stack.state = .initializing)
    (hsub : s.stack.substate = 9) : ∃ t,
    nodeStep r s (.poll (some ⟨hciEventPacket, bufferSizeDone⟩)) = some t ∧
      Settled t ∧ t.stack.state = .working ∧ t.app = s.app ∧ Delivers s t [.deviceInit] := by
  let f : HciStack → HciStack := fun stack =>
    noteBufferSize bufferSizeDone { stack with numCmdPackets := 1 }
  have hf : Harmless f := by
    constructor
    all_goals
      intro stack
      simp only [f, noteBufferSize]
      split
      all_goals rfl
  have hcomplete : commandComplete (packetHandler r) bufferSizeDone (idled s) =
      (idled s).withStack f := by
    have hopcode : readBt16 bufferSizeDone 3 = Command.readBufferSize.opcode := by decide
    unfold commandComplete
    rw [hopcode, if_pos rfl]
    rfl
  have hkept : (f s.stack).numCmdPackets = 1 ∧ (f s.stack).substate = s.stack.substate := by
    simp only [f, noteBufferSize, hstate, if_true]
    exact ⟨trivial, trivial⟩
  let u : Node := (idled s).withStack fun stack => { f stack with substate := stack.substate + 1 }
  have hten : u.stack.substate = 10 := by
    have hnine : u.stack.substate = s.stack.substate + 1 := rfl
    rw [hnine, hsub]
    rfl
  have hu : Settled (u.withStack fun stack => { stack with state := .working }) := by
    have hquiet := (h.idled.withStack hf).quiet
    exact ⟨⟨hquiet.connections, hquiet.declineReason, hquiet.newScanEnableValue⟩, Or.inl rfl⟩
  have hscript : initScript (packetHandler r) u = _ := initScript_working hten
  rw [hciEmitState_working rfl] at hscript
  have hpoll := poll_completed h hstate (by rw [hsub]; rfl) rfl hf hcomplete
    (by rw [hkept.1]; decide) hkept.2 hscript
  refine ⟨_, hpoll, ?_, rfl, rfl, ?_⟩
  · exact (hu.sendPacket .deviceInt .deviceInit).withStack
      ⟨fun _ => rfl, fun _ => rfl, fun _ => rfl, fun _ => rfl⟩
  · exact Delivers.sendPacket_idle (s := u.withStack fun stack =>
      { stack with state := .working }) .deviceInt .deviceInit rfl

/-- The stack works, and the controller has been told these commands. -/
structure Told (s : Node) (app : AppState) (commands : List Command) : Prop where
  settled : Settled s
  working : s.stack.state = .working
  app_eq : s.app = app
  accepted_eq : accepted s.sent = commands

/-- The controller answers the command it was told last. -/
theorem Told.answer {app : AppState} {commands : List Command} (h : Told s app commands)
    (command : Command) (packet : Packet) (branch : LeBranch) (new : List Command)
    (hmatches : (answerOf command).Matches packet) (hcode : packet 0 = hciLeExtEvent)
    (hbranch : leBranch app.paramState packet = branch)
    (hnew : (branch.command r (blankAddr r s) app).toList = new) : ∃ t,
    onAirStep r ⟨s, [command]⟩ (.answer command packet) = some ⟨t, new⟩ ∧
      Told t (branch.effect packet app) (commands ++ new) := by
  obtain ⟨hsettled, hworking, rfl, rfl⟩ := h
  subst hbranch
  have hdelivers := leExtEvent_delivers (r := r) (s := idled s) rfl
    (leBranch s.app.paramState packet) packet
  have hblank : blankAddr r (idled s) = blankAddr r s := rfl
  have happ : (idled s).app = s.app := rfl
  rw [hblank, happ, hnew] at hdelivers
  refine ⟨_, onAirStep_answer hmatches (poll_vendor hsettled (.of_working hworking) hcode)
    hdelivers, leExtEvent_settled hsettled.idled _ _, ?_, leExtEvent_app _ _ _,
    hdelivers.accepted_eq⟩
  exact (leExtEvent_state _ _ _).trans hworking

/-! ### The way to the broadcast -/

/-- A run from power-on leads here whose epoch timer fires only when it may. -/
def SafelyReached (r : NodeRun env) (s : OnAir) : Prop :=
  ∃ actions, Steps.run (onAirStep r) onAirInit actions = some s ∧
    Steps.Meets (onAirStep r) (OnAirSafe r) onAirInit actions

theorem SafelyReached.next {s t : OnAir} (h : SafelyReached r s) (action : OnAirAction)
    (hstep : onAirStep r s action = some t) (hsafe : OnAirSafe r s action) :
    SafelyReached r t := by
  obtain ⟨actions, hrun, hmeets⟩ := h
  refine ⟨actions ++ [action], ?_, hmeets.append hrun (.cons hstep hsafe trivial)⟩
  rw [Steps.run_append hrun]
  exact Steps.run_of_step hstep rfl

theorem SafelyReached.answer {app : AppState} {commands : List Command} {command : Command}
    (h : SafelyReached r ⟨s, [command]⟩) (htold : Told s app commands)
    (packet : Packet) (branch : LeBranch) (new : List Command)
    (hmatches : (answerOf command).Matches packet) (hcode : packet 0 = hciLeExtEvent)
    (hbranch : leBranch app.paramState packet = branch)
    (hnew : (branch.command r (blankAddr r s) app).toList = new) : ∃ t,
    SafelyReached r ⟨t, new⟩ ∧ Told t (branch.effect packet app) (commands ++ new) := by
  obtain ⟨t, hstep, htold'⟩ := htold.answer command packet branch new hmatches hcode hbranch hnew
  exact ⟨t, h.next _ hstep trivial, htold'⟩

/-- The stack comes up. -/
theorem exists_deviceInit (r : NodeRun env) : ∃ s, SafelyReached r ⟨s, [.deviceInit]⟩ ∧
    Told s .init [.reset, .readBdAddr, .readBufferSize, .deviceInit] := by
  let s₁ : Node := scripted .readBdAddr poweredOn
  let s₂ : Node := scripted .readBufferSize s₁
  have hsettled₁ : Settled s₁ := scripted_settled poweredOn_settled _
  have hsettled₂ : Settled s₂ := scripted_settled hsettled₁ _
  have hsub₁ : s₁.stack.substate = 7 := by rw [scripted_substate, poweredOn_substate]; rfl
  have hsub₂ : s₂.stack.substate = 9 := by rw [scripted_substate, hsub₁]; rfl
  have hinit : SafelyReached r onAirInit := ⟨[], rfl, trivial⟩
  have h₁ : SafelyReached r ⟨s₁, [.readBdAddr]⟩ :=
    hinit.next (.answer .reset resetDone) (onAirStep_answer ⟨rfl, rfl⟩
      (poll_script poweredOn_settled rfl rfl rfl rfl (Or.inl rfl)
        fun _ hsub => initScript_readBdAddr hsub) (scripted_delivers _ _)) trivial
  have h₂ : SafelyReached r ⟨s₂, [.readBufferSize]⟩ :=
    h₁.next (.answer .readBdAddr bdAddrDone) (onAirStep_answer ⟨rfl, rfl⟩
      (poll_script hsettled₁ rfl (by rw [hsub₁]; rfl) rfl rfl (Or.inr rfl)
        fun _ hsub => initScript_readBufferSize (by rw [hsub, hsub₁]; rfl))
      (scripted_delivers _ _)) trivial
  obtain ⟨s₃, hpoll, hsettled₃, hworking, happ, hdelivers⟩ :=
    poll_working (r := r) hsettled₂ rfl hsub₂
  have h₃ : SafelyReached r ⟨s₃, [.deviceInit]⟩ :=
    h₂.next (.answer .readBufferSize bufferSizeDone)
      (onAirStep_answer ⟨rfl, by decide⟩ hpoll hdelivers) trivial
  exact ⟨s₃, h₃, hsettled₃, hworking, happ, hdelivers.accepted_eq⟩

/-- The address and the data are configured, and the broadcast starts. -/
theorem exists_broadcasting (r : NodeRun env) : ∃ s, SafelyReached r ⟨s, []⟩ ∧
    s.app = { AppState.init with startScan := 1, state := 1, broadcasting := 1, paramState := 3 } ∧
    (Controller.after (accepted s.sent)).broadcasting = true ∧
    (Controller.after (accepted s.sent)).address ≠ none := by
  obtain ⟨s₀, h₀, htold₀⟩ := exists_deviceInit r
  obtain ⟨s₁, h₁, htold₁⟩ := h₀.answer htold₀ deviceInitDone .deviceInitDone
    [.setParam 0x01 0x0000] ⟨rfl, by decide⟩ rfl (by decide) rfl
  obtain ⟨s₂, h₂, htold₂⟩ := h₁.answer htold₁ (statusOf gapSetParam) .setParam1
    [.setParam 0x08 0x0320] ⟨rfl, by decide, by decide⟩ rfl (by decide) rfl
  obtain ⟨s₃, h₃, htold₃⟩ := h₂.answer htold₂ (statusOf gapSetParam) .setParam2
    [.setParam 0x09 0x0960] ⟨rfl, by decide, by decide⟩ rfl (by decide) rfl
  obtain ⟨s₄, h₄, htold₄⟩ := h₃.answer htold₃ (statusOf gapSetParam) .setParam3
    [configAddr r .init] ⟨rfl, by decide, by decide⟩ rfl (by decide) rfl
  obtain ⟨s₅, h₅, htold₅⟩ := h₄.answer htold₄ (statusOf gapConfigDeviceAddr) .configDeviceAddr
    [updateAdvert r 0x01 .init] ⟨rfl, by decide, by decide⟩ rfl (by decide) rfl
  obtain ⟨s₆, h₆, htold₆⟩ := h₅.answer htold₅ advertUpdated .advertisementUpdate
    [updateAdvert r 0x00 .init] ⟨rfl, by decide, rfl⟩ rfl (by decide) rfl
  obtain ⟨s₇, h₇, htold₇⟩ := h₆.answer htold₆ scanResponseUpdated .scanResponseUpdate
    [.makeDiscoverable 0x03 0x01 (blankAddr r s₆) 0x07 0] ⟨rfl, by decide, rfl⟩ rfl (by decide)
    rfl
  obtain ⟨s₈, h₈, htold₈⟩ := h₇.answer htold₇ (statusOf gapMakeDiscoverable) .makeDiscoverable []
    ⟨rfl, by decide, by decide⟩ rfl (by decide) rfl
  refine ⟨s₈, h₈, htold₈.app_eq, ?_, ?_⟩
  · rw [htold₈.accepted_eq]
    rfl
  · rw [htold₈.accepted_eq]
    exact nofun

end

/-! ### Runs -/

/-- In a run from power-on whose epoch timer fires only when it may, the address and the data
belong together whenever the controller broadcasts, however far it has got. -/
theorem onAir_consistent {env : EbnEnv} (r : NodeRun env) {actions : List OnAirAction} {s : OnAir}
    (h : Steps.run (onAirStep r) onAirInit actions = some s)
    (hsafe : Steps.Meets (onAirStep r) (OnAirSafe r) onAirInit actions) :
    OnAirConsistent r s :=
  (Steps.run_invariant_of_meets OnAirInv.step hsafe h OnAirInv.init).consistent

/-- The stack comes up, the address is configured, broadcasting starts, and the epoch timer
fires. -/
theorem onAir_consistent_broadcasting :
    ∃ r : NodeRun onesEnv, ∃ actions s s', Steps.run (onAirStep r) onAirInit actions = some s ∧
      (Controller.after (accepted s.node.sent)).broadcasting = true ∧
      onAirStep r s .epochTimer = some s' ∧ s'.node.sent.length = s.node.sent.length + 1 ∧
      OnAirConsistent r s' := by
  obtain ⟨r, hcalls⟩ := exists_onesNodeRun 1
  obtain ⟨s, hreached, happ, hbroadcasting, haddress⟩ := exists_broadcasting r
  have hticks : s.app.ticks < r.calls := by
    rw [happ, hcalls]
    exact one_pos
  have hends : ¬ EndsEpoch r s.app := by
    rw [happ]
    intro hends
    have hzero : (r.states 0).messageNum.toNat + 1 = 68 := hends
    rw [r.init_coherent.2.2] at hzero
    exact absurd hzero (by decide)
  have hstep : onAirStep r ⟨s, []⟩ .epochTimer =
      some ⟨epochChangeHandler r s,
        accepted ((epochChangeHandler r s).sent.drop s.sent.length)⟩ := by
    rw [onAirStep, if_pos (by rfl), OnAirAction.nodeAction, nodeStep_epochTimer_eq hticks]
    rfl
  have hsafe : OnAirSafe r ⟨s, []⟩ .epochTimer := by
    rw [OnAirSafe, if_neg haddress]
    exact fun h => absurd h hends
  obtain ⟨_, hrun', hmeets'⟩ := hreached.next _ hstep hsafe
  obtain ⟨actions, hrun, -⟩ := hreached
  refine ⟨r, actions, _, _, hrun, hbroadcasting, hstep, ?_, onAir_consistent r hrun' hmeets'⟩
  rcases epochChangeHandler_cases hticks with ⟨hepoch, -, -⟩ | ⟨-, heq⟩
  · exact absurd hepoch hends
  · rw [heq]
    exact List.length_append

/-- The epoch timer fires once the transport is idle, before the address is configured. The
answers to its advert start the broadcast, and no address is there. -/
theorem epochTimer_before_address :
    ∃ r : NodeRun onesEnv, ∃ actions s, Steps.run (onAirStep r) onAirInit actions = some s ∧
      ¬ OnAirConsistent r s := by
  obtain ⟨r, hcalls⟩ := exists_onesNodeRun 1
  let s₁ : Node := idled poweredOn
  let advert := updateAdvert r 0x01 (tick s₁).app
  let s₂ : Node := gapSendCmd advert (tick s₁)
  let s₃ : Node := scripted .readBdAddr s₂
  let response := updateAdvert r 0x00 s₃.app
  let s₄ : Node := leExtEvent r .advertisementUpdate advertUpdated (idled s₃)
  let s₅ : Node := scripted .readBufferSize s₄
  let s₆ : Node := leExtEvent r .scanResponseUpdate scanResponseUpdated (idled s₅)
  have hsettled₂ : Settled s₂ := (poweredOn_settled.idled.withApp _).sendCmdPacket .gap _
  have hsettled₃ : Settled s₃ := scripted_settled hsettled₂ _
  have hsettled₄ : Settled s₄ := leExtEvent_settled hsettled₃.idled _ _
  have hsettled₅ : Settled s₅ := scripted_settled hsettled₄ _
  have hsub₂ : s₂.stack.substate = 5 := hciSendCmdPacket_substate .gap advert (tick s₁)
  have hsub₃ : s₃.stack.substate = 7 := by rw [scripted_substate, hsub₂]; rfl
  have hsub₄ : s₄.stack.substate = 7 := by rw [leExtEvent_substate]; exact hsub₃
  have hsub₅ : s₅.stack.substate = 9 := by rw [scripted_substate, hsub₄]; rfl
  have hstep₁ : onAirStep r onAirInit .poll = some ⟨s₁, [.reset]⟩ := by
    have hpoll : nodeStep r poweredOn (.poll none) = some s₁ := by
      rw [nodeStep, h4Poll, notifySent_waits poweredOn_settled fun _ => rfl]
      rfl
    exact onAirStep_eq rfl hpoll (.of_sent_eq rfl)
  have hstep₂ : onAirStep r ⟨s₁, [.reset]⟩ .epochTimer = some ⟨s₂, [.reset, advert]⟩ := by
    have hticks : s₁.app.ticks < r.calls := by
      rw [hcalls]
      exact one_pos
    have htimer := nodeStep_epochTimer_eq hticks
    rcases epochChangeHandler_cases hticks with ⟨-, hstate, -⟩ | ⟨-, heq⟩
    · exact absurd rfl hstate
    · rw [heq] at htimer
      exact onAirStep_eq rfl htimer (Delivers.sendPacket_idle (s := tick s₁) .gap advert rfl)
  have hstep₃ : onAirStep r ⟨s₂, [.reset, advert]⟩ (.answer .reset resetDone) =
      some ⟨s₃, [advert, .readBdAddr]⟩ :=
    onAirStep_answer ⟨rfl, rfl⟩ (poll_script hsettled₂ rfl (by rw [hsub₂]; rfl) rfl rfl (Or.inl rfl)
      fun _ hsub => initScript_readBdAddr (by rw [hsub, hsub₂]; rfl)) (scripted_delivers _ _)
  have hstep₄ : onAirStep r ⟨s₃, [advert, .readBdAddr]⟩ (.answer advert advertUpdated) =
      some ⟨s₄, [.readBdAddr, response]⟩ :=
    onAirStep_answer ⟨rfl, rfl, rfl⟩ (poll_vendor hsettled₃ (fun _ => by rw [hsub₃]; rfl) rfl)
      (leExtEvent_delivers (s := idled s₃) rfl .advertisementUpdate advertUpdated)
  have hstep₅ : onAirStep r ⟨s₄, [.readBdAddr, response]⟩ (.answer .readBdAddr bdAddrDone) =
      some ⟨s₅, [response, .readBufferSize]⟩ :=
    onAirStep_answer ⟨rfl, rfl⟩ (poll_script hsettled₄ rfl (by rw [hsub₄]; rfl) rfl rfl (Or.inr rfl)
      fun _ hsub => initScript_readBufferSize (by rw [hsub, hsub₄]; rfl)) (scripted_delivers _ _)
  have hstep₆ : onAirStep r ⟨s₅, [response, .readBufferSize]⟩
      (.answer response scanResponseUpdated) =
        some ⟨s₆, [.readBufferSize, .makeDiscoverable 0x03 0x01 (blankAddr r s₅) 0x07 0]⟩ :=
    onAirStep_answer ⟨rfl, rfl, rfl⟩ (poll_vendor hsettled₅ (fun _ => by rw [hsub₅]; rfl) rfl)
      (leExtEvent_delivers (s := idled s₅) rfl .scanResponseUpdate scanResponseUpdated)
  refine ⟨r, [.poll, .epochTimer, .answer .reset resetDone, .answer advert advertUpdated,
    .answer .readBdAddr bdAddrDone, .answer response scanResponseUpdated],
    ⟨s₆, [.readBufferSize, .makeDiscoverable 0x03 0x01 (blankAddr r s₅) 0x07 0]⟩, ?_, ?_⟩
  · rw [Steps.run, hstep₁, Option.bind_some, Steps.run, hstep₂, Option.bind_some, Steps.run,
      hstep₃, Option.bind_some, Steps.run, hstep₄, Option.bind_some, Steps.run, hstep₅,
      Option.bind_some, Steps.run, hstep₆, Option.bind_some, Steps.run]
  · intro hconsistent
    have haccepted : accepted s₆.sent = [.reset, advert, .readBdAddr, response, .readBufferSize,
        .makeDiscoverable 0x03 0x01 (blankAddr r s₅) 0x07 0] := rfl
    obtain ⟨epoch, ⟨address, haddress, -⟩, -⟩ :=
      hconsistent (accepted s₆.sent) List.prefix_rfl (by rw [haccepted]; rfl)
    rw [haccepted] at haddress
    cases haddress

end EbnAnchor.Main
