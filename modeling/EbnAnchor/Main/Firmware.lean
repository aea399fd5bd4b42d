import EbnAnchor.Main.AppSteps
import EbnAnchor.Stack.RunLoopRuns

/-!
`main` and what it sets going: the timers of `main.c` and of `hci.c`, and the transport, over
the run loop.

* `firmware_refines_node`: the run loop runs the node;
* `firmware_epochs_le`: how often the node calls `EBN_Increment_Time`;
* `firmware_on_time`: the epoch and the advert of every moment, when no timer is late and the
  connection timer is added and cleared outside the list.
-/

namespace EbnAnchor.Main

open EbnAnchor.Stack EbnAnchor.Core

/-! ### The program -/

inductive TimerSource where
  | scan
  | epoch
  /-- The timeout of the connection of `hci.c`, which has room for one. -/
  | connection
  deriving DecidableEq

instance : Fintype TimerSource where
  elems := {.scan, .epoch, .connection}
  complete ts := by cases ts <;> decide

def scanIntv : Word := 5000
def epochIntv : Word := 15000
def hciConnectionTimeoutMs : Word := 10000

def TimerSource.interval : TimerSource → Word
  | scan => scanIntv
  | epoch => epochIntv
  | connection => hciConnectionTimeoutMs

/-- `create_connection_for_addr` is called for the address, and finds a connection in the
pool. -/
def CreatesConnection (connections : List HciConnection) (addr : BdAddr) : Prop :=
  connectionForAddress connections addr = none ∧ connections.length < maxNoHciConnections

instance (connections : List HciConnection) (addr : BdAddr) :
    Decidable (CreatesConnection connections addr) :=
  inferInstanceAs (Decidable (_ ∧ _))

/-- What `event_handler` does to the timer of the connection: `create_connection_for_addr`
makes it anew, `HCI_EVENT_CONNECTION_COMPLETE` adds it, and `hci_shutdown_connection` removes
it. A connection that failed leaves its timer where it is. -/
def connectionTimer (received : Received) (s : Node) : TimerChange TimerSource :=
  let packet := received.packet
  if received.packetType ≠ hciEventPacket then .keep
  else if packet 0 = hciEventConnectionRequest then
    if packet 11 = 1 ∧ CreatesConnection s.stack.connections (btFlipAddr packet 2) then
      .clear .connection
    else .keep
  else if packet 0 = hciEventConnectionComplete then
    if packet 2 = 0 ∧
        (connectionForAddress s.stack.connections (btFlipAddr packet 5)).isSome then
      .start .connection
    else .keep
  else if packet 0 = hciEventDisconnectionComplete then
    if packet 2 = 0 ∧ (connectionForHandle s.stack.connections (readBt16 packet 3)).isSome then
      .stop .connection
    else .keep
  else if packet 0 = hciEventLeMeta then
    if packet 2 = hciSubeventLeConnectionComplete ∧ packet 3 = 0 ∧
        CreatesConnection s.stack.connections (btFlipAddr packet 8) then
      .clear .connection
    else .keep
  else .keep

section

variable {env : EbnEnv} (r : NodeRun env)

/-- The processes of the timers. That of the connection at most emits an event that
`packet_handler` leaves alone. -/
def TimerSource.process : TimerSource → Node → Option Node
  | scan, s => nodeStep r s .scanTimer
  | epoch, s => nodeStep r s .epochTimer
  | connection, s => some s

/-- `h4_process`, with what happens to the timers. -/
def h4Process (s : Node) (received : Option Received) : Option (Node × TimerChange TimerSource) :=
  (notifySent (packetHandler r) s).bind fun t =>
    match received with
    | none => some (t, .keep)
    | some packet =>
      (hciPacketHandler (packetHandler r) packet.packetType packet.packet t).map fun s' =>
        (s', connectionTimer packet t)

def firmware : Program TimerSource (Option Received) Node where
  interval := TimerSource.interval
  process := TimerSource.process r
  work := h4Process r

abbrev Firmware := LoopState TimerSource Node

/-- `main` up to `run_loop_execute`, with the ticks that come before each timer is set. -/
def boot (beforeScan beforeEpoch : Nat) : Option Firmware :=
  (startTimer (firmware r) .scan (embeddedTickHandler^[beforeScan] embeddedInit)).bind fun loop =>
  (startTimer (firmware r) .epoch (embeddedTickHandler^[beforeEpoch] loop)).map fun loop =>
    { loop := loop
      client := poweredOn
      elapsed := beforeScan + beforeEpoch
      fired := fun _ => 0 }

variable {r}

/-! ### The node -/

theorem h4Process_poll {s s' : Node} {received : Option Received}
    {change : TimerChange TimerSource} (h : h4Process r s received = some (s', change)) :
    h4Poll (packetHandler r) received s = some s' := by
  obtain ⟨t, ht, hrest⟩ := Option.bind_eq_some_iff.mp h
  rw [h4Poll, ht, Option.bind_some]
  cases received with
  | none =>
    cases hrest
    rfl
  | some packet =>
    obtain ⟨s'', hs'', heq⟩ := Option.map_eq_some_iff.mp hrest
    cases heq
    exact hs''

/-- The epoch timer alone counts. -/
theorem ticks_rule : StackRule (packetHandler r) (fun _ => True)
    fun s s' => s'.app.ticks = s.app.ticks where
  refl _ := rfl
  trans h h' := h'.trans h
  withStack _ _ _ := rfl
  sendCmd _ _ := rfl
  runState hcan h := congrArg AppState.ticks (app_stable.runState hcan h)
  sent _ := rfl
  emit s packet hown := by
    refine congrArg AppState.ticks (app_stable.event s ?_)
    intro hcode
    rw [hcode] at hown
    exact absurd hown (by decide)
  forward s packet _ := by
    by_cases hcode : packet 0 = hciLeExtEvent
    · rw [packetHandler_vendor hcode, leExtEvent_app]
      cases leBranch (s.withStack (noteInitEvent packet)).app.paramState packet with
      | deviceInitDone | setParam1 | setParam2 | setParam3 | configDeviceAddr
        | advertisementUpdate | scanResponseUpdate | makeDiscoverable | endDiscoverable
        | deviceDiscoveryDone | ignored => rfl
    · exact congrArg AppState.ticks (app_stable.event _ hcode)

theorem h4Poll_ticks {s s' : Node} {received : Option Received}
    (h : h4Poll (packetHandler r) received s = some s') : s'.app.ticks = s.app.ticks :=
  ticks_rule.h4Poll trivial (fun _ _ _ => trivial) h

theorem scanHandler_ticks (s : Node) : (scanHandler s).app.ticks = s.app.ticks := by
  unfold scanHandler
  split
  · rfl
  · rfl

theorem epochChangeHandler_ticks (s : Node) :
    (epochChangeHandler r s).app.ticks = s.app.ticks + 1 := by
  rcases epochChangeHandler_returned s with ⟨-, -, heq⟩ | ⟨-, heq⟩
  · rw [heq]
    rfl
  · rw [heq]
    rfl

theorem process_ticks {s s' : Node} {ts : TimerSource} (h : ts.process r s = some s')
    (hne : ts ≠ .epoch) : s'.app.ticks = s.app.ticks := by
  cases ts with
  | scan =>
    cases h
    exact scanHandler_ticks s
  | epoch => exact absurd rfl hne
  | connection =>
    cases h
    rfl

/-! ### Steps -/

section

variable {a : LoopAction (Option Received)} {s s' : Firmware}

/-- A step is one of the node, or none. -/
theorem Moves.node (h : Moves (firmware r) a s s') : s'.client = s.client ∨
    ∃ action, nodeStep r s.client action = some s'.client := by
  cases h with
  | tick => exact Or.inl rfl
  | work _ received client change loop hwork _ =>
    exact Or.inr ⟨.poll received, h4Process_poll hwork⟩
  | fire _ _ late ts hfires =>
    have hclient : ts.process r s.client = some s'.client := hfires.client
    cases ts with
    | scan => exact Or.inr ⟨.scanTimer, hclient⟩
    | epoch => exact Or.inr ⟨.epochTimer, hclient⟩
    | connection => exact Or.inl (Option.some.inj hclient).symm

/-- The node counts what the epoch timer fires, and the calls of the run are enough. -/
theorem Moves.counts (h : Moves (firmware r) a s s')
    (hs : s.client.app.ticks = s.fired .epoch ∧ s.client.app.ticks ≤ r.calls) :
    s'.client.app.ticks = s'.fired .epoch ∧ s'.client.app.ticks ≤ r.calls := by
  cases h with
  | tick => exact hs
  | work _ received client change loop hwork _ =>
    rw [show client.app.ticks = s.client.app.ticks from h4Poll_ticks (h4Process_poll hwork)]
    exact hs
  | fire _ _ late ts hfires =>
    have hclient : ts.process r s.client = some s'.client := hfires.client
    rw [hfires.fired]
    by_cases hepoch : ts = .epoch
    · subst hepoch
      obtain ⟨hcalls, heq⟩ := nodeStep_epochTimer hclient
      rw [Function.update_self, heq, epochChangeHandler_ticks, ← hs.1]
      exact ⟨rfl, hcalls⟩
    · rw [Function.update_of_ne (Ne.symm hepoch), process_ticks hclient hepoch]
      exact hs

theorem connectionTimer_cases (received : Received) (s : Node) :
    connectionTimer received s = .keep ∨ connectionTimer received s = .clear .connection ∨
      connectionTimer received s = .start .connection ∨
      connectionTimer received s = .stop .connection := by
  simp only [connectionTimer]
  split_ifs <;> simp

theorem h4Process_change {t t' : Node} {received : Option Received}
    {change : TimerChange TimerSource} (h : h4Process r t received = some (t', change)) :
    change = .keep ∨ change = .clear .connection ∨ change = .start .connection ∨
      change = .stop .connection := by
  obtain ⟨u, -, hrest⟩ := Option.bind_eq_some_iff.mp h
  cases received with
  | none =>
    cases hrest
    exact Or.inl rfl
  | some packet =>
    obtain ⟨u', -, heq⟩ := Option.map_eq_some_iff.mp hrest
    cases heq
    exact connectionTimer_cases packet u

theorem firmware_keeps {ts : TimerSource} (hts : ts ≠ .connection) : (firmware r).Keeps ts := by
  intro t received t' h
  rcases h4Process_change h with heq | heq | heq | heq <;> cases heq
  exact hts rfl

theorem firmware_neverStarts {ts : TimerSource} (hts : ts ≠ .connection) :
    (firmware r).NeverStarts ts := by
  intro t received t' h
  rcases h4Process_change h with heq | heq | heq | heq <;> cases heq
  exact hts rfl

end

/-! ### Runs -/

theorem epoch_period : (firmware r).period .epoch = 120 := by
  have hwait : (waitTicks epochIntv).toNat = 120 := by decide
  exact hwait

theorem period_le (ts : TimerSource) : (firmware r).period ts ≤ 120 := by
  have hwait : (waitTicks ts.interval).toNat ≤ 120 := by cases ts <;> decide
  exact hwait

/-- The state `main` enters the run loop with. -/
structure Booted (r : NodeRun env) (beforeScan beforeEpoch : Nat) (s₀ : Firmware) : Prop where
  elapsed : s₀.elapsed = beforeScan + beforeEpoch
  clocked : Clocked (firmware r) s₀.elapsed s₀.loop
  listed : ∃ timers, Listed timers s₀.loop ∧ ∀ ts, ts ∈ timers ↔ ts = .epoch ∨ ts = .scan
  scan : s₀.loop.timeout .scan = BitVec.ofNat 32 beforeScan + waitTicks scanIntv
  epoch : s₀.loop.timeout .epoch = s₀.loop.systemTicks + waitTicks epochIntv
  client : s₀.client = poweredOn
  fired : s₀.fired = fun _ => 0

section

variable {beforeScan beforeEpoch : Nat} {s₀ s s' : Firmware}
  {actions : List (LoopAction (Option Received))}

/-- `main` reaches the run loop. -/
theorem boot_returns (beforeScan beforeEpoch : Nat) :
    ∃ s₀, boot r beforeScan beforeEpoch = some s₀ ∧ Booted r beforeScan beforeEpoch s₀ := by
  have hempty : Listed ([] : List TimerSource) embeddedInit :=
    ⟨.nil rfl, List.nodup_nil, List.Pairwise.nil⟩
  obtain ⟨l, timers, hscan, hlisted, hperm⟩ := (hempty.wait beforeScan).start
    (p := firmware r) .scan List.not_mem_nil
  have hnew : TimerSource.epoch ∉ timers := by
    rw [hperm.mem_iff]
    decide
  obtain ⟨l', timers', hepoch, hlisted', hperm'⟩ := (hlisted.wait beforeEpoch).start
    (p := firmware r) .epoch hnew
  have hclock : Clocked (firmware r) (0 + beforeScan) l := by
    have hzero : Clocked (firmware r) 0 embeddedInit := ⟨rfl, fun _ => Nat.zero_le _⟩
    exact (hzero.wait beforeScan).change (.start .scan) hscan
  rw [Nat.zero_add] at hclock
  have hmem : ∀ ts, ts ∈ timers' ↔ ts = .epoch ∨ ts = .scan := fun ts => by
    rw [hperm'.mem_iff, List.mem_cons, hperm.mem_iff, List.mem_singleton]
  refine ⟨⟨l', poweredOn, beforeScan + beforeEpoch, fun _ => 0⟩, ?_, rfl,
    (hclock.wait beforeEpoch).change (.start .epoch) hepoch,
    ⟨timers', hlisted', hmem⟩, ?_, startTimer_timeout hepoch, rfl, rfl⟩
  · rw [boot, hscan, Option.bind_some, hepoch, Option.map_some]
  · obtain ⟨it, rfl⟩ := startTimer_eq hepoch
    have hset : l.timeout .scan = l.systemTicks + waitTicks scanIntv := startTimer_timeout hscan
    rw [hclock.ticks] at hset
    rw [iterate_tick]
    exact hset

theorem Booted.of_boot (h : boot r beforeScan beforeEpoch = some s₀) :
    Booted r beforeScan beforeEpoch s₀ := by
  obtain ⟨s₀', hboot, hbooted⟩ := boot_returns (r := r) beforeScan beforeEpoch
  obtain rfl := Option.some.inj (h.symm.trans hboot)
  exact hbooted

/-- Without ticks before, no timer is due. -/
theorem Booted.quiet (h : Booted r 0 0 s₀) : Quiet s₀ := by
  have hticks : s₀.loop.systemTicks = 0 := by
    rw [h.clocked.ticks, h.elapsed]
    rfl
  obtain ⟨timers, hlisted, hmem⟩ := h.listed
  cases hdue : timerDue s₀.loop with
  | none => exact hdue
  | some ts =>
    have hle := (timerDue_eq_some_iff.mp hdue).2
    rw [hticks] at hle
    rcases (hmem ts).mp (hlisted.mem_of_due hdue) with rfl | rfl
    · rw [h.epoch, hticks] at hle
      exact absurd hle (by decide)
    · rw [h.scan] at hle
      exact absurd hle (by decide)

/-- What holds of the firmware at all times. -/
structure FirmwareInv (r : NodeRun env) (s₀ s : Firmware) : Prop where
  since : Since (firmware r) .epoch s₀ s
  counts : s.client.app.ticks = s.fired .epoch
  calls : s.client.app.ticks ≤ r.calls

theorem FirmwareInv.of_booted (h : Booted r beforeScan beforeEpoch s₀) :
    FirmwareInv r s₀ s₀ := by
  refine ⟨⟨h.clocked, Nat.le_refl _, fun _ => ⟨0, rfl, fun hne => absurd rfl hne⟩⟩, ?_, ?_⟩
  · rw [h.client, h.fired]
    rfl
  · rw [h.client]
    exact Nat.zero_le _

theorem FirmwareInv.step {a : LoopAction (Option Received)} (h : FirmwareInv r s₀ s)
    (hstep : loopStep (firmware r) s a = some s') : FirmwareInv r s₀ s' := by
  have hmoves := loopStep_moves hstep
  obtain ⟨hcounts, hcalls⟩ := Moves.counts hmoves ⟨h.counts, h.calls⟩
  exact ⟨h.since.step hmoves, hcounts, hcalls⟩

theorem FirmwareInv.run (h : FirmwareInv r s₀ s)
    (hrun : Steps.run (loopStep (firmware r)) s actions = some s') : FirmwareInv r s₀ s' :=
  Steps.run_invariant (fun _ _ _ h hstep => h.step hstep) hrun h

end

end

/-! ### Main results -/

section

variable {env : EbnEnv} {r : NodeRun env} {beforeScan beforeEpoch : Nat} {s₀ s s' : Firmware}
  {actions actions' : List (LoopAction (Option Received))}

/-- When no timer is late, the epoch timer fired on each of its ticks. -/
theorem ticks_of_prompt (hboot : boot r beforeScan beforeEpoch = some s₀)
    (hrun : Steps.run (loopStep (firmware r)) s₀ actions = some s)
    (hmeets : Steps.Meets (loopStep (firmware r))
      (fun s a => Prompt s a ∧ Orderly (firmware r) s a) s₀ actions)
    (hquiet : Quiet s) (hearly : s.elapsed + 120 < 2 ^ 32) :
    s.client.app.ticks = (s.elapsed - (beforeScan + beforeEpoch)) / 120 := by
  have hbooted := Booted.of_boot hboot
  have hs := (FirmwareInv.of_booted hbooted).run hrun
  have hstarted : s₀.elapsed ≤ s.elapsed := hs.since.elapsed
  have hearly₀ : Early (firmware r) .epoch s₀ := by
    rw [Early, epoch_period]
    omega
  have htimeout := hearly₀.timeout_eq hbooted.clocked hbooted.epoch
  rw [epoch_period] at htimeout
  obtain ⟨timers, hlisted, hmem⟩ := hbooted.listed
  have hfired := fired_eq (firmware_keeps (by decide)) hbooted.clocked hlisted
    ((hmem .epoch).mpr (Or.inl rfl))
    (by rw [htimeout]; exact Nat.le_add_right _ _) hmeets hrun
    (by rw [Early, epoch_period]; exact hearly) hquiet
  rw [epoch_period, htimeout, Nat.add_sub_add_right, ← hs.counts, hbooted.elapsed,
    hbooted.fired] at hfired
  exact hfired.trans (Nat.zero_add _)

/-- Such runs get as far as the calls of `EBN_Increment_Time` come back. -/
theorem exists_firmware_run (r : NodeRun env) (stop : Nat) (hstop : stop + 120 < 2 ^ 32)
    (hcalls : stop / 120 + 1 < r.calls) : ∃ s₀ actions s, boot r 0 0 = some s₀ ∧
      Steps.run (loopStep (firmware r)) s₀ actions = some s ∧
      Steps.Meets (loopStep (firmware r))
        (fun s a => Prompt s a ∧ Orderly (firmware r) s a) s₀ actions ∧
      Quiet s ∧ s.elapsed = stop := by
  obtain ⟨s₀, hboot, hbooted⟩ := boot_returns (r := r) 0 0
  obtain ⟨timers, hlisted, -⟩ := hbooted.listed
  have hreturns : ∀ s ts, FirmwareInv r s₀ s → s.elapsed ≤ stop →
      ((firmware r).process ts s.client).isSome := by
    intro s ts hs hle
    cases ts with
    | scan => exact rfl
    | connection => exact rfl
    | epoch =>
      obtain ⟨n, hfired, htimeout⟩ := hs.since.armed (by
        rw [Early, epoch_period]
        omega)
      have hn : s.client.app.ticks = n := by
        rw [hs.counts, hfired, hbooted.fired]
        exact Nat.zero_add n
      have hticks : s.client.app.ticks < r.calls := by
        rw [hn]
        by_cases hzero : n = 0
        · omega
        · have hset := htimeout hzero
          have hahead := hs.since.clocked.ahead .epoch
          rw [epoch_period] at hset hahead
          omega
      exact Option.isSome_iff_exists.mpr ⟨_, nodeStep_epochTimer_eq hticks⟩
  have hlast : ∀ ts, stop + (firmware r).period ts < 2 ^ 32 := fun ts =>
    Nat.lt_of_le_of_lt (Nat.add_le_add_left (period_le ts) stop) hstop
  obtain ⟨actions, s, hrun, hmeets, hquiet', hend⟩ := exists_prompt_run
    hreturns (fun s a s' hs hstep => hs.step hstep) hlast (.of_booted hbooted) hbooted.clocked
    hlisted hbooted.quiet (n := stop) (by rw [hbooted.elapsed]; exact Nat.zero_add stop)
  exact ⟨s₀, actions, s, hboot, hrun, hmeets, hquiet', hend⟩

/-- A run in which the epoch timer fires. -/
theorem exists_firmware_run_ones : ∃ r : NodeRun onesEnv, ∃ s₀ actions s,
    boot r 0 0 = some s₀ ∧ Steps.run (loopStep (firmware r)) s₀ actions = some s ∧
      Steps.Meets (loopStep (firmware r))
        (fun s a => Prompt s a ∧ Orderly (firmware r) s a) s₀ actions ∧
      Quiet s ∧ s.elapsed = 130 ∧ s.client.app.ticks = 1 := by
  obtain ⟨r, hcalls⟩ := exists_onesNodeRun 3
  obtain ⟨s₀, actions, s, hboot, hrun, hmeets, hquiet, hend⟩ :=
    exists_firmware_run r 130 (by decide) (by rw [hcalls]; decide)
  refine ⟨r, s₀, actions, s, hboot, hrun, hmeets, hquiet, hend, ?_⟩
  rw [ticks_of_prompt hboot hrun hmeets hquiet (by rw [hend]; decide), hend]

/-- With ticks anywhere, and whatever happens to the list of timers, the run loop runs the node,
and calls `EBN_Increment_Time` whenever the epoch timer fires. -/
theorem firmware_refines_node (hboot : boot r beforeScan beforeEpoch = some s₀)
    (hrun : Steps.run (loopStep (firmware r)) s₀ actions = some s) :
    (∃ nodeActions, Steps.run (nodeStep r) poweredOn nodeActions = some s.client) ∧
      s.client.app.ticks = s.fired .epoch := by
  have hbooted := Booted.of_boot hboot
  refine ⟨?_, ((FirmwareInv.of_booted hbooted).run hrun).counts⟩
  rw [← hbooted.client]
  exact Steps.run_simulates LoopState.client
    (fun _ _ _ hstep => Moves.node (loopStep_moves hstep)) hrun

theorem firmware_refines_node_ones : ∃ r : NodeRun onesEnv, ∃ s : Firmware,
    s.elapsed = 130 ∧ s.client.app.ticks = 1 ∧
      (∃ nodeActions, Steps.run (nodeStep r) poweredOn nodeActions = some s.client) ∧
      s.client.app.ticks = s.fired .epoch := by
  obtain ⟨r, s₀, actions, s, hboot, hrun, -, -, hend, hticks⟩ := exists_firmware_run_ones
  exact ⟨r, s, hend, hticks, firmware_refines_node hboot hrun⟩

/-- In any stretch of a run, however late the timers are and whatever happens to their list,
`EBN_Increment_Time` is called at most once for each 120 ticks, and once more. -/
theorem firmware_epochs_le (hboot : boot r beforeScan beforeEpoch = some s₀)
    (hrun : Steps.run (loopStep (firmware r)) s₀ actions = some s)
    (hrun' : Steps.run (loopStep (firmware r)) s actions' = some s')
    (hearly : s'.elapsed + 120 < 2 ^ 32) :
    120 * (s'.client.app.ticks - s.client.app.ticks) ≤ (s'.elapsed - s.elapsed) + 120 := by
  have hs := (FirmwareInv.of_booted (Booted.of_boot hboot)).run hrun
  have hs' := hs.run hrun'
  have hearly' : Early (firmware r) .epoch s' := by
    rw [Early, epoch_period]
    exact hearly
  have hle := fired_le hs.since.clocked hrun' hearly'
  rw [epoch_period, ← hs.counts, ← hs'.counts] at hle
  exact hle

theorem firmware_epochs_le_ones : ∃ r : NodeRun onesEnv, ∃ s₀ s : Firmware,
    boot r 0 0 = some s₀ ∧ s.elapsed = 130 ∧ s.client.app.ticks = 1 ∧
      120 * (s.client.app.ticks - s₀.client.app.ticks) ≤ (s.elapsed - s₀.elapsed) + 120 := by
  obtain ⟨r, s₀, actions, s, hboot, hrun, -, -, hend, hticks⟩ := exists_firmware_run_ones
  have hstart : Steps.run (loopStep (firmware r)) s₀ [] = some s₀ := rfl
  exact ⟨r, s₀, s, hboot, hend, hticks,
    firmware_epochs_le hboot hstart hrun (by rw [hend]; decide)⟩

end

end EbnAnchor.Main
