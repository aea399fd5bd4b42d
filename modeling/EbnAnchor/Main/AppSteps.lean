import EbnAnchor.Main.App
import EbnAnchor.Stack.HciFlow

/-!
What the handlers of `main.c` do, one lemma for each.

* `leExtEvent_eq`: a vendor event is answered with at most one command;
* `epochChangeHandler_cases`: the epoch timer sends one command, or two at the end of an
  epoch;
* `app_stable`: the variables change in these handlers alone.
-/

namespace EbnAnchor.Main

open EbnAnchor.Stack EbnAnchor.Core

section

variable {env : EbnEnv} (r : NodeRun env)

/-! ### The packet handler -/

/-- The command a branch sends, with `blank` in `blank_addr`. -/
def LeBranch.command (blank : BdAddr) (app : AppState) : LeBranch → Option Command
  | .deviceInitDone => some (.setParam 0x01 0x0000)
  | .setParam1 => some (.setParam 0x08 0x0320)
  | .setParam2 => some (.setParam 0x09 0x0960)
  | .setParam3 => some (configAddr r app)
  | .configDeviceAddr => some (updateAdvert r 0x01 app)
  | .advertisementUpdate => some (updateAdvert r 0x00 app)
  | .scanResponseUpdate =>
    if app.broadcasting = 0 then some (.makeDiscoverable 0x03 0x01 blank 0x07 0) else none
  | .endDiscoverable => some (configAddr r app)
  | _ => none

/-- What a branch does to the variables. -/
def LeBranch.effect (packet : Packet) (app : AppState) : LeBranch → AppState
  | .deviceInitDone => { app with paramState := app.paramState + 1 }
  | .setParam1 => { app with paramState := app.paramState + 1 }
  | .setParam2 => { app with paramState := app.paramState + 1 }
  | .scanResponseUpdate => { app with state := 1, startScan := 1 }
  | .makeDiscoverable => { app with broadcasting := 1 }
  | .endDiscoverable => { app with broadcasting := 0 }
  | .deviceDiscoveryDone =>
    { app with startScan := app.startScan + packet 5, scanningNow := 0 }
  | _ => app

/-- Send a command, if there is one. -/
def sendAnswer (s : Node) : Option Command → Node
  | none => s
  | some command => gapSendCmd command s

variable {r}

theorem leExtEvent_eq (branch : LeBranch) (packet : Packet) (s : Node) :
    leExtEvent r branch packet s =
      withApp (sendAnswer s (branch.command r (blankAddr r s) s.app)) fun app =>
        branch.effect packet app := by
  cases branch with
  | scanResponseUpdate =>
    unfold leExtEvent LeBranch.command
    by_cases hoff : s.app.broadcasting = 0
    · simp only [hoff, if_true]
      rfl
    · simp only [hoff, if_false]
      rfl
  | deviceInitDone | setParam1 | setParam2 | setParam3 | configDeviceAddr
    | advertisementUpdate | makeDiscoverable | endDiscoverable | deviceDiscoveryDone
    | ignored => rfl

theorem leExtEvent_app (branch : LeBranch) (packet : Packet) (s : Node) :
    (leExtEvent r branch packet s).app = branch.effect packet s.app := by
  rw [leExtEvent_eq]
  cases branch.command r (blankAddr r s) s.app with
  | none => rfl
  | some command => rfl

theorem packetHandler_ignores {packet : Packet} (hstate : packet 0 ≠ btstackEventState)
    (hvendor : packet 0 ≠ hciLeExtEvent) (s : Node) : packetHandler r packet s = s := by
  rw [packetHandler, if_neg hstate, if_neg hvendor]

theorem packetHandler_vendor {packet : Packet} (h : packet 0 = hciLeExtEvent) (s : Node) :
    packetHandler r packet s =
      leExtEvent r (leBranch s.app.paramState packet) packet s := by
  unfold packetHandler
  rw [h, if_neg (by decide), if_pos rfl]

theorem packetHandler_other {packet : Packet} (h : packet 0 ≠ hciLeExtEvent) (s : Node) :
    packetHandler r packet s = s ∨ packetHandler r packet s = hciSendDeviceInt s := by
  unfold packetHandler
  split_ifs
  · exact Or.inr rfl
  · exact Or.inl rfl
  · exact Or.inl rfl

theorem packetHandler_quiet : QuietHandler (packetHandler r) := by
  intro s packet h
  rcases packetHandler_other h s with heq | heq
  · rw [heq]
    exact .refl s
  · rw [heq]
    exact hciSendDeviceInt_guarded s

theorem packetHandler_starts : StartsOnWorking (packetHandler r) :=
  fun s => h4SendPacket_busy s.txState

/-- The stack never touches the variables of `main.c`. -/
theorem app_stable : Stable (packetHandler r) fun s s' => s'.app = s.app where
  refl _ := rfl
  trans h h' := h'.trans h
  withStack _ _ := rfl
  sendCmd _ _ := rfl
  sent _ := rfl
  event s packet h := by
    rcases packetHandler_other h s with heq | heq
    · rw [heq]
    · rw [heq]
      rfl

/-! ### The epoch timer -/

variable (r)

/-- The next call of `EBN_Increment_Time` changes the epoch. -/
def EndsEpoch (app : AppState) : Prop :=
  (r.states app.ticks).messageNum.toNat + 1 = epochLength

variable {r}

theorem returned_ne_zero_iff {app : AppState} (hticks : app.ticks < r.calls) :
    r.returned app.ticks ≠ 0 ↔ EndsEpoch r app := by
  unfold EndsEpoch
  have hlen : epochLength = 68 := rfl
  rcases r.call hticks with ⟨hlt, hrc, -⟩ | ⟨heq, hrc, -⟩
  · rw [hrc]
    exact iff_of_false (fun h => h rfl) (by omega)
  · rw [hrc]
    exact iff_of_true (by decide) (by omega)

theorem nodeStep_epochTimer_eq {s : Node} (hticks : s.app.ticks < r.calls) :
    nodeStep r s .epochTimer = some (epochChangeHandler r s) := if_pos hticks

theorem nodeStep_epochTimer {s s' : Node} (h : nodeStep r s .epochTimer = some s') :
    s.app.ticks < r.calls ∧ s' = epochChangeHandler r s := by
  rw [nodeStep] at h
  split_ifs at h with hticks
  exact ⟨hticks, (Option.some.inj h).symm⟩

/-- The counter behind the next firing. -/
def tick (s : Node) : Node := withApp s fun app => { app with ticks := app.ticks + 1 }

/-- By what `EBN_Increment_Time` returns. -/
theorem epochChangeHandler_returned (s : Node) :
    (r.returned s.app.ticks ≠ 0 ∧ s.app.state ≠ 0 ∧ epochChangeHandler r s =
      gapSendCmd (updateAdvert r 0x01 (tick s).app) (withApp (gapSendCmd .endDiscoverable (tick s))
        fun app => { app with changingAddr := 1 })) ∨
    (¬ (r.returned s.app.ticks ≠ 0 ∧ s.app.state ≠ 0) ∧ epochChangeHandler r s =
      gapSendCmd (updateAdvert r 0x01 (tick s).app) (tick s)) := by
  by_cases h : r.returned s.app.ticks ≠ 0 ∧ s.app.state ≠ 0
  · have hif : r.returned s.app.ticks ≠ 0 ∧ (tick s).app.state ≠ 0 := h
    refine Or.inl ⟨h.1, h.2, ?_⟩
    unfold epochChangeHandler
    exact congrArg (fun t : Node => gapSendCmd (updateAdvert r 0x01 t.app) t) (if_pos hif)
  · have hif : ¬ (r.returned s.app.ticks ≠ 0 ∧ (tick s).app.state ≠ 0) := h
    refine Or.inr ⟨h, ?_⟩
    unfold epochChangeHandler
    exact congrArg (fun t : Node => gapSendCmd (updateAdvert r 0x01 t.app) t) (if_neg hif)

theorem epochChangeHandler_cases {s : Node} (hticks : s.app.ticks < r.calls) :
    (EndsEpoch r s.app ∧ s.app.state ≠ 0 ∧ epochChangeHandler r s =
      gapSendCmd (updateAdvert r 0x01 (tick s).app) (withApp (gapSendCmd .endDiscoverable (tick s))
        fun app => { app with changingAddr := 1 })) ∨
    (¬ (EndsEpoch r s.app ∧ s.app.state ≠ 0) ∧ epochChangeHandler r s =
      gapSendCmd (updateAdvert r 0x01 (tick s).app) (tick s)) := by
  rw [← returned_ne_zero_iff hticks]
  exact epochChangeHandler_returned s

end

end EbnAnchor.Main
