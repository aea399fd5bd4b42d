import EbnAnchor.Core.Mem
import EbnAnchor.Lib.LinkedList
import EbnAnchor.Lib.Steps
import Mathlib.Algebra.Group.Nat.Defs
import Mathlib.Data.List.Perm.Basic
import Mathlib.Logic.Function.Iterate

/-!
`run_loop_embedded.c`, with `linked_list.c` and `hal_tick.c`, over any program whose timers set
themselves again.

The tick interrupt may come between any two steps of the loop, and while a timer is processed.
Going to sleep does nothing in `hal_cpu.c`, so that the loop goes round all the time and the
trigger has no effect.

* `Clocked`: no timeout is further away than its period, whatever happens to the list;
* `Listed`: the list ends and is sorted, as long as no timer in it is added or cleared;
* `Moves`: what a step does.
-/

namespace EbnAnchor.Stack

open LinkedList

/-! ### Timers -/

/-- The list of timers and the clock; `τ` names the timer sources. -/
structure RunLoop (τ : Type) where
  timers : Links τ
  timeout : τ → Word
  systemTicks : Word

section

variable {τ : Type}

/-- `embedded_init`; a timer that was never set or added is nowhere read. -/
def embeddedInit : RunLoop τ := ⟨⟨none, fun _ => none⟩, fun _ => 0, 0⟩

def embeddedTickHandler (l : RunLoop τ) : RunLoop τ :=
  { l with systemTicks := l.systemTicks + 1 }

/-- `hal_tick_get_tick_period_in_ms`. -/
abbrev halTickPeriodInMs : Word := 125

def embeddedTicksForMs (timeInMs : Word) : Word := timeInMs / halTickPeriodInMs

/-- The ticks `run_loop_set_timer` waits. -/
def waitTicks (timeoutInMs : Word) : Word :=
  let ticks := embeddedTicksForMs timeoutInMs
  if ticks = 0 then ticks + 1 else ticks

/-- The timer the loop processes next: the first, when it is due. -/
def timerDue (l : RunLoop τ) : Option τ :=
  match l.timers.head with
  | none => none
  | some ts => if l.timeout ts > l.systemTicks then none else some ts

variable [DecidableEq τ]

/-- `run_loop_set_timer`. -/
def runLoopSetTimer (ts : τ) (timeoutInMs : Word) (l : RunLoop τ) : RunLoop τ :=
  { l with timeout := Function.update l.timeout ts (l.systemTicks + waitTicks timeoutInMs) }

/-- What `linked_item_set_user` does to the links. -/
def linkedItemSetUser (item : τ) (list : Links τ) : Links τ := list.set (some item) none

/-- The test of `embedded_add_timer`. -/
def isLater (timeout : τ → Word) (ts next : τ) : Bool := timeout ts < timeout next

variable [Fintype τ]

/-- `linked_list_remove` on the links; nothing when the search never ends. -/
def RunLoop.linkedListRemove (item : τ) (list : Links τ) : Option (Links τ) :=
  (list.find (fun it => it = item) (Fintype.card τ + 1) none).map fun it =>
    if list.link it = some item then list.set it (list.next item) else list

/-- `embedded_add_timer`, for a timer in the list as well; nothing when the search never
ends. -/
def embeddedAddTimer (ts : τ) (l : RunLoop τ) : Option (RunLoop τ) :=
  (l.timers.find (isLater l.timeout ts) (Fintype.card τ + 1) none).map fun it =>
    { l with timers := l.timers.insertAt it ts }

def embeddedRemoveTimer (ts : τ) (l : RunLoop τ) : Option (RunLoop τ) :=
  (RunLoop.linkedListRemove ts l.timers).map fun timers => { l with timers := timers }

theorem RunLoop.linkedListRemove_none {item : τ} {list : Links τ}
    (h : RunLoop.linkedListRemove item list = none) (time : Nat) :
    list.find (fun it => it = item) time none = none :=
  find_none (Option.map_eq_none_iff.mp h) time

theorem embeddedAddTimer_none {ts : τ} {l : RunLoop τ} (h : embeddedAddTimer ts l = none)
    (time : Nat) : l.timers.find (isLater l.timeout ts) time none = none :=
  find_none (Option.map_eq_none_iff.mp h) time

end

/-! ### Programs -/

/-- What else a data source does to the timers. -/
inductive TimerChange (τ : Type) where
  | keep
  /-- The item is made anew, with `linked_item_set_user`. -/
  | clear (ts : τ)
  | start (ts : τ)
  | stop (ts : τ)

/-- A program over the run loop: its data sources, and for every timer the interval its
process sets it to at the end, if it returns. -/
structure Program (τ A σ : Type) where
  interval : τ → Word
  process : τ → σ → Option σ
  work : σ → A → Option (σ × TimerChange τ)

/-- The loop and the program. `elapsed` counts the ticks and `fired` what became of each
timer; nothing reads them. -/
structure LoopState (τ σ : Type) where
  loop : RunLoop τ
  client : σ
  elapsed : Nat
  fired : τ → Nat

inductive LoopAction (A : Type)
  /-- The tick interrupt. -/
  | tick
  /-- A data source is processed. -/
  | work (a : A)
  /-- The first timer is processed, and `late` ticks come before it is set again. -/
  | timer (late : Nat)

section

variable {τ A σ : Type} [DecidableEq τ] [Fintype τ] (p : Program τ A σ)

def LoopState.wait (n : Nat) (s : LoopState τ σ) : LoopState τ σ :=
  { s with loop := embeddedTickHandler^[n] s.loop, elapsed := s.elapsed + n }

/-- A timer is set and added. -/
def startTimer (ts : τ) (l : RunLoop τ) : Option (RunLoop τ) :=
  embeddedAddTimer ts (runLoopSetTimer ts (p.interval ts) l)

def changeTimers (l : RunLoop τ) : TimerChange τ → Option (RunLoop τ)
  | .keep => some l
  | .clear ts => some { l with timers := linkedItemSetUser ts l.timers }
  | .start ts => startTimer p ts l
  | .stop ts => embeddedRemoveTimer ts l

/-- A timer is removed and processed, which starts it again. -/
def processTimer (ts : τ) (late : Nat) (s : LoopState τ σ) : Option (LoopState τ σ) :=
  (embeddedRemoveTimer ts s.loop).bind fun loop =>
  (p.process ts s.client).bind fun client =>
  (startTimer p ts (embeddedTickHandler^[late] loop)).map fun loop =>
    { loop := loop
      client := client
      elapsed := s.elapsed + late
      fired := Function.update s.fired ts (s.fired ts + 1) }

def loopStep (s : LoopState τ σ) : LoopAction A → Option (LoopState τ σ)
  | .tick => some (s.wait 1)
  | .work a => (p.work s.client a).bind fun result =>
    (changeTimers p s.loop result.2).map fun loop =>
      { s with loop := loop, client := result.1 }
  | .timer late => (timerDue s.loop).bind fun ts => processTimer p ts late s

/-- `while (timers)` without an interrupt, for as many turns as there is time. -/
def runTimers : Nat → LoopState τ σ → Option (LoopState τ σ)
  | 0, _ => none
  | time + 1, s =>
    match timerDue s.loop with
    | none => some s
    | some ts => (processTimer p ts 0 s).bind (runTimers time)

/-! ### The clock -/

/-- The ticks between two firings of a timer. -/
def Program.period (ts : τ) : Nat := (waitTicks (p.interval ts)).toNat

end

section

variable {τ A σ : Type} {p : Program τ A σ} {l l' : RunLoop τ} {ts : τ}

theorem Program.period_pos (p : Program τ A σ) (ts : τ) : 0 < p.period ts := by
  rw [Program.period, waitTicks]
  by_cases hzero : embeddedTicksForMs (p.interval ts) = 0
  · simp [hzero]
  · rw [if_neg hzero]
    apply Nat.pos_of_ne_zero
    intro h
    exact hzero (BitVec.eq_of_toNat_eq h)

theorem iterate_tick (n : Nat) (l : RunLoop τ) :
    embeddedTickHandler^[n] l = { l with systemTicks := l.systemTicks + BitVec.ofNat 32 n } := by
  induction n generalizing l with
  | zero => simp
  | succ n ih =>
    rw [Function.iterate_succ_apply, ih, embeddedTickHandler]
    simp only [RunLoop.mk.injEq, true_and]
    rw [BitVec.add_assoc]
    congr 1
    apply BitVec.eq_of_toNat_eq
    simp [Nat.add_comm]

theorem timerDue_eq_some_iff : timerDue l = some ts ↔
    l.timers.head = some ts ∧ (l.timeout ts).toNat ≤ l.systemTicks.toNat := by
  rw [timerDue]
  cases l.timers.head with
  | none => simp
  | some x =>
    by_cases hlater : l.timeout x > l.systemTicks
    · have hlt : l.systemTicks.toNat < (l.timeout x).toNat := hlater
      simp only [if_pos hlater, reduceCtorEq, Option.some.injEq, false_iff, not_and]
      rintro rfl
      exact Nat.not_le.mpr hlt
    · have hle : (l.timeout x).toNat ≤ l.systemTicks.toNat := Nat.not_lt.mp hlater
      simp only [if_neg hlater, Option.some.injEq, iff_self_and]
      rintro rfl
      exact hle

theorem reaches_of_due (h : timerDue l = some ts) : l.timers.Reaches (some ts) := by
  have hhead : l.timers.link none = some ts := (timerDue_eq_some_iff.mp h).1
  rw [← hhead]
  exact Links.Reaches.first.link

/-- No timeout is further away than the period of its timer. -/
structure Clocked (p : Program τ A σ) (elapsed : Nat) (l : RunLoop τ) : Prop where
  ticks : l.systemTicks = BitVec.ofNat 32 elapsed
  ahead : ∀ ts, (l.timeout ts).toNat ≤ elapsed + p.period ts

namespace Clocked

variable {elapsed : Nat}

theorem wait (h : Clocked p elapsed l) (n : Nat) :
    Clocked p (elapsed + n) (embeddedTickHandler^[n] l) := by
  rw [iterate_tick]
  refine ⟨?_, ?_⟩
  · simp only [h.ticks]
    apply BitVec.eq_of_toNat_eq
    simp
  · intro ts
    have := h.ahead ts
    simp only
    omega

theorem ticks_le (h : Clocked p elapsed l) : l.systemTicks.toNat ≤ elapsed := by
  rw [h.ticks, BitVec.toNat_ofNat]
  exact Nat.mod_le _ _

theorem ticks_eq (h : Clocked p elapsed l) (hlt : elapsed < 2 ^ 32) :
    l.systemTicks.toNat = elapsed := by
  rw [h.ticks, BitVec.toNat_ofNat, Nat.mod_eq_of_lt hlt]

end Clocked

/-! ### The list -/

/-- The list is kept sorted. -/
def Sorted (timeout : τ → Word) (timers : List τ) : Prop :=
  timers.Pairwise fun x y => (timeout x).toNat ≤ (timeout y).toNat

theorem Sorted.insert {timeout : τ → Word} {timers : List τ} (h : Sorted timeout timers)
    (ts : τ) : Sorted timeout (insertBefore (isLater timeout ts) ts timers) := by
  induction timers with
  | nil => exact List.pairwise_singleton _ ts
  | cons next rest ih =>
    obtain ⟨hnext, hrest⟩ := List.pairwise_cons.mp h
    rw [insertBefore]
    split
    · next hlater =>
      have hlt : (timeout ts).toNat < (timeout next).toNat := of_decide_eq_true hlater
      refine List.pairwise_cons.mpr ⟨?_, h⟩
      intro x hx
      rcases List.mem_cons.mp hx with rfl | hx
      · exact Nat.le_of_lt hlt
      · exact Nat.le_trans (Nat.le_of_lt hlt) (hnext x hx)
    · next hlater =>
      have hlt : ¬ (timeout ts).toNat < (timeout next).toNat := fun hlt =>
        hlater (decide_eq_true hlt)
      refine List.pairwise_cons.mpr ⟨?_, ih hrest⟩
      intro x hx
      rcases List.mem_cons.mp ((insertBefore_perm _ ts rest).mem_iff.mp hx) with rfl | hx
      · exact Nat.not_lt.mp hlt
      · exact hnext x hx

/-- The order of the list does not depend on the timeouts of other timers. -/
theorem Sorted.congr {timeout timeout' : τ → Word} {timers : List τ} (h : Sorted timeout timers)
    (hsame : ∀ ts ∈ timers, timeout' ts = timeout ts) : Sorted timeout' timers := by
  refine List.Pairwise.imp_of_mem ?_ h
  intro x y hx hy hle
  rw [hsame x hx, hsame y hy]
  exact hle

/-- The list ends, every timer is there once, and it is sorted. -/
structure Listed (timers : List τ) (l : RunLoop τ) : Prop where
  chain : Chain l.timers none timers
  nodup : timers.Nodup
  sorted : Sorted l.timeout timers

namespace Listed

variable {timers : List τ}

theorem wait (h : Listed timers l) (n : Nat) : Listed timers (embeddedTickHandler^[n] l) := by
  rw [iterate_tick]
  exact ⟨h.chain, h.nodup, h.sorted⟩

theorem mem_of_due (h : Listed timers l) (hdue : timerDue l = some ts) : ts ∈ timers :=
  h.chain.reaches_iff.mp (reaches_of_due hdue)

theorem eq_cons_of_due (h : Listed timers l) (hdue : timerDue l = some ts) :
    ∃ rest, timers = ts :: rest := by
  have hhead : l.timers.link none = some ts := (timerDue_eq_some_iff.mp hdue).1
  cases h.chain with
  | nil hend =>
    rw [hhead] at hend
    cases hend
  | cons hlink _ =>
    cases hhead.symm.trans hlink
    exact ⟨_, rfl⟩

theorem lt_of_not_due (h : Listed timers l) (hdue : timerDue l = none) :
    ∀ ts ∈ timers, l.systemTicks.toNat < (l.timeout ts).toNat := by
  cases timers with
  | nil =>
    intro ts hts
    cases hts
  | cons first rest =>
    have hhead : l.timers.head = some first := by
      cases h.chain with
      | cons hlink _ => exact hlink
    have hfirst : l.systemTicks.toNat < (l.timeout first).toNat := by
      by_contra hle
      have hsome := timerDue_eq_some_iff.mpr ⟨hhead, Nat.not_lt.mp hle⟩
      rw [hdue] at hsome
      cases hsome
    intro ts hts
    rcases List.mem_cons.mp hts with rfl | hts
    · exact hfirst
    · exact Nat.lt_of_lt_of_le hfirst ((List.pairwise_cons.mp h.sorted).1 ts hts)

end Listed

/-! ### One operation -/

variable [DecidableEq τ] [Fintype τ]

theorem embeddedRemoveTimer_eq (h : embeddedRemoveTimer ts l = some l') :
    ∃ timers, l' = { l with timers := timers } := by
  obtain ⟨timers, -, heq⟩ := Option.map_eq_some_iff.mp h
  exact ⟨timers, heq.symm⟩

theorem startTimer_eq (h : startTimer p ts l = some l') : ∃ it, l' = {
    timers := l.timers.insertAt it ts
    timeout := Function.update l.timeout ts (l.systemTicks + waitTicks (p.interval ts))
    systemTicks := l.systemTicks } := by
  obtain ⟨it, -, heq⟩ := Option.map_eq_some_iff.mp h
  exact ⟨it, heq.symm⟩

theorem startTimer_timeout (h : startTimer p ts l = some l') :
    l'.timeout ts = l'.systemTicks + waitTicks (p.interval ts) := by
  obtain ⟨it, rfl⟩ := startTimer_eq h
  simp only [Function.update_self]

theorem changeTimers_systemTicks {change : TimerChange τ}
    (h : changeTimers p l change = some l') : l'.systemTicks = l.systemTicks := by
  cases change with
  | keep | clear ts =>
    cases h
    rfl
  | start ts =>
    obtain ⟨it, rfl⟩ := startTimer_eq h
    rfl
  | stop ts =>
    obtain ⟨timers, rfl⟩ := embeddedRemoveTimer_eq h
    rfl

theorem changeTimers_timeout {change : TimerChange τ} (h : changeTimers p l change = some l')
    (x : τ) : l'.timeout x = l.timeout x ∨
      (change = .start x ∧ l'.timeout x = l'.systemTicks + waitTicks (p.interval x)) := by
  cases change with
  | keep | clear ts =>
    cases h
    exact Or.inl rfl
  | start ts =>
    by_cases hsame : x = ts
    · subst hsame
      exact Or.inr ⟨rfl, startTimer_timeout h⟩
    · obtain ⟨it, rfl⟩ := startTimer_eq h
      exact Or.inl (Function.update_of_ne hsame ..)
  | stop ts =>
    obtain ⟨timers, rfl⟩ := embeddedRemoveTimer_eq h
    exact Or.inl rfl

theorem Clocked.change {elapsed : Nat} (h : Clocked p elapsed l) (change : TimerChange τ)
    (hchange : changeTimers p l change = some l') : Clocked p elapsed l' := by
  have hticks := (changeTimers_systemTicks hchange).trans h.ticks
  refine ⟨hticks, fun x => ?_⟩
  rcases changeTimers_timeout hchange x with hsame | ⟨-, hset⟩
  · rw [hsame]
    exact h.ahead x
  · rw [hset, BitVec.toNat_add, hticks, BitVec.toNat_ofNat]
    refine Nat.le_trans (Nat.mod_le _ _) ?_
    exact Nat.add_le_add_right (Nat.mod_le _ _) _

section

variable {timers : List τ}

omit [DecidableEq τ] in
theorem Listed.length_lt (h : Listed timers l) : timers.length < Fintype.card τ + 1 :=
  Nat.lt_succ_of_le h.nodup.length_le_card

theorem Listed.start (h : Listed timers l) (ts : τ) (hnew : ts ∉ timers) : ∃ l' timers',
    startTimer p ts l = some l' ∧ Listed timers' l' ∧ timers'.Perm (ts :: timers) := by
  have hcells : some ts ∉ cells none timers := by simp [hnew]
  obtain ⟨it, -, hfind, hchain⟩ := h.chain.insert
    (isLater (runLoopSetTimer ts (p.interval ts) l).timeout ts)
    (nodup_cells h.nodup) hcells h.length_lt
  have hperm := insertBefore_perm
    (isLater (runLoopSetTimer ts (p.interval ts) l).timeout ts) ts timers
  have hother : ∀ x ∈ timers,
      (runLoopSetTimer ts (p.interval ts) l).timeout x = l.timeout x := by
    intro x hx
    refine Function.update_of_ne ?_ ..
    rintro rfl
    exact hnew hx
  refine ⟨_, _, Option.map_eq_some_iff.mpr ⟨it, hfind, rfl⟩, ⟨hchain, ?_, ?_⟩, hperm⟩
  · exact hperm.nodup_iff.mpr (List.nodup_cons.mpr ⟨hnew, h.nodup⟩)
  · exact (h.sorted.congr hother).insert ts

theorem Listed.remove (h : Listed timers l) (ts : τ) :
    ∃ l', embeddedRemoveTimer ts l = some l' ∧ Listed (timers.erase ts) l' := by
  by_cases hmem : ts ∈ timers
  · obtain ⟨it, -, hfind, hat, hchain⟩ :=
      h.chain.remove (nodup_cells h.nodup) hmem h.length_lt
    refine ⟨{ l with timers := l.timers.set it (l.timers.next ts) }, ?_, hchain,
      h.nodup.erase ts, h.sorted.sublist List.erase_sublist⟩
    rw [embeddedRemoveTimer, RunLoop.linkedListRemove, hfind, Option.map_some, if_pos hat,
      Option.map_some]
  · have hother : ∀ x ∈ timers, decide (x = ts) = false := by
      intro x hx
      refine decide_eq_false ?_
      rintro rfl
      exact hmem hx
    obtain ⟨it, hfind, hend⟩ := h.chain.find_end hother h.length_lt
    refine ⟨l, ?_, ?_⟩
    · rw [embeddedRemoveTimer, RunLoop.linkedListRemove, hfind, Option.map_some, hend,
        if_neg (by simp), Option.map_some]
    · rw [List.erase_of_not_mem hmem]
      exact h

omit [Fintype τ] in
theorem Listed.clear (h : Listed timers l) (hnew : ts ∉ timers) :
    Listed timers { l with timers := linkedItemSetUser ts l.timers } := by
  refine ⟨h.chain.congr fun c hc => l.timers.link_set_of_ne ?_ none, h.nodup, h.sorted⟩
  rintro rfl
  simp only [cells, List.mem_cons, reduceCtorEq, false_or, List.mem_map, Option.some.injEq,
    exists_eq_right] at hc
  exact hnew hc

end

variable {s s' : LoopState τ σ}

/-! ### One step -/

/-- What a turn does when it processes `ts`. -/
structure Fires (p : Program τ A σ) (late : Nat) (ts : τ) (s s' : LoopState τ σ) : Prop where
  due : timerDue s.loop = some ts
  loop : ∃ removed, embeddedRemoveTimer ts s.loop = some removed ∧
    startTimer p ts (embeddedTickHandler^[late] removed) = some s'.loop
  client : p.process ts s.client = some s'.client
  elapsed : s'.elapsed = s.elapsed + late
  fired : s'.fired = Function.update s.fired ts (s.fired ts + 1)

theorem processTimer_fires_iff {late : Nat} (hdue : timerDue s.loop = some ts) :
    processTimer p ts late s = some s' ↔ Fires p late ts s s' := by
  constructor
  · intro h
    obtain ⟨removed, hremoved, h⟩ := Option.bind_eq_some_iff.mp h
    obtain ⟨client, hclient, h⟩ := Option.bind_eq_some_iff.mp h
    obtain ⟨loop, hloop, rfl⟩ := Option.map_eq_some_iff.mp h
    exact ⟨hdue, ⟨removed, hremoved, hloop⟩, hclient, rfl, rfl⟩
  · rintro ⟨-, ⟨removed, hremoved, hloop⟩, hclient, helapsed, hfired⟩
    rw [processTimer, hremoved, Option.bind_some, hclient, Option.bind_some, hloop,
      Option.map_some, ← helapsed, ← hfired]

namespace Fires

variable {late : Nat}

theorem due_le (h : Fires p late ts s s') :
    (s.loop.timeout ts).toNat ≤ s.loop.systemTicks.toNat := (timerDue_eq_some_iff.mp h.due).2

theorem systemTicks (h : Fires p late ts s s') :
    s'.loop.systemTicks = s.loop.systemTicks + BitVec.ofNat 32 late := by
  obtain ⟨removed, hremoved, hstart⟩ := h.loop
  obtain ⟨timers, rfl⟩ := embeddedRemoveTimer_eq hremoved
  obtain ⟨it, heq⟩ := startTimer_eq hstart
  rw [heq, iterate_tick]

theorem timeout (h : Fires p late ts s s') : s'.loop.timeout =
    Function.update s.loop.timeout ts (s'.loop.systemTicks + waitTicks (p.interval ts)) := by
  obtain ⟨removed, hremoved, hstart⟩ := h.loop
  obtain ⟨timers, rfl⟩ := embeddedRemoveTimer_eq hremoved
  obtain ⟨it, heq⟩ := startTimer_eq hstart
  rw [heq, iterate_tick]

theorem timeout_self (h : Fires p late ts s s') :
    s'.loop.timeout ts = s'.loop.systemTicks + waitTicks (p.interval ts) := by
  rw [h.timeout, Function.update_self]

theorem timeout_other (h : Fires p late ts s s') {x : τ} (hne : x ≠ ts) :
    s'.loop.timeout x = s.loop.timeout x := by
  rw [h.timeout, Function.update_of_ne hne]

theorem clocked (h : Fires p late ts s s') (hs : Clocked p s.elapsed s.loop) :
    Clocked p s'.elapsed s'.loop := by
  obtain ⟨removed, hremoved, hstart⟩ := h.loop
  rw [h.elapsed]
  refine Clocked.change (Clocked.wait ?_ late) (.start ts) hstart
  exact hs.change (.stop ts) hremoved

/-- A turn over a list that ends. -/
theorem listed (h : Fires p late ts s s') {timers : List τ} (hs : Listed timers s.loop) :
    ∃ timers', Listed timers' s'.loop ∧ timers'.Perm timers := by
  obtain ⟨removed, hremoved, hstart⟩ := h.loop
  obtain ⟨rest, rfl⟩ := hs.eq_cons_of_due h.due
  obtain ⟨removed', hremoved', hrest⟩ := hs.remove ts
  obtain rfl := Option.some.inj (hremoved.symm.trans hremoved')
  rw [List.erase_cons_head] at hrest
  obtain ⟨loop, timers', hloop, hlisted, hperm⟩ :=
    (hrest.wait late).start (p := p) _ (List.nodup_cons.mp hs.nodup).1
  rw [hstart] at hloop
  cases hloop
  exact ⟨timers', hlisted, hperm⟩

end Fires

/-- On a list that ends a turn comes back when the process does. -/
theorem exists_fires {timers : List τ} (hs : Listed timers s.loop)
    (hdue : timerDue s.loop = some ts) (hreturns : (p.process ts s.client).isSome)
    (late : Nat) : ∃ s', Fires p late ts s s' := by
  obtain ⟨client, hclient⟩ := Option.isSome_iff_exists.mp hreturns
  obtain ⟨rest, rfl⟩ := hs.eq_cons_of_due hdue
  obtain ⟨removed, hremoved, hrest⟩ := hs.remove ts
  rw [List.erase_cons_head] at hrest
  obtain ⟨loop, timers', hloop, -, -⟩ :=
    (hrest.wait late).start (p := p) _ (List.nodup_cons.mp hs.nodup).1
  exact ⟨⟨loop, client, s.elapsed + late, Function.update s.fired ts (s.fired ts + 1)⟩,
    hdue, ⟨removed, hremoved, hloop⟩, hclient, rfl, rfl⟩

/-- What a step does. -/
inductive Moves (p : Program τ A σ) : LoopAction A → LoopState τ σ → LoopState τ σ → Prop
  | tick (s : LoopState τ σ) : Moves p .tick s (s.wait 1)
  | work (s : LoopState τ σ) (a : A) (client : σ) (change : TimerChange τ) (loop : RunLoop τ) :
    p.work s.client a = some (client, change) → changeTimers p s.loop change = some loop →
      Moves p (.work a) s { s with loop := loop, client := client }
  | fire (s s' : LoopState τ σ) (late : Nat) (ts : τ) :
    Fires p late ts s s' → Moves p (.timer late) s s'

theorem loopStep_moves {a : LoopAction A} (h : loopStep p s a = some s') : Moves p a s s' := by
  cases a with
  | tick =>
    cases h
    exact .tick s
  | work a =>
    obtain ⟨⟨client, change⟩, hwork, h⟩ := Option.bind_eq_some_iff.mp h
    obtain ⟨loop, hchange, rfl⟩ := Option.map_eq_some_iff.mp h
    exact .work s a client change loop hwork hchange
  | timer late =>
    obtain ⟨ts, hdue, h⟩ := Option.bind_eq_some_iff.mp h
    exact .fire s s' late ts ((processTimer_fires_iff hdue).mp h)

theorem Fires.loopStep_eq {late : Nat} (h : Fires p late ts s s') :
    loopStep p s (.timer late) = some s' := by
  rw [loopStep, h.due, Option.bind_some]
  exact (processTimer_fires_iff h.due).mpr h

/-- The interrupts of a step. -/
def LoopAction.ticks : LoopAction A → Nat
  | .tick => 1
  | .work _ => 0
  | .timer late => late

/-- A change adds or clears a timer that the list does not lead to. -/
def TimerChange.Fresh (list : Links τ) : TimerChange τ → Prop
  | .clear ts | .start ts => ¬ list.Reaches (some ts)
  | .keep | .stop _ => True

/-- The data sources add and clear timers outside the list. -/
def Orderly (p : Program τ A σ) (s : LoopState τ σ) : LoopAction A → Prop
  | .work a => ∀ client change, p.work s.client a = some (client, change) →
    change.Fresh s.loop.timers
  | .tick | .timer _ => True

/-- The data sources do not stop the timer. -/
def Program.Keeps (p : Program τ A σ) (ts : τ) : Prop :=
  ∀ client a client', p.work client a ≠ some (client', .stop ts)

/-- The data sources do not start the timer. -/
def Program.NeverStarts (p : Program τ A σ) (ts : τ) : Prop :=
  ∀ client a client', p.work client a ≠ some (client', .start ts)

namespace Moves

variable {a : LoopAction A}

theorem elapsed (h : Moves p a s s') : s'.elapsed = s.elapsed + a.ticks := by
  cases h with
  | tick | work => rfl
  | fire _ _ late ts hfires => exact hfires.elapsed

theorem elapsed_le (h : Moves p a s s') : s.elapsed ≤ s'.elapsed := by
  rw [h.elapsed]
  exact Nat.le_add_right _ _

theorem clocked (h : Moves p a s s') (hs : Clocked p s.elapsed s.loop) :
    Clocked p s'.elapsed s'.loop := by
  cases h with
  | tick => exact hs.wait 1
  | work _ a client change loop hwork hchange => exact hs.change change hchange
  | fire _ _ late ts hfires => exact hfires.clocked hs

/-- A timer fires, or is set by a data source, or nothing happens to it. -/
theorem timer (h : Moves p a s s') (ts : τ) :
    (∃ late, a = .timer late ∧ Fires p late ts s s') ∨
    (s'.fired ts = s.fired ts ∧ (s'.loop.timeout ts = s.loop.timeout ts ∨
      (∃ b client, a = .work b ∧ p.work s.client b = some (client, .start ts)) ∧
        s'.loop.timeout ts = s'.loop.systemTicks + waitTicks (p.interval ts))) := by
  cases h with
  | tick =>
    rw [LoopState.wait, iterate_tick]
    exact Or.inr ⟨rfl, Or.inl rfl⟩
  | work _ b client change loop hwork hchange =>
    refine Or.inr ⟨rfl, ?_⟩
    rcases changeTimers_timeout hchange ts with hsame | ⟨rfl, hset⟩
    · exact Or.inl hsame
    · exact Or.inr ⟨⟨b, client, rfl, hwork⟩, hset⟩
  | fire _ _ late x hfires =>
    by_cases hsame : ts = x
    · subst hsame
      exact Or.inl ⟨late, rfl, hfires⟩
    · refine Or.inr ⟨?_, Or.inl (hfires.timeout_other hsame)⟩
      rw [hfires.fired, Function.update_of_ne hsame]

/-- An orderly step keeps the list. -/
theorem listed (h : Moves p a s s') {timers : List τ} (hs : Listed timers s.loop)
    (horderly : Orderly p s a) : ∃ timers', Listed timers' s'.loop ∧
      ∀ ts ∈ timers, p.Keeps ts → ts ∈ timers' := by
  cases h with
  | tick => exact ⟨timers, hs.wait 1, fun ts hts _ => hts⟩
  | work _ b client change loop hwork hchange =>
    have hfresh := horderly client change hwork
    cases change with
    | keep =>
      cases hchange
      exact ⟨timers, hs, fun ts hts _ => hts⟩
    | clear x =>
      cases hchange
      exact ⟨timers, hs.clear (fun hx => hfresh (hs.chain.reaches_iff.mpr hx)),
        fun ts hts _ => hts⟩
    | start x =>
      have hnew : x ∉ timers := fun hx => hfresh (hs.chain.reaches_iff.mpr hx)
      obtain ⟨loop', timers', hloop, hlisted, hperm⟩ := hs.start (p := p) _ hnew
      obtain rfl := Option.some.inj (hchange.symm.trans hloop)
      exact ⟨timers', hlisted, fun ts hts _ =>
        hperm.mem_iff.mpr (List.mem_cons_of_mem x hts)⟩
    | stop x =>
      obtain ⟨loop', hloop, hlisted⟩ := hs.remove x
      obtain rfl := Option.some.inj (hchange.symm.trans hloop)
      refine ⟨timers.erase x, hlisted, fun ts hts hkeeps => ?_⟩
      refine (List.mem_erase_of_ne ?_).mpr hts
      rintro rfl
      exact hkeeps _ _ _ hwork
  | fire _ _ late x hfires =>
    obtain ⟨timers', hlisted, hperm⟩ := hfires.listed hs
    exact ⟨timers', hlisted, fun ts hts _ => hperm.mem_iff.mpr hts⟩

end Moves

end

end EbnAnchor.Stack
