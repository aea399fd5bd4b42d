import EbnAnchor.Stack.RunLoop

/-!
Runs of the run loop.

* `fired_le`: how often a timer fires in any stretch of a run, whatever happens to the list;
* `fired_of_not_reaches`: a timer that was cut off the list does not fire;
* `fired_eq`: when no tick comes before the timers that are due, and no timer in the list is
  added or cleared, every timer fires on its tick;
* `runTimers_ends_iff`: when the loop over the timers ends.
-/

namespace EbnAnchor.Stack

open LinkedList

section

variable {τ A σ : Type} [DecidableEq τ] [Fintype τ] {p : Program τ A σ} {ts : τ}
  {l l' : RunLoop τ} {s s' : LoopState τ σ}

/-! ### How often a timer fires -/

/-- The clock does not run over before the timer fires next. -/
def Early (p : Program τ A σ) (ts : τ) (s : LoopState τ σ) : Prop :=
  s.elapsed + p.period ts < 2 ^ 32

omit [DecidableEq τ] [Fintype τ] in
theorem Early.mono (h : Early p ts s') (hle : s.elapsed ≤ s'.elapsed) : Early p ts s :=
  Nat.lt_of_le_of_lt (Nat.add_le_add_right hle _) h

omit [DecidableEq τ] [Fintype τ] in
/-- While the clock does not run over, a timer is set to its period from now. -/
theorem Early.timeout_eq (h : Early p ts s) (hs : Clocked p s.elapsed s.loop)
    (hset : s.loop.timeout ts = s.loop.systemTicks + waitTicks (p.interval ts)) :
    (s.loop.timeout ts).toNat = s.elapsed + p.period ts := by
  have hlt : s.elapsed < 2 ^ 32 := Nat.lt_of_le_of_lt (Nat.le_add_right _ _) h
  rw [hset, BitVec.toNat_add, hs.ticks_eq hlt]
  exact Nat.mod_eq_of_lt h

/-- When the timer fired since `s₀`, it was set to its period each time. -/
structure Since (p : Program τ A σ) (ts : τ) (s₀ s : LoopState τ σ) : Prop where
  clocked : Clocked p s.elapsed s.loop
  elapsed : s₀.elapsed ≤ s.elapsed
  armed : Early p ts s → ∃ n, s.fired ts = s₀.fired ts + n ∧
    (n ≠ 0 → s₀.elapsed + p.period ts * n ≤ (s.loop.timeout ts).toNat)

theorem Since.step {s₀ : LoopState τ σ} (h : Since p ts s₀ s) {a : LoopAction A}
    (hmoves : Moves p a s s') : Since p ts s₀ s' := by
  have hclocked' := hmoves.clocked h.clocked
  have hlater : s₀.elapsed ≤ s'.elapsed := Nat.le_trans h.elapsed hmoves.elapsed_le
  refine ⟨hclocked', hlater, fun hearly => ?_⟩
  obtain ⟨n, hfired, htimeout⟩ := h.armed (hearly.mono hmoves.elapsed_le)
  rcases hmoves.timer ts with ⟨late, -, hfires⟩ | ⟨hsame, hunmoved | ⟨-, hset⟩⟩
  · refine ⟨n + 1, ?_, fun _ => ?_⟩
    · rw [hfires.fired, Function.update_self, hfired]
      rfl
    · rw [hearly.timeout_eq hclocked' hfires.timeout_self, Nat.mul_succ, ← Nat.add_assoc]
      apply Nat.add_le_add_right
      by_cases hzero : n = 0
      · subst hzero
        exact hlater
      · calc s₀.elapsed + p.period ts * n
            ≤ (s.loop.timeout ts).toNat := htimeout hzero
          _ ≤ s.loop.systemTicks.toNat := hfires.due_le
          _ ≤ s.elapsed := h.clocked.ticks_le
          _ ≤ s'.elapsed := hmoves.elapsed_le
  · refine ⟨n, hsame.trans hfired, ?_⟩
    rw [hunmoved]
    exact htimeout
  · refine ⟨n, hsame.trans hfired, fun hzero => ?_⟩
    calc s₀.elapsed + p.period ts * n
        ≤ (s.loop.timeout ts).toNat := htimeout hzero
      _ ≤ s.elapsed + p.period ts := h.clocked.ahead ts
      _ ≤ s'.elapsed + p.period ts := Nat.add_le_add_right hmoves.elapsed_le _
      _ = (s'.loop.timeout ts).toNat := (hearly.timeout_eq hclocked' hset).symm

/-- In any stretch of a run a timer fires once for each of its periods, and at most once
more. -/
theorem fired_le {actions : List (LoopAction A)} (hs : Clocked p s.elapsed s.loop)
    (hrun : Steps.run (loopStep p) s actions = some s') (hearly : Early p ts s') :
    p.period ts * (s'.fired ts - s.fired ts) ≤ (s'.elapsed - s.elapsed) + p.period ts := by
  have hstart : Since p ts s s :=
    ⟨hs, Nat.le_refl _, fun _ => ⟨0, rfl, fun h => absurd rfl h⟩⟩
  have hstep : ∀ t a t', Since p ts s t → loopStep p t a = some t' → Since p ts s t' := by
    intro t a t' ht hstep
    exact ht.step (loopStep_moves hstep)
  have hsince := Steps.run_invariant hstep hrun hstart
  obtain ⟨n, hfired, htimeout⟩ := hsince.armed hearly
  rw [hfired, Nat.add_sub_cancel_left]
  by_cases hzero : n = 0
  · subst hzero
    exact Nat.zero_le _
  · have := htimeout hzero
    have := hsince.clocked.ahead ts
    omega

/-! ### Timers that were cut off -/

theorem startTimer_reaches {x : τ} (h : startTimer p x l = some l')
    (hreaches : l'.timers.Reaches (some ts)) : ts = x ∨ l.timers.Reaches (some ts) := by
  obtain ⟨it, hfind, rfl⟩ := Option.map_eq_some_iff.mp h
  rcases Links.Reaches.of_insertAt (.of_find .first hfind) hreaches with hsame | hbefore
  · exact Or.inl (Option.some.inj hsame)
  · exact Or.inr hbefore

theorem embeddedRemoveTimer_reaches {x : τ} (h : embeddedRemoveTimer x l = some l')
    (hreaches : l'.timers.Reaches (some ts)) : l.timers.Reaches (some ts) := by
  obtain ⟨timers, hremove, rfl⟩ := Option.map_eq_some_iff.mp h
  obtain ⟨it, hfind, rfl⟩ := Option.map_eq_some_iff.mp hremove
  have hit : l.timers.Reaches it := .of_find .first hfind
  by_cases hat : l.timers.link it = some x
  · rw [if_pos hat] at hreaches
    have hx : l.timers.Reaches (some x) := hat ▸ hit.link
    exact Links.Reaches.of_set hx.link hreaches
  · rw [if_neg hat] at hreaches
    exact hreaches

theorem Moves.not_reaches {a : LoopAction A} (hstarts : p.NeverStarts ts)
    (h : Moves p a s s') (hs : ¬ s.loop.timers.Reaches (some ts)) :
    ¬ s'.loop.timers.Reaches (some ts) ∧ s'.fired ts = s.fired ts := by
  cases h with
  | tick =>
    rw [LoopState.wait, iterate_tick]
    exact ⟨hs, rfl⟩
  | work _ b client change loop hwork hchange =>
    refine ⟨fun hreaches => hs ?_, rfl⟩
    cases change with
    | keep =>
      cases hchange
      exact hreaches
    | clear x =>
      cases hchange
      exact Links.Reaches.of_set .first hreaches
    | start x =>
      rcases startTimer_reaches hchange hreaches with rfl | hbefore
      · exact absurd hwork (hstarts _ _ _)
      · exact hbefore
    | stop x => exact embeddedRemoveTimer_reaches hchange hreaches
  | fire _ _ late x hfires =>
    have hne : ts ≠ x := by
      rintro rfl
      exact hs (reaches_of_due hfires.due)
    obtain ⟨removed, hremoved, hstart⟩ := hfires.loop
    refine ⟨fun hreaches => hs (embeddedRemoveTimer_reaches hremoved ?_), ?_⟩
    · have hbefore := (startTimer_reaches hstart hreaches).resolve_left hne
      rw [iterate_tick] at hbefore
      exact hbefore
    · rw [hfires.fired, Function.update_of_ne hne]

/-- A timer that the list does not lead to never fires again, unless it is started. -/
theorem fired_of_not_reaches {actions : List (LoopAction A)} (hstarts : p.NeverStarts ts)
    (hs : ¬ s.loop.timers.Reaches (some ts))
    (hrun : Steps.run (loopStep p) s actions = some s') : s'.fired ts = s.fired ts := by
  have hstep : ∀ t a t', (¬ t.loop.timers.Reaches (some ts) ∧ t.fired ts = s.fired ts) →
      loopStep p t a = some t' →
        ¬ t'.loop.timers.Reaches (some ts) ∧ t'.fired ts = s.fired ts := by
    rintro t a t' ⟨ht, hfired⟩ hstep
    obtain ⟨ht', hsame⟩ := (loopStep_moves hstep).not_reaches hstarts ht
    exact ⟨ht', hsame.trans hfired⟩
  exact (Steps.run_invariant hstep hrun ⟨hs, rfl⟩).2

omit [Fintype τ] in
/-- A timer that is cleared in the list cuts off the timers behind it. -/
theorem Listed.clear_not_reaches {before behind : List τ} {x : τ}
    (h : Listed (before ++ x :: behind) l) (hts : ts ∈ behind) :
    ¬ (linkedItemSetUser x l.timers).Reaches (some ts) := by
  have hcut : Chain (linkedItemSetUser x l.timers) none (before ++ [x]) :=
    h.chain.cut (nodup_cells h.nodup)
  rw [hcut.reaches_iff]
  intro hmem
  have hnodup : (before ++ [x] ++ behind).Nodup := by
    rw [List.append_assoc]
    exact h.nodup
  exact List.disjoint_of_nodup_append hnodup hmem hts

/-! ### Timers on time -/

/-- No timer is due. -/
def Quiet (s : LoopState τ σ) : Prop := timerDue s.loop = none

/-- The ticks come when no timer is due or processed. -/
def Prompt (s : LoopState τ σ) : LoopAction A → Prop
  | .tick => Quiet s
  | .work _ => True
  | .timer late => late = 0

/-- Since `s₀` the timer was not late. -/
structure OnTime (p : Program τ A σ) (ts : τ) (s₀ s : LoopState τ σ) : Prop where
  clocked : Clocked p s.elapsed s.loop
  listed : ∃ timers, Listed timers s.loop ∧ ts ∈ timers
  armed : Early p ts s → s.elapsed ≤ (s.loop.timeout ts).toNat ∧
    ∃ n, s.fired ts = s₀.fired ts + n ∧
      (s.loop.timeout ts).toNat = (s₀.loop.timeout ts).toNat + p.period ts * n

theorem OnTime.step {s₀ : LoopState τ σ} (hkeeps : p.Keeps ts) (h : OnTime p ts s₀ s)
    {a : LoopAction A} (hprompt : Prompt s a) (horderly : Orderly p s a)
    (hmoves : Moves p a s s') : OnTime p ts s₀ s' := by
  obtain ⟨timers, hlisted, hmem⟩ := h.listed
  obtain ⟨timers', hlisted', hstays⟩ := hmoves.listed hlisted horderly
  have hclocked' := hmoves.clocked h.clocked
  refine ⟨hclocked', ⟨timers', hlisted', hstays ts hmem hkeeps⟩, fun hearly => ?_⟩
  have hearlier := hearly.mono hmoves.elapsed_le
  obtain ⟨hahead, n, hfired, htimeout⟩ := h.armed hearlier
  rcases hmoves.timer ts with
    ⟨late, rfl, hfires⟩ | ⟨hsame, hunmoved | ⟨⟨b, client, rfl, hwork⟩, -⟩⟩
  · have hnow : (s.loop.timeout ts).toNat = s.elapsed :=
      Nat.le_antisymm (Nat.le_trans hfires.due_le h.clocked.ticks_le) hahead
    have hwithin : s'.elapsed = s.elapsed := by
      rw [hfires.elapsed, hprompt]
      rfl
    rw [hearly.timeout_eq hclocked' hfires.timeout_self, hwithin]
    refine ⟨Nat.le_add_right _ _, n + 1, ?_, ?_⟩
    · rw [hfires.fired, Function.update_self, hfired]
      rfl
    · rw [← hnow, htimeout, Nat.mul_succ, Nat.add_assoc]
  · rw [hunmoved, hmoves.elapsed]
    refine ⟨?_, n, hsame.trans hfired, htimeout⟩
    cases a with
    | tick =>
      have hlt := hlisted.lt_of_not_due hprompt ts hmem
      rw [h.clocked.ticks_eq (Nat.lt_of_le_of_lt (Nat.le_add_right _ _) hearlier)] at hlt
      exact hlt
    | work _ => exact hahead
    | timer late =>
      rw [show late = 0 from hprompt]
      exact hahead
  · -- a timer in the list is not started
    exact absurd (hlisted.chain.reaches_iff.mpr hmem) (horderly client _ hwork)

/-- When the ticks come between the passes over the timers, and the data sources leave the
timers in the list alone, a timer fires on every tick of its own. -/
theorem fired_eq {actions : List (LoopAction A)} {timers : List τ} (hkeeps : p.Keeps ts)
    (hs : Clocked p s.elapsed s.loop) (hlisted : Listed timers s.loop) (hts : ts ∈ timers)
    (hnext : s.elapsed ≤ (s.loop.timeout ts).toNat)
    (hmeets : Steps.Meets (loopStep p) (fun s a => Prompt s a ∧ Orderly p s a) s actions)
    (hrun : Steps.run (loopStep p) s actions = some s') (hearly : Early p ts s')
    (hquiet : Quiet s') : s'.fired ts = s.fired ts +
      (s'.elapsed + p.period ts - (s.loop.timeout ts).toNat) / p.period ts := by
  have hstart : OnTime p ts s s :=
    ⟨hs, ⟨timers, hlisted, hts⟩, fun _ => ⟨hnext, 0, rfl, rfl⟩⟩
  have hstep : ∀ t a t', OnTime p ts s t → Prompt t a ∧ Orderly p t a →
      loopStep p t a = some t' → OnTime p ts s t' := by
    intro t a t' ht hcond hstep
    exact ht.step hkeeps hcond.1 hcond.2 (loopStep_moves hstep)
  have hontime := Steps.run_invariant_of_meets hstep hmeets hrun hstart
  obtain ⟨-, n, hfired, htimeout⟩ := hontime.armed hearly
  obtain ⟨timers', hlisted', hmem⟩ := hontime.listed
  rw [hfired, Nat.add_left_cancel_iff]
  have hahead := hontime.clocked.ahead ts
  have hlater := hlisted'.lt_of_not_due hquiet ts hmem
  rw [hontime.clocked.ticks_eq (Nat.lt_of_le_of_lt (Nat.le_add_right _ _) hearly)] at hlater
  rw [htimeout] at hahead hlater
  symm
  apply Nat.div_eq_of_lt_le
  · rw [Nat.mul_comm]
    omega
  · rw [Nat.add_mul, Nat.one_mul, Nat.mul_comm]
    omega

/-! ### The loop over the timers -/

/-- A timer that is due and whose next timeout runs over. -/
def Overruns (p : Program τ A σ) (ts : τ) (s : LoopState τ σ) : Prop :=
  (s.loop.timeout ts).toNat ≤ s.loop.systemTicks.toNat ∧
    2 ^ 32 ≤ s.loop.systemTicks.toNat + p.period ts

namespace Fires

theorem ticks_eq (h : Fires p 0 ts s s') : s'.loop.systemTicks = s.loop.systemTicks := by
  rw [h.systemTicks]
  exact BitVec.add_zero _

/-- The timer that fired is due again exactly when it overruns. -/
theorem timeout_le_iff (h : Fires p 0 ts s s') :
    (s'.loop.timeout ts).toNat ≤ s'.loop.systemTicks.toNat ↔ Overruns p ts s := by
  have hticks := s.loop.systemTicks.isLt
  have hperiod : p.period ts < 2 ^ 32 := (waitTicks (p.interval ts)).isLt
  have hpos := p.period_pos ts
  rw [h.timeout_self, h.ticks_eq, BitVec.toNat_add, ← Program.period]
  constructor
  · intro hle
    refine ⟨h.due_le, Nat.not_lt.mp fun hlt => ?_⟩
    rw [Nat.mod_eq_of_lt hlt] at hle
    omega
  · intro hover
    rw [Nat.mod_eq_sub_mod hover.2, Nat.mod_eq_of_lt (by omega)]
    omega

theorem overruns_iff (h : Fires p 0 ts s s') (x : τ) : Overruns p x s' ↔ Overruns p x s := by
  by_cases hsame : x = ts
  · subst hsame
    constructor
    · intro hover
      exact h.timeout_le_iff.mp hover.1
    · intro hover
      refine ⟨h.timeout_le_iff.mpr hover, ?_⟩
      rw [h.ticks_eq]
      exact hover.2
  · rw [Overruns, Overruns, h.timeout_other hsame, h.ticks_eq]

end Fires

variable {timers : List τ}

theorem runTimers_quiet (h : Quiet s) (time : Nat) : runTimers p (time + 1) s = some s := by
  rw [runTimers, show timerDue s.loop = none from h]

theorem runTimers_due (h : timerDue s.loop = some ts) (time : Nat) :
    runTimers p (time + 1) s = (processTimer p ts 0 s).bind (runTimers p time) := by
  rw [runTimers, h]

/-- A timer that overruns fires for ever, without a further tick. -/
theorem runTimers_overruns (h : Listed timers s.loop) (hts : ts ∈ timers)
    (hover : Overruns p ts s) (time : Nat) : runTimers p time s = none := by
  induction time generalizing s timers with
  | zero => rfl
  | succ time ih =>
    cases hdue : timerDue s.loop with
    | none =>
      have hlater := h.lt_of_not_due hdue ts hts
      exact absurd hover.1 (Nat.not_le.mpr hlater)
    | some x =>
      rw [runTimers_due hdue]
      cases hturn : processTimer p x 0 s with
      | none => rfl
      | some s' =>
        have hfires := (processTimer_fires_iff hdue).mp hturn
        obtain ⟨timers', h', hperm⟩ := hfires.listed h
        exact ih h' (hperm.mem_iff.mpr hts) ((hfires.overruns_iff ts).mpr hover)

/-- Otherwise each timer of `due` fires once; the processes return where `Inv` holds. -/
theorem runTimers_returns (Inv : LoopState τ σ → Prop)
    (hreturns : ∀ s ts, Inv s → (p.process ts s.client).isSome)
    (hfire : ∀ s ts s', Inv s → Fires p 0 ts s s' → Inv s') (hs : Inv s)
    (h : Listed timers s.loop) (hnot : ∀ ts ∈ timers, ¬ Overruns p ts s)
    {due : List τ} {time : Nat} (hdues : ∀ ts ∈ timers,
      (s.loop.timeout ts).toNat ≤ s.loop.systemTicks.toNat → ts ∈ due)
    (htime : due.length < time) : ∃ s', runTimers p time s = some s' := by
  induction time generalizing s timers due with
  | zero => exact absurd htime (Nat.not_lt_zero _)
  | succ time ih =>
    cases hdue : timerDue s.loop with
    | none => exact ⟨s, runTimers_quiet hdue time⟩
    | some x =>
      obtain ⟨s', hfires⟩ := exists_fires h hdue (hreturns s x hs) 0
      obtain ⟨timers', h', hperm⟩ := hfires.listed h
      have hxdue : x ∈ due := hdues x (h.mem_of_due hdue) hfires.due_le
      have hnot' : ∀ ts ∈ timers', ¬ Overruns p ts s' := by
        intro ts hts hover
        exact hnot ts (hperm.mem_iff.mp hts) ((hfires.overruns_iff ts).mp hover)
      have hdues' : ∀ ts ∈ timers',
          (s'.loop.timeout ts).toNat ≤ s'.loop.systemTicks.toNat → ts ∈ due.erase x := by
        intro ts hts hle
        have hmem := hperm.mem_iff.mp hts
        have hne : ts ≠ x := by
          rintro rfl
          exact hnot ts hmem (hfires.timeout_le_iff.mp hle)
        rw [hfires.timeout_other hne, hfires.ticks_eq] at hle
        exact (List.mem_erase_of_ne hne).mpr (hdues ts hmem hle)
      have hshorter : (due.erase x).length < time := by
        have := List.length_pos_of_mem hxdue
        rw [List.length_erase_of_mem hxdue]
        omega
      obtain ⟨t, ht⟩ := ih (hfire s x s' hs hfires) h' hnot' hdues' hshorter
      refine ⟨t, ?_⟩
      rw [runTimers_due hdue, (processTimer_fires_iff hdue).mpr hfires, Option.bind_some]
      exact ht

/-- The loop is a run of turns without ticks. -/
theorem runTimers_run {time : Nat} (h : runTimers p time s = some s') : Quiet s' ∧
    ∃ actions, Steps.run (loopStep p) s actions = some s' ∧
      Steps.Meets (loopStep p) (fun s a => Prompt s a ∧ Orderly p s a) s actions ∧
      s'.elapsed = s.elapsed := by
  induction time generalizing s with
  | zero => cases h
  | succ time ih =>
    cases hdue : timerDue s.loop with
    | none =>
      rw [runTimers_quiet hdue] at h
      cases h
      exact ⟨hdue, [], rfl, trivial, rfl⟩
    | some ts =>
      rw [runTimers_due hdue] at h
      obtain ⟨t, hturn, hrest⟩ := Option.bind_eq_some_iff.mp h
      have hfires := (processTimer_fires_iff hdue).mp hturn
      obtain ⟨hquiet, actions, hrun, hmeets, helapsed⟩ := ih hrest
      refine ⟨hquiet, .timer 0 :: actions, ?_, ?_, ?_⟩
      · rw [Steps.run, hfires.loopStep_eq]
        exact hrun
      · exact .cons hfires.loopStep_eq ⟨rfl, trivial⟩ hmeets
      · rw [helapsed, hfires.elapsed]
        rfl

/-- The loop over the timers ends exactly when no timer overruns, after one turn for each timer
at most; when one does, no number of turns is enough. -/
theorem runTimers_ends_iff (h : Listed timers s.loop)
    (hreturns : ∀ ts client, (p.process ts client).isSome) {time : Nat}
    (htime : timers.length < time) :
    ((∃ s', runTimers p time s = some s' ∧ Quiet s') ↔
      ∀ ts ∈ timers, ¬ Overruns p ts s) ∧
    ((∃ ts ∈ timers, Overruns p ts s) → ∀ time, runTimers p time s = none) := by
  refine ⟨⟨?_, fun hnot => ?_⟩, ?_⟩
  · rintro ⟨s', hends, -⟩ ts hts hover
    rw [runTimers_overruns h hts hover time] at hends
    cases hends
  · obtain ⟨s', hends⟩ := runTimers_returns (fun _ => True)
      (fun s ts _ => hreturns ts s.client) (fun _ _ _ _ _ => trivial) trivial h hnot
      (fun ts hts _ => hts) htime
    exact ⟨s', hends, (runTimers_run hends).1⟩
  · rintro ⟨ts, hts, hover⟩ time
    exact runTimers_overruns h hts hover time

/-! ### Runs on time -/

/-- Time can go on without a timer late, as long as the clock does not run over and the
processes return. -/
theorem exists_prompt_run {Inv : LoopState τ σ → Prop} {stop : Nat}
    (hreturns : ∀ s ts, Inv s → s.elapsed ≤ stop → (p.process ts s.client).isSome)
    (hstep : ∀ s a s', Inv s → loopStep p s a = some s' → Inv s')
    (hstop : ∀ ts, stop + p.period ts < 2 ^ 32) (hs : Inv s)
    (hclock : Clocked p s.elapsed s.loop) (hlisted : Listed timers s.loop) (hquiet : Quiet s)
    {n : Nat} (hn : s.elapsed + n = stop) :
    ∃ actions s', Steps.run (loopStep p) s actions = some s' ∧
      Steps.Meets (loopStep p) (fun s a => Prompt s a ∧ Orderly p s a) s actions ∧
      Quiet s' ∧ s'.elapsed = stop := by
  have hkept : ∀ u a u', (Inv u ∧ Clocked p u.elapsed u.loop ∧ ∃ timers, Listed timers u.loop) →
      Prompt u a ∧ Orderly p u a → loopStep p u a = some u' →
      Inv u' ∧ Clocked p u'.elapsed u'.loop ∧ ∃ timers, Listed timers u'.loop := by
    rintro u a u' ⟨hinv, hclocked, timers, hlist⟩ hcond hmove
    have hmoves := loopStep_moves hmove
    obtain ⟨timers', hlist', -⟩ := hmoves.listed hlist hcond.2
    exact ⟨hstep u a u' hinv hmove, hmoves.clocked hclocked, timers', hlist'⟩
  induction n generalizing s timers with
  | zero => exact ⟨[], s, rfl, trivial, hquiet, hn⟩
  | succ n ih =>
    -- a tick, and then the timers that are due
    have htick : loopStep p s .tick = some (s.wait 1) := rfl
    have hclock' := hclock.wait 1
    have hlisted' := hlisted.wait 1
    have hlate : (s.wait 1).elapsed + n = stop := by
      rw [← hn, LoopState.wait, Nat.add_assoc, Nat.add_comm 1 n]
    have hnot : ∀ ts ∈ timers, ¬ Overruns p ts (s.wait 1) := by
      intro ts _ hover
      have hnow : (s.wait 1).loop.systemTicks.toNat ≤ (s.wait 1).elapsed := hclock'.ticks_le
      have := hstop ts
      have := hover.2
      omega
    obtain ⟨t, hends⟩ := runTimers_returns
      (fun u => Inv u ∧ u.elapsed = (s.wait 1).elapsed)
      (fun u ts hu => hreturns u ts hu.1 (by omega))
      (fun u ts u' hu hfires =>
        ⟨hstep u (.timer 0) u' hu.1 hfires.loopStep_eq, hfires.elapsed.trans hu.2⟩)
      ⟨hstep s .tick _ hs htick, rfl⟩ hlisted' hnot (fun ts hts _ => hts)
      (Nat.lt_succ_self timers.length)
    obtain ⟨hquiet', actions, hrun, hmeets, helapsed⟩ := runTimers_run hends
    obtain ⟨ht, hclock₂, timers₂, hlisted₂⟩ := Steps.run_invariant_of_meets hkept hmeets hrun
      ⟨hstep s .tick _ hs htick, hclock', timers, hlisted'⟩
    obtain ⟨actions', s', hrun', hmeets', hend⟩ := ih ht hclock₂ hlisted₂ hquiet'
      (by rw [helapsed]; exact hlate)
    refine ⟨.tick :: (actions ++ actions'), s', ?_, ?_, hend⟩
    · rw [Steps.run, htick, Option.bind_some, Steps.run_append hrun]
      exact hrun'
    · exact .cons htick ⟨hquiet, trivial⟩ (hmeets.append hrun hmeets')

end

/-- A timer of a second, in the last ticks of the clock. -/
def heartbeat : Program Unit Unit Nat where
  interval _ := 1000
  process _ beats := some (beats + 1)
  work beats _ := some (beats, .keep)

def lastTicks : LoopState Unit Nat where
  loop := ⟨⟨some (), fun _ => none⟩, fun _ => 4294967292, 4294967292⟩
  client := 0
  elapsed := 4294967292
  fired _ := 0

theorem runTimers_ends_iff_last :
    ((∃ s', runTimers heartbeat 2 lastTicks = some s' ∧ Quiet s') ↔
      ∀ ts ∈ [()], ¬ Overruns heartbeat ts lastTicks) ∧
    ((∃ ts ∈ [()], Overruns heartbeat ts lastTicks) →
      ∀ time, runTimers heartbeat time lastTicks = none) := by
  have hlast : Listed [()] lastTicks.loop :=
    ⟨.cons rfl (.nil rfl), List.nodup_singleton (), List.pairwise_singleton _ ()⟩
  exact runTimers_ends_iff hlast (fun _ _ => rfl) (by decide)

end EbnAnchor.Stack
