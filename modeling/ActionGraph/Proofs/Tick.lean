import ActionGraph.Proofs.Pass
-- A tick of the standard pipeline, taken apart. The propagations and the deeds behind them account
-- for everything that is sent, and each action's status goes one of three ways.
namespace ActionGraph

section Update
variable (host : Host) (r : Run)

theorem update_delivery (t : Delivery) : (Stage.delivery t).update host r =
    (.delivery (t.update r).1, (t.update r).2, []) := rfl
theorem update_flow (t : Tally) : (Stage.flow t).update host r =
    (.flow (Flow.update t r).1, (Flow.update t r).2, []) := rfl
theorem update_delay (n : Nat) : (Stage.delay n).update host r =
    (.delay (Delay.update n r).1, (Delay.update n r).2, []) := rfl
theorem update_assign (n : Nat) : (Stage.assign n).update host r =
    (.assign (Assign.update n r).1, (Assign.update n r).2, []) := rfl
theorem update_filter (t : Filter.Outcomes) : (Stage.filter t).update host r =
    (.filter (Filter.update t r).1, (Filter.update t r).2, []) := rfl
theorem update_trigger (t : Tally) : (Stage.trigger t).update host r =
    (.trigger (Trigger.update t r).1, (Trigger.update t r).2, []) := rfl
theorem update_spawn (t : Tally) : (Stage.spawn t).update host r =
    (.spawn (Spawn.update host t r).1, (Spawn.update host t r).2.1, (Spawn.update host t r).2.2) := rfl
theorem update_warning (n : Nat) : (Stage.warning n).update host r = (.warning (Warning.update host n r).1,
    (Warning.update host n r).2.1, (Warning.update host n r).2.2) := rfl
theorem update_log : Stage.log.update host r =
    (.log, (Log.update host r).1, (Log.update host r).2) := rfl

theorem pass_cons (s : Stage) (rest : List Stage) : Engine.pass host (s :: rest) r =
    ((s.update host r).1 :: (Engine.pass host rest (s.update host r).2.1).1,
      (Engine.pass host rest (s.update host r).2.1).2.1,
      (s.update host r).2.2 ++ (Engine.pass host rest (s.update host r).2.1).2.2) := rfl

end Update

def Tables.written (t : Tables) (r : Run) : Run :=
  let r := (t.moved.update r.beginTick).2
  let r := (Flow.update t.arrivals r).2
  let r := (Delay.update t.delays r).2
  (Assign.update t.writes r).2

def drivenKinds : List String := Stage.standard.flatMap Stage.kinds

theorem Driven.isActive (driven : Driven kind phase) : phase.isActive = true := by
  rcases driven with rfl | ⟨_, rfl⟩ <;> rfl

namespace Run

-- The run has the tables `t` and becomes `r'` with the tables `t'`, through the propagations `ps`
-- and the deeds `ws`.
inductive Ticks (t : Tables) (r : Run) (ps ws : List Work) (t' : Tables) : Run → Prop where
  | intro (sweep : r.arrived.releaseDeferred.Sweep ps swept)
    (passes : swept.Passes drivenKinds t ws t' done) : Ticks t r ps ws t' done.endTick

-- The deeds of the same tick around those of its filters. These come behind everything that writes for
-- them, and ahead of what does not wait for them.
inductive Decides (t : Tables) (r : Run) : List Work → Run → Prop where
  | intro (filters : (t.written r).Round [Filter.kind] own judged)
    (rest : judged.Round [Trigger.kind, Spawn.kind, Warning.kind, Log.kind] late done) :
    Decides t r (early ++ own ++ late) done.endTick

theorem pass_ticks (host : Host) (t : Tables) {r : Run} (indexed : r.plan.Indexed) :
    ∃ ps ws t', (Engine.pass host t.stages r.beginTick).1 = t'.stages ∧
      r.Ticks t ps ws t' (Engine.pass host t.stages r.beginTick).2.1.endTick ∧
      r.Decides t ws (Engine.pass host t.stages r.beginTick).2.1.endTick := by
  obtain ⟨moved, moves⟩ := Delivery.update_run t.moved r
  obtain ⟨ps, sweep⟩ := Delivery.propagateAll_sweep moved r.arrived.releaseDeferred
  rw [← moves] at sweep
  have indexed : (t.moved.update r.beginTick).2.plan.Indexed := by
    rw [sweep.works.keeps.plan]
    exact r.arrived_plan ▸ indexed
  obtain ⟨flows, flow⟩ := flow_passes t indexed
  have indexed := flow.works.indexed indexed
  obtain ⟨delays, delay⟩ := delay_passes { t with arrivals := _ } indexed
  have indexed := delay.works.indexed indexed
  obtain ⟨writes, assign⟩ := Assign.update_round t.writes indexed
  have indexed := assign.works.indexed indexed
  obtain ⟨own, filter⟩ := filter_passes { t with arrivals := _, delays := _ } indexed
  have indexed := filter.works.indexed indexed
  obtain ⟨fires, trigger⟩ := trigger_passes { t with arrivals := _, delays := _, outcomes := _ } indexed
  have indexed := trigger.works.indexed indexed
  obtain ⟨spawns, spawn⟩ := Spawn.update_round host t.spawned indexed
  have indexed := spawn.works.indexed indexed
  obtain ⟨warnings, warning⟩ := Warning.update_round host t.shown indexed
  have indexed := warning.works.indexed indexed
  obtain ⟨logs, log⟩ := Log.update_round host indexed
  have early := (flow.append delay (by decide)).append (assign.plain (by decide) _) (by decide)
  have late := ((trigger.append (spawn.plain (by decide) _) (by decide)).append
    (warning.plain (by decide) _) (by decide)).append (log.plain (by decide) _) (by decide)
  have passes := (early.append filter (by decide)).append late (by decide)
  have rest := late.toRound
  simp only [Tables.stages, pass_cons, Engine.pass, update_delivery, update_flow, update_delay,
    update_assign, update_filter, update_trigger, update_spawn, update_warning, update_log]
  -- The tables have to be laid open: left to itself the unifier would run the stages.
  dsimp only [List.cons_append, List.nil_append] at passes rest
  refine ⟨ps, _, ⟨_, _, _, _, _, _, _, _⟩, rfl, .intro sweep (passes.tables ?_ ?_),
    .intro filter.toRound rest⟩
  · exact ⟨rfl, rfl, rfl⟩
  · refine ⟨?_, ?_, ?_⟩ <;> dsimp only

theorem Sweep.phase (sweep : Sweep r ps r') (i : Nat) : r'.phase i = r.phase i := by
  by_cases acts : i ∈ ps.map Work.action
  · obtain ⟨w, member, rfl⟩ := List.mem_map.mp acts
    obtain ⟨s, before, _, _, after⟩ := sweep.works.single sweep.once member
    rw [sweep.deeds w member] at after
    rw [phase_of after, phase_of before]
    rfl
  · exact sweep.works.phase_other acts

def met (r : Run) (i : Nat) (s : Status) : Status :=
  if i ∈ r.pending.map Pulse.target then s.address else s

theorem met_parts (r : Run) (i : Nat) (s : Status) : r.met i s = s ∨
    s.phase.isTerminal = false ∧ r.met i s = { phase := .running, fresh := true } := by
  unfold met
  split
  · cases final : s.phase.isTerminal with
    | true => exact .inl (Status.address_of_terminal final)
    | false => exact .inr ⟨rfl, Status.address_of_left final⟩
  · exact .inl rfl

theorem arrived_met {r : Run} (there : r.statuses[i]? = some s) :
    r.arrived.statuses[i]? = some (r.met i s) := by
  rw [arrived_statuses, there, met]
  split <;> rfl

-- What becomes of the status `a` of an action in the rest of the tick: it is propagated, or a stage
-- does a deed for it, or it is left alone because it is neither due nor driven.
inductive Fares (p : Plan) (ps ws : List Work) (i : Nat) (a : Status) : Status → Prop where
  | propagated (due : a.isDue = true) (swept : i ∈ ps.map Work.action)
    (idle : i ∉ ws.map Work.action) : Fares p ps ws i a (Deed.propagate.settle a).endTick
  | did (member : w ∈ ws) (acts : w.action = i) (unswept : i ∉ ps.map Work.action)
    (isKind : p.kind? i = some kind) (driven : Driven kind a.phase) :
    Fares p ps ws i a (w.deed.settle a).endTick
  | left (unswept : i ∉ ps.map Work.action) (idle : i ∉ ws.map Work.action)
    (waits : a.isDue = false)
    (undriven : ∀ kind ∈ drivenKinds, p.kind? i = some kind → ¬Driven kind a.phase) :
    Fares p ps ws i a a.endTick

namespace Ticks
variable {t t' : Tables} {r r' : Run} {ps ws : List Work}

theorem works (ticks : Ticks t r ps ws t' r') : ∃ done, r' = done.endTick ∧
    r.arrived.releaseDeferred.Works (ps ++ ws) done := by
  obtain ⟨sweep, passes⟩ := ticks
  exact ⟨_, rfl, sweep.works.append passes.works⟩

theorem keeps (ticks : Ticks t r ps ws t' r') : ∃ done, r' = done.endTick ∧ r.arrived.Keeps done := by
  obtain ⟨done, same, works⟩ := ticks.works
  exact ⟨done, same, r.arrived.releaseDeferred_keeps.trans works.keeps⟩

theorem keeps_at (ticks : Ticks t r ps ws t' r') (member : w ∈ ps ++ ws) : r.arrived.Keeps w.run := by
  obtain ⟨_, _, works⟩ := ticks.works
  exact r.arrived.releaseDeferred_keeps.trans (works.keeps_at member)

theorem plan_at (ticks : Ticks t r ps ws t' r') (member : w ∈ ps ++ ws) : w.run.plan = r.plan :=
  (ticks.keeps_at member).plan.trans r.arrived_plan

theorem plan (ticks : Ticks t r ps ws t' r') : r'.plan = r.plan := by
  obtain ⟨done, rfl, keeps⟩ := ticks.keeps
  exact keeps.plan.trans r.arrived_plan

theorem size (ticks : Ticks t r ps ws t' r') : r'.statuses.length = r.statuses.length := by
  obtain ⟨done, rfl, keeps⟩ := ticks.keeps
  rw [endTick, List.length_map, keeps.size, arrived_size]

theorem tick (ticks : Ticks t r ps ws t' r') : r'.tick = r.tick + 1 := by
  obtain ⟨done, rfl, keeps⟩ := ticks.keeps
  exact keeps.tick.trans r.arrived_tick

theorem delivered (ticks : Ticks t r ps ws t' r') : r'.delivered = r.pending.filter r.accepts := by
  obtain ⟨done, rfl, keeps⟩ := ticks.keeps
  exact keeps.delivered.trans r.arrived_delivered

theorem pending (ticks : Ticks t r ps ws t' r') :
    r'.pending = r.arrived.released ++ (ps ++ ws).flatMap Work.sent := by
  obtain ⟨done, rfl, works⟩ := ticks.works
  rw [endTick, works.pending, releaseDeferred_eq, arrived_pending, List.nil_append]

theorem deferred (ticks : Ticks t r ps ws t' r') :
    r'.deferred = r.arrived.retained ++ (ps ++ ws).flatMap Work.armed := by
  obtain ⟨done, rfl, works⟩ := ticks.works
  exact works.deferred

theorem fares (ticks : Ticks t r ps ws t' r') (there : r.statuses[i]? = some s) :
    ∃ s', r'.statuses[i]? = some s' ∧ Fares r.plan ps ws i (r.met i s) s' := by
  obtain @⟨swept, done, sweep, passes⟩ := ticks
  have plan : swept.plan = r.plan := sweep.works.keeps.plan.trans r.arrived_plan
  have arrival : r.arrived.releaseDeferred.statuses[i]? = some (r.met i s) := arrived_met there
  have ended : ∀ s', done.statuses[i]? = some s' → done.endTick.statuses[i]? = some s'.endTick := by
    intro s' after
    rw [endTick, List.getElem?_map, after]; rfl
  by_cases early : i ∈ ps.map Work.action
  · have due : (r.met i s).isDue = true := by
      simpa [arrival] using (sweep.acts i).mp early
    obtain ⟨w, member, rfl⟩ := List.mem_map.mp early
    obtain ⟨s', before, _, _, after⟩ := sweep.works.single sweep.once member
    cases before.symm.trans arrival
    rw [sweep.deeds w member] at after
    -- Propagation leaves the phase, and a completed action is not driven.
    have idle : w.action ∉ ws.map Work.action := fun again => by
      obtain ⟨_, _, _, driven⟩ := (passes.acts _).mp again
      have completed : (r.met w.action s).phase = .completed := by
        simpa [Status.isDue] using (Bool.and_eq_true_iff.mp due).1
      rw [phase_of after] at driven
      exact ne_completed_of_isActive driven.isActive completed
    exact ⟨_, ended _ ((passes.works.other idle).trans after), .propagated due early idle⟩
  · have before := (sweep.works.other early).trans arrival
    by_cases acts : i ∈ ws.map Work.action
    · obtain ⟨_, _, isKind, driven⟩ := (passes.acts _).mp acts
      rw [phase_of before] at driven
      obtain ⟨w, member, rfl⟩ := List.mem_map.mp acts
      obtain ⟨s', found, _, _, after⟩ := passes.works.single passes.once member
      cases found.symm.trans before
      exact ⟨_, ended _ after, .did member rfl early (plan ▸ isKind) driven⟩
    · refine ⟨_, ended _ ((passes.works.other acts).trans before), .left early acts ?_ ?_⟩
      · simpa [arrival] using mt (sweep.acts i).mpr early
      · intro kind known isKind driven
        refine acts ((passes.acts i).mpr ⟨kind, known, plan ▸ isKind, ?_⟩)
        rw [phase_of before]; exact driven

theorem origin (ticks : Ticks t r ps ws t' r') (after : r'.statuses[i]? = some s') :
    ∃ s, r.statuses[i]? = some s ∧ Fares r.plan ps ws i (r.met i s) s' := by
  have inside := (List.getElem?_eq_some_iff.mp after).1
  rw [ticks.size] at inside
  have found := List.getElem?_eq_getElem inside
  obtain ⟨s'', again, fares⟩ := ticks.fares found
  cases after.symm.trans again
  exact ⟨_, found, fares⟩

theorem final (ticks : Ticks t r ps ws t' r') (ended : (r.phase i).isTerminal = true) :
    r'.phase i = r.phase i := by
  obtain ⟨s, found, same⟩ := status_of_phase (r := r) (i := i) fun idle => by
    rw [idle] at ended; cases ended
  obtain ⟨s', after, fares⟩ := ticks.fares found
  rw [← same] at ended ⊢
  rw [phase_of after]
  rcases r.met_parts i s with met | ⟨left, _⟩
  · rw [met] at fares
    cases fares with
    | propagated => rfl
    | did _ _ _ _ driven => rw [isTerminal_of_isActive driven.isActive] at ended; cases ended
    | left => rfl
  · rw [left] at ended
    cases ended

section Tables
variable (ticks : Ticks t r ps ws t' r')
include ticks

theorem once : (ps.map Work.action).Nodup ∧ (ws.map Work.action).Nodup := by
  obtain ⟨sweep, passes⟩ := ticks
  exact ⟨sweep.once, passes.once⟩

theorem acts (i : Nat) : i ∈ ws.map Work.action ↔
    ∃ kind ∈ drivenKinds, r.plan.kind? i = some kind ∧ Driven kind (r.arrived.phase i) := by
  obtain ⟨sweep, passes⟩ := ticks
  rw [passes.acts, sweep.works.keeps.plan, sweep.phase]
  exact exists_congr fun kind => by rw [releaseDeferred_keeps r.arrived |>.plan, r.arrived_plan]; rfl

theorem ended_idle (ended : (r.phase i).isTerminal = true) : i ∉ ws.map Work.action := by
  intro acts
  obtain ⟨_, _, _, driven⟩ := (ticks.acts i).mp acts
  obtain ⟨s, there, same⟩ := status_of_phase (r := r) (i := i) fun idle => by
    rw [idle] at ended; cases ended
  rw [← same] at ended
  rw [phase_of (arrived_met there)] at driven
  rcases r.met_parts i s with met | ⟨left, _⟩
  · rw [met] at driven
    rw [isTerminal_of_isActive driven.isActive] at ended
    cases ended
  · rw [left] at ended
    cases ended

theorem sweeps (member : w ∈ ps) : w.deed = .propagate := by
  obtain ⟨sweep, passes⟩ := ticks
  exact sweep.deeds w member

theorem suits (member : w ∈ ws) (isKind : r.plan.kind? w.action = some kind) :
    w.deed.Suits kind := by
  obtain ⟨sweep, passes⟩ := ticks
  exact passes.suits w member kind
    (sweep.works.keeps.plan.trans r.arrived_plan ▸ isKind)

theorem joins (member : w ∈ ws) (isJoin : r.plan.kind? w.action = some Action.joinKind) :
    w.deed = Flow.joinDeed (t.arrivals.get w.action) r.arrived w.action := by
  obtain ⟨sweep, passes⟩ := ticks
  rw [passes.joins w member (sweep.works.keeps.plan.trans r.arrived_plan ▸ isJoin),
    Flow.joinDeed_keeps _ sweep.works.keeps]
  rfl

theorem arrivals (isJoin : r.plan.kind? j = some Action.joinKind) : t'.arrivals.get j =
    t.arrivals.get j + if j ∈ ws.map Work.action then (r.arrived.deliveredTo j).length else 0 := by
  obtain ⟨sweep, passes⟩ := ticks
  rw [passes.arrivals j (sweep.works.keeps.plan.trans r.arrived_plan ▸ isJoin),
    deliveredTo, sweep.works.keeps.delivered]
  rfl

theorem delays (member : w ∈ ws) (unswept : w.action ∉ ps.map Work.action)
    (isDelay : r.plan.kind? w.action = some Delay.kind) : w.deed = Delay.deed r.arrived w.action := by
  obtain ⟨sweep, passes⟩ := ticks
  have keeps := sweep.works.keeps
  rw [passes.delays w member (keeps.plan.trans r.arrived_plan ▸ isDelay),
    Delay.deed_congr keeps.plan (sweep.works.other unswept)]
  rfl

theorem filters (member : w ∈ ws) (isFilter : r.plan.kind? w.action = some Filter.kind) :
    w.deed = .finishOn (Filter.verdict w.run w.action).port ∧
      t'.outcomes.lookup w.action = some (Filter.verdict w.run w.action) := by
  obtain ⟨sweep, passes⟩ := ticks
  exact passes.filters w member (sweep.works.keeps.plan.trans r.arrived_plan ▸ isFilter)

theorem outcomes (idle : j ∉ ws.map Work.action) : t'.outcomes.lookup j = t.outcomes.lookup j := by
  obtain ⟨sweep, passes⟩ := ticks
  exact passes.outcomes j idle

theorem triggers (member : w ∈ ws) (isTrigger : r.plan.kind? w.action = some Trigger.kind) :
    w.deed = Trigger.deed (t.fires.get w.action) r.arrived w.action := by
  obtain ⟨sweep, passes⟩ := ticks
  rw [passes.triggers w member (sweep.works.keeps.plan.trans r.arrived_plan ▸ isTrigger),
    Trigger.deed_keeps _ sweep.works.keeps]
  rfl

theorem fires (isTrigger : r.plan.kind? j = some Trigger.kind) :
    t'.fires.get j = t.fires.get j + emissions ws j "out" := by
  obtain ⟨sweep, passes⟩ := ticks
  exact passes.fires j (sweep.works.keeps.plan.trans r.arrived_plan ▸ isTrigger)

theorem uncounted (j : Nat) :
    (r.plan.kind? j ≠ some Action.joinKind → t'.arrivals.get j = t.arrivals.get j) ∧
    (r.plan.kind? j ≠ some Trigger.kind → t'.fires.get j = t.fires.get j) := by
  obtain ⟨sweep, passes⟩ := ticks
  have same := passes.uncounted j
  rwa [sweep.works.keeps.plan.trans r.arrived_plan] at same

end Tables
end Ticks

end Run
end ActionGraph
