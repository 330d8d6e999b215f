import ActionGraph.Engine
import ActionGraph.Proofs.Delivery
import ActionGraph.Proofs.Stages
-- One pass through the standard pipeline: the tables of its stages, and that everything behind the
-- delivery is one round over all the kinds that the tables keep in step with.
namespace ActionGraph

-- What the standard stages carry from tick to tick.
structure Tables where
  moved : Delivery := {}
  arrivals : Tally := {}
  delays : Nat := 0
  writes : Nat := 0
  outcomes : Filter.Outcomes := []
  fires : Tally := {}
  spawned : Tally := {}
  shown : Nat := 0

def Tables.stages (t : Tables) : List Stage :=
  [.delivery t.moved, .flow t.arrivals, .delay t.delays, .assign t.writes, .filter t.outcomes,
    .trigger t.fires, .spawn t.spawned, .warning t.shown, .log]

namespace Run

structure Passes (kinds : List String) (t : Tables) (r : Run) (ws : List Work) (t' : Tables)
    (r' : Run) : Prop extends Round kinds r ws r' where
  joins : ∀ w ∈ ws, r.plan.kind? w.action = some Action.joinKind →
    w.deed = Flow.joinDeed (t.arrivals.get w.action) r w.action
  arrivals : ∀ j, r.plan.kind? j = some Action.joinKind → t'.arrivals.get j =
    t.arrivals.get j + if j ∈ ws.map Work.action then (r.deliveredTo j).length else 0
  delays : ∀ w ∈ ws, r.plan.kind? w.action = some Delay.kind → w.deed = Delay.deed r w.action
  filters : ∀ w ∈ ws, r.plan.kind? w.action = some Filter.kind →
    w.deed = .finishOn (Filter.verdict w.run w.action).port ∧
      t'.outcomes.lookup w.action = some (Filter.verdict w.run w.action)
  outcomes : ∀ j, j ∉ ws.map Work.action → t'.outcomes.lookup j = t.outcomes.lookup j
  triggers : ∀ w ∈ ws, r.plan.kind? w.action = some Trigger.kind →
    w.deed = Trigger.deed (t.fires.get w.action) r w.action
  fires : ∀ j, r.plan.kind? j = some Trigger.kind →
    t'.fires.get j = t.fires.get j + emissions ws j "out"
  uncounted : ∀ j,
    (r.plan.kind? j ≠ some Action.joinKind → t'.arrivals.get j = t.arrivals.get j) ∧
    (r.plan.kind? j ≠ some Trigger.kind → t'.fires.get j = t.fires.get j)

section Foreign
variable (round : Round kinds r ws r')
include round

theorem Round.no_joins (foreign : Action.joinKind ∉ kinds) (t : Tally) :
    (∀ w ∈ ws, r.plan.kind? w.action = some Action.joinKind →
      w.deed = Flow.joinDeed (t.get w.action) r w.action) ∧
    ∀ j, r.plan.kind? j = some Action.joinKind → t.get j =
      t.get j + if j ∈ ws.map Work.action then (r.deliveredTo j).length else 0 := by
  constructor
  · intro w member isJoin
    exact (round.not_acts isJoin foreign (List.mem_map_of_mem member)).elim
  · intro j isJoin
    rw [if_neg (round.not_acts isJoin foreign), Nat.add_zero]

theorem Round.no_delays (foreign : Delay.kind ∉ kinds) :
    ∀ w ∈ ws, r.plan.kind? w.action = some Delay.kind → w.deed = Delay.deed r w.action := by
  intro w member isDelay
  exact (round.not_acts isDelay foreign (List.mem_map_of_mem member)).elim

theorem Round.no_filters (foreign : Filter.kind ∉ kinds) (t : Filter.Outcomes) :
    ∀ w ∈ ws, r.plan.kind? w.action = some Filter.kind →
      w.deed = .finishOn (Filter.verdict w.run w.action).port ∧
        t.lookup w.action = some (Filter.verdict w.run w.action) := by
  intro w member isFilter
  exact (round.not_acts isFilter foreign (List.mem_map_of_mem member)).elim

theorem Round.no_triggers (foreign : Trigger.kind ∉ kinds) (t : Tally) :
    (∀ w ∈ ws, r.plan.kind? w.action = some Trigger.kind →
      w.deed = Trigger.deed (t.get w.action) r w.action) ∧
    ∀ j, r.plan.kind? j = some Trigger.kind → t.get j = t.get j + emissions ws j "out" := by
  constructor
  · intro w member isTrigger
    exact (round.not_acts isTrigger foreign (List.mem_map_of_mem member)).elim
  · intro j isTrigger
    rw [emissions_idle (round.not_acts isTrigger foreign), Nat.add_zero]

theorem Round.plain (plain : ∀ kind ∈ [Action.joinKind, Delay.kind, Filter.kind, Trigger.kind],
    kind ∉ kinds) (t : Tables) : Passes kinds t r ws t r' := by
  obtain ⟨joins, arrivals⟩ := round.no_joins (plain _ (by simp)) t.arrivals
  obtain ⟨triggers, fires⟩ := round.no_triggers (plain _ (by simp)) t.fires
  exact ⟨round, joins, arrivals, round.no_delays (plain _ (by simp)),
    round.no_filters (plain _ (by simp)) t.outcomes, fun _ _ => rfl, triggers, fires,
    fun _ => ⟨fun _ => rfl, fun _ => rfl⟩⟩

end Foreign

theorem Passes.tables {t before after t' : Tables} (passes : Passes kinds t r ws t' r')
    (first : t.arrivals = before.arrivals ∧ t.outcomes = before.outcomes ∧ t.fires = before.fires)
    (last : t'.arrivals = after.arrivals ∧ t'.outcomes = after.outcomes ∧ t'.fires = after.fires) :
    Passes kinds before r ws after r' := by
  obtain ⟨round, joins, arrivals, delays, filters, outcomes, triggers, fires, uncounted⟩ := passes
  rw [first.1] at joins
  rw [first.2.2] at triggers
  rw [last.1, first.1] at arrivals
  rw [last.2.1] at filters
  rw [last.2.1, first.2.1] at outcomes
  rw [last.2.2, first.2.2] at fires
  simp only [last.1, first.1, last.2.2, first.2.2] at uncounted
  exact ⟨round, joins, arrivals, delays, filters, outcomes, triggers, fires, uncounted⟩

theorem Passes.append {t next t' : Tables} {r mid r' : Run} (first : Passes ks t r a next mid)
    (second : Passes ls next mid b t' r') (apart : ∀ kind ∈ ks, kind ∉ ls) :
    Passes (ks ++ ls) t r (a ++ b) t' r' := by
  have round := first.toRound.append second.toRound apart
  have keeps := first.works.keeps
  have late : ∀ i ∈ b.map Work.action, i ∉ a.map Work.action := by
    have once := round.once
    rw [List.map_append, List.nodup_append] at once
    exact fun i late early => once.2.2 i early i late rfl
  refine ⟨round, ?_, ?_, ?_, ?_, ?_, ?_, ?_, ?_⟩
  · intro w member isJoin
    rcases List.mem_append.mp member with early | inB
    · exact first.joins w early isJoin
    · have fresh := late _ (List.mem_map_of_mem inB)
      rw [second.joins w inB (keeps.plan ▸ isJoin), Flow.joinDeed_keeps _ keeps,
        first.arrivals _ isJoin, if_neg fresh, Nat.add_zero]
  · intro j isJoin
    have delivered : mid.deliveredTo j = r.deliveredTo j := by
      rw [deliveredTo, deliveredTo, keeps.delivered]
    rw [second.arrivals j (keeps.plan ▸ isJoin), first.arrivals j isJoin, delivered, List.map_append]
    by_cases inB : j ∈ b.map Work.action
    · simp only [List.mem_append, inB, late j inB, or_true, if_true, if_false, Nat.add_zero]
    · simp only [List.mem_append, inB, or_false, if_false, Nat.add_zero]
  · intro w member isDelay
    rcases List.mem_append.mp member with early | inB
    · exact first.delays w early isDelay
    · have before := first.works.other (late _ (List.mem_map_of_mem inB))
      rw [second.delays w inB (keeps.plan ▸ isDelay), Delay.deed_congr keeps.plan before]
  · intro w member isFilter
    rcases List.mem_append.mp member with early | inB
    · obtain ⟨deed, recorded⟩ := first.filters w early isFilter
      refine ⟨deed, ?_⟩
      rw [second.outcomes _ fun again => late _ again (List.mem_map_of_mem early), recorded]
    · exact second.filters w inB (keeps.plan ▸ isFilter)
  · intro j idle
    rw [List.map_append, List.mem_append, not_or] at idle
    rw [second.outcomes j idle.2, first.outcomes j idle.1]
  · intro w member isTrigger
    rcases List.mem_append.mp member with early | inB
    · exact first.triggers w early isTrigger
    · have fresh := late _ (List.mem_map_of_mem inB)
      rw [second.triggers w inB (keeps.plan ▸ isTrigger), Trigger.deed_keeps _ keeps,
        first.fires _ isTrigger, emissions_idle fresh, Nat.add_zero]
  · intro j isTrigger
    rw [second.fires j (keeps.plan ▸ isTrigger), first.fires j isTrigger, emissions_append,
      Nat.add_assoc]
  · intro j
    have early := first.uncounted j
    have late := second.uncounted j
    rw [keeps.plan] at late
    exact ⟨fun other => (late.1 other).trans (early.1 other),
      fun other => (late.2 other).trans (early.2 other)⟩

end Run

section Stages
variable (t : Tables) {r : Run} (indexed : r.plan.Indexed)
include indexed

theorem joinAll_passes : ∃ ws, r.Passes [Action.joinKind] t ws
    { t with arrivals := (Flow.joinAll t.arrivals r).1 } (Flow.joinAll t.arrivals r).2 := by
  obtain ⟨ws, round, joins, arrivals⟩ := Flow.joinAll_round t.arrivals indexed
  obtain ⟨triggers, fires⟩ := round.no_triggers (by decide) t.fires
  refine ⟨ws, round, fun w member _ => joins w member, fun j _ => arrivals j,
    round.no_delays (by decide), round.no_filters (by decide) t.outcomes, fun _ _ => rfl, triggers,
    fires, fun j => ⟨fun other => ?_, fun _ => rfl⟩⟩
  rw [arrivals j, if_neg (round.not_member other), Nat.add_zero]

theorem flow_passes : ∃ ws,
    r.Passes [Action.startKind, Action.fanoutKind, Action.joinKind, Action.endKind] t ws
      { t with arrivals := (Flow.update t.arrivals r).1 } (Flow.update t.arrivals r).2 := by
  obtain ⟨_, start⟩ := Flow.passThrough_round Action.startKind (by decide) (by decide) indexed
  have indexed := start.works.indexed indexed
  obtain ⟨_, fanout⟩ := Flow.passThrough_round Action.fanoutKind (by decide) (by decide) indexed
  have indexed := fanout.works.indexed indexed
  obtain ⟨_, join⟩ := joinAll_passes t indexed
  have indexed := join.works.indexed indexed
  obtain ⟨_, finish⟩ := Flow.passThrough_round Action.endKind (by decide) (by decide) indexed
  exact ⟨_, (((start.plain (by decide) t).append (fanout.plain (by decide) t) (by decide)).append
    join (by decide)).append (finish.plain (by decide) _) (by decide)⟩

theorem delay_passes : ∃ ws, r.Passes [Delay.kind] t ws
    { t with delays := (Delay.update t.delays r).1 } (Delay.update t.delays r).2 := by
  obtain ⟨ws, round, delays⟩ := Delay.update_round t.delays indexed
  obtain ⟨joins, arrivals⟩ := round.no_joins (by decide) t.arrivals
  obtain ⟨triggers, fires⟩ := round.no_triggers (by decide) t.fires
  exact ⟨ws, round, joins, arrivals, fun w member _ => delays w member,
    round.no_filters (by decide) t.outcomes, fun _ _ => rfl, triggers, fires,
    fun _ => ⟨fun _ => rfl, fun _ => rfl⟩⟩

theorem filter_passes : ∃ ws, r.Passes [Filter.kind] t ws
    { t with outcomes := (Filter.update t.outcomes r).1 } (Filter.update t.outcomes r).2 := by
  obtain ⟨ws, round, filters, outcomes⟩ := Filter.update_round t.outcomes indexed
  obtain ⟨joins, arrivals⟩ := round.no_joins (by decide) t.arrivals
  obtain ⟨triggers, fires⟩ := round.no_triggers (by decide) t.fires
  exact ⟨ws, round, joins, arrivals, round.no_delays (by decide),
    fun w member _ => filters w member, outcomes, triggers, fires,
    fun _ => ⟨fun _ => rfl, fun _ => rfl⟩⟩

theorem trigger_passes : ∃ ws, r.Passes [Trigger.kind] t ws
    { t with fires := (Trigger.update t.fires r).1 } (Trigger.update t.fires r).2 := by
  obtain ⟨ws, round, triggers, fires⟩ := Trigger.update_round t.fires indexed
  obtain ⟨joins, arrivals⟩ := round.no_joins (by decide) t.arrivals
  refine ⟨ws, round, joins, arrivals, round.no_delays (by decide),
    round.no_filters (by decide) t.outcomes, fun _ _ => rfl, fun w member _ => triggers w member,
    fun j _ => fires j, fun j => ⟨fun _ => rfl, fun other => ?_⟩⟩
  rw [fires j, emissions_idle (round.not_member other), Nat.add_zero]

end Stages
end ActionGraph
