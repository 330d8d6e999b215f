import ActionGraph.Proofs.Chronicle
-- Runs at rest. Where nothing is on its way, nothing waits to be sent and nothing is driven, a tick
-- lets time pass and does nothing else: no stage changes a table, reports or reaches for the host.
namespace ActionGraph

theorem foldl_skips {f : σ → α → σ} {as : List α} (skips : ∀ a ∈ as, f s a = s) :
    as.foldl f s = s := by
  induction as with
  | nil => rfl
  | cons a rest ih =>
    rw [List.foldl_cons, skips a List.mem_cons_self]
    exact ih fun b member => skips b (List.mem_cons_of_mem _ member)

namespace Run

structure Still (r : Run) : Prop where
  pending : r.pending = []
  deferred : r.deferred = []
  due : ∀ (i : Nat) s, r.statuses[i]? = some s → s.isDue = false
  undriven : ∀ i, ∀ kind ∈ drivenKinds, r.plan.kind? i = some kind → ¬Driven kind (r.phase i)

def hushed (r : Run) : Run := { r.beginTick with delivered := [] }

def rested (r : Run) : Run := r.hushed.endTick

end Run

def Run.Undriven (r : Run) : Prop :=
  ∀ kind ∈ drivenKinds, ∀ i ∈ r.plan.ofKind kind, ¬Driven kind (r.phase i)

section Undriven
variable {r : Run} (undriven : r.Undriven)
include undriven

namespace Run.Undriven

theorem idle (kind : String) (known : kind ∈ drivenKinds) : ∀ i ∈ r.plan.ofKind kind, r.phase i ≠ .running :=
  fun i member running => undriven kind known i member (.inl running)

theorem none_running {kind : String} (known : kind ∈ drivenKinds) : r.running kind = [] := by
  apply List.filter_eq_nil_iff.mpr
  intro i member
  simpa using undriven.idle kind known i member

end Run.Undriven

theorem Flow.passThrough_undriven (kind : String) (known : kind ∈ drivenKinds) :
    passThrough r kind = r := foldl_skips fun i member => if_neg (undriven.idle kind known i member)

theorem Flow.update_undriven (t : Tally) : Flow.update t r = (t, r) := by
  have joins : joinAll t r = (t, r) :=
    foldl_skips fun i member => if_neg (undriven.idle Action.joinKind (by decide) i member)
  have start := passThrough_undriven undriven Action.startKind (by decide)
  have fanout := passThrough_undriven undriven Action.fanoutKind (by decide)
  have finish := passThrough_undriven undriven Action.endKind (by decide)
  simp only [update, start, fanout, joins, finish]

theorem Trigger.update_undriven (t : Tally) : Trigger.update t r = (t, r) := by
  refine foldl_skips fun i member => updateOne_skips (Bool.eq_false_iff.mpr fun active => ?_)
  exact undriven kind (by decide) i member ((driven_active _).mpr active)

theorem pass_undriven (host : Host) (t : Tables) :
    Engine.pass host t.stages.tail r = (t.stages.tail, r, []) := by
  have flow := Flow.update_undriven undriven t.arrivals
  have trigger := Trigger.update_undriven undriven t.fires
  have delay : Delay.update t.delays r = (t.delays, r) := by
    rw [Delay.update, undriven.none_running (by decide)]; rfl
  have assign : Assign.update t.writes r = (t.writes, r) := by
    rw [Assign.update, undriven.none_running (by decide)]; rfl
  have filter : Filter.update t.outcomes r = (t.outcomes, r) := by
    rw [Filter.update, undriven.none_running (by decide)]; rfl
  have spawn : Spawn.update host t.spawned r = (t.spawned, r, []) := by
    rw [Spawn.update, undriven.none_running (by decide)]; rfl
  have warning : Warning.update host t.shown r = (t.shown, r, []) := by
    rw [Warning.update, undriven.none_running (by decide)]; rfl
  have log : Log.update host r = (r, []) := by
    rw [Log.update, undriven.none_running (by decide)]; rfl
  simp only [Tables.stages, List.tail_cons, pass_cons, Engine.pass, update_flow, update_delay,
    update_assign, update_filter, update_trigger, update_spawn, update_warning, update_log, flow, delay,
    assign, filter, trigger, spawn, warning, log]
  rfl

end Undriven

section Stages
variable {r : Run} (still : r.Still) (indexed : r.plan.Indexed)
include still

theorem Delivery.update_still (t : Delivery) : t.update r.beginTick = (t, r.hushed) := by
  have delivers : deliverAll t r.beginTick = (t, r.hushed) := by
    have empty : r.beginTick.pending = [] := still.pending
    rw [deliverAll, empty]
    exact congrArg (Prod.mk t) (by rw [Run.hushed, ← empty])
  have releases : r.hushed.releaseDeferred = r.hushed := by
    have empty : r.hushed.deferred = [] := still.deferred
    rw [Run.releaseDeferred_eq, Run.released, Run.retained, empty, List.filter_nil, List.filterMap_nil,
      List.append_nil, ← empty]
  rw [update, delivers]
  simp only [releases]
  refine foldl_skips ?_
  intro i _
  refine propagateOne_skips ?_
  cases there : r.hushed.statuses[i]? with
  | none => rfl
  | some s => exact still.due i s there

include indexed

theorem Run.Still.hushed_undriven : r.hushed.Undriven :=
  fun kind known i member => still.undriven i kind known ((Plan.mem_ofKind indexed).mp member)

theorem pass_still (host : Host) (t : Tables) :
    Engine.pass host t.stages r.beginTick = (t.stages, r.hushed, []) := by
  have rest := pass_undriven (still.hushed_undriven indexed) host t
  rw [Tables.stages, List.tail_cons] at rest
  rw [Tables.stages, pass_cons, update_delivery, Delivery.update_still still, rest]
  rfl

end Stages

theorem Engine.Shows.tick_still {e : Engine} (shows : e.Shows t r) (indexed : r.plan.Indexed)
    (still : r.Still) : ∃ e', e.tick = .ok e' ∧ e'.Shows t r.rested ∧ e'.effects = e.effects := by
  simp only [Engine.tick, shows.isOpen, shows.run, shows.stages, pass_still still indexed,
    Bool.false_eq_true, if_false]
  exact ⟨_, rfl, ⟨shows.isOpen, rfl, rfl⟩, by simp [Engine.record]⟩

end ActionGraph
