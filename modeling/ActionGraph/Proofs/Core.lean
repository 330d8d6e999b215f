import ActionGraph.Proofs.Completion
import ActionGraph.Proofs.Timing
-- The core pipeline: deliveries and the structural kinds. Where a graph has no other kinds and holds
-- nothing back, its ticks are ticks of the standard pipeline, and edges that leave on another port
-- than the default one have no part in its course.
namespace ActionGraph

-- The engine right after a successful load under a pipeline, be that registered before or after it.
inductive Launches (pipeline : List Stage) (g : Graph) : Engine → Prop where
  | load (e : Engine) (registered : e.stages.map Stage.onLoad = pipeline)
    (loads : (e.load g).2 = .ok ()) : Launches pipeline g (e.load g).1
  | register (e : Engine) (loads : (e.load g).2 = .ok ())
    (registers : (e.load g).1.register pipeline = .ok e') : Launches pipeline g e'

def Tables.core (t : Tables) : List Stage := [.delivery t.moved, .flow t.arrivals]

theorem Launches.parts (launches : Launches Stage.core g e) : ∃ p log, Plan.ofGraph g = .ok p ∧
    e.closed = false ∧ e.run = some ((Run.ofPlan p).withLog log) ∧ e.stages = ({} : Tables).core := by
  cases launches with
  | load e registered loads =>
    obtain ⟨p, log, planned, isOpen, loaded, stages⟩ := Engine.load_parts loads
    exact ⟨p, log, planned, isOpen, loaded, stages.trans registered⟩
  | register e loads registers =>
    obtain ⟨p, log, planned, _, loaded, _⟩ := Engine.load_parts loads
    have sorted : (Stage.core.mergeSort fun a b => a.order ≤ b.order) = Stage.core :=
      List.mergeSort_of_pairwise (by decide)
    obtain ⟨log', isOpen, reported, stages⟩ := Engine.register_as loaded sorted rfl registers
    exact ⟨p, log', planned, isOpen, reported, stages⟩

def passKinds : List String := [Action.startKind, Action.fanoutKind, Action.endKind]

namespace Run

theorem Passes.widen (passes : Passes kinds t r ws t' r')
    (same : ∀ i kind, r.plan.kind? i = some kind → (kind ∈ kinds ↔ kind ∈ others)) :
    Passes others t r ws t' r' where
  toRound := { passes.toRound with
    acts := fun i => (passes.acts i).trans <| exists_congr fun kind => by
      constructor
      · intro acts
        exact ⟨(same i kind acts.2.1).mp acts.1, acts.2⟩
      · intro acts
        exact ⟨(same i kind acts.2.1).mpr acts.1, acts.2⟩ }
  joins := passes.joins
  arrivals := passes.arrivals
  delays := passes.delays
  filters := passes.filters
  outcomes := passes.outcomes
  triggers := passes.triggers
  fires := passes.fires
  uncounted := passes.uncounted

theorem core_pass_ticks (host : Host) (t : Tables) {r : Run} (indexed : r.plan.Indexed)
    (kinds : ∀ i kind, r.plan.kind? i = some kind → kind ∈ passKinds) :
    ∃ ps ws t', (Engine.pass host t.core r.beginTick).1 = t'.core ∧
      r.Ticks t ps ws t' (Engine.pass host t.core r.beginTick).2.1.endTick := by
  obtain ⟨moved, moves⟩ := Delivery.update_run t.moved r
  obtain ⟨ps, sweep⟩ := Delivery.propagateAll_sweep moved r.arrived.releaseDeferred
  rw [← moves] at sweep
  have plan : (t.moved.update r.beginTick).2.plan = r.plan :=
    sweep.works.keeps.plan.trans r.arrived_plan
  obtain ⟨ws, flow⟩ := flow_passes t (plan ▸ indexed)
  have known : ∀ kind ∈ passKinds, (kind ∈ [Action.startKind, Action.fanoutKind, Action.joinKind,
    Action.endKind] ↔ kind ∈ drivenKinds) := by decide
  have passes := flow.widen fun i kind isKind => known kind (kinds i kind (plan ▸ isKind))
  simp only [Tables.core, pass_cons, Engine.pass, update_delivery, update_flow]
  refine ⟨ps, ws, { t with moved := _, arrivals := _ }, rfl, .intro sweep (passes.tables ?_ ?_)⟩
  · exact ⟨rfl, rfl, rfl⟩
  · refine ⟨?_, ?_, ?_⟩ <;> dsimp only

end Run

namespace Graph

def trunk (g : Graph) : Graph := { g with edges := g.edges.filter (·.sourcePort = "out") }

-- Only kinds that pass on, and no edge that holds anything back.
structure Structural (g : Graph) : Prop where
  formed : g.Wellformed
  kinds : ∀ a ∈ g.actions, a.kind ∈ passKinds
  unguarded : ∀ e ∈ g.edges, e.guard = none

namespace Structural
variable {g : Graph} (structural : g.Structural)
include structural

theorem trunk : g.trunk.Structural where
  formed :=
    { structural.formed with ends := fun e member => structural.formed.ends e (List.mem_filter.mp member).1 }
  kinds := structural.kinds
  unguarded e member := structural.unguarded e (List.mem_filter.mp member).1

theorem clockwork : g.trunk.Clockwork where
  formed := structural.trunk.formed
  kinds := by
    have known : ∀ kind ∈ passKinds, kind ∈ timedKinds := by decide
    exact fun a member => known _ (structural.kinds a member)
  edges := by
    intro e member
    obtain ⟨inside, onOut⟩ := List.mem_filter.mp member
    exact ⟨of_decide_eq_true onOut, structural.unguarded e inside⟩

theorem loud : ∀ a ∈ g.actions, a.kind ∈ outKinds := by
  have known : ∀ kind ∈ passKinds, kind ∈ outKinds := by decide
  exact fun a member => known _ (structural.kinds a member)

theorem blind : ∀ e ∈ g.edges, e.isBlind = true := by
  intro e member
  simp [Edge.isBlind, structural.unguarded e member]

theorem deed?_passes (c : Census) (id : String) : c.deed? g id = (g.named? id).bind fun a =>
    (c.met id).bind fun s => if Driven a.kind s.phase then some (.finishOn "out") else none := by
  have plain : ∀ kind ∈ passKinds, kind ∉ [Action.joinKind, Delay.kind, Trigger.kind] := by decide
  rw [Census.deed?]
  cases found : g.named? id with
  | none => rfl
  | some a =>
    have simple := plain _ (structural.kinds a (List.mem_of_find?_eq_some found))
    have passes : ∀ s, c.deed g a s = .finishOn "out" := fun s => if_pos simple
    simp only [Option.bind_some, passes]

theorem deed?_port {c : Census} {id : String} (sends : (c.deed? g id).bind Deed.port? = some port) :
    port = "out" := by
  rw [structural.deed?_passes] at sends
  obtain ⟨d, deed, sent⟩ := Option.bind_eq_some_iff.mp sends
  obtain ⟨a, _, driven⟩ := Option.bind_eq_some_iff.mp deed
  obtain ⟨s, _, acts⟩ := Option.bind_eq_some_iff.mp driven
  split at acts
  · cases acts
    exact (Option.some.inj sent).symm
  · cases acts

theorem deed?_trunk (c : Census) : c.deed? g = c.deed? g.trunk :=
  funext fun id => (structural.deed?_passes c id).trans (structural.trunk.deed?_passes c id).symm

theorem emitted_trunk (c : Census) : c.emitted g = c.emitted g.trunk := by
  rw [Census.emitted, Census.emitted, ← structural.deed?_trunk, Multiset.filter_coe, Multiset.filter_coe]
  refine congrArg _ (Eq.trans (List.filter_congr fun e _ => ?_) (List.filter_filter ..).symm)
  by_cases sends : (c.deed? g e.source).bind Deed.port? = some e.sourcePort
  · simp [sends, structural.deed?_port sends]
  · simp [sends]

theorem next_trunk (c : Census) : c.next g = c.next g.trunk := by
  have after : c.after g = c.after g.trunk := by
    funext id
    simp only [Census.after, structural.deed?_trunk]
  rw [Census.next, Census.next, structural.emitted_trunk, after, structural.deed?_trunk]
  rfl

theorem course_trunk (n : Nat) : g.course n = g.trunk.course n := by
  induction n with
  | zero => rfl
  | succ n ih => rw [course, course, ih, structural.next_trunk]

end Structural
end Graph

theorem Reached.kinds (reached : Reached g script t r turns) (structural : g.Structural) :
    ∀ i kind, r.plan.kind? i = some kind → kind ∈ passKinds := by
  intro i kind isKind
  rw [Plan.kind?, reached.graph, Graph.kind?] at isKind
  obtain ⟨a, there, rfl⟩ := Option.map_eq_some_iff.mp isKind
  exact structural.kinds a (List.mem_of_getElem? there)

structure Engine.ShowsCore (e : Engine) (t : Tables) (r : Run) : Prop where
  isOpen : e.closed = false
  stages : e.stages = t.core
  run : e.run = some r

theorem Engine.ShowsCore.tick {e : Engine} (shows : e.ShowsCore t r) (indexed : r.plan.Indexed)
    (kinds : ∀ i kind, r.plan.kind? i = some kind → kind ∈ passKinds) : ∃ e' ps ws t' r',
      e.tick = .ok e' ∧ e'.ShowsCore t' r' ∧ r.Ticks t ps ws t' r' := by
  obtain ⟨ps, ws, t', stages, ticks⟩ := Run.core_pass_ticks e.host t indexed kinds
  rw [← shows.stages] at stages ticks
  simp only [Engine.tick, shows.isOpen, shows.run, Bool.false_eq_true, if_false]
  exact ⟨_, ps, ws, t', _, rfl, ⟨shows.isOpen, stages, rfl⟩, ticks⟩

namespace Launches
variable (launches : Launches Stage.core g e) (structural : g.Structural)
include launches structural

theorem tickFor (n : Nat) : ∃ e' t r turns, e.tickFor n = .ok e' ∧ e'.ShowsCore t r ∧
    Reached g (List.replicate n .tick) t r turns := by
  induction n with
  | zero =>
    obtain ⟨p, log, planned, isOpen, loaded, stages⟩ := launches.parts
    exact ⟨e, _, _, _, rfl, ⟨isOpen, stages, loaded⟩, .opened planned log⟩
  | succ n ih =>
    obtain ⟨mid, t, r, turns, ticked, shows, reached⟩ := ih
    obtain ⟨e', _, _, t', r', step, shows', ticks⟩ := shows.tick reached.indexed (reached.kinds structural)
    refine ⟨e', t', r', turns ++ [⟨r, r'⟩], (Engine.tickFor_succ ticked).trans step, shows', ?_⟩
    rw [List.replicate_succ']
    exact reached.ticked ticks

theorem ticks_on : ∃ c : Nat → Engine, c 0 = e ∧ ∀ n, e.tickFor n = .ok (c n) ∧
    (c n).Keeps g.trunk n ∧ (c n).tick = .ok (c (n + 1)) := by
  choose c t r turns ticked shows reached using launches.tickFor structural
  refine ⟨c, (Except.ok.inj (ticked 0)).symm, fun n => ⟨ticked n, ?_, ?_⟩⟩
  · refine .of_census (shows n).run (reached n) rfl ?_
    rw [(reached n).census structural.loud structural.blind, g.course_eq, structural.course_trunk]
  · rw [← Engine.tickFor_succ (ticked n), ticked (n + 1)]

end Launches
end ActionGraph
