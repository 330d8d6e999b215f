import ActionGraph.Proofs.Survey
-- The order in which a graph is written down has no effect on its runs, if no action touches the
-- blackboard and no guard reads it: two runs of one script keep the same census.
namespace ActionGraph

namespace Census

def opened (g : Graph) : Census where
  status id := (g.named? id).map fun a => if a.isStart then Status.activate {} else {}
  arrivals _ := 0
  fires _ := 0
  pending := 0
  deferred := 0
  tags := []
  raised := []
  tick := 0
  lastChange := 0

noncomputable def obey (g : Graph) (c : Census) : Signal → Census
  | .tick => c.next g
  | .raise name => { c with raised := c.raised.insert name }
  | .setTag tag => { c with tags := c.tags.insert tag }
  | .clearTag tag => { c with tags := c.tags.filter (· ≠ tag) }
  | .cancel id =>
    match c.status id with
    | none => c
    | some s =>
      if s.phase.isTerminal then c
      else { c with
        status := Function.update c.status id (some (s.enter .cancelled))
        lastChange := c.tick }
  | _ => c

end Census

theorem Plan.start_iff (planned : Plan.ofGraph g = .ok p) (there : p.action? i = some a) :
    p.start = i ↔ a.isStart = true := by
  obtain ⟨d, checked, graph, _, start, _⟩ := ofGraph_parts planned
  have found := (Graph.check_parts checked).2.2
  have only : Graph.positionsOf Action.isStart g.actions = [d.start] := by
    unfold Graph.theStart at found
    split at found
    · cases found
    · next only => cases found; exact only
    · cases found
  rw [action?, graph] at there
  have member : i ∈ Graph.positionsOf Action.isStart g.actions ↔ a.isStart = true := by
    simp [Graph.mem_positionsOf, there]
  rw [← member, only, List.mem_singleton, start, eq_comm]

theorem Run.census_opened (planned : Plan.ofGraph g = .ok p) (log : Diagnostics) :
    ((Run.ofPlan p).withLog log).census {} = Census.opened g := by
  have indexed := Plan.ofGraph_indexed planned
  obtain ⟨_, _, graph, _⟩ := Plan.ofGraph_parts planned
  refine Census.ext (funext fun id => ?_) (funext fun id => ?_) (funext fun id => ?_) rfl rfl rfl rfl
    rfl rfl
  · simp only [Census.opened, ← graph, Plan.named?_eq indexed]
    rcases Plan.look indexed id with ⟨index, _⟩ | ⟨i, a, there, rfl⟩
    · simp only [census, withLog, ofPlan, index]
      rfl
    · have start := Plan.start_iff planned there
      rw [Plan.action?] at there
      simp only [census, withLog, ofPlan, Plan.index_of indexed there, Option.bind_some, Plan.action?,
        there, List.getElem?_modify, List.getElem?_map, start, Option.map_some]
      cases a.isStart <;> rfl
  · simp only [census, Census.opened]
    cases ((ofPlan p).withLog log).plan.indexOf? id <;> simp
  · simp only [census, Census.opened]
    cases ((ofPlan p).withLog log).plan.indexOf? id <;> simp

theorem Run.census_cancel (t : Tables) {r : Run} {id : String} (indexed : r.plan.Indexed)
    (index : r.plan.indexOf? id = some i) (there : r.statuses[i]? = some s)
    (left : s.phase.isTerminal = false) : (r.cancel i).1.census t =
      { r.census t with
        status := Function.update (r.census t).status id (some (s.enter .cancelled))
        lastChange := r.tick } := by
  have differ : s.phase ≠ .cancelled := by
    intro same
    rw [same] at left
    cases left
  rw [cancel, setPhase_other there left differ]
  refine Census.ext (funext fun other => ?_) rfl rfl rfl rfl rfl rfl rfl rfl
  dsimp only [census, modifyStatus]
  by_cases same : other = id
  · subst same
    rw [Function.update_self, index, Option.bind_some, List.getElem?_modify_eq, there]
    rfl
  · rw [Function.update_of_ne same]
    cases elsewhere : r.plan.indexOf? other with
    | none => rfl
    | some j =>
      have apart : i ≠ j := by
        rintro rfl
        have first := (indexed.position id i).mp index
        rw [(indexed.position other i).mp elsewhere, Option.some.injEq] at first
        exact same first
      exact List.getElem?_modify_ne _ _ apart

theorem Run.census_heed (t : Tables) {r : Run} (indexed : r.plan.Indexed) {s : Signal}
    (quiet : s ≠ .tick) (g : Graph) : (r.heed s).census t = (r.census t).obey g s := by
  cases s with
  | tick => exact (quiet rfl).elim
  | raise | setTag | clearTag | board | host | enableHistory | disableHistory => rfl
  | cancel id =>
    cases index : r.plan.indexOf? id with
    | none =>
      have unknown : (r.census t).status id = none := by simp only [census, index, Option.bind_none]
      simp only [heed, index, Census.obey, unknown]
    | some i =>
      have known : (r.census t).status id = r.statuses[i]? := by
        simp only [census, index, Option.bind_some]
      cases there : r.statuses[i]? with
      | none =>
        simp only [heed, index, Census.obey, known, there, phase, cancel, setPhase]
        split <;> rfl
      | some s =>
        simp only [heed, index, Census.obey, known, there, phase_of there]
        cases final : s.phase.isTerminal with
        | true => rfl
        | false => exact Run.census_cancel t indexed index there final

namespace Reached

theorem plain (reached : Reached g script t r turns) (kinds : ∀ a ∈ g.actions, a.kind ∈ outKinds)
    (guards : ∀ e ∈ g.edges, e.isBlind = true) : r.Plain where
  indexed := reached.indexed
  settled := reached.settled
  size := reached.graph ▸ reached.size
  kinds := reached.graph ▸ kinds
  guards := reached.graph ▸ guards

theorem census (reached : Reached g script t r turns) (kinds : ∀ a ∈ g.actions, a.kind ∈ outKinds)
    (guards : ∀ e ∈ g.edges, e.isBlind = true) :
    r.census t = script.foldl (Census.obey g) (Census.opened g) := by
  induction reached using Reached.induct with
  | opened p log planned => exact Run.census_opened planned log
  | heeded _ t r _ s prior quiet ih =>
    rw [List.foldl_append, ← ih, r.census_heed t prior.indexed quiet g]
    rfl
  | ticked _ _ _ _ _ _ _ _ prior ticks ih =>
    rw [List.foldl_append, ← ih, ticks.census (prior.plain kinds guards), prior.graph]
    rfl

end Reached

section Order
variable {g g' : Graph} (formed : g.Wellformed) (actions : g.actions.Perm g'.actions)
  (edges : g.edges.Perm g'.edges)
include formed actions edges

theorem Census.opened_perm : opened g = opened g' := by
  simp only [opened, Graph.named?_perm formed actions edges]

theorem Census.obey_perm : obey g = obey g' := by
  funext c s
  cases s with
  | tick => exact c.next_perm formed actions edges
  | _ => rfl

end Order

theorem Engine.load_ok {e : Engine} (isOpen : e.closed = false) (formed : g.Wellformed) :
    (e.load g).2 = .ok () := by
  obtain ⟨p, planned⟩ := (Plan.ofGraph_ok_iff g).mpr formed
  simp only [load, isOpen, Bool.false_eq_true, if_false, Run.load, planned, Except.map]

namespace Chronicle

-- However a graph's actions and edges are ordered, it loads if it does in one order, and any script
-- leads it through the same states of its actions, whatever their positions, with the same bag of
-- pulses on their way.
theorem any_order_plays_alike (opens : Opens g e) (actions : g.actions.Perm g'.actions)
    (edges : g.edges.Perm g'.edges) (kinds : ∀ a ∈ g.actions, a.kind ∈ outKinds)
    (guards : ∀ edge ∈ g.edges, edge.isBlind = true) :
    (∀ f : Engine, f.closed = false → (f.load g').2 = .ok ()) ∧
    ∀ e', Opens g' e' → ∀ script, ∃ c r c' r',
      (⟨e, []⟩ : Chronicle).play script = .ok c ∧ c.engine.run = some r ∧
      (⟨e', []⟩ : Chronicle).play script = .ok c' ∧ c'.engine.run = some r' ∧
      (∀ (i i' : Nat) id, g.actions[i]?.map (·.id) = some id → g'.actions[i']?.map (·.id) = some id →
        (∃ s, r.statuses[i]? = some s ∧ r'.statuses[i']? = some s) ∧
        c.engine.arrivals i = c'.engine.arrivals i' ∧ c.engine.fires i = c'.engine.fires i') ∧
      r.tick = r'.tick ∧ r.lastChange = r'.lastChange ∧ r.deferred.length = r'.deferred.length ∧
      (r.pending.map r.plan.parcel).Perm (r'.pending.map r'.plan.parcel) := by
  obtain ⟨p, _, planned, _⟩ := opens.parts
  have formed := (Plan.ofGraph_ok_iff g).mp ⟨p, planned⟩
  refine ⟨fun f isOpen => Engine.load_ok isOpen (formed.perm actions edges), ?_⟩
  intro e' opens' script
  obtain ⟨c, t, r, played, shows, reached⟩ := play_reached opens script
  obtain ⟨c', t', r', played', shows', reached'⟩ := play_reached opens' script
  have same : r.census t = r'.census t' := by
    rw [reached.census kinds guards, reached'.census (fun a member => kinds a (actions.mem_iff.mpr member))
      fun edge member => guards edge (edges.mem_iff.mpr member),
      Census.opened_perm formed actions edges, Census.obey_perm formed actions edges]
  refine ⟨c, r, c', r', played, shows.run, played', shows'.run, ?_, congrArg Census.tick same,
    congrArg Census.lastChange same, ?_, Multiset.coe_eq_coe.mp (congrArg Census.pending same)⟩
  · intro i i' id there there'
    obtain ⟨a, action, rfl⟩ := Option.map_eq_some_iff.mp there
    obtain ⟨a', action', sameId⟩ := Option.map_eq_some_iff.mp there'
    rw [← reached.graph] at action
    rw [← reached'.graph] at action'
    have inside : i < r.statuses.length := by
      rw [reached.size, ← reached.graph]; exact (List.getElem?_eq_some_iff.mp action).1
    have found := List.getElem?_eq_getElem inside
    have statuses := congrFun (congrArg Census.status same) a.id
    have arrivals := congrFun (congrArg Census.arrivals same) a.id
    have fires := congrFun (congrArg Census.fires same) a.id
    rw [Run.census_status reached.indexed t action, ← sameId,
      Run.census_status reached'.indexed t' action'] at statuses
    rw [Run.census_arrivals reached.indexed t action, ← sameId,
      Run.census_arrivals reached'.indexed t' action'] at arrivals
    rw [Run.census_fires reached.indexed t action, ← sameId,
      Run.census_fires reached'.indexed t' action'] at fires
    rw [shows.arrivals, shows'.arrivals, shows.fires, shows'.fires]
    exact ⟨⟨_, found, statuses ▸ found⟩, arrivals, fires⟩
  · have lengths := congrArg (fun c => Multiset.card c.deferred) same
    simpa only [Run.census, Multiset.coe_card, List.length_map] using lengths

def relayBackwards : Graph := { relay with
  actions := relay.actions.reverse
  edges := relay.edges.reverse }

theorem relay_backwards_plays_alike :
    (∀ f : Engine, f.closed = false → (f.load relayBackwards).2 = .ok ()) ∧ ∃ c r c' r',
      (⟨(relayEngine.load relay).1, []⟩ : Chronicle).play
        [.tick, .raise "ring", .tick, .setTag "open", .tick, .cancel "bell", .tick] = .ok c ∧
      c.engine.run = some r ∧
      (⟨(relayEngine.load relayBackwards).1, []⟩ : Chronicle).play
        [.tick, .raise "ring", .tick, .setTag "open", .tick, .cancel "bell", .tick] = .ok c' ∧
      c'.engine.run = some r' ∧
      (∀ (i i' : Nat) id, relay.actions[i]?.map (·.id) = some id →
        relayBackwards.actions[i']?.map (·.id) = some id →
        (∃ s, r.statuses[i]? = some s ∧ r'.statuses[i']? = some s) ∧
        c.engine.arrivals i = c'.engine.arrivals i' ∧ c.engine.fires i = c'.engine.fires i') ∧
      r.tick = r'.tick ∧ r.lastChange = r'.lastChange ∧ r.deferred.length = r'.deferred.length ∧
      (r.pending.map r.plan.parcel).Perm (r'.pending.map r'.plan.parcel) := by
  have actions : relay.actions.Perm relayBackwards.actions := (List.reverse_perm _).symm
  have edges : relay.edges.Perm relayBackwards.edges := (List.reverse_perm _).symm
  obtain ⟨loads, plays⟩ := any_order_plays_alike relay_opens actions edges (by decide) (by decide)
  exact ⟨loads, plays _ (.load relayEngine rfl rfl) _⟩

end Chronicle
end ActionGraph
