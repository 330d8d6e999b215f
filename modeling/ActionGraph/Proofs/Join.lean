import ActionGraph.Proofs.Emission
import ActionGraph.Proofs.Frontier
-- Joins over whole runs. The table counts every pulse that was ever delivered to a join, and the
-- count alone says which phase the join is in, unless it was cancelled.
namespace ActionGraph

-- How many arrivals a join waits for: its own count if that is a 32-bit number, else one for each
-- edge that leads to it, and one if there is none.
def Graph.joinCount (g : Graph) (a : Action) : Nat :=
  match ((a.properties.get? "count").bind Value.u32?).getD (g.indegree a.id) with
  | 0 => 1
  | n => n

theorem Flow.needed_eq {p : Plan} (indexed : p.Indexed) (there : p.action? i = some a) :
    needed p i = p.graph.joinCount a := by
  rw [needed, Plan.reading, Plan.property?, there, Option.bind_some,
    Plan.entering_length indexed there, Graph.joinCount]
  cases ((a.properties.get? "count").bind Value.u32?).getD (p.graph.indegree a.id) with
  | zero => rfl
  | succ n => exact Nat.max_eq_right (by omega)

def arrivedIn (turns : List Turn) (j : Nat) : Nat :=
  (turns.map fun turn => (turn.after.deliveredTo j).length).sum

theorem arrivedIn_append (turns : List Turn) (turn : Turn) (j : Nat) :
    arrivedIn (turns ++ [turn]) j = arrivedIn turns j + (turn.after.deliveredTo j).length := by
  simp [arrivedIn]

def JoinAt (needed arrived : Nat) : Phase → Prop
  | .idle => arrived = 0
  | .listening => 0 < arrived ∧ arrived < needed
  | .completed => needed ≤ arrived
  | .running => False
  | .cancelled => True

theorem JoinAt.decides (at_ : JoinAt needed arrived phase) (sound : 0 < needed)
    (left : phase ≠ .cancelled) : (phase = .idle ↔ arrived = 0) ∧
      (phase = .listening ↔ 0 < arrived ∧ arrived < needed) ∧
      (phase = .completed ↔ needed ≤ arrived) := by
  cases phase with
  | idle | listening | completed =>
    simp only [JoinAt] at at_
    simp only [reduceCtorEq, false_iff, true_iff]
    omega
  | running => exact at_.elim
  | cancelled => exact (left rfl).elim

theorem JoinAt.driven (reached : 0 < arrived) (needed : Nat) (s : Status) : JoinAt needed arrived
    ((if needed ≤ arrived then Deed.finishOn "out" else .listen).settle s).endTick.phase := by
  split
  · next enough => simpa [Deed.settle, JoinAt] using enough
  · next short =>
    simp only [Deed.settle, Status.endTick_phase, Status.enter_phase, JoinAt]
    omega

namespace Run.Ticks
variable {t t' : Tables} {r r' : Run} {ps ws : List Work} (ticks : Ticks t r ps ws t' r')
include ticks

theorem deliveredTo (there : r.statuses[j]? = some s) : r'.deliveredTo j =
    if s.phase.isTerminal then [] else r.pending.filter (·.target = j) := by
  have accepted : ∀ p : Pulse, p.target = j → r.accepts p = !s.phase.isTerminal := by
    rintro p rfl
    rw [accepts, there, Option.any_some]
  rw [Run.deliveredTo, ticks.delivered, List.filter_filter]
  split
  · next final =>
    refine List.filter_eq_nil_iff.mpr fun p _ => ?_
    simp only [Bool.and_eq_true, decide_eq_true_eq, not_and]
    intro target
    simp [accepted p target, final]
  · next left =>
    refine List.filter_congr fun p _ => ?_
    by_cases target : p.target = j
    · simp [accepted p target, left, target]
    · simp [target]

theorem arrived_deliveredTo (j : Nat) : r.arrived.deliveredTo j = r'.deliveredTo j := by
  rw [Run.deliveredTo, r.arrived_delivered, ← ticks.delivered, Run.deliveredTo]

theorem undelivered (there : r.statuses[j]? = some s) (waits : s.phase ≠ .running)
    (same : r.met j s = s) : r'.deliveredTo j = [] := by
  rw [ticks.deliveredTo there]
  split
  · rfl
  · next left =>
    refine List.filter_eq_nil_iff.mpr fun p member => ?_
    simp only [decide_eq_true_eq]
    intro target
    rw [met, if_pos (List.mem_map.mpr ⟨p, member, target⟩),
      Status.address_of_left (by simpa using left)] at same
    apply waits
    rw [← same]

theorem delivered_some (there : r.statuses[j]? = some s) (left : s.phase.isTerminal = false)
    (addressed : j ∈ r.pending.map Pulse.target) : 0 < (r'.deliveredTo j).length := by
  obtain ⟨p, member, target⟩ := List.mem_map.mp addressed
  rw [ticks.deliveredTo there, if_neg (by simp [left])]
  apply List.length_pos_of_mem (a := p)
  exact List.mem_filter.mpr ⟨member, by simpa using target⟩

theorem join (isJoin : r.plan.kind? j = some Action.joinKind) (there : r.statuses[j]? = some s)
    (before : JoinAt (Flow.needed r.plan j) (t.arrivals.get j) s.phase) :
    t'.arrivals.get j = t.arrivals.get j + (r'.deliveredTo j).length ∧
      JoinAt (Flow.needed r.plan j) (t'.arrivals.get j) (r'.phase j) := by
  obtain ⟨s', after, fares⟩ := ticks.fares there
  have counts := ticks.arrivals isJoin
  have arrived := ticks.arrived_deliveredTo j
  have waits : s.phase ≠ .running := by
    intro running
    rw [running] at before
    exact before
  rw [phase_of after]
  rw [arrived] at counts
  cases fares with
  | propagated due _ idle =>
    rcases r.met_parts j s with same | ⟨_, fresh⟩
    · rw [if_neg idle] at counts
      rw [ticks.undelivered there waits same, counts, same]
      exact ⟨rfl, before⟩
    · rw [fresh] at due
      cases due
  | @did w kind member acts _ isKind driven =>
    subst acts
    have deed := ticks.joins member isJoin
    have running : (r.met w.action s).phase = .running := by
      rw [isKind, Option.some.injEq] at isJoin
      rcases driven with running | ⟨isTrigger, _⟩
      · exact running
      · exact absurd (isJoin.symm.trans isTrigger) (by decide)
    have addressed : w.action ∈ r.pending.map Pulse.target := by
      refine Classical.byContradiction fun unaddressed => waits ?_
      rwa [met_unaddressed unaddressed] at running
    have left : s.phase.isTerminal = false := by
      rcases r.met_parts w.action s with same | ⟨left, _⟩
      · exact (waits (same ▸ running)).elim
      · exact left
    have some := ticks.delivered_some there left addressed
    rw [if_pos (List.mem_map_of_mem member)] at counts
    refine ⟨counts, ?_⟩
    rw [Flow.joinDeed, r.arrived_plan, arrived, ← counts] at deed
    rw [deed]
    exact JoinAt.driven (by omega) _ _
  | left _ idle _ undriven =>
    rcases r.met_parts j s with same | ⟨_, fresh⟩
    · rw [if_neg idle] at counts
      rw [ticks.undelivered there waits same, counts, same]
      exact ⟨rfl, before⟩
    · exact (undriven _ (by decide) isJoin (.inl (by rw [fresh]))).elim

theorem uncancelled (left : r.phase i ≠ .cancelled) : r'.phase i ≠ .cancelled := by
  intro cancelled
  obtain ⟨s', after, same⟩ := status_of_phase (r := r') (i := i) (by rw [cancelled]; decide)
  obtain ⟨s, found, fares⟩ := ticks.origin after
  rw [phase_of found] at left
  rw [cancelled] at same
  cases fares with
  | propagated due =>
    simp only [Status.isDue, Bool.and_eq_true, decide_eq_true_eq] at due
    exact absurd (due.1.symm.trans same) (by decide)
  | @did w _ _ _ _ _ driven =>
    rw [Status.endTick_phase] at same
    rcases w.deed.settle_awake driven.isActive with active | ended
    · rw [same] at active; cases active
    · rw [same] at ended; cases ended
  | left =>
    rcases r.met_parts i s with met | ⟨_, fresh⟩
    · rw [met] at same; exact left same
    · rw [fresh] at same; cases same

end Run.Ticks

theorem Leads.final (leads : Leads t r turns script t' r' turns')
    (ended : (r.phase j).isTerminal = true) :
    r'.phase j = r.phase j ∧ arrivedIn turns' j = arrivedIn turns j := by
  induction leads with
  | nowhere => exact ⟨rfl, rfl⟩
  | @heeded _ _ mid _ s _ _ ih =>
    rw [(mid.heed_heeds s).final (by rw [ih.1, ended]), ih.1]
    exact ⟨rfl, ih.2⟩
  | @ticked _ _ mid _ _ _ _ _ _ ticks ih =>
    have still : (mid.phase j).isTerminal = true := by rw [ih.1, ended]
    obtain ⟨s, there, same⟩ := Run.status_of_phase (r := mid) (i := j) fun idle => by
      rw [idle] at still; cases still
    rw [arrivedIn_append, ticks.final still, ih.1, ticks.deliveredTo there, same, if_pos still]
    exact ⟨rfl, ih.2⟩

theorem Run.opened_idle (planned : Plan.ofGraph g = .ok p) (there : g.actions[i]? = some a)
    (other : a.kind ≠ Action.startKind) (log : Diagnostics) :
    ((ofPlan p).withLog log).phase i = .idle := by
  obtain ⟨_, _, graph, _⟩ := Plan.ofGraph_parts planned
  obtain ⟨first, starts, isStart⟩ := (Plan.ofGraph_indexed planned).start
  have differ : p.start ≠ i := by
    rintro rfl
    rw [Plan.action?, graph, there, Option.some.injEq] at starts
    rw [← starts, Action.isStart, beq_iff_eq] at isStart
    exact other isStart
  simp only [withLog, ofPlan, phase, List.getElem?_modify_ne _ _ differ, List.getElem?_map, graph,
    there]
  rfl

namespace Reached

theorem join (reached : Reached g script t r turns) (there : g.actions[j]? = some a)
    (isJoin : a.kind = Action.joinKind) : t.arrivals.get j = arrivedIn turns j ∧
      JoinAt (g.joinCount a) (arrivedIn turns j) (r.phase j) := by
  induction reached using Reached.induct with
  | opened p log planned =>
    refine ⟨Tally.get_empty j, ?_⟩
    rw [Run.opened_idle planned there (by rw [isJoin]; decide)]
    rfl
  | heeded _ _ r _ s _ _ ih =>
    refine ⟨ih.1, ?_⟩
    rcases (r.heed_heeds s).statuses j with same | ⟨_, _, _, _, _, _, after⟩
    · rw [Run.phase, same]; exact ih.2
    · rw [Run.phase_of after, Status.enter_phase]; trivial
  | ticked _ t r turns _ _ t' r' prior ticks ih =>
    have kind : r.plan.kind? j = some Action.joinKind := by rw [prior.kind_of there, isJoin]
    obtain ⟨s, found⟩ := prior.found there
    have needed : Flow.needed r.plan j = g.joinCount a := by
      rw [Flow.needed_eq prior.indexed (by rw [Plan.action?, prior.graph, there]), prior.graph]
    have step := ticks.join kind found
    rw [needed, ih.1, ← Run.phase_of found] at step
    obtain ⟨counts, after⟩ := step ih.2
    rw [arrivedIn_append]
    exact ⟨counts, counts ▸ after⟩

theorem arrivals_in_words (reached : Reached g script t r turns) (there : g.actions[j]? = some a)
    (isJoin : a.kind = Action.joinKind) (few : arrivedIn turns j + now < UInt32.size) :
    t.arrivals.addWord j now = t.arrivals.add j now :=
  Tally.addWord_eq_add ((reached.join there isJoin).1 ▸ few)

theorem cancelled (reached : Reached g script t r turns) (found : r.phase i = .cancelled) :
    ∃ id, .cancel id ∈ script ∧ r.plan.indexOf? id = some i := by
  induction reached using Reached.induct with
  | opened p log =>
    obtain ⟨s, there, same⟩ := Run.status_of_phase (i := i) (by rw [found]; decide)
    have left := (Run.ofPlan_status there).2
    rw [same, found] at left
    cases left
  | heeded script _ r _ s _ _ ih =>
    have heeds := r.heed_heeds s
    rcases heeds.statuses i with same | ⟨id, _, isCancel, index, _⟩
    · obtain ⟨id, member, index⟩ := ih (by rw [← found, Run.phase, Run.phase, same])
      exact ⟨id, List.mem_append_left _ member, heeds.plan ▸ index⟩
    · exact ⟨id, by simp [isCancel], heeds.plan ▸ index⟩
  | ticked _ _ r _ _ _ _ _ _ ticks ih =>
    have before : r.phase i = .cancelled :=
      Classical.byContradiction fun left => ticks.uncancelled left found
    obtain ⟨id, member, index⟩ := ih before
    exact ⟨id, List.mem_append_left _ member, ticks.plan ▸ index⟩

theorem uncancelled (reached : Reached g script t r turns) (there : g.actions[i]? = some a)
    (never : .cancel a.id ∉ script) : r.phase i ≠ .cancelled := by
  intro cancelled
  obtain ⟨id, member, index⟩ := reached.cancelled cancelled
  rw [reached.indexed.position, Plan.action?, reached.graph, there, Option.map_some,
    Option.some.injEq] at index
  exact never (index ▸ member)

end Reached

theorem Graph.joinCount_pos (g : Graph) (a : Action) : 0 < g.joinCount a := by
  unfold joinCount
  split
  · exact Nat.one_pos
  · next left => exact Nat.pos_of_ne_zero left

namespace Chronicle

-- Between ticks the number of arrivals tells the phase of a join that was not cancelled. It
-- completes in just the tick that brings the number up to its count. Once it is completed or
-- cancelled nothing arrives any more, and neither phase nor table change again.
theorem join_synchronises (opens : Opens g e) (script : List Signal) (j : Nat) (a : Action)
    (there : g.actions[j]? = some a) (isJoin : a.kind = Action.joinKind) : ∃ c r,
    (⟨e, []⟩ : Chronicle).play script = .ok c ∧ c.engine.run = some r ∧
    c.engine.arrivals j = arrivedIn c.turns j ∧
    (.cancel a.id ∉ script → r.phase j ≠ .cancelled) ∧
    (r.phase j ≠ .cancelled → (r.phase j = .idle ↔ arrivedIn c.turns j = 0) ∧
      (r.phase j = .listening ↔ 0 < arrivedIn c.turns j ∧ arrivedIn c.turns j < g.joinCount a) ∧
      (r.phase j = .completed ↔ g.joinCount a ≤ arrivedIn c.turns j)) ∧
    (∃ e' r', c.engine.tick = .ok e' ∧ e'.run = some r' ∧
      e'.arrivals j = c.engine.arrivals j + (r'.deliveredTo j).length ∧
      (r.phase j ≠ .cancelled → (r.phase j ≠ .completed ∧ r'.phase j = .completed ↔
        arrivedIn c.turns j < g.joinCount a ∧
        g.joinCount a ≤ arrivedIn c.turns j + (r'.deliveredTo j).length))) ∧
    ((r.phase j).isTerminal = true → ∀ more, ∃ c' r', c.play more = .ok c' ∧
      c'.engine.run = some r' ∧ r'.phase j = r.phase j ∧
      arrivedIn c'.turns j = arrivedIn c.turns j ∧ c'.engine.arrivals j = c.engine.arrivals j) := by
  obtain ⟨c, t, r, played, shows, reached⟩ := play_reached opens script
  obtain ⟨arrivals, at_⟩ := reached.join there isJoin
  have sound := g.joinCount_pos a
  refine ⟨c, r, played, shows.run, by rw [shows.arrivals, arrivals], reached.uncancelled there,
    at_.decides sound, ?_, ?_⟩
  · obtain ⟨e', ps, ws, t', r', done, shows', ticks⟩ := shows.tick reached.indexed
    obtain ⟨arrivals', at_'⟩ := (reached.ticked ticks).join there isJoin
    rw [arrivedIn_append] at arrivals' at_'
    refine ⟨e', r', done, shows'.run, ?_, fun left => ?_⟩
    · rw [shows'.arrivals, shows.arrivals, arrivals', arrivals]
    · rw [ne_eq, (at_.decides sound left).2.2, (at_'.decides sound (ticks.uncancelled left)).2.2,
        Nat.not_le]
  · intro ended more
    obtain ⟨c', t', r', played', shows', leads⟩ := play_leads shows reached more
    obtain ⟨phase, counts⟩ := leads.final ended
    have arrivals' := ((reached.leads leads).join there isJoin).1
    refine ⟨c', r', played', shows'.run, phase, counts, ?_⟩
    rw [shows'.arrivals, shows.arrivals, arrivals', arrivals, counts]

theorem relay_join_synchronises : ∃ c r,
    (⟨(relayEngine.load relay).1, []⟩ : Chronicle).play
      [.setTag "open", .tick, .raise "ring", .tick, .tick] = .ok c ∧
    c.engine.run = some r ∧ c.engine.arrivals 2 = arrivedIn c.turns 2 ∧
    (Signal.cancel "both" ∉ [.setTag "open", Signal.tick, .raise "ring", .tick, .tick] →
      r.phase 2 ≠ .cancelled) ∧
    (r.phase 2 ≠ .cancelled → (r.phase 2 = .idle ↔ arrivedIn c.turns 2 = 0) ∧
      (r.phase 2 = .listening ↔ 0 < arrivedIn c.turns 2 ∧
        arrivedIn c.turns 2 < relay.joinCount ⟨"both", Action.joinKind, ∅, ∅⟩) ∧
      (r.phase 2 = .completed ↔
        relay.joinCount ⟨"both", Action.joinKind, ∅, ∅⟩ ≤ arrivedIn c.turns 2)) ∧
    (∃ e' r', c.engine.tick = .ok e' ∧ e'.run = some r' ∧
      e'.arrivals 2 = c.engine.arrivals 2 + (r'.deliveredTo 2).length ∧
      (r.phase 2 ≠ .cancelled → (r.phase 2 ≠ .completed ∧ r'.phase 2 = .completed ↔
        arrivedIn c.turns 2 < relay.joinCount ⟨"both", Action.joinKind, ∅, ∅⟩ ∧
        relay.joinCount ⟨"both", Action.joinKind, ∅, ∅⟩ ≤
          arrivedIn c.turns 2 + (r'.deliveredTo 2).length))) ∧
    ((r.phase 2).isTerminal = true → ∀ more, ∃ c' r', c.play more = .ok c' ∧
      c'.engine.run = some r' ∧ r'.phase 2 = r.phase 2 ∧
      arrivedIn c'.turns 2 = arrivedIn c.turns 2 ∧ c'.engine.arrivals 2 = c.engine.arrivals 2) :=
  join_synchronises relay_opens _ 2 ⟨"both", Action.joinKind, ∅, ∅⟩ rfl rfl

end Chronicle
end ActionGraph
