import ActionGraph.Proofs.Chronicle
-- The frontier of a tick. What is pending when a tick starts decides what is delivered and who wakes
-- up in it; nothing that the tick itself sends has any part in that.
namespace ActionGraph

namespace Deed

theorem settle_age {d : Deed} {s : Status} (same : (d.settle s).phase = s.phase) :
    (d.settle s).age = s.age := by
  cases d with
  | rest | propagate => rfl
  | listen | pulse | finish | finishOn =>
    simp only [settle, Status.enter_phase] at same
    simp [settle, Status.enter, same]

theorem settle_awake {d : Deed} {s : Status} (active : s.phase.isActive = true) :
    (d.settle s).phase.isActive = true ∨ (d.settle s).phase = .completed := by
  cases d with
  | rest | propagate => exact .inl active
  | listen | pulse => exact .inl (by simp [settle, Phase.isActive])
  | finish | finishOn => exact .inr (by simp [settle])

end Deed

namespace Run

theorem met_unaddressed {r : Run} (unaddressed : i ∉ r.pending.map Pulse.target) (s : Status) :
    r.met i s = s := if_neg unaddressed

theorem accepts_iff (r : Run) (p : Pulse) : r.accepts p = true ↔
    p.target < r.statuses.length ∧ (r.phase p.target).isTerminal = false := by
  unfold accepts phase
  cases there : r.statuses[p.target]? with
  | none => simp [Nat.not_lt.mpr (List.getElem?_eq_none_iff.mp there)]
  | some s => simp [(List.getElem?_eq_some_iff.mp there).1]

namespace Ticks
variable {t t' : Tables} {r r' : Run} {ps ws : List Work} (ticks : Ticks t r ps ws t' r')
include ticks

theorem idle_iff (there : r.statuses[i]? = some s) (idle : s.phase = .idle) :
    r'.phase i = .idle ↔ i ∉ r.pending.map Pulse.target := by
  obtain ⟨s', after, fares⟩ := ticks.fares there
  rw [phase_of after]
  constructor
  · intro still addressed
    have woken : r.met i s = { phase := .running, fresh := true } := by
      rw [met, if_pos addressed, Status.address_of_left (by rw [idle]; rfl)]
    rw [woken] at fares
    cases fares with
    | propagated due => cases due
    | @did w =>
      rcases w.deed.settle_awake (s := { phase := .running, fresh := true }) rfl with active | ended
      · rw [show (w.deed.settle _).phase = .idle from still] at active; cases active
      · rw [show (w.deed.settle _).phase = .idle from still] at ended; cases ended
    | left => cases still
  · intro unaddressed
    rw [met_unaddressed unaddressed] at fares
    cases fares with
    | propagated due => simp [Status.isDue, idle] at due
    | did _ _ _ _ driven =>
      have active := driven.isActive
      rw [idle] at active
      cases active
    | left => exact idle

theorem unaddressed (there : r.statuses[i]? = some s)
    (unaddressed : i ∉ r.pending.map Pulse.target) : r.arrived.statuses[i]? = some s ∧
      ∃ s', r'.statuses[i]? = some s' ∧ (s'.phase = .running → s.phase = .running) ∧
        (s'.phase = s.phase → s'.age = s.endTick.age) := by
  refine ⟨by rw [arrived_statuses, if_neg unaddressed, there], ?_⟩
  obtain ⟨s', after, fares⟩ := ticks.fares there
  rw [met_unaddressed unaddressed] at fares
  refine ⟨s', after, ?_⟩
  have ended : ∀ d : Deed, (d.settle s).phase = s.phase →
      (d.settle s).endTick.age = s.endTick.age := by
    intro d same
    rw [Status.endTick, Status.endTick, Deed.settle_age same]
  cases fares with
  | propagated => exact ⟨Deed.settle_running, ended _⟩
  | did => exact ⟨Deed.settle_running, ended _⟩
  | left => exact ⟨fun runs => runs, fun _ => rfl⟩

end Ticks
end Run

namespace Chronicle

-- Whatever the host did before: the next tick delivers the pending pulses whose targets are there
-- and not final, in their order, before it sends anything. It wakes exactly the idle actions among
-- the targets, leaves what is final, and activates nobody else.
theorem tick_frontier (opens : Opens g e) (script : List Signal) : ∃ c r e' r',
    (⟨e, []⟩ : Chronicle).play script = .ok c ∧ c.engine.run = some r ∧
    c.engine.tick = .ok e' ∧ e'.run = some r' ∧
    r'.delivered = r.pending.filter (fun p =>
      p.target < g.actions.length ∧ (r.phase p.target).isTerminal = false) ∧
    (r.arrived.delivered = r'.delivered ∧ r.arrived.pending = []) ∧
    ∀ i < g.actions.length, ∃ s s', r.statuses[i]? = some s ∧ r'.statuses[i]? = some s' ∧
      (s.phase = .idle → (s'.phase = .idle ↔ i ∉ r.pending.map Pulse.target)) ∧
      (s.phase.isTerminal = true → s'.phase = s.phase) ∧
      (s.phase.isTerminal = false → i ∉ r.pending.map Pulse.target →
        r.arrived.statuses[i]? = some s ∧ (s'.phase = .running → s.phase = .running) ∧
        (s'.phase = s.phase → s'.age = s.endTick.age)) := by
  obtain ⟨c, t, r, played, shows, reached⟩ := play_reached opens script
  obtain ⟨e', ps, ws, t', r', done, shows', ticks⟩ := shows.tick reached.indexed
  refine ⟨c, r, e', r', played, shows.run, done, shows'.run, ?_, ?_, ?_⟩
  · rw [ticks.delivered]
    refine List.filter_congr fun p _ => ?_
    rw [Bool.eq_iff_iff, r.accepts_iff, reached.size, decide_eq_true_iff]
  · exact ⟨by rw [ticks.delivered, r.arrived_delivered], r.arrived_pending⟩
  · intro i inside
    rw [← reached.size] at inside
    have there := List.getElem?_eq_getElem inside
    obtain ⟨s', after, fares⟩ := ticks.fares there
    refine ⟨_, s', there, after, fun idle => ?_, fun ended => ?_, fun _ unaddressed => ?_⟩
    · rw [← Run.phase_of after]; exact ticks.idle_iff there idle
    · rw [← Run.phase_of there] at ended ⊢
      rw [← Run.phase_of after]; exact ticks.final ended
    · obtain ⟨arrived, s'', again, never⟩ := ticks.unaddressed there unaddressed
      cases after.symm.trans again
      exact ⟨arrived, never⟩

theorem relay_frontier : ∃ c r e' r',
    (⟨(relayEngine.load relay).1, []⟩ : Chronicle).play [.tick, .cancel "bell"] = .ok c ∧
    c.engine.run = some r ∧ c.engine.tick = .ok e' ∧ e'.run = some r' ∧
    r'.delivered = r.pending.filter (fun p =>
      p.target < relay.actions.length ∧ (r.phase p.target).isTerminal = false) ∧
    (r.arrived.delivered = r'.delivered ∧ r.arrived.pending = []) ∧
    ∀ i < relay.actions.length, ∃ s s', r.statuses[i]? = some s ∧ r'.statuses[i]? = some s' ∧
      (s.phase = .idle → (s'.phase = .idle ↔ i ∉ r.pending.map Pulse.target)) ∧
      (s.phase.isTerminal = true → s'.phase = s.phase) ∧
      (s.phase.isTerminal = false → i ∉ r.pending.map Pulse.target →
        r.arrived.statuses[i]? = some s ∧ (s'.phase = .running → s.phase = .running) ∧
        (s'.phase = s.phase → s'.age = s.endTick.age)) :=
  tick_frontier relay_opens _

end Chronicle
end ActionGraph
