import ActionGraph.Proofs.Between
import ActionGraph.Proofs.Change
import ActionGraph.Graph.Patterns
-- Running until everything is final. That is ticking for a while, neither a tick too long nor a tick
-- too short, and where a tick ended the run the last change is dated with it.
namespace ActionGraph

theorem Stage.standard_tables {stages : List Stage} (same : stages.map Stage.onLoad = Stage.standard) :
    ∃ t : Tables, stages = t.stages := by
  obtain ⟨s₀, rest, rfl, delivery, same⟩ := List.map_eq_cons_iff.mp same
  obtain ⟨s₁, rest, rfl, flow, same⟩ := List.map_eq_cons_iff.mp same
  obtain ⟨s₂, rest, rfl, delay, same⟩ := List.map_eq_cons_iff.mp same
  obtain ⟨s₃, rest, rfl, assign, same⟩ := List.map_eq_cons_iff.mp same
  obtain ⟨s₄, rest, rfl, filter, same⟩ := List.map_eq_cons_iff.mp same
  obtain ⟨s₅, rest, rfl, trigger, same⟩ := List.map_eq_cons_iff.mp same
  obtain ⟨s₆, rest, rfl, spawn, same⟩ := List.map_eq_cons_iff.mp same
  obtain ⟨s₇, rest, rfl, warning, same⟩ := List.map_eq_cons_iff.mp same
  obtain ⟨s₈, rest, rfl, log, same⟩ := List.map_eq_cons_iff.mp same
  cases List.map_eq_nil_iff.mp same
  cases s₀ <;> cases delivery
  cases s₁ <;> cases flow
  cases s₂ <;> cases delay
  cases s₃ <;> cases assign
  cases s₄ <;> cases filter
  cases s₅ <;> cases trigger
  cases s₆ <;> cases spawn
  cases s₇ <;> cases warning
  cases s₈ <;> cases log
  exact ⟨⟨_, _, _, _, _, _, _, _⟩, rfl⟩

theorem Registered.served (registered : Registered e) :
    ∃ host config, ∃ qs : List Request, e = qs.foldl Engine.serve (.ofConfig host config) := by
  obtain @⟨e, host, config, before, since, registers⟩ := registered
  refine ⟨host, config, before ++ .register Stage.standard :: since, ?_⟩
  rw [List.foldl_append, List.foldl_cons, Engine.serve, registers, Engine.orKeep]

theorem Registered.whole (registered : Registered e) (loaded : e.run = some r) :
    r.plan.Indexed ∧ r.statuses.length = r.plan.graph.actions.length := by
  obtain ⟨host, config, qs, rfl⟩ := registered.served
  exact ⟨Engine.served_indexed host config qs r loaded, Engine.served_sized host config qs r loaded⟩

theorem Registered.shows (registered : Registered e) (isOpen : e.closed = false)
    (loaded : e.run = some r) : ∃ t, e.Shows t r ∧ r.plan.Indexed := by
  obtain ⟨t, stages⟩ := Stage.standard_tables (registered.ready.stages isOpen).2
  exact ⟨t, ⟨isOpen, stages, loaded⟩, (registered.whole loaded).1⟩

theorem Run.Ticks.ends (ticks : Ticks t r ps ws t' r') (left : r.allTerminal = false)
    (ended : r'.allTerminal = true) : r'.lastChange = r'.tick := by
  obtain ⟨s, member, still⟩ := List.all_eq_false.mp left
  obtain ⟨i, there⟩ := List.mem_iff_getElem?.mp member
  obtain ⟨s', after, _⟩ := ticks.fares there
  have final := List.all_eq_true.mp ended s' (List.mem_of_getElem? after)
  have differ : r'.phase i ≠ r.phase i := by
    rw [phase_of after, phase_of there]
    intro same
    rw [same] at final
    exact still final
  rw [ticks.tick]
  apply ticks.dates.2 i
  by_cases arrived : r.arrived.phase i = r.phase i
  · exact .inr (arrived ▸ differ)
  · exact .inl arrived

namespace Engine

def tickFor (e : Engine) : Nat → Except Refusal Engine
  | 0 => .ok e
  | n + 1 =>
    match e.tick with
    | .error refusal => .error refusal
    | .ok e => e.tickFor n

-- The engine becomes another one by that many ticks, and these are the fewest that complete its run
-- or else the whole budget.
structure Halts (e : Engine) (budget n : Nat) (e' : Engine) : Prop where
  within : n ≤ budget
  ticks : e.tickFor n = .ok e'
  before : ∀ k < n, ∃ mid, e.tickFor k = .ok mid ∧ mid.isComplete = false
  stops : e'.isComplete = true ∨ n = budget

theorem Halts.here {e : Engine} (stops : e.isComplete = true ∨ 0 = budget) : e.Halts budget 0 e where
  within := Nat.zero_le budget
  ticks := rfl
  before _ early := (Nat.not_lt_zero _ early).elim
  stops := stops

theorem Halts.tick {e mid e' : Engine} (left : e.isComplete = false) (step : e.tick = .ok mid)
    (rest : mid.Halts budget n e') : e.Halts (budget + 1) (n + 1) e' where
  within := Nat.succ_le_succ rest.within
  ticks := by
    rw [tickFor, step]
    exact rest.ticks
  before k early := by
    cases k with
    | zero => exact ⟨e, rfl, left⟩
    | succ k =>
      rw [tickFor, step]
      exact rest.before k (Nat.lt_of_succ_lt_succ early)
  stops := rest.stops.imp_right (congrArg (· + 1))

theorem tickFor_succ {e mid : Engine} (ticks : e.tickFor n = .ok mid) :
    e.tickFor (n + 1) = mid.tick := by
  induction n generalizing e with
  | zero =>
    cases ticks
    rw [tickFor]
    cases mid.tick <;> rfl
  | succ n ih =>
    rw [tickFor] at ticks ⊢
    cases step : e.tick with
    | error refusal => simp [step] at ticks
    | ok next =>
      simp only [step] at ticks
      exact ih ticks

namespace Shows
variable {e : Engine} (shows : e.Shows t r) (indexed : r.plan.Indexed)
include shows

theorem isComplete : e.isComplete = r.allTerminal := by
  rw [Engine.isComplete, shows.run, Option.any_some]

include indexed

theorem tickFor (n : Nat) : ∃ e' t' r', e.tickFor n = .ok e' ∧ e'.Shows t' r' ∧ r'.plan.Indexed ∧
    r'.tick = r.tick + n := by
  induction n with
  | zero => exact ⟨e, t, r, rfl, shows, indexed, rfl⟩
  | succ n ih =>
    obtain ⟨mid, _, _, ticked, there, indexed, count⟩ := ih
    obtain ⟨e', _, _, t', r', step, shows', ticks⟩ := there.tick indexed
    refine ⟨e', t', r', (tickFor_succ ticked).trans step, shows', ticks.plan ▸ indexed, ?_⟩
    rw [ticks.tick, count, Nat.add_assoc]

theorem runFrom (consumed budget : Nat) : ∃ e' n,
    e.runFrom consumed budget = .ok (e', consumed + n) ∧ e.Halts budget n e' := by
  induction budget generalizing e t r consumed with
  | zero => exact ⟨e, 0, rfl, .here (.inr rfl)⟩
  | succ budget ih =>
    cases complete : e.isComplete with
    | true => exact ⟨e, 0, by simp [Engine.runFrom, complete], .here (.inl complete)⟩
    | false =>
      obtain ⟨mid, _, _, _, _, step, there, ticks⟩ := shows.tick indexed
      obtain ⟨e', n, rest, halts⟩ := ih there (ticks.plan ▸ indexed) (consumed + 1)
      refine ⟨e', n + 1, ?_, halts.tick complete step⟩
      simp only [Engine.runFrom, complete, step, Bool.false_eq_true, if_false, rest]
      rw [Nat.add_assoc, Nat.add_comm 1]

theorem halts_at {e' : Engine} (halts : e.Halts budget n e') : ∃ r', e'.run = some r' ∧
    r'.tick = r.tick + n ∧ (0 < n → e'.isComplete = true → r'.lastChange = r'.tick) := by
  obtain ⟨_, _, r', ticked, there, _, count⟩ := shows.tickFor indexed n
  cases halts.ticks.symm.trans ticked
  refine ⟨r', there.run, count, fun some complete => ?_⟩
  obtain ⟨n, rfl⟩ := Nat.exists_eq_add_of_lt some
  rw [Nat.zero_add] at ticked halts
  obtain ⟨mid, reaches, left⟩ := halts.before n (Nat.lt_succ_self n)
  obtain ⟨_, _, _, again, before, indexed, _⟩ := shows.tickFor indexed n
  cases reaches.symm.trans again
  obtain ⟨_, _, _, _, _, step, after, ticks⟩ := before.tick indexed
  cases ((tickFor_succ reaches).trans step).symm.trans ticked
  cases there.run.symm.trans after.run
  exact ticks.ends (before.isComplete ▸ left) (there.isComplete ▸ complete)

end Shows

-- Just loaded under the standard pipeline. The host may have signalled since, but neither ticked nor
-- cancelled anything.
inductive Fresh (g : Graph) : Engine → Prop where
  | opened (opens : Opens g e) : Fresh g e
  | heeded (prior : Fresh g e) (quiet : s ≠ .tick) (spares : ∀ id, s ≠ .cancel id)
    (obeys : e.obey s = .ok e') : Fresh g e'

theorem Fresh.begins (fresh : Fresh g e) : ∃ r, ∃ i : Nat, e.run = some r ∧ r.tick = 0 ∧
    r.statuses[i]? = some (Status.activate {}) := by
  induction fresh with
  | opened opens =>
    obtain ⟨p, log, planned, _, loaded, _⟩ := opens.parts
    obtain ⟨first, starts, _⟩ := (Plan.ofGraph_indexed planned).start
    refine ⟨_, p.start, loaded, rfl, ?_⟩
    rw [Plan.action?] at starts
    simp only [Run.withLog, Run.ofPlan, List.getElem?_modify_eq, List.getElem?_map, starts]
    rfl
  | @heeded e s e' prior quiet spares obeys ih =>
    obtain ⟨r, i, loaded, none, there⟩ := ih
    have heeds := r.heed_heeds s
    refine ⟨r.heed s, i, ?_, heeds.tick.trans none, ?_⟩
    · rw [(obey_parts quiet obeys).2, loaded, Option.map_some]
    · rcases heeds.statuses i with same | ⟨id, _, cancels, _⟩
      · exact same.trans there
      · exact (spares id cancels).elim

theorem Fresh.incomplete (fresh : Fresh g e) (loaded : e.run = some r) :
    r.tick = 0 ∧ e.isComplete = false := by
  obtain ⟨_, i, begun, none, there⟩ := fresh.begins
  cases loaded.symm.trans begun
  refine ⟨none, Bool.eq_false_iff.mpr fun complete => ?_⟩
  rw [isComplete, loaded, Option.any_some] at complete
  cases List.all_eq_true.mp complete _ (List.mem_of_getElem? there)

-- Running until complete is ticking until complete. If that took any tick, the run changed last in the
-- tick that it stands in; from a fresh load, therefore, in the tick that the host is told.
theorem completes_by_ticking (registered : Registered e) (isOpen : e.closed = false)
    (loaded : e.run = some r) (budget : Nat) : ∃ e' n r',
      e.runUntilComplete budget = .ok (e', n) ∧ e.Halts budget n e' ∧ e'.run = some r' ∧
      (0 < n → e'.isComplete = true → r'.lastChange = r'.tick) ∧
      ∀ g, Fresh g e → e'.isComplete = true → n = r'.lastChange := by
  obtain ⟨t, shows, indexed⟩ := registered.shows isOpen loaded
  obtain ⟨e', n, runs, halts⟩ := shows.runFrom indexed 0 budget
  obtain ⟨r', run, count, dated⟩ := shows.halts_at indexed halts
  refine ⟨e', n, r', ?_, halts, run, dated, fun g fresh complete => ?_⟩
  · rw [runUntilComplete, loaded]
    simpa using runs
  · obtain ⟨none, left⟩ := fresh.incomplete loaded
    have some : 0 < n := by
      apply Nat.pos_of_ne_zero
      intro none
      subst none
      cases halts.ticks
      rw [left] at complete
      cases complete
    rw [dated some complete, count, none, Nat.zero_add]

def hopEngine : Engine :=
  [.load (Graph.linear []), .signal (.raise "ring")].foldl serve
    { ofConfig .all {} with stages := Stage.standard, locked := true }

theorem hopEngine_registered : Registered hopEngine := by
  apply Registered.intro .all {} []
  rw [List.foldl_nil, register, Stage.standard_sorted]
  rfl

theorem hopEngine_fresh : Fresh (Graph.linear []) hopEngine :=
  .heeded (s := .raise "ring") (.opened (.load { ofConfig .all {} with
    stages := Stage.standard
    locked := true } rfl rfl)) (by simp) (by simp) rfl

theorem hopEngine_completes : ∃ e' r', hopEngine.runUntilComplete 5 = .ok (e', 2) ∧
    hopEngine.Halts 5 2 e' ∧ e'.isComplete = true ∧ e'.run = some r' ∧ r'.lastChange = r'.tick ∧
    2 = r'.lastChange := by
  obtain ⟨e', n, r', runs, halts, run, dated, told⟩ :=
    completes_by_ticking hopEngine_registered rfl rfl 5
  have two : (hopEngine.runUntilComplete 5).map (fun p => (p.2, p.1.isComplete)) = .ok (2, true) := rfl
  rw [runs] at two
  obtain ⟨rfl, complete⟩ := Prod.mk.inj (Except.ok.inj two)
  exact ⟨e', r', runs, halts, complete, run, dated Nat.two_pos complete,
    told _ hopEngine_fresh complete⟩

end Engine
end ActionGraph
