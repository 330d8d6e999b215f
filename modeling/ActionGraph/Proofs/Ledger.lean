import ActionGraph.Proofs.Branching
import ActionGraph.Proofs.Counters
import Mathlib.Algebra.BigOperators.Group.List.Basic
-- Whole runs as the tables keep count of them. A tick adds to each table what it completes of the
-- kind, and nothing is completed twice, so the tables agree with the phases at any time.
namespace ActionGraph

def Graph.count (g : Graph) (p : Nat → Action → Bool) : Nat :=
  g.actions.zipIdx.countP fun x => p x.2 x.1

namespace Graph
variable {g : Graph} {p q whole : Nat → Action → Bool}

theorem count_congr (same : ∀ i a, g.actions[i]? = some a → p i a = q i a) : g.count p = g.count q := by
  refine List.countP_congr fun x member => ?_
  rw [same x.2 x.1 (List.mem_zipIdx_iff_getElem?.mp member)]

theorem count_split (parts : ∀ i a, g.actions[i]? = some a →
    (p i a || q i a) = whole i a ∧ (p i a && q i a) = false) : g.count p + g.count q = g.count whole :=
  Run.countP_split fun x member => parts x.2 x.1 (List.mem_zipIdx_iff_getElem?.mp member)

theorem count_none (g : Graph) : g.count (fun _ _ => false) = 0 :=
  List.countP_eq_zero.mpr fun _ _ => Bool.false_ne_true

end Graph

theorem Tally.total_eq (t : Tally) (n : Nat) (beyond : ∀ i, n ≤ i → t.get i = 0) :
    t.total = ((List.range n).map t.get).sum := by
  obtain ⟨counts⟩ := t
  induction counts generalizing n with
  | nil => exact (List.sum_eq_zero fun k member => by
      obtain ⟨i, _, rfl⟩ := List.mem_map.mp member
      exact get_empty i).symm
  | cons first rest ih =>
    cases n with
    | zero =>
      have later := ih 0 fun i _ => beyond (i + 1) (Nat.zero_le _)
      have here : first = 0 := beyond 0 (Nat.le_refl _)
      simpa [total, here] using later
    | succ n =>
      have later := ih n fun i outside => beyond (i + 1) (Nat.succ_le_succ outside)
      rw [List.range_succ_eq_map, List.map_cons, List.sum_cons, List.map_map]
      exact congrArg (first + ·) later

theorem Action.accepts_lt (a : Action) (h : Host) : a.accepts h < UInt32.size := by
  unfold accepts reading
  split
  · cases found : (a.properties.get? "count").bind Value.u32? with
    | none => decide
    | some n =>
      obtain ⟨v, _, read⟩ := Option.bind_eq_some_iff.mp found
      obtain ⟨k, _, small⟩ := Option.bind_eq_some_iff.mp read
      split at small
      · next bounds =>
        cases small
        rw [Option.getD_some]
        omega
      · cases small
  · decide

theorem Deed.Suits.finishes {d : Deed} (suits : d.Suits kind) (swift : kind ∈ Filter.kind :: quietKinds) :
    d.finishes = true := by
  have slow : ∀ kind ∈ Filter.kind :: quietKinds,
      kind ≠ Delay.kind ∧ kind ≠ Action.joinKind ∧ kind ≠ Trigger.kind := by decide
  obtain ⟨noDelay, noJoin, noTrigger⟩ := slow kind swift
  cases d with
  | finish | finishOn => rfl
  | rest => exact (noDelay suits).elim
  | listen => exact (suits.elim noJoin noTrigger).elim
  | pulse => exact (noTrigger suits).elim
  | propagate => exact suits.elim

namespace Run

theorem running_count {r : Run} (indexed : r.plan.Indexed) (kind : String) (q : Nat → Bool) :
    (r.running kind).countP q =
      r.plan.graph.count fun i a => a.kind == kind && (decide (r.phase i = .running) && q i) := by
  rw [running, indexed.kinds, Graph.positionsOf, List.countP_filter, List.countP_map,
    List.countP_filter, Graph.count]
  refine List.countP_congr fun x _ => ?_
  simp only [Function.comp, Bool.and_eq_true]
  tauto

theorem due_length {g : Graph} {r : Run} (size : r.statuses.length = g.actions.length) :
    r.due.length = g.count fun i _ => r.statuses[i]?.any Status.isDue := by
  have positions : List.range r.statuses.length = g.actions.zipIdx.map Prod.snd := by
    rw [List.zipIdx_map_snd, size, List.range_eq_range']
  rw [due, positions, ← List.countP_eq_length_filter, List.countP_map]
  rfl

namespace Ticks
variable {t t' : Tables} {r r' : Run} {ps ws : List Work} {i : Nat} {s : Status}
  (ticks : Ticks t r ps ws t' r') (there : r.statuses[i]? = some s)
include ticks there

theorem completes_iff (isKind : r.plan.kind? i = some kind) (other : kind ≠ Trigger.kind) :
    Turn.completes ⟨r, r'⟩ i = true ↔ r.arrived.phase i = .running ∧ r'.phase i = .completed := by
  obtain ⟨s', after, fares⟩ := ticks.fares there
  simp only [Turn.completes, phase_of (arrived_met there), phase_of there, phase_of after,
    Bool.and_eq_true, decide_eq_true_eq]
  refine and_congr_left fun completed => ?_
  rcases r.met_parts i s with same | ⟨left, fresh⟩
  · rw [same] at fares ⊢
    cases fares with
    | propagated due =>
      have ended : s.phase = .completed := completed
      simp [ended]
    | did _ _ _ isKind' driven =>
      rw [isKind, Option.some.injEq] at isKind'
      rcases driven with running | ⟨isTrigger, _⟩
      · simp [running]
      · exact (other (isKind'.trans isTrigger)).elim
    | left =>
      have ended : s.phase = .completed := completed
      simp [ended]
  · rw [fresh]
    refine iff_of_true (fun ended => ?_) rfl
    rw [ended] at left
    cases left

theorem completes_swift (isKind : r.plan.kind? i = some kind)
    (swift : kind ∈ Filter.kind :: quietKinds) :
    Turn.completes ⟨r, r'⟩ i = true ↔ r.arrived.phase i = .running := by
  have known : ∀ kind ∈ Filter.kind :: quietKinds, kind ∈ drivenKinds ∧ kind ≠ Trigger.kind := by
    decide
  rw [ticks.completes_iff there isKind (known kind swift).2, and_iff_left_of_imp]
  intro running
  obtain ⟨s', after, fares⟩ := ticks.fares there
  rw [phase_of (arrived_met there)] at running
  rw [phase_of after]
  cases fares with
  | propagated due => simp [Status.isDue, running] at due
  | did member acts _ _ driven =>
    subst acts
    rw [Status.endTick_phase]
    exact (Deed.settle_completed _ driven.isActive).mpr ((ticks.suits member isKind).finishes swift)
  | left _ _ _ undriven => exact (undriven kind (known kind swift).1 isKind (.inl running)).elim

omit there in
theorem completed_iff : r'.phase i = .completed ↔
    r.phase i = .completed ∨ Turn.completes ⟨r, r'⟩ i = true := by
  have stays : r.phase i = .completed → r'.phase i = .completed := fun ended => by
    rw [ticks.final (by rw [ended]; rfl), ended]
  by_cases ended : r.phase i = .completed <;> simp [Turn.completes, ended, stays]

omit there in
theorem completed_split (i : Nat) (b : Bool) :
    ((b && decide (r.phase i = .completed)) || (b && Turn.completes ⟨r, r'⟩ i)) =
        (b && decide (r'.phase i = .completed)) ∧
      ((b && decide (r.phase i = .completed)) && (b && Turn.completes ⟨r, r'⟩ i)) = false := by
  have whole := ticks.completed_iff (i := i)
  by_cases ended : r.phase i = .completed
  · have idle : Turn.completes ⟨r, r'⟩ i = false := by simp [Turn.completes, ended]
    simp [whole, idle, ended]
  · simp [whole, ended]

theorem spent_iff (settled : r.Settled) (isKind : r.plan.kind? i = some kind)
    (known : kind ∈ quietKinds) : r'.statuses[i]?.any Status.isSpent =
      (s.isSpent || s.isDue) ∧ (s.isSpent && s.isDue) = false := by
  obtain ⟨s', after, fares⟩ := ticks.fares there
  rw [after, Option.any_some, ← r.met_isSpent i s]
  have same : s.isDue = (r.met i s).isDue := by
    rcases r.met_parts i s with same | ⟨left, fresh⟩
    · rw [same]
    · rw [fresh, Status.isDue_of_left left]
      rfl
  rw [same]
  cases fares with
  | propagated due =>
    have fits : (r.met i s).phase = .completed ∧ (r.met i s).propagated = false := by
      simpa [Status.isDue] using due
    simp [Status.isSpent, Status.isDue, Deed.settle, fits]
  | did member acts _ _ driven =>
    subst acts
    have left := ne_completed_of_isActive driven.isActive
    have unsent := settled.unsent there driven.isActive
    rw [(ticks.suits member isKind).finish known]
    simp [Status.isSpent, Status.isDue, Deed.settle, left, unsent]
  | left _ _ waits => simp [waits]

end Ticks
end Run

def Tables.passed (t : Tables) (host : Host) (r : Run) : Tables where
  moved := (t.moved.update r.beginTick).1
  arrivals := (Flow.update t.arrivals (t.moved.update r.beginTick).2).1
  delays := (Delay.update t.delays (t.flowed r)).1
  writes := (Assign.update t.writes (Delay.update t.delays (t.flowed r)).2).1
  outcomes := (Filter.update t.outcomes (t.written r)).1
  fires := (Trigger.update t.fires (Filter.update t.outcomes (t.written r)).2).1
  spawned := (Spawn.update host t.spawned (t.atHost r)).1
  shown := (Warning.update host t.shown (Spawn.update host t.spawned (t.atHost r)).2.1).1

theorem Tables.pass_stages (t : Tables) (host : Host) (r : Run) :
    (Engine.pass host t.stages r.beginTick).1 = (t.passed host r).stages := by
  simp only [Tables.stages, pass_cons, Engine.pass, update_delivery, update_flow, update_delay,
    update_assign, update_filter, update_trigger, update_spawn, update_warning, update_log]
  dsimp only [Tables.passed, Tables.flowed, Tables.written, Tables.atHost]

theorem Tables.stages_inj {t t' : Tables} (same : t.stages = t'.stages) : t = t' := by
  cases t
  cases t'
  simpa [stages] using same

theorem Engine.Shows.passed {e e' : Engine} {t t' : Tables} {r r' : Run} (shows : e.Shows t r)
    (step : e.tick = .ok e') (shows' : e'.Shows t' r') : t' = t.passed e.host r := by
  simp only [Engine.tick, shows.isOpen, shows.run, Bool.false_eq_true, if_false, Except.ok.injEq] at step
  subst step
  exact Tables.stages_inj (by rw [← shows'.stages, ← t.pass_stages, ← shows.stages])

-- What a turn adds to the tables under a host.
structure Tables.Gains (g : Graph) (host : Host) (turn : Turn) (t t' : Tables) : Prop where
  delivered : t'.moved.delivered = t.moved.delivered + turn.after.delivered.length
  propagated : t'.moved.propagated = t.moved.propagated + turn.before.due.length
  delays : t'.delays = t.delays + g.count fun i a => a.kind == Delay.kind && turn.completes i
  writes : t'.writes =
    t.writes + g.count fun i a => a.kind == Assign.kind && a.writes && turn.completes i
  outcomes : ∀ i, (t'.outcomes.lookup i).isSome = true ↔
    (t.outcomes.lookup i).isSome = true ∨ g.kind? i = some Filter.kind ∧ turn.completes i = true
  spawned : ∀ i a, g.actions[i]? = some a → a.kind = Spawn.kind → turn.completes i = true →
    t'.spawned.get i = (t.spawned.get i + a.accepts host) % UInt32.size
  others : ∀ i, ¬(g.kind? i = some Spawn.kind ∧ turn.completes i = true) →
    t'.spawned.get i = t.spawned.get i
  shown : t'.shown =
    t.shown + g.count fun i a => a.kind == Warning.kind && host.warning && turn.completes i

namespace Reached
variable {g : Graph} {t t' : Tables} {r r' : Run} {ps ws : List Work}
  (reached : Reached g script t r turns) (ticks : r.Ticks t ps ws t' r')
include reached

theorem running_count (kind : String) (spares : r.arrived.Spares [kind] mid) (q : Nat → Bool) :
    (mid.running kind).countP q =
      g.count fun i a => a.kind == kind && (decide (r.arrived.phase i = .running) && q i) := by
  have indexed : r.arrived.plan.Indexed := r.arrived_plan ▸ reached.indexed
  rw [spares.running indexed List.mem_cons_self, Run.running_count indexed, r.arrived_plan,
    reached.graph]

include ticks

theorem running_completes (spares : r.arrived.Spares [kind] mid)
    (swift : kind ∈ Filter.kind :: quietKinds) (q : Nat → Bool) : (mid.running kind).countP q =
      g.count fun i a => a.kind == kind && (q i && Turn.completes ⟨r, r'⟩ i) := by
  rw [reached.running_count kind spares]
  refine Graph.count_congr fun i a there => ?_
  cases isKind : a.kind == kind with
  | false => rfl
  | true =>
    obtain ⟨s, found⟩ := reached.found there
    have same : r.plan.kind? i = some kind := by
      rw [reached.kind_of there, beq_iff_eq.mp isKind]
    rw [Bool.eq_iff_iff, Bool.and_comm (q i)]
    simp only [Bool.true_and, Bool.and_eq_true, decide_eq_true_eq,
      ticks.completes_swift found same swift]

theorem mem_running (spares : r.arrived.Spares [kind] mid) (swift : kind ∈ Filter.kind :: quietKinds) :
    i ∈ mid.running kind ↔ g.kind? i = some kind ∧ Turn.completes ⟨r, r'⟩ i = true := by
  have indexed : r.arrived.plan.Indexed := r.arrived_plan ▸ reached.indexed
  rw [spares.running indexed List.mem_cons_self, Run.running, List.mem_filter, Plan.mem_ofKind indexed,
    r.arrived_plan, decide_eq_true_eq, Plan.kind?, reached.graph]
  refine and_congr_right fun isKind => ?_
  obtain ⟨a, there, _⟩ := Option.map_eq_some_iff.mp isKind
  obtain ⟨s, found⟩ := reached.found there
  rw [ticks.completes_swift found (by rw [Plan.kind?, reached.graph, isKind]) swift]

theorem passed_delays (decides : r.Decides t ws r') : (t.passed host r).delays =
    t.delays + g.count fun i a => a.kind == Delay.kind && Turn.completes ⟨r, r'⟩ i := by
  have indexed := t.flowed_indexed reached.indexed
  have flowed : r.arrived.Spares [Delay.kind] (t.flowed r) :=
    t.flowed_spares reached.indexed (by decide)
  obtain ⟨_, delay, _⟩ := Delay.update_round t.delays indexed
  obtain ⟨_, assign⟩ := Assign.update_round t.writes (delay.works.indexed indexed)
  have later : (Delay.update t.delays (t.flowed r)).2.Spares [Delay.kind] r' :=
    (assign.spares (by decide)).trans (decides.spares (by decide))
  rw [Tables.passed, Delay.update_count t.delays indexed, reached.running_count _ flowed]
  refine congrArg (t.delays + ·) (Graph.count_congr fun i a there => ?_)
  cases isDelay : a.kind == Delay.kind with
  | false => rfl
  | true =>
    obtain ⟨s, found⟩ := reached.found there
    have isKind : r.plan.kind? i = some Delay.kind := by
      rw [reached.kind_of there, beq_iff_eq.mp isDelay]
    have planned : (Delay.update t.delays (t.flowed r)).2.plan.kind? i = some Delay.kind := by
      rw [delay.works.keeps.plan, flowed.plan, r.arrived_plan, isKind]
    have still := later.phase Delay.kind List.mem_cons_self i planned
    rw [Bool.true_and, Bool.true_and, Bool.eq_iff_iff, ticks.completes_iff found isKind (by decide),
      ← still]
    simp

theorem passed_writes : (t.passed host r).writes =
    t.writes + g.count fun i a => a.kind == Assign.kind && a.writes && Turn.completes ⟨r, r'⟩ i := by
  have indexed := t.flowed_indexed reached.indexed
  obtain ⟨_, delay, _⟩ := Delay.update_round t.delays indexed
  have spares : r.arrived.Spares [Assign.kind] (Delay.update t.delays (t.flowed r)).2 :=
    (t.flowed_spares reached.indexed (by decide)).trans (delay.spares (by decide))
  rw [Tables.passed, Assign.update_count t.writes (delay.works.indexed indexed),
    reached.running_completes ticks spares (by decide), spares.plan, r.arrived_plan]
  refine congrArg (t.writes + ·) (Graph.count_congr fun i a there => ?_)
  rw [Plan.action?, reached.graph, there, Option.any_some, Bool.and_assoc]

theorem passed_shown : (t.passed host r).shown =
    t.shown + g.count fun i a => a.kind == Warning.kind && host.warning && Turn.completes ⟨r, r'⟩ i := by
  have atHost := t.atHost_spares reached.indexed
  obtain ⟨_, spawn⟩ := Spawn.update_round host t.spawned (t.atHost_indexed reached.indexed)
  have spares : r.arrived.Spares [Warning.kind] (Spawn.update host t.spawned (t.atHost r)).2.1 :=
    (atHost.only (by decide)).trans (spawn.spares (by decide))
  rw [Tables.passed, Warning.update_count, reached.running_completes ticks spares (by decide)]
  simp only [Bool.and_assoc]

theorem passed_outcomes (i : Nat) : ((t.passed host r).outcomes.lookup i).isSome = true ↔
    (t.outcomes.lookup i).isSome = true ∨
      g.kind? i = some Filter.kind ∧ Turn.completes ⟨r, r'⟩ i = true := by
  have spares : r.arrived.Spares [Filter.kind] (t.written r) :=
    t.written_spares reached.indexed (by decide)
  have indexed : (t.written r).plan.Indexed := by
    rw [t.written_plan reached.indexed]
    exact reached.indexed
  rw [← reached.mem_running ticks spares (by decide), Tables.passed]
  obtain ⟨ws, round, recorded, idle⟩ := Filter.update_round t.outcomes indexed
  rw [← round.acts_running indexed (by decide)]
  by_cases acts : i ∈ ws.map Work.action
  · obtain ⟨w, member, rfl⟩ := List.mem_map.mp acts
    simp [(recorded w member).2, acts]
  · simp [idle i acts, acts]

theorem passed_spawned : (∀ i a, g.actions[i]? = some a → a.kind = Spawn.kind →
      Turn.completes ⟨r, r'⟩ i = true →
      (t.passed host r).spawned.get i = (t.spawned.get i + a.accepts host) % UInt32.size) ∧
    ∀ i, ¬(g.kind? i = some Spawn.kind ∧ Turn.completes ⟨r, r'⟩ i = true) →
      (t.passed host r).spawned.get i = t.spawned.get i := by
  have spares : r.arrived.Spares [Spawn.kind] (t.atHost r) :=
    (t.atHost_spares reached.indexed).only (by decide)
  have tally := Spawn.update_tally host t.spawned (t.atHost_indexed reached.indexed)
  have runs := fun i => reached.mem_running ticks (i := i) spares (by decide)
  rw [Tables.passed]
  refine ⟨fun i a there isSpawn completes => ?_, fun i idle => ?_⟩
  · have isKind : g.kind? i = some Spawn.kind := by rw [Graph.kind?, there, Option.map_some, isSpawn]
    have action : (t.atHost r).plan.action? i = some a := by
      rw [Plan.action?, spares.plan, r.arrived_plan, reached.graph, there]
    rw [tally.1 i ((runs i).mpr ⟨isKind, completes⟩) a action]
  · rw [tally.2 i (mt (runs i).mp idle)]

theorem gains (host : Host) (decides : r.Decides t ws r') (passed : t' = t.passed host r) :
    Tables.Gains g host ⟨r, r'⟩ t t' := by
  subst passed
  refine ⟨?_, Delivery.update_propagated t.moved r, reached.passed_delays ticks decides,
    reached.passed_writes ticks, reached.passed_outcomes ticks, (reached.passed_spawned ticks).1,
    (reached.passed_spawned ticks).2, reached.passed_shown ticks⟩
  rw [ticks.delivered, ← r.arrived_delivered]
  exact Delivery.update_delivered t.moved r

end Reached

namespace Engine

def delivered (e : Engine) : Nat :=
  (e.stages.findSome? fun | .delivery t => some t.delivered | _ => none).getD 0

def delays (e : Engine) : Nat := (e.stages.findSome? fun | .delay n => some n | _ => none).getD 0

def writes (e : Engine) : Nat := (e.stages.findSome? fun | .assign n => some n | _ => none).getD 0

def spawned (e : Engine) (i : Nat) : Nat :=
  (e.stages.findSome? fun | .spawn t => some (t.get i) | _ => none).getD 0

def totalSpawned (e : Engine) : Nat :=
  (e.stages.findSome? fun | .spawn t => some t.total | _ => none).getD 0

def shown (e : Engine) : Nat := (e.stages.findSome? fun | .warning n => some n | _ => none).getD 0

namespace Shows
variable {e : Engine} (shows : e.Shows t r)
include shows

theorem delivered : e.delivered = t.moved.delivered := by
  rw [Engine.delivered, shows.stages]; rfl

theorem delays : e.delays = t.delays := by
  rw [Engine.delays, shows.stages]; rfl

theorem writes : e.writes = t.writes := by
  rw [Engine.writes, shows.stages]; rfl

theorem spawned (i : Nat) : e.spawned i = t.spawned.get i := by
  rw [Engine.spawned, shows.stages]; rfl

theorem totalSpawned : e.totalSpawned = t.spawned.total := by
  rw [Engine.totalSpawned, shows.stages]; rfl

theorem shown : e.shown = t.shown := by
  rw [Engine.shown, shows.stages]; rfl

theorem unique (again : e.Shows t' r') : t = t' ∧ r = r' :=
  ⟨Tables.stages_inj (shows.stages.symm.trans again.stages),
    Option.some.inj (shows.run.symm.trans again.run)⟩

end Shows

-- The tables of the engine agree with its run and with the scenes that led there: each of them tells
-- how many actions of its kind are completed, or which. What a host took is told by the scene that
-- completed the action, since the host may have been another one before and after.
structure Agrees (g : Graph) (e : Engine) (scenes : List Scene) (r : Run) : Prop where
  delivered : e.delivered = (scenes.map fun scene => scene.after.delivered.length).sum
  propagated : e.propagated = g.count fun i a =>
    decide (a.kind ∈ quietKinds) && r.statuses[i]?.any Status.isSpent
  delays : e.delays = g.count fun i a => a.kind == Delay.kind && decide (r.phase i = .completed)
  writes : e.writes = g.count fun i a =>
    a.kind == Assign.kind && a.writes && decide (r.phase i = .completed)
  outcomes : ∀ i, (e.outcome? i).isSome = true ↔ g.kind? i = some Filter.kind ∧ r.phase i = .completed
  spawned : ∀ i a, g.actions[i]? = some a → a.kind = Spawn.kind →
    ∀ scene ∈ scenes, scene.completes i = true → e.spawned i = a.accepts scene.host
  others : ∀ i, ¬(g.kind? i = some Spawn.kind ∧ r.phase i = .completed) → e.spawned i = 0
  shown : e.shown = g.count fun i a =>
    a.kind == Warning.kind && scenes.any fun scene => scene.host.warning && scene.completes i

namespace Agrees
variable {g : Graph} {e e' : Engine} {t t' : Tables} {r r' : Run} {scenes : List Scene}

theorem opened (shows : e.Shows {} r) (statuses : ∀ (i : Nat) s, r.statuses[i]? = some s →
    s.propagated = false ∧ s.phase.isTerminal = false) : e.Agrees g [] r := by
  have left : ∀ i, r.phase i ≠ .completed := by
    intro i ended
    obtain ⟨s, there, same⟩ := Run.status_of_phase (r := r) (i := i) (by rw [ended]; decide)
    have left := (statuses i s there).2
    rw [same, ended] at left
    cases left
  have unspent : ∀ i : Nat, r.statuses[i]?.any Status.isSpent = false := by
    intro i
    cases there : r.statuses[i]? with
    | none => rfl
    | some s => simp [Status.isSpent, (statuses i s there).1]
  refine ⟨shows.delivered, ?_, ?_, ?_, ?_, by simp, fun i _ => shows.spawned i, ?_⟩
  · rw [shows.propagated]
    simp [unspent, g.count_none]
  · rw [shows.delays]
    simp [left, g.count_none]
  · rw [shows.writes]
    simp [left, g.count_none]
  · intro i
    rw [shows.outcome?]
    simp [left]
  · rw [shows.shown]
    simp [g.count_none]

theorem heed (agrees : e.Agrees g scenes r) (shows : e.Shows t r) (shows' : e'.Shows t (r.heed s)) :
    e'.Agrees g scenes (r.heed s) := by
  have heeds := r.heed_heeds s
  refine ⟨?_, ?_, ?_, ?_, ?_, ?_, ?_, ?_⟩
  · rw [shows'.delivered, ← shows.delivered, agrees.delivered]
  · rw [shows'.propagated, ← shows.propagated, agrees.propagated]
    simp only [heeds.spent]
  · rw [shows'.delays, ← shows.delays, agrees.delays]
    simp only [heeds.completed]
  · rw [shows'.writes, ← shows.writes, agrees.writes]
    simp only [heeds.completed]
  · intro i
    rw [shows'.outcome?, ← shows.outcome?, agrees.outcomes, heeds.completed]
  · intro i
    rw [shows'.spawned, ← shows.spawned]
    exact agrees.spawned i
  · intro i
    rw [shows'.spawned, ← shows.spawned, heeds.completed]
    exact agrees.others i
  · rw [shows'.shown, ← shows.shown, agrees.shown]

section Tick
variable {script : List Signal} {ps ws : List Work} {handed : List Effect}
  (agrees : e.Agrees g scenes r) (shows : e.Shows t r) (shows' : e'.Shows t' r')
  (reached : Reached g script t r (scenes.map Scene.toTurn))
  (gains : Tables.Gains g e.host ⟨r, r'⟩ t t')
include agrees shows shows' reached gains

theorem tick_spawned (there : g.actions[i]? = some a) (isSpawn : a.kind = Spawn.kind)
    (member : scene ∈ scenes ++ [⟨⟨r, r'⟩, e.host, handed⟩]) (completes : scene.completes i = true) :
    e'.spawned i = a.accepts scene.host := by
  rw [shows'.spawned]
  rcases List.mem_append.mp member with early | last
  · have ended : r.phase i = .completed :=
      (reached.completed_iff i).mpr ⟨_, List.mem_map_of_mem early, completes⟩
    have idle : Turn.completes ⟨r, r'⟩ i = false := by simp [Turn.completes, ended]
    rw [gains.others i (by simp [idle]), ← shows.spawned]
    exact agrees.spawned i a there isSpawn scene early completes
  · rw [List.mem_singleton.mp last] at completes ⊢
    have left : r.phase i ≠ .completed := (by simpa [Turn.completes] using completes : _ ∧ _).1
    have none := agrees.others i fun both => left both.2
    rw [gains.spawned i a there isSpawn completes, ← shows.spawned, none, Nat.zero_add,
      Nat.mod_eq_of_lt (a.accepts_lt _)]

theorem tick_shown : e'.shown = g.count fun i a => a.kind == Warning.kind &&
    (scenes ++ [(⟨⟨r, r'⟩, e.host, handed⟩ : Scene)]).any fun scene =>
      scene.host.warning && scene.completes i := by
  rw [shows'.shown, gains.shown, ← shows.shown, agrees.shown]
  refine Graph.count_split fun i a _ => ⟨?_, ?_⟩
  · rw [List.any_append, List.any_cons, List.any_nil, Bool.or_false, Bool.and_assoc,
      ← Bool.and_or_distrib_left]
  · refine Bool.eq_false_iff.mpr fun both => ?_
    simp only [Bool.and_eq_true, List.any_eq_true] at both
    obtain ⟨⟨_, scene, early, _, completed⟩, _, completes⟩ := both
    have ended : r.phase i = .completed :=
      (reached.completed_iff i).mpr ⟨_, List.mem_map_of_mem early, completed⟩
    simp [Turn.completes, ended] at completes

variable (ticks : r.Ticks t ps ws t' r')
include ticks

theorem tick_propagated : e'.propagated = g.count fun i a =>
    decide (a.kind ∈ quietKinds) && r'.statuses[i]?.any Status.isSpent := by
  rw [shows'.propagated, gains.propagated, ← shows.propagated, agrees.propagated,
    Run.due_length reached.size]
  refine Graph.count_split fun i a there => ?_
  obtain ⟨s, found⟩ := reached.found there
  rw [found, Option.any_some, Option.any_some]
  by_cases known : a.kind ∈ quietKinds
  · obtain ⟨spent, apart⟩ := ticks.spent_iff found reached.settled (reached.kind_of there) known
    simp [known, spent, apart]
  · have waits : s.isDue = false := Bool.eq_false_iff.mpr fun due =>
      known (reached.settled.due i s a.kind found (reached.kind_of there) due)
    simp [known, waits]

theorem tick : e'.Agrees g (scenes ++ [⟨⟨r, r'⟩, e.host, handed⟩]) r' where
  delivered := by
    rw [shows'.delivered, gains.delivered, ← shows.delivered, agrees.delivered, List.map_append,
      List.sum_append]
    rfl
  propagated := agrees.tick_propagated shows shows' reached gains ticks
  delays := by
    rw [shows'.delays, gains.delays, ← shows.delays, agrees.delays]
    exact Graph.count_split fun i _ _ => ticks.completed_split i _
  writes := by
    rw [shows'.writes, gains.writes, ← shows.writes, agrees.writes]
    exact Graph.count_split fun i _ _ => ticks.completed_split i _
  outcomes := by
    intro i
    rw [shows'.outcome?, gains.outcomes, ← shows.outcome?, agrees.outcomes, ticks.completed_iff,
      and_or_left]
  spawned := fun _ _ there isSpawn _ member =>
    agrees.tick_spawned shows shows' reached gains there isSpawn member
  others := by
    intro i idle
    rw [ticks.completed_iff, and_or_left, not_or] at idle
    rw [shows'.spawned, gains.others i idle.2, ← shows.spawned, agrees.others i idle.1]
  shown := agrees.tick_shown shows shows' reached gains

end Tick
end Agrees
end Engine

namespace Chronicle

theorem play_agrees (opens : Opens g e) (played : (⟨e, []⟩ : Chronicle).play script = .ok c) :
    ∀ r, c.engine.run = some r → c.engine.Agrees g ((⟨e, []⟩ : Chronicle).scenes script) r := by
  refine play_induct (motive := fun script c => ∀ r, c.engine.run = some r →
    c.engine.Agrees g ((⟨e, []⟩ : Chronicle).scenes script) r) opens ?_ ?_ ?_ played
  · intro r loaded
    obtain ⟨p, log, _, isOpen, run, stages⟩ := opens.parts
    cases loaded.symm.trans run
    exact .opened ⟨isOpen, stages, run⟩ fun _ _ there => Run.ofPlan_status there
  · intro script c t r s e' plays shows quiet step shows' before _ loaded
    cases loaded.symm.trans shows'.run
    rw [scenes_heeded plays quiet step]
    exact (before r shows.run).heed shows shows'
  · intro script c t r ps ws t' r' e' plays shows reached step shows' ticks before _ loaded
    cases loaded.symm.trans shows'.run
    -- The deeds that the filters stand among are those of the same tick.
    obtain ⟨_, _, _, _, _, again, shown, ticks', decides⟩ := shows.tick_decides reached.indexed
    cases step.symm.trans again
    obtain ⟨rfl, rfl⟩ := shows'.unique shown
    rw [scenes_ticked plays shows step shows']
    have gains := reached.gains ticks' c.engine.host decides (shows.passed step shows')
    rw [← (play_scenes opens plays).1] at reached
    exact (before r shows.run).tick shows shows' reached gains ticks

-- After any script, so after every tick of it: the tables of the stages agree with the run.
theorem tables_agree (opens : Opens g e) (script : List Signal) : ∃ c r scenes,
    (⟨e, []⟩ : Chronicle).play script = .ok c ∧ c.engine.run = some r ∧
    (⟨e, []⟩ : Chronicle).scenes script = scenes ∧ scenes.map Scene.toTurn = c.turns ∧
    (∀ i, r.phase i = .completed ↔ ∃ scene ∈ scenes, scene.completes i = true) ∧
    c.engine.Agrees g scenes r ∧
    c.engine.totalSpawned = ((List.range g.actions.length).map c.engine.spawned).sum := by
  obtain ⟨c, t, r, played, shows, reached⟩ := play_reached opens script
  obtain ⟨turns, _⟩ := play_scenes opens played
  have agrees := play_agrees opens played r shows.run
  refine ⟨c, r, _, played, shows.run, rfl, turns, fun i => ?_, agrees, ?_⟩
  · rw [reached.completed_iff, ← turns]
    simp only [List.mem_map, exists_exists_and_eq_and]
  · rw [shows.totalSpawned, t.spawned.total_eq g.actions.length fun i outside => ?_]
    · exact congrArg List.sum (List.map_congr_left fun i _ => (shows.spawned i).symm)
    · have absent : g.kind? i = none := by
        rw [Graph.kind?, List.getElem?_eq_none outside, Option.map_none]
      rw [← shows.spawned]
      exact agrees.others i (by simp [absent])

theorem dispatch_tables_agree : ∃ c r scenes,
    (⟨(dispatchEngine.load dispatch).1, []⟩ : Chronicle).play
      [.tick, .host {}, .tick, .host .all, .tick, .tick] = .ok c ∧ c.engine.run = some r ∧
    (⟨(dispatchEngine.load dispatch).1, []⟩ : Chronicle).scenes
      [.tick, .host {}, .tick, .host .all, .tick, .tick] = scenes ∧
    scenes.map Scene.toTurn = c.turns ∧
    (∀ i, r.phase i = .completed ↔ ∃ scene ∈ scenes, scene.completes i = true) ∧
    c.engine.Agrees dispatch scenes r ∧
    c.engine.totalSpawned = ((List.range dispatch.actions.length).map c.engine.spawned).sum :=
  tables_agree dispatch_opens _

example : ((⟨(dispatchEngine.load dispatch).1, []⟩ : Chronicle).play [.tick, .tick, .tick, .tick]).map
      (fun c => (c.engine.delivered, c.engine.propagated, c.engine.totalSpawned, c.engine.shown)) =
    .ok (4, 2, 2, 1) := by
  decide +kernel

end Chronicle
end ActionGraph
