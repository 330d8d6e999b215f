import ActionGraph.Proofs.Join
import Mathlib.Data.ENat.Basic
import Mathlib.Data.Nat.Cast.Order.Ring
-- Triggers over whole runs. A trigger fires in just those ticks that find it active and raise its
-- event. The number of its fires says whether it is spent, and no raise outlives its tick.
namespace ActionGraph

namespace Action

def eventName (a : Action) : String := ((a.properties.get? "event").bind Value.text?).getD ""

def hears (a : Action) (raised : List String) : Bool :=
  !a.eventName.isEmpty && raised.contains a.eventName

-- How often a trigger fires at most: once unless it repeats, and else up to its own limit, if that
-- is a positive 32-bit number.
def fireLimit (a : Action) : ℕ∞ :=
  if (a.properties.get? "repeat").bind Value.bool? = some true then
    match (a.properties.get? "max_fires").bind Value.u32? with
    | some (n + 1) => (n + 1 : ℕ)
    | _ => ⊤
  else 1

theorem fireLimit_pos (a : Action) : 0 < a.fireLimit := by
  unfold fireLimit
  split
  · split
    · exact Nat.cast_pos.mpr (Nat.succ_pos _)
    · exact ENat.top_pos
  · exact zero_lt_one

def rings (a : Action) (i : Nat) (r : Run) : Bool :=
  (r.arrived.phase i).isActive && a.hears r.raised

end Action

namespace Trigger

theorem fires?_eq {r : Run} (there : r.plan.action? i = some a) : fires? r i = a.hears r.raised := by
  rw [fires?, Plan.reading, Plan.property?, there]
  rfl

theorem exhausted_iff {p : Plan} (there : p.action? i = some a) (n : Nat) :
    exhausted p i (n + 1) = true ↔ a.fireLimit ≤ (n + 1 : ℕ) := by
  rw [exhausted, Plan.reading, Plan.reading, Plan.property?, Plan.property?, there, Option.bind_some,
    Option.bind_some, Action.fireLimit]
  cases (a.properties.get? "repeat").bind Value.bool? with
  | none => simp
  | some again =>
    cases again with
    | false => simp
    | true =>
      rcases (a.properties.get? "max_fires").bind Value.u32? with _ | _ | limit
      · simp
      · simp
      · simp

end Trigger

def TriggerAt (limit : ℕ∞) (fires arrived : Nat) : Phase → Prop
  | .idle => arrived = 0 ∧ fires = 0
  | .listening => 0 < arrived ∧ fires < limit
  | .completed => 0 < arrived ∧ fires = limit
  | .running => False
  | .cancelled => fires ≤ limit

namespace TriggerAt
variable {fires arrived : Nat} {limit : ℕ∞}

theorem fires_le (at_ : TriggerAt limit fires arrived phase) : fires ≤ limit := by
  cases phase with
  | idle => rw [at_.2]; exact zero_le
  | listening => exact at_.2.le
  | completed => exact at_.2.le
  | running => exact at_.elim
  | cancelled => exact at_

theorem decides (at_ : TriggerAt limit fires arrived phase) (sound : 0 < limit)
    (left : phase ≠ .cancelled) : (phase = .completed ↔ fires = limit) ∧
      (phase = .idle ↔ arrived = 0) ∧ (0 < arrived → fires < limit → phase = .listening) := by
  cases phase with
  | idle =>
    obtain ⟨none, silent⟩ := at_
    subst none silent
    refine ⟨⟨nofun, fun same => ?_⟩, by simp, nofun⟩
    exact (sound.ne same).elim
  | listening =>
    obtain ⟨some, short⟩ := at_
    refine ⟨⟨nofun, fun same => (short.ne same).elim⟩, ⟨nofun, ?_⟩, fun _ _ => rfl⟩
    omega
  | completed =>
    obtain ⟨some, spent⟩ := at_
    refine ⟨⟨fun _ => spent, fun _ => rfl⟩, ⟨nofun, ?_⟩, fun _ short => (short.ne spent).elim⟩
    omega
  | running => exact at_.elim
  | cancelled => exact (left rfl).elim

theorem settles {r : Run} (there : r.plan.action? i = some a) (short : fires < a.fireLimit)
    (some : 0 < arrived) (s : Status) :
    TriggerAt a.fireLimit (fires + if Trigger.fires? r i then 1 else 0) arrived
      ((Trigger.deed fires r i).settle s).phase := by
  have next : (fires + 1 : ℕ) ≤ a.fireLimit := by
    rw [Nat.cast_add_one]
    exact Order.add_one_le_of_lt short
  unfold Trigger.deed
  cases Trigger.fires? r i with
  | false => simpa [Deed.settle, TriggerAt] using ⟨some, short⟩
  | true =>
    simp only [if_true]
    split
    · next spent =>
      have enough := (Trigger.exhausted_iff there fires).mp spent
      simpa only [Deed.settle, Status.enter_phase, TriggerAt] using ⟨some, le_antisymm next enough⟩
    · next again =>
      have more := mt (Trigger.exhausted_iff there fires).mpr again
      simpa only [Deed.settle, Status.enter_phase, TriggerAt] using ⟨some, not_le.mp more⟩

end TriggerAt

namespace Run.Ticks
variable {t t' : Tables} {r r' : Run} {ps ws : List Work} (ticks : Ticks t r ps ws t' r')
include ticks

theorem raised : r'.raised = [] := by
  obtain ⟨_, rfl, _⟩ := ticks.keeps
  rfl

section Trigger
variable (there : r.plan.action? j = some a) (isTrigger : a.kind = Trigger.kind)
include there isTrigger

theorem trigger_acts : j ∈ ws.map Work.action ↔ (r.arrived.phase j).isActive = true := by
  have kind : r.plan.kind? j = some Trigger.kind := isTrigger ▸ Plan.kind_of there
  rw [ticks.acts, ← Trigger.driven_active]
  constructor
  · rintro ⟨k, _, same, driven⟩
    rw [kind, Option.some.injEq] at same
    exact same ▸ driven
  · exact fun driven => ⟨_, by decide, kind, driven⟩

theorem trigger_work (member : w ∈ ws) (acts : w.action = j) :
    w.deed = Trigger.deed (t.fires.get j) r.arrived j ∧
      Trigger.fires? r.arrived j = a.rings j r := by
  subst acts
  have kind : r.plan.kind? w.action = some Trigger.kind := isTrigger ▸ Plan.kind_of there
  have active := (ticks.trigger_acts there isTrigger).mp (List.mem_map_of_mem member)
  refine ⟨ticks.triggers member kind, ?_⟩
  rw [Trigger.fires?_eq (a := a) (r.arrived_plan ▸ there), Action.rings, active, Bool.true_and,
    r.arrived_delivers.raised]
  rfl

theorem silent (idle : j ∉ ws.map Work.action) : a.rings j r = false := by
  rw [Action.rings, Bool.eq_false_iff.mpr (mt (ticks.trigger_acts there isTrigger).mpr idle),
    Bool.false_and]

theorem fire : t'.fires.get j = t.fires.get j + if a.rings j r then 1 else 0 := by
  have kind : r.plan.kind? j = some Trigger.kind := isTrigger ▸ Plan.kind_of there
  rw [ticks.fires kind]
  by_cases acts : j ∈ ws.map Work.action
  · obtain ⟨w, member, rfl⟩ := List.mem_map.mp acts
    obtain ⟨deed, rings⟩ := ticks.trigger_work there isTrigger member rfl
    rw [emissions_single ticks.once.2 member, deed, Trigger.deed_port?, rings]
    cases a.rings w.action r <;> rfl
  · rw [emissions_idle acts, ticks.silent there isTrigger acts]
    rfl

theorem trigger {woken : Nat} (settled : r.Settled) (found : r.statuses[j]? = some s)
    (before : TriggerAt a.fireLimit (t.fires.get j) woken s.phase) :
    TriggerAt a.fireLimit (t'.fires.get j) (woken + (r'.deliveredTo j).length) (r'.phase j) := by
  have kind : r.plan.kind? j = some Trigger.kind := isTrigger ▸ Plan.kind_of there
  have waits : s.phase ≠ .running := by
    intro running
    rw [running] at before
    exact before
  obtain ⟨s', after, fares⟩ := ticks.fares found
  rw [phase_of after, ticks.fire there isTrigger]
  cases fares with
  | propagated due => exact absurd ((settled.met found).2 _ kind due) (by decide)
  | @did w _ member acts _ isKind driven =>
    obtain ⟨deed, rings⟩ := ticks.trigger_work there isTrigger member acts
    rw [deed, ← rings, Status.endTick_phase]
    -- Either it has been listening, or a delivery has just woken it.
    have awake : t.fires.get j < a.fireLimit ∧ 0 < woken + (r'.deliveredTo j).length := by
      rcases r.met_parts j s with same | ⟨left, fresh⟩
      · rw [same] at driven
        have active := driven.isActive
        cases here : s.phase with
        | listening =>
          rw [here] at before
          exact ⟨before.2, Nat.lt_add_right _ before.1⟩
        | running => exact (waits here).elim
        | _ => rw [here] at active; cases active
      · have addressed : j ∈ r.pending.map Pulse.target := by
          refine Classical.byContradiction fun unaddressed => waits ?_
          rw [met_unaddressed unaddressed] at fresh
          rw [fresh]
        refine ⟨?_, Nat.lt_add_left _ (ticks.delivered_some found left addressed)⟩
        cases here : s.phase with
        | idle =>
          rw [here] at before
          rw [before.2]
          exact a.fireLimit_pos
        | listening =>
          rw [here] at before
          exact before.2
        | running => exact (waits here).elim
        | _ => rw [here] at left; cases left
    exact .settles (r.arrived_plan ▸ there) awake.1 awake.2 _
  | left _ idle _ undriven =>
    rw [ticks.silent there isTrigger idle]
    rcases r.met_parts j s with same | ⟨_, fresh⟩
    · rw [ticks.undelivered found waits same, same]
      exact before
    · exact (undriven _ (by decide) kind (.inl (by rw [fresh]))).elim

theorem trigger_sends (indexed : r.plan.Indexed) (settled : r.Settled) :
    ∃ sent waits : List (Nat × Route),
      (sent ++ waits).Perm (if a.rings j r then r.routesOn j "out" else []) ∧
      r'.pending.filter (·.source = j) =
        r.arrived.released.filter (·.source = j) ++ sent.map (fun t => t.2.pulse) ∧
      r'.deferred.filter (fun d => r.plan.sender? d = some j) =
        r.arrived.retained.filter (fun d => r.plan.sender? d = some j) ++
          waits.map (fun t => ⟨t.1, r'.tick⟩) := by
  have unswept : j ∉ ps.map Work.action :=
    ticks.unswept_of_loud settled (isTrigger ▸ Plan.kind_of there) (by decide)
  by_cases acts : j ∈ ws.map Work.action
  · obtain ⟨w, member, rfl⟩ := List.mem_map.mp acts
    obtain ⟨deed, rings⟩ := ticks.trigger_work there isTrigger member rfl
    have whole := List.mem_append_right ps member
    obtain ⟨pending, deferred⟩ := ticks.queues_single indexed member unswept
    refine ⟨w.routes.filter fun t => w.run.open? 0 t.2, w.routes.filter fun t => !w.run.open? 0 t.2,
      ?_, pending, ?_⟩
    · refine (List.filter_append_perm (fun t => w.run.open? 0 t.2) w.routes).trans (.of_eq ?_)
      rw [Work.routes, deed, Trigger.deed_port?, rings]
      cases a.rings w.action r with
      | false => rfl
      | true => simp only [if_true, Run.routesOn, ticks.plan_at whole]
    · rw [deferred, Work.armed, (ticks.keeps_at whole).tick, r.arrived_tick, ticks.tick]
  · have idle : j ∉ (ps ++ ws).map Work.action := by
      rw [List.map_append, List.mem_append, not_or]
      exact ⟨unswept, acts⟩
    obtain ⟨pending, deferred⟩ := ticks.queues_idle indexed idle
    rw [ticks.silent there isTrigger acts, pending, deferred]
    exact ⟨[], [], .refl [], (List.append_nil _).symm, (List.append_nil _).symm⟩

end Trigger
end Run.Ticks

theorem Reached.trigger (reached : Reached g script t r turns) (there : g.actions[j]? = some a)
    (isTrigger : a.kind = Trigger.kind) :
    t.fires.get j = turns.countP (fun turn => a.rings j turn.before) ∧
      TriggerAt a.fireLimit (t.fires.get j) (arrivedIn turns j) (r.phase j) := by
  induction reached using Reached.induct with
  | opened p log planned =>
    refine ⟨Tally.get_empty j, ?_⟩
    rw [Run.opened_idle planned there (by rw [isTrigger]; decide)]
    exact ⟨rfl, Tally.get_empty j⟩
  | heeded _ _ r _ s _ _ ih =>
    refine ⟨ih.1, ?_⟩
    rcases (r.heed_heeds s).statuses j with same | ⟨_, _, _, _, _, _, after⟩
    · rw [Run.phase, same]; exact ih.2
    · rw [Run.phase_of after, Status.enter_phase]
      exact ih.2.fires_le
  | ticked _ t r turns _ _ t' r' prior ticks ih =>
    have action : r.plan.action? j = some a := by rw [Plan.action?, prior.graph, there]
    obtain ⟨s, found⟩ := prior.found there
    have before := ih.2
    rw [Run.phase_of found] at before
    rw [arrivedIn_append]
    refine ⟨?_, ticks.trigger action isTrigger prior.settled found before⟩
    rw [ticks.fire action isTrigger, ih.1, List.countP_append, List.countP_singleton]

theorem Reached.fires_in_words (reached : Reached g script t r turns)
    (there : g.actions[j]? = some a) (isTrigger : a.kind = Trigger.kind)
    (few : turns.length + 1 < UInt32.size) : t.fires.addWord j 1 = t.fires.add j 1 := by
  have fires := (reached.trigger there isTrigger).1
  have ticks := turns.countP_le_length (p := fun turn => a.rings j turn.before)
  exact Tally.addWord_eq_add (by omega)

def relayBell : Action :=
  ⟨"bell", Trigger.kind,
    ((∅ : Keyed Value).insert "event" (.text "ring")).insert "repeat" (.bool true), ∅⟩

namespace Chronicle

-- A trigger has fired once for each tick that rang it, up to its limit, and its fires say which phase
-- it is in unless it was cancelled. A tick that rings it sends or arms each of its routes once; what
-- was raised for a tick is gone after it.
theorem trigger_fires (opens : Opens g e) (script : List Signal) (j : Nat) (a : Action)
    (there : g.actions[j]? = some a) (isTrigger : a.kind = Trigger.kind) : ∃ c r,
    (⟨e, []⟩ : Chronicle).play script = .ok c ∧ c.engine.run = some r ∧
    c.engine.fires j = c.turns.countP (fun turn => a.rings j turn.before) ∧
    c.engine.fires j ≤ a.fireLimit ∧
    (.cancel a.id ∉ script → r.phase j ≠ .cancelled) ∧
    (r.phase j ≠ .cancelled → (r.phase j = .completed ↔ c.engine.fires j = a.fireLimit) ∧
      (r.phase j = .idle ↔ arrivedIn c.turns j = 0) ∧
      (0 < arrivedIn c.turns j → c.engine.fires j < a.fireLimit → r.phase j = .listening)) ∧
    (r.routesOn j "out").map Prod.fst = g.exits a.id "out" ∧
    ∃ e' r', c.engine.tick = .ok e' ∧ e'.run = some r' ∧ r'.raised = [] ∧
      e'.fires j = c.engine.fires j + (if a.rings j r then 1 else 0) ∧
      ∃ sent waits : List (Nat × Route),
        (sent ++ waits).Perm (if a.rings j r then r.routesOn j "out" else []) ∧
        r'.pending.filter (·.source = j) =
          r.arrived.released.filter (·.source = j) ++ sent.map (fun t => t.2.pulse) ∧
        r'.deferred.filter (fun d => r.plan.sender? d = some j) =
          r.arrived.retained.filter (fun d => r.plan.sender? d = some j) ++
            waits.map (fun t => ⟨t.1, r'.tick⟩) := by
  obtain ⟨c, t, r, played, shows, reached⟩ := play_reached opens script
  obtain ⟨fires, at_⟩ := reached.trigger there isTrigger
  have action : r.plan.action? j = some a := by rw [Plan.action?, reached.graph, there]
  obtain ⟨e', ps, ws, t', r', done, shows', ticks⟩ := shows.tick reached.indexed
  refine ⟨c, r, played, shows.run, by rw [shows.fires, fires], by rw [shows.fires]; exact at_.fires_le,
    reached.uncancelled there, ?_, ?_, e', r', done, shows'.run, ticks.raised, ?_, ?_⟩
  · rw [shows.fires]
    exact at_.decides a.fireLimit_pos
  · rw [Run.routesOn_exits reached.indexed action, reached.graph]
  · rw [shows'.fires, shows.fires, ticks.fire action isTrigger]
  · exact ticks.trigger_sends action isTrigger reached.indexed reached.settled

theorem relay_trigger_fires : ∃ c r, (⟨(relayEngine.load relay).1, []⟩ : Chronicle).play
      [.tick, .raise "ring", .tick, .tick, .raise "ring"] = .ok c ∧ c.engine.run = some r ∧
    c.engine.fires 1 = c.turns.countP (fun turn => relayBell.rings 1 turn.before) ∧
    c.engine.fires 1 ≤ relayBell.fireLimit ∧
    (Signal.cancel relayBell.id ∉ [.tick, .raise "ring", Signal.tick, .tick, .raise "ring"] →
      r.phase 1 ≠ .cancelled) ∧
    (r.phase 1 ≠ .cancelled → (r.phase 1 = .completed ↔ c.engine.fires 1 = relayBell.fireLimit) ∧
      (r.phase 1 = .idle ↔ arrivedIn c.turns 1 = 0) ∧
      (0 < arrivedIn c.turns 1 → c.engine.fires 1 < relayBell.fireLimit →
        r.phase 1 = .listening)) ∧
    (r.routesOn 1 "out").map Prod.fst = relay.exits relayBell.id "out" ∧
    ∃ e' r', c.engine.tick = .ok e' ∧ e'.run = some r' ∧ r'.raised = [] ∧
      e'.fires 1 = c.engine.fires 1 + (if relayBell.rings 1 r then 1 else 0) ∧
      ∃ sent waits : List (Nat × Route),
        (sent ++ waits).Perm (if relayBell.rings 1 r then r.routesOn 1 "out" else []) ∧
        r'.pending.filter (·.source = 1) =
          r.arrived.released.filter (·.source = 1) ++ sent.map (fun t => t.2.pulse) ∧
        r'.deferred.filter (fun d => r.plan.sender? d = some 1) =
          r.arrived.retained.filter (fun d => r.plan.sender? d = some 1) ++
            waits.map (fun t => ⟨t.1, r'.tick⟩) :=
  trigger_fires relay_opens _ 1 relayBell rfl rfl

end Chronicle
end ActionGraph
