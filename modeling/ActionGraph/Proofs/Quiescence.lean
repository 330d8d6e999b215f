import ActionGraph.Proofs.Emission
import ActionGraph.Proofs.Stillness
import Mathlib.Data.List.MinMax
import Mathlib.Data.List.Perm.Subperm
-- Runs come to rest. Without triggers and without guards that hold back, every edge sends at most
-- once, and between two ticks that send no more ticks pass than the longest delay takes. So the
-- number of ticks until nothing moves any more is bounded by the graph alone.
namespace ActionGraph

-- The ticks that a delay takes: its own number if that is a non-negative integer, and one otherwise
-- or if it is zero.
def Action.patience (a : Action) : Nat :=
  max 1 (match a.properties.get? "ticks" with
    | some (.int n) => if 0 ≤ n.toInt then n.toInt.toNat else 1
    | _ => 1)

namespace Graph

def longestDelay (g : Graph) : Nat :=
  ((g.actions.filter (·.kind = Delay.kind)).map Action.patience).foldr max 1

def restTime (g : Graph) : Nat := (g.edges.length + 1) * (g.longestDelay + 1)

theorem longestDelay_pos (g : Graph) : 1 ≤ g.longestDelay := by
  unfold longestDelay
  induction (g.actions.filter (·.kind = Delay.kind)).map Action.patience with
  | nil => exact Nat.le_refl 1
  | cons n rest ih => exact Nat.le_trans ih (Nat.le_max_right ..)

theorem patience_le {g : Graph} {a : Action} (member : a ∈ g.actions) (isDelay : a.kind = Delay.kind) :
    a.patience ≤ g.longestDelay := by
  refine List.le_max_of_le' 1 (List.mem_map_of_mem (List.mem_filter.mpr ⟨member, ?_⟩)) (Nat.le_refl _)
  simpa using isDelay

end Graph

theorem Action.patience_eq (a : Action) : a.patience =
    max 1 (((a.properties.get? "ticks").bind Value.u64?).getD Delay.defaultTicks) := by
  rw [patience]
  cases a.properties.get? "ticks" with
  | none => rfl
  | some v =>
    cases v with
    | int n =>
      have bounded := Int64.toInt_lt n
      have fits : 0 ≤ n.toInt ∧ n.toInt < UInt64.size ↔ 0 ≤ n.toInt := by
        simp only [UInt64.size]
        omega
      simp only [Option.bind_some, Value.u64?, Value.below?, Value.int?, fits]
      split <;> rfl
    | float | bool | text | member => rfl

theorem Action.patience_lt (a : Action) : a.patience < UInt64.size := by
  rw [patience_eq]
  cases read : (a.properties.get? "ticks").bind Value.u64? with
  | none => decide
  | some n =>
    obtain ⟨v, _, reads⟩ := Option.bind_eq_some_iff.mp read
    obtain ⟨m, _, inside⟩ := Option.bind_eq_some_iff.mp reads
    split at inside
    · next fits =>
      cases inside
      have bound : m.toInt.toNat < UInt64.size := by omega
      exact Nat.max_lt.mpr ⟨by decide, bound⟩
    · cases inside

theorem Delay.reading_le {p : Plan} (there : p.action? i = some a) :
    p.reading Value.u64? i "ticks" defaultTicks ≤ a.patience := by
  rw [Plan.reading, Plan.property?, there, Option.bind_some, a.patience_eq]
  exact Nat.le_max_right ..

namespace Run

def Young (r : Run) : Prop := ∀ (i : Nat) s, r.statuses[i]? = some s → s.age ≤ r.tick

theorem met_age (r : Run) (i : Nat) (s : Status) : (r.met i s).age ≤ s.age := by
  rcases r.met_parts i s with same | ⟨_, fresh⟩
  · rw [same]
  · rw [fresh]; exact Nat.zero_le _

end Run

theorem Status.enter_age (s : Status) (phase : Phase) : (s.enter phase).age ≤ s.age := by
  unfold enter
  split
  · exact Nat.le_refl _
  · exact Nat.zero_le _

theorem Status.endTick_age (s : Status) : s.endTick.age ≤ s.age + 1 := by
  unfold endTick
  dsimp only
  split
  · exact Nat.le_refl _
  · exact Nat.le_succ _

theorem Deed.settle_age_le (d : Deed) (s : Status) : (d.settle s).age ≤ s.age := by
  cases d with
  | rest | propagate => exact Nat.le_refl _
  | listen | pulse | finish | finishOn => exact Status.enter_age { s with fresh := false } _

theorem Run.Fares.age (fares : Run.Fares p ps ws i a s') : s'.age ≤ a.age + 1 := by
  cases fares with
  | propagated => exact Status.endTick_age _
  | @did w =>
    have settled := w.deed.settle_age_le a
    have ended := (w.deed.settle a).endTick_age
    omega
  | left => exact a.endTick_age

theorem Reached.young (reached : Reached g script t r turns) : r.Young := by
  induction reached using Reached.induct with
  | opened p log =>
    intro i s there
    simp only [Run.withLog, Run.ofPlan, List.getElem?_modify, List.getElem?_map] at there
    obtain ⟨s', found, rfl⟩ := Option.map_eq_some_iff.mp there
    obtain ⟨_, _, rfl⟩ := Option.map_eq_some_iff.mp found
    split <;> exact Nat.le_refl 0
  | heeded _ _ r _ s _ _ ih =>
    intro i st there
    have heeds := r.heed_heeds s
    rw [heeds.tick]
    rcases heeds.statuses i with same | ⟨_, old, _, _, before, _, after⟩
    · exact ih i st (same ▸ there)
    · cases there.symm.trans after
      exact Nat.le_trans (old.enter_age _) (ih i old before)
  | ticked _ _ r _ _ _ _ _ _ ticks ih =>
    intro i s' there
    obtain ⟨s, found, fares⟩ := ticks.origin there
    have before := ih i s found
    have met := r.met_age i s
    have after := fares.age
    rw [ticks.tick]
    omega

namespace Plan

def Prompt (p : Plan) : Prop := ∀ route ∈ p.routes, route.guard = none ∨ route.guard = some .immediate

theorem Indexed.prompt {p : Plan} (indexed : p.Indexed)
    (prompt : ∀ e ∈ p.graph.edges, e.guard = none ∨ e.guard = some .immediate) : p.Prompt := by
  intro route member
  rw [indexed.routes] at member
  obtain ⟨e, there, rfl⟩ := List.mem_map.mp member
  exact prompt e there

end Plan

theorem Run.open_prompt {r : Run} {route : Route}
    (prompt : route.guard = none ∨ route.guard = some .immediate) (elapsed : Nat) :
    r.open? elapsed route = true := by
  unfold Run.open?
  rcases prompt with none | immediate
  · rw [none]
  · rw [immediate]
    simp [Guard.holds]

theorem Work.armed_prompt {w : Work} (indexed : w.run.plan.Indexed) (prompt : w.run.plan.Prompt) :
    w.armed = [] := by
  rw [armed, List.map_eq_nil_iff, List.filter_eq_nil_iff]
  rintro ⟨t, route⟩ member
  have there := ((mem_routes indexed).mp member).1
  simp [Run.open_prompt (prompt route (List.mem_of_getElem? there))]

theorem Deed.Suits.known {d : Deed} (suits : d.Suits kind) : kind ∈ drivenKinds := by
  have quiet : ∀ kind ∈ quietKinds, kind ∈ drivenKinds := by decide
  have out : ∀ kind ∈ outKinds, kind ∈ drivenKinds := by decide
  cases d with
  | rest | pulse => cases suits; decide
  | listen => rcases suits with rfl | rfl <;> decide
  | finish => exact quiet kind suits
  | finishOn port =>
    rcases suits with ⟨rfl, _⟩ | ⟨sends, _⟩
    · decide
    · exact out kind sends
  | propagate => exact suits.elim

-- The graphs whose runs come to rest. The bound keeps delays within the range of their timers.
structure Plan.Brisk (p : Plan) : Prop where
  indexed : p.Indexed
  prompt : p.Prompt
  untriggered : ∀ i, p.kind? i ≠ some Trigger.kind
  short : p.graph.longestDelay < UInt64.size

theorem Plan.patience_le {p : Plan} (there : p.action? i = some a) (isDelay : a.kind = Delay.kind) :
    a.patience ≤ p.graph.longestDelay := Graph.patience_le (List.mem_of_getElem? there) isDelay

theorem Deed.Suits.rests {d : Deed} (suits : d.Suits kind) (noTrigger : kind ≠ Trigger.kind)
    (driven : Driven kind (d.settle s).phase) : d = .rest := by
  have active := driven.isActive
  cases d with
  | rest => rfl
  | listen | pulse =>
    rcases driven with running | ⟨isTrigger, _⟩
    · simp [settle] at running
    · exact (noTrigger isTrigger).elim
  | finish | finishOn => simp [settle, Phase.isActive] at active
  | propagate => exact suits.elim

theorem Deed.rest_age {s : Status} (small : s.age + 1 < UInt64.size) :
    (Deed.rest.settle s).endTick.age = s.age + 1 := by
  simp only [settle, Status.endTick, Status.maxAge]
  exact if_pos (by omega)

theorem Delay.rests {r : Run} (there : r.statuses[i]? = some s) (isAction : r.plan.action? i = some a)
    (small : s.age + 1 < UInt64.size) (rests : deed r i = .rest) :
    s.age + 1 < a.patience ∧ (Deed.rest.settle s).endTick.age = s.age + 1 := by
  have counts : waited r i = s.age + 1 := by
    rw [waited, there]
    exact Nat.mod_eq_of_lt small
  refine ⟨?_, Deed.rest_age small⟩
  have reads := reading_le isAction
  unfold deed at rests
  split at rests
  · cases rests
  · omega

namespace Run

-- The run a number of ticks after the last one that sent something. Whatever that tick had woken is
-- done by then, but for what is to be propagated one tick later and for delays with time left.
structure Waits (quiet : Nat) (r : Run) : Prop where
  deferred : r.deferred = []
  pending : quiet = 0 ∨ r.pending = []
  due : ∀ (i : Nat) s, r.statuses[i]? = some s → s.isDue = true → quiet ≤ 1
  driven : ∀ (i : Nat) s a, r.statuses[i]? = some s → r.plan.action? i = some a →
    a.kind ∈ drivenKinds → Driven a.kind s.phase →
    quiet = 0 ∨ a.kind = Delay.kind ∧ quiet ≤ s.age ∧ s.age < a.patience

namespace Waits

theorem now {r : Run} (deferred : r.deferred = []) : r.Waits 0 :=
  ⟨deferred, .inl rfl, fun _ _ _ _ => Nat.zero_le 1, fun _ _ _ _ _ _ _ => .inl rfl⟩

theorem met (waits : Waits quiet r) (there : r.statuses[i]? = some s) :
    ((r.met i s).isDue = true → quiet ≤ 1) ∧ ∀ a, r.plan.action? i = some a →
      a.kind ∈ drivenKinds → Driven a.kind (r.met i s).phase →
      quiet = 0 ∨ a.kind = Delay.kind ∧ quiet ≤ (r.met i s).age ∧ (r.met i s).age < a.patience := by
  rcases waits.pending with rfl | empty
  · exact ⟨fun _ => Nat.zero_le 1, fun _ _ _ _ => .inl rfl⟩
  · have same : r.met i s = s := by simp [Run.met, empty]
    rw [same]
    exact ⟨waits.due i s there, fun a => waits.driven i s a there⟩

section Tick
variable {t t' : Tables} {r r' : Run} {ps ws : List Work} (waits : Waits quiet r)
  (ticks : r.Ticks t ps ws t' r')
include waits ticks

theorem sends (sent : r'.pending ≠ []) : quiet ≤ r.plan.graph.longestDelay := by
  have pos := r.plan.graph.longestDelay_pos
  have acts : ∃ w, w ∈ ps ++ ws := by
    refine List.exists_mem_of_ne_nil _ ?_
    intro none
    apply sent
    rw [ticks.pending, none, released, r.arrived_deferred, waits.deferred]
    rfl
  obtain ⟨w, member⟩ := acts
  have acts : w.action ∈ (ps ++ ws).map Work.action := List.mem_map_of_mem member
  have found := List.getElem?_eq_getElem (ticks.acts_inside acts)
  obtain ⟨due, driven⟩ := waits.met found
  obtain ⟨s', _, fares⟩ := ticks.fares found
  rw [List.map_append, List.mem_append] at acts
  cases fares with
  | propagated isDue => exact Nat.le_trans (due isDue) pos
  | did member same _ isKind drives =>
    have suits := ticks.suits member (same ▸ isKind)
    obtain ⟨a, isAction, rfl⟩ := Option.map_eq_some_iff.mp isKind
    rcases driven a isAction suits.known drives with rfl | ⟨isDelay, since, left⟩
    · exact Nat.zero_le _
    · have bound := Plan.patience_le isAction isDelay
      omega
  | left unswept idle => exact (acts.elim unswept idle).elim

theorem deferred_tick (brisk : r.plan.Brisk) : r'.deferred = [] := by
  rw [ticks.deferred, retained, r.arrived_deferred, waits.deferred, List.filter_nil, List.nil_append,
    List.flatMap_eq_nil_iff]
  intro w member
  have plan := ticks.plan_at member
  exact Work.armed_prompt (plan ▸ brisk.indexed) (plan ▸ brisk.prompt)

theorem tick (brisk : r.plan.Brisk) (settled : r.Settled) (young : r.Young)
    (early : quiet = 0 → r.tick + 1 < UInt64.size) (silent : r'.pending = []) :
    r'.Waits (quiet + 1) := by
  refine ⟨waits.deferred_tick ticks brisk, .inr silent, ?_, ?_⟩
  · intro i s' there due
    obtain ⟨s, found, fares⟩ := ticks.origin there
    obtain ⟨_, driven⟩ := waits.met found
    cases fares with
    | propagated => simp [Deed.settle, Status.isDue] at due
    | @did w kind member acts unswept isKind drives =>
      subst acts
      have suits := ticks.suits member isKind
      have finishes := (suits.settles drives.isActive (settled.unsent found drives.isActive)).1.mp due
      obtain ⟨a, isAction, rfl⟩ := Option.map_eq_some_iff.mp isKind
      rcases driven a isAction suits.known drives with rfl | ⟨isDelay, _⟩
      · exact Nat.le_refl 1
      · rw [finishes, isDelay] at suits
        exact absurd suits (by unfold Deed.Suits; decide)
    | left _ _ waits => rw [Status.endTick_isDue, waits] at due; cases due
  · intro i s' a there isAction known drives
    rw [ticks.plan] at isAction
    right
    obtain ⟨s, found, fares⟩ := ticks.origin there
    have isKind := Plan.kind_of isAction
    have noTrigger : a.kind ≠ Trigger.kind := fun same => brisk.untriggered i (same ▸ isKind)
    cases fares with
    | propagated due =>
      have completed : (r.met i s).phase = .completed := by
        simpa using (Bool.and_eq_true_iff.mp due).1
      exact (ne_completed_of_isActive drives.isActive completed).elim
    | @did w kind member acts unswept same before =>
      subst acts
      have suits := ticks.suits member isKind
      have rests := suits.rests noTrigger drives
      have isDelay : a.kind = Delay.kind := by rw [rests] at suits; exact suits
      have younger := Nat.le_trans (r.met_age w.action s) (young _ s found)
      have bound := Plan.patience_le isAction isDelay
      have short := brisk.short
      obtain rfl : kind = a.kind := Option.some.inj (same.symm.trans isKind)
      have since := (waits.met found).2 a isAction known before
      have small : (r.met w.action s).age + 1 < UInt64.size := by
        rcases since with zero | ⟨_, _, left⟩
        · have start := early zero
          omega
        · omega
      obtain ⟨left, ages⟩ := Delay.rests (arrived_met found) (r.arrived_plan ▸ isAction) small
        ((ticks.delays member unswept (isDelay ▸ isKind)).symm.trans rests)
      rw [rests, ages]
      exact ⟨isDelay, by omega, left⟩
    | left _ _ _ undriven => exact (undriven _ known isKind drives).elim

end Tick

theorem still (waits : Waits quiet r) (late : r.plan.graph.longestDelay < quiet) : r.Still := by
  have pos := r.plan.graph.longestDelay_pos
  refine ⟨waits.pending.resolve_left (by omega), waits.deferred, ?_, ?_⟩
  · intro i s there
    refine Bool.eq_false_iff.mpr ?_
    intro due
    have soon := waits.due i s there due
    omega
  · intro i kind known isKind driven
    obtain ⟨a, isAction, rfl⟩ := Option.map_eq_some_iff.mp isKind
    obtain ⟨s, there, same⟩ := status_of_phase (r := r) (i := i) fun idle => by
      have active := driven.isActive
      rw [idle] at active
      cases active
    rcases waits.driven i s a there isAction known (same ▸ driven) with zero | ⟨isDelay, since, left⟩
    · omega
    · have bound := Plan.patience_le isAction isDelay
      omega

end Waits
end Run

def sentAll (turns : List Turn) : List Pulse := turns.flatMap fun turn => turn.after.pending

theorem sentAll_append (turns : List Turn) (turn : Turn) :
    sentAll (turns ++ [turn]) = sentAll turns ++ turn.after.pending := by simp [sentAll]

namespace Reached

theorem no_trigger (reached : Reached g script t r turns)
    (untriggered : ∀ a ∈ g.actions, a.kind ≠ Trigger.kind) (i : Nat) :
    r.plan.kind? i ≠ some Trigger.kind := by
  intro isTrigger
  obtain ⟨a, there, isKind⟩ := Option.map_eq_some_iff.mp isTrigger
  rw [reached.graph] at there
  exact untriggered a (List.mem_of_getElem? there) isKind

theorem brisk (reached : Reached g script t r turns)
    (untriggered : ∀ a ∈ g.actions, a.kind ≠ Trigger.kind)
    (prompt : ∀ e ∈ g.edges, e.guard = none ∨ e.guard = some .immediate)
    (short : g.longestDelay < UInt64.size) : r.plan.Brisk where
  indexed := reached.indexed
  prompt := reached.indexed.prompt (reached.graph ▸ prompt)
  untriggered := reached.no_trigger untriggered
  short := reached.graph ▸ short

theorem sent_le (reached : Reached g script t r turns)
    (untriggered : ∀ i, r.plan.kind? i ≠ some Trigger.kind) : (sentAll turns).length ≤ g.edges.length := by
  have once : (sentAll turns).Subperm (r.plan.routes.map Route.pulse) := by
    refine List.subperm_iff_count.mpr ?_
    intro q
    have account := reached.account q
    have emitted : t.emitted r q.source q.sourcePort ≤ 1 := by
      rw [Tables.emitted, if_neg (untriggered q.source)]
      split <;> omega
    have edges : (r.plan.routes.map Route.pulse).count q = g.multiplicity q := by
      rw [← reached.graph, Plan.multiplicity_eq reached.indexed, List.count_eq_countP, List.countP_map]
      exact List.countP_congr fun route _ => by simp
    have most := Nat.mul_le_mul_right (g.multiplicity q) emitted
    rw [edges, show (sentAll turns).count q = sentIn turns q from rfl]
    omega
  have size := once.length_le
  rw [List.length_map, reached.indexed.routes, List.length_map, reached.graph] at size
  exact size

theorem ticks_only (reached : Reached g script t r turns) (only : ∀ s ∈ script, s = Signal.tick) :
    r.tick = script.length := by
  induction reached using Reached.induct with
  | opened => rfl
  | heeded _ _ _ _ s _ quiet => exact (quiet (only s (by simp))).elim
  | ticked _ _ _ _ _ _ _ _ _ ticks ih =>
    rw [ticks.tick, ih fun s member => only s (List.mem_append_left _ member), List.length_append]
    rfl

-- Each sending accounts for as many ticks as may pass until the next one.
theorem waits (reached : Reached g script t r turns) (only : ∀ s ∈ script, s = Signal.tick)
    (untriggered : ∀ a ∈ g.actions, a.kind ≠ Trigger.kind)
    (prompt : ∀ e ∈ g.edges, e.guard = none ∨ e.guard = some .immediate)
    (small : g.restTime < UInt64.size) :
    ∃ quiet, r.Waits quiet ∧ r.tick ≤ (sentAll turns).length * (g.longestDelay + 1) + quiet := by
  have short : g.longestDelay < UInt64.size := by
    unfold Graph.restTime at small
    have part : g.longestDelay + 1 ≤ (g.edges.length + 1) * (g.longestDelay + 1) :=
      Nat.le_mul_of_pos_left _ (Nat.succ_pos _)
    omega
  induction reached using Reached.induct with
  | opened => exact ⟨0, .now rfl, Nat.zero_le _⟩
  | heeded _ _ _ _ s _ quiet => exact (quiet (only s (by simp))).elim
  | ticked _ _ r turns _ _ _ r' prior ticks ih =>
    obtain ⟨quiet, waits, since⟩ := ih fun s member => only s (List.mem_append_left _ member)
    have brisk := prior.brisk untriggered prompt short
    have sent := Nat.mul_le_mul_right (g.longestDelay + 1) (prior.sent_le brisk.untriggered)
    rw [ticks.tick, sentAll_append, List.length_append, Nat.add_mul]
    dsimp only
    by_cases silent : r'.pending = []
    · refine ⟨quiet + 1, waits.tick ticks brisk prior.settled prior.young ?_ silent, by omega⟩
      intro zero
      rw [Graph.restTime, Nat.add_mul] at small
      omega
    · have soon := waits.sends ticks silent
      have some := Nat.mul_le_mul_right (g.longestDelay + 1) (List.length_pos_of_ne_nil silent)
      rw [prior.graph] at soon
      exact ⟨0, .now (waits.deferred_tick ticks brisk), by omega⟩

theorem still (reached : Reached g script t r turns) (only : ∀ s ∈ script, s = Signal.tick)
    (untriggered : ∀ a ∈ g.actions, a.kind ≠ Trigger.kind)
    (prompt : ∀ e ∈ g.edges, e.guard = none ∨ e.guard = some .immediate)
    (small : g.restTime < UInt64.size) (late : g.restTime ≤ script.length) : r.Still := by
  obtain ⟨quiet, waits, since⟩ := reached.waits only untriggered prompt small
  refine waits.still ?_
  have sent := Nat.mul_le_mul_right (g.longestDelay + 1)
    (reached.sent_le (reached.no_trigger untriggered))
  rw [reached.ticks_only only] at since
  rw [Graph.restTime, Nat.add_mul] at late
  rw [reached.graph]
  omega

end Reached

namespace Chronicle

-- After so many ticks the queues are empty, and a further one changes no phase, sends nothing,
-- reports nothing and leaves the blackboard, the stages and the host alone.
theorem comes_to_rest (opens : Opens g e) (untriggered : ∀ a ∈ g.actions, a.kind ≠ Trigger.kind)
    (prompt : ∀ edge ∈ g.edges, edge.guard = none ∨ edge.guard = some .immediate)
    (small : g.restTime < UInt64.size) (n : Nat) (late : g.restTime ≤ n) : ∃ c r e' r',
    (⟨e, []⟩ : Chronicle).play (List.replicate n .tick) = .ok c ∧ c.engine.run = some r ∧
    r.pending = [] ∧ r.deferred = [] ∧ c.engine.tick = .ok e' ∧ e'.run = some r' ∧
    r'.statuses.map (fun s => (s.phase, s.propagated)) =
      r.statuses.map (fun s => (s.phase, s.propagated)) ∧
    r'.pending = r.pending ∧ r'.deferred = r.deferred ∧ r'.board = r.board ∧ r'.log = r.log ∧
    e'.effects = c.engine.effects ∧ e'.stages = c.engine.stages := by
  obtain ⟨c, t, r, played, shows, reached⟩ := play_reached opens (List.replicate n .tick)
  have still := reached.still (fun s member => List.eq_of_mem_replicate member) untriggered prompt
    small (by rwa [List.length_replicate])
  obtain ⟨e', ticks, shows', effects⟩ := shows.tick_still reached.indexed still
  refine ⟨c, r, e', r.rested, played, shows.run, still.pending, still.deferred, ticks, shows'.run,
    ?_, rfl, rfl, rfl, rfl, effects, by rw [shows'.stages, shows.stages]⟩
  rw [Run.rested, Run.endTick, List.map_map]
  rfl

-- A cycle through a delay, with two edges alike and an action that nobody drives.
def circuit : Graph where
  actions := [⟨"start", Action.startKind, ∅, ∅⟩,
    ⟨"wait", Delay.kind, (∅ : Keyed Value).insert "ticks" (.int 3), ∅⟩, ⟨"note", Assign.kind, ∅, ∅⟩, ⟨"lost", "unknown", ∅, ∅⟩]
  edges := [⟨"start", "wait", "out", "in", none⟩, ⟨"start", "wait", "out", "in", some .immediate⟩,
    ⟨"wait", "note", "out", "in", none⟩, ⟨"note", "wait", "out", "in", none⟩,
    ⟨"note", "lost", "out", "in", none⟩]

theorem circuit_comes_to_rest : ∃ c r e' r',
    (⟨(relayEngine.load circuit).1, []⟩ : Chronicle).play (List.replicate 24 .tick) = .ok c ∧
    c.engine.run = some r ∧ r.pending = [] ∧ r.deferred = [] ∧ c.engine.tick = .ok e' ∧
    e'.run = some r' ∧ r'.statuses.map (fun s => (s.phase, s.propagated)) =
      r.statuses.map (fun s => (s.phase, s.propagated)) ∧
    r'.pending = r.pending ∧ r'.deferred = r.deferred ∧ r'.board = r.board ∧ r'.log = r.log ∧
    e'.effects = c.engine.effects ∧ e'.stages = c.engine.stages :=
  comes_to_rest (.load relayEngine rfl rfl) (by decide) (by simp [circuit]) (by decide) 24 (by decide)

end Chronicle
end ActionGraph
