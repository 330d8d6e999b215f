import ActionGraph.Proofs.Order
import ActionGraph.Proofs.Quiescence
import ActionGraph.Graph.Patterns
import Mathlib.Algebra.Order.Group.Multiset
-- When things complete. In a graph of structural kinds and delays whose edges are all open, an action
-- completes in a tick that can be told from the ticks in which the sources of its edges did.
namespace ActionGraph

def timedKinds : List String :=
  [Action.startKind, Action.fanoutKind, Action.joinKind, Action.endKind, Delay.kind]

structure Graph.Clockwork (g : Graph) : Prop where
  formed : g.Wellformed
  kinds : ∀ a ∈ g.actions, a.kind ∈ timedKinds
  edges : ∀ e ∈ g.edges, e.sourcePort = "out" ∧ e.guard = none

theorem Graph.delayAction_patience (id : String) (ticks : Int64) :
    (delayAction id ticks).patience = max 1 ticks.toInt.toNat := by
  simp only [delayAction, Action.patience, Keyed.get?_insert, if_pos]
  split <;> omega

namespace Graph

noncomputable def course (g : Graph) : Nat → Census
  | 0 => .opened g
  | n + 1 => (g.course n).next g

def Done (g : Graph) (id : String) (n : Nat) : Prop := (g.course n).phase? id = some .completed

noncomputable instance (g : Graph) (id : String) (n : Nat) : Decidable (g.Done id n) :=
  inferInstanceAs (Decidable ((g.course n).phase? id = some .completed))

noncomputable def inflow (g : Graph) (id : String) (n : Nat) : Nat :=
  g.edges.countP fun e => e.target = id ∧ g.Done e.source n

def DoneAt (g : Graph) (id : String) (tick : Nat) : Prop := ∀ n, g.Done id n ↔ tick ≤ n

theorem Clockwork.blind {g : Graph} (clock : g.Clockwork) : ∀ e ∈ g.edges, e.isBlind = true := by
  intro e member
  simp [Edge.isBlind, (clock.edges e member).2]

theorem Clockwork.loud {g : Graph} (clock : g.Clockwork) : ∀ a ∈ g.actions, a.kind ∈ outKinds := by
  have known : ∀ kind ∈ timedKinds, kind ∈ outKinds := by decide
  exact fun a member => known _ (clock.kinds a member)

end Graph

theorem driven_timed (timed : kind ∈ timedKinds) : Driven kind phase ↔ phase = .running := by
  have other : ∀ kind ∈ timedKinds, kind ≠ Trigger.kind := by decide
  simp [Driven, other kind timed]

theorem Status.address_completed {s : Status} : s.address.phase = .completed ↔ s.phase = .completed := by
  cases final : s.phase.isTerminal with
  | true => rw [address_of_terminal final]
  | false =>
    rw [address_of_left final]
    refine iff_of_false (by decide) fun completed => ?_
    rw [completed] at final
    cases final

namespace Census

theorem deed_timed (g : Graph) (c : Census) (s : Status) (timed : a.kind ∈ timedKinds) :
    c.deed g a s = .finishOn "out" ∨ c.deed g a s = .listen ∨ c.deed g a s = .rest := by
  have other : ∀ kind ∈ timedKinds, kind ≠ Trigger.kind := by decide
  have notTrigger := other _ timed
  unfold deed
  split_ifs with _ _ _ isDelay <;> simp_all

section Step
variable {g : Graph} {c : Census} {id : String} {a : Action} {s : Status}
  (named : g.named? id = some a) (timed : a.kind ∈ timedKinds) (met : c.met id = some s)
include named timed met

theorem deed?_running (runs : s.phase = .running) : c.deed? g id = some (c.deed g a s) := by
  simp only [deed?, named, met, Option.bind_some, if_pos ((driven_timed timed).mpr runs)]

theorem deed?_resting (rests : s.phase ≠ .running) : c.deed? g id = none := by
  simp only [deed?, named, met, Option.bind_some, if_neg (mt (driven_timed timed).mp rests)]

theorem next_running (runs : s.phase = .running) :
    (c.next g).status id = some ((c.deed g a s).settle s).endTick := by
  simp only [next, after, met, deed?_running named timed met runs, Option.map_some, Option.getD_some]

theorem next_resting (rests : s.phase ≠ .running) : (c.next g).status id = some s.endTick := by
  simp only [next, after, met, deed?_resting named timed met rests, Option.map_some, Option.map_none,
    Option.getD_none]

end Step

theorem phase?_of {c : Census} {id : String} (there : c.status id = some s) :
    c.phase? id = some s.phase := by
  rw [phase?, there, Option.map_some]

theorem arrivals_next (g : Graph) (c : Census) (id : String) : (c.next g).arrivals id =
    c.arrivals id + if (g.named? id).map (·.kind) = some Action.joinKind ∧ (c.deed? g id).isSome then
      c.inbox id else 0 := rfl

theorem emits_iff {g : Graph} (clock : g.Clockwork) (c : Census) (id : String) :
    (c.deed? g id).bind Deed.port? = some "out" ↔
      c.phase? id ≠ some .completed ∧ (c.next g).phase? id = some .completed := by
  cases there : c.status id with
  | none => simp [deed?, met, phase?, next, after, there]
  | some s =>
    have met : c.met id = some (if 0 < c.inbox id then s.address else s) := by rw [met, there]; rfl
    have same : (if 0 < c.inbox id then s.address else s).phase = .completed ↔ s.phase = .completed := by
      split
      · exact Status.address_completed
      · rfl
    generalize (if 0 < c.inbox id then s.address else s) = m at met same
    rw [phase?_of there]
    cases named : g.named? id with
    | none => simp [deed?, named, phase?, next, after, met, same]
    | some a =>
      have timed := clock.kinds a (List.mem_of_find?_eq_some named)
      by_cases runs : m.phase = .running
      · have left : s.phase ≠ .completed := fun completed => by
          rw [same.mpr completed] at runs
          cases runs
        rw [phase?_of (next_running named timed met runs), deed?_running named timed met runs]
        rcases c.deed_timed g m timed with deed | deed | deed <;>
          simp [deed, Deed.port?, Deed.settle, runs, left]
      · rw [phase?_of (next_resting named timed met runs), deed?_resting named timed met runs]
        simp [same]

theorem done_next {g : Graph} (clock : g.Clockwork) {c : Census} {id : String}
    (done : c.phase? id = some .completed) : (c.next g).phase? id = some .completed := by
  obtain ⟨s, there, completed⟩ := Option.map_eq_some_iff.mp done
  have final : s.address = s := Status.address_of_terminal (by rw [completed]; rfl)
  have met : c.met id = some s := by simp [met, there, final]
  have idle : c.deed? g id = none := by
    cases named : g.named? id with
    | none => simp [deed?, named]
    | some a =>
      apply deed?_resting named (clock.kinds a (List.mem_of_find?_eq_some named)) met
      rw [completed]
      decide
  simp [phase?, next, after, met, idle, completed]

-- What is under way after a tick comes from what that tick completed.
theorem pending_next {g : Graph} (clock : g.Clockwork) {c : Census} (calm : c.deferred = 0) :
    (c.next g).pending = ↑((g.edges.filter fun e => c.phase? e.source ≠ some .completed ∧
      (c.next g).phase? e.source = some .completed).map Edge.parcel) := by
  have sends : (c.next g).pending = c.deferred.filterMap c.lets? +
      ((c.emitted g).filter fun e => c.opens 0 e).map Edge.parcel := rfl
  rw [sends, calm, Multiset.filterMap_zero, zero_add, emitted, Multiset.filter_filter,
    Multiset.filter_coe, Multiset.map_coe]
  refine congrArg (fun es : List Edge => (↑(es.map Edge.parcel) : Multiset Parcel)) ?_
  refine List.filter_congr fun e member => decide_eq_decide.mpr ?_
  obtain ⟨port, guard⟩ := clock.edges e member
  rw [port, emits_iff clock]
  simp [opens, guard]

theorem inbox_next {g : Graph} (clock : g.Clockwork) {c : Census} (calm : c.deferred = 0) (id : String) :
    (c.next g).inbox id = g.edges.countP fun e => e.target = id ∧
      c.phase? e.source ≠ some .completed ∧ (c.next g).phase? e.source = some .completed := by
  rw [inbox, pending_next clock calm, Multiset.coe_countP, List.countP_map, List.countP_filter]
  refine List.countP_congr fun e _ => ?_
  simp [Edge.parcel]

end Census

namespace Graph.Clockwork
variable {g : Graph} (clock : g.Clockwork)
include clock

theorem calm (n : Nat) : (g.course n).deferred = 0 := by
  induction n with
  | zero => rfl
  | succ n ih =>
    rw [course, Census.next]
    dsimp only
    rw [ih, Multiset.filter_zero, zero_add, Multiset.map_eq_zero, Multiset.filter_eq_nil]
    intro e member
    have inside : e ∈ g.edges := Multiset.mem_coe.mp (Multiset.mem_filter.mp member).1
    simp [Census.opens, (clock.edges e inside).2]

theorem done_mono {id : String} (done : g.Done id n) (later : n ≤ m) : g.Done id m := by
  induction later with
  | refl => exact done
  | step _ ih => exact Census.done_next clock ih

theorem inflow_next (id : String) (n : Nat) :
    g.inflow id (n + 1) = g.inflow id n + (g.course (n + 1)).inbox id := by
  have inbox := Census.inbox_next clock (clock.calm n) id
  rw [show g.course (n + 1) = (g.course n).next g from rfl, inbox, inflow, inflow]
  refine (Run.countP_split fun e _ => ?_).symm
  have stays : g.Done e.source n → g.Done e.source (n + 1) := (clock.done_mono · n.le_succ)
  simp only [Done, course] at stays ⊢
  by_cases target : e.target = id <;> by_cases before : (g.course n).phase? e.source = some .completed
  · simp [target, before, stays before]
  all_goals simp [target, before]

end Graph.Clockwork

namespace Graph

-- How many pulses reach an id in the first so many ticks, unless it is completed before.
noncomputable def arrived (g : Graph) (id : String) : Nat → Nat
  | 0 => 0
  | n + 1 => g.inflow id n

theorem not_done_zero (g : Graph) (id : String) : ¬g.Done id 0 := by
  simp only [Done, course, Census.phase?, Census.opened]
  cases g.named? id with
  | none => simp
  | some a => cases isStart : a.isStart <;> simp [Status.activate, isStart]

theorem arrived_le (g : Graph) (id : String) (n : Nat) : g.arrived id n ≤ g.indegree id := by
  cases n with
  | zero => exact Nat.zero_le _
  | succ n =>
    refine List.countP_mono_left fun e _ both => ?_
    simp only [decide_eq_true_eq] at both ⊢
    exact both.1

theorem inflow_zero (g : Graph) (id : String) : g.inflow id 0 = 0 := by
  rw [inflow, List.countP_eq_zero]
  intro e _
  simp [g.not_done_zero]

end Graph

namespace Census
variable {c : Census} {id : String} {s : Status} (there : c.status id = some s)
include there

theorem met_addressed (left : s.phase.isTerminal = false) (reached : 0 < c.inbox id) :
    c.met id = some { phase := .running, fresh := true } := by
  rw [met, there, Option.map_some, if_pos reached, Status.address_of_left left]

theorem met_unaddressed (none : c.inbox id = 0) : c.met id = some s := by
  simp [met, there, none]

end Census

namespace Graph.Clockwork
variable {g : Graph} (clock : g.Clockwork)
include clock

theorem arrived_next (id : String) (n : Nat) :
    g.arrived id (n + 1) = g.arrived id n + (g.course n).inbox id := by
  cases n with
  | zero => exact g.inflow_zero id
  | succ n => exact clock.inflow_next id n

section Action
variable {a : Action} (member : a ∈ g.actions)
include member

theorem named : g.named? a.id = some a := (clock.formed.named?_iff).mpr ⟨member, rfl⟩

theorem opened (other : a.kind ≠ Action.startKind) : (g.course 0).status a.id = some {} := by
  simp [course, Census.opened, clock.named member, Action.isStart, other]

theorem started (isStart : a.kind = Action.startKind) : g.DoneAt a.id 1 := by
  have first : (g.course 0).met a.id = some (Status.activate {}) := by
    refine Census.met_unaddressed ?_ rfl
    simp [course, Census.opened, clock.named member, Action.isStart, isStart]
  have once : g.Done a.id 1 := by
    have deed : (g.course 0).deed g a (Status.activate {}) = .finishOn "out" := by
      rw [Census.deed, if_pos (by rw [isStart]; decide)]
    have after := Census.next_running (clock.named member) (clock.kinds a member) first rfl
    rw [Done, course, Census.phase?_of after, deed]
    simp [Deed.settle]
  intro n
  constructor
  · intro done
    apply Nat.pos_of_ne_zero
    rintro rfl
    exact g.not_done_zero a.id done
  · exact clock.done_mono once

theorem passes (isPass : a.kind = Action.fanoutKind ∨ a.kind = Action.endKind) (n : Nat) :
    (g.course n).phase? a.id = some (if 0 < g.arrived a.id n then .completed else .idle) := by
  have simple : a.kind ≠ Action.startKind ∧
      a.kind ∉ [Action.joinKind, Delay.kind, Trigger.kind] := by
    rcases isPass with isKind | isKind <;> rw [isKind] <;> decide
  have named := clock.named member
  have timed := clock.kinds a member
  induction n with
  | zero => rw [Census.phase?_of (clock.opened member simple.1)]; rfl
  | succ n ih =>
    rw [clock.arrived_next]
    by_cases before : 0 < g.arrived a.id n
    · rw [if_pos before] at ih
      rw [if_pos (by omega)]
      exact Census.done_next clock ih
    · rw [if_neg before] at ih
      obtain ⟨s, there, idle⟩ := Option.map_eq_some_iff.mp ih
      by_cases reached : 0 < (g.course n).inbox a.id
      · have met := Census.met_addressed there (by rw [idle]; rfl) reached
        have deed : (g.course n).deed g a { phase := .running, fresh := true } = .finishOn "out" :=
          if_pos simple.2
        rw [course, Census.phase?_of (Census.next_running named timed met rfl), deed,
          if_pos (by omega)]
        simp [Deed.settle]
      · have met := Census.met_unaddressed there (by omega)
        rw [course, Census.phase?_of (Census.next_resting named timed met (by rw [idle]; decide)),
          if_neg (by omega), Status.endTick_phase, idle]

theorem join_step (isJoin : a.kind = Action.joinKind) {c : Census} (met : c.met a.id = some s)
    (runs : s.phase = .running) (reached : 0 < c.arrivals a.id + c.inbox a.id) : ∃ s',
    (c.next g).status a.id = some s' ∧
      JoinAt (g.joinCount a) (c.arrivals a.id + c.inbox a.id) s'.phase ∧ s'.phase ≠ .cancelled ∧
      (c.next g).arrivals a.id = c.arrivals a.id + c.inbox a.id := by
  have named := clock.named member
  have timed := clock.kinds a member
  have counted := c.arrivals_next g a.id
  have deed : c.deed g a s =
      if g.joinCount a ≤ c.arrivals a.id + c.inbox a.id then .finishOn "out" else .listen := by
    rw [Census.deed, if_neg (by simp [isJoin]), if_pos isJoin]
  rw [Census.deed?_running named timed met runs, named, if_pos ⟨by simp [isJoin], rfl⟩] at counted
  refine ⟨_, Census.next_running named timed met runs, ?_, ?_, counted⟩
  · rw [deed]
    exact JoinAt.driven reached _ _
  · rw [deed]
    split <;> simp [Deed.settle]

theorem joins (isJoin : a.kind = Action.joinKind) (n : Nat) : ∃ s,
    (g.course n).status a.id = some s ∧ JoinAt (g.joinCount a) (g.arrived a.id n) s.phase ∧
      s.phase ≠ .cancelled ∧
      (s.phase ≠ .completed → (g.course n).arrivals a.id = g.arrived a.id n) := by
  have named := clock.named member
  have timed := clock.kinds a member
  induction n with
  | zero =>
    refine ⟨_, clock.opened member (by rw [isJoin]; decide), rfl, by decide, fun _ => rfl⟩
  | succ n ih =>
    obtain ⟨s, there, at_, left, counts⟩ := ih
    rw [clock.arrived_next]
    by_cases before : s.phase = .completed
    · obtain ⟨s', there', completed⟩ := Option.map_eq_some_iff.mp
        (Census.done_next clock ((Census.phase?_of there).trans (congrArg some before)))
      rw [before] at at_
      refine ⟨s', there', ?_, by rw [completed]; decide, fun differ => (differ completed).elim⟩
      rw [completed]
      exact Nat.le_trans at_ (Nat.le_add_right ..)
    · have unfinished : s.phase.isTerminal = false := by cases here : s.phase <;> simp_all [Phase.isTerminal]
      have rests : s.phase ≠ .running := fun running => by rw [running] at at_; exact at_
      by_cases reached : 0 < (g.course n).inbox a.id
      · have met := Census.met_addressed there unfinished reached
        obtain ⟨s', after, at_', left', counted⟩ :=
          clock.join_step member isJoin met rfl (Nat.add_pos_right _ reached)
        rw [counts before] at at_' counted
        exact ⟨s', after, at_', left', fun _ => counted⟩
      · have none : (g.course n).inbox a.id = 0 := by omega
        have met := Census.met_unaddressed there none
        have counted := (g.course n).arrivals_next g a.id
        rw [none, ite_self, Nat.add_zero, counts before] at counted
        rw [none, Nat.add_zero]
        exact ⟨_, Census.next_resting named timed met rests, at_, left, fun _ => counted⟩

end Action

end Graph.Clockwork

-- Everything that leads to an id comes from one source, and something does.
structure Graph.FedBy (g : Graph) (id source : String) : Prop where
  some : 0 < g.indegree id
  only : ∀ e ∈ g.edges, e.target = id → e.source = source

theorem Graph.FedBy.arrived {g : Graph} {id : String} (fed : g.FedBy id source)
    (done : g.DoneAt source tick) (n : Nat) :
    g.arrived id n = if tick < n then g.indegree id else 0 := by
  cases n with
  | zero => rfl
  | succ n =>
    rw [Graph.arrived, inflow, indegree]
    split
    · next late =>
      refine List.countP_congr fun e member => ?_
      have passed := (done n).mpr (Nat.lt_succ_iff.mp late)
      by_cases target : e.target = id
      · simp [target, fed.only e member target, passed]
      · simp [target]
    · next early =>
      refine List.countP_eq_zero.mpr fun e member => ?_
      have waits : ¬g.Done source n := mt (done n).mp (by omega)
      simp only [decide_eq_true_eq, not_and]
      intro target
      rwa [fed.only e member target]

namespace Census

theorem deed_delay (g : Graph) (c : Census) (isDelay : a.kind = Delay.kind)
    (young : s.age < a.patience) (short : a.patience < UInt64.size) :
    c.deed g a s = if a.patience ≤ s.age + 1 then .finishOn "out" else .rest := by
  have structural : a.kind ∈ [Action.joinKind, Delay.kind, Trigger.kind] ∧ a.kind ≠ Action.joinKind := by
    rw [isDelay]
    decide
  have reads : ((a.properties.get? "ticks").bind Value.u64?).getD Delay.defaultTicks ≤ s.age + 1 ↔
      a.patience ≤ s.age + 1 := by
    rw [a.patience_eq]
    omega
  rw [deed, if_neg (not_not.mpr structural.1), if_neg structural.2, if_pos isDelay,
    Nat.mod_eq_of_lt (by omega)]
  simp only [reads]

end Census

def DelayAt (tick patience n : Nat) (s : Status) : Prop :=
  s.phase = (if n ≤ tick then .idle else if n < tick + patience then .running else .completed) ∧
    (s.phase = .running → tick + s.age = n)

namespace Graph.Clockwork
variable {g : Graph} (clock : g.Clockwork)
include clock

section Action
variable {a : Action} (member : a ∈ g.actions)
include member

theorem delay_step (isDelay : a.kind = Delay.kind) {c : Census} (met : c.met a.id = some s)
    (runs : s.phase = .running) (age : tick + s.age = n) (young : s.age < a.patience) :
    ∃ s', (c.next g).status a.id = some s' ∧ DelayAt tick a.patience (n + 1) s' := by
  have short := a.patience_lt
  have late : ¬n + 1 ≤ tick := by omega
  refine ⟨_, Census.next_running (clock.named member) (clock.kinds a member) met runs, ?_⟩
  rw [c.deed_delay g isDelay young short, DelayAt, if_neg late]
  by_cases enough : a.patience ≤ s.age + 1
  · rw [if_pos enough, if_neg (by omega)]
    simp [Deed.settle]
  · rw [if_neg enough, if_pos (by omega)]
    refine ⟨runs, fun _ => ?_⟩
    rw [Deed.rest_age (by omega)]
    omega

theorem delays (isDelay : a.kind = Delay.kind) (fed : g.FedBy a.id source)
    (done : g.DoneAt source tick) (n : Nat) :
    ∃ s, (g.course n).status a.id = some s ∧ DelayAt tick a.patience n s := by
  have named := clock.named member
  have timed := clock.kinds a member
  have positive : 1 ≤ a.patience := Nat.le_max_left ..
  induction n with
  | zero =>
    refine ⟨_, clock.opened member (by rw [isDelay]; decide), ?_, fun runs => by cases runs⟩
    rw [if_pos (Nat.zero_le _)]
  | succ n ih =>
    obtain ⟨s, there, phase, ages⟩ := ih
    have inbox := clock.arrived_next a.id n
    rw [fed.arrived done, fed.arrived done] at inbox
    have some := fed.some
    by_cases woken : n = tick
    · rw [if_pos (by omega), if_neg (by omega), Nat.zero_add] at inbox
      rw [if_pos (by omega)] at phase
      have met := Census.met_addressed there (by rw [phase]; rfl) (by omega)
      exact clock.delay_step member isDelay met rfl (by simp [woken]) positive
    · have unaddressed : (g.course n).inbox a.id = 0 := by
        split_ifs at inbox
        all_goals omega
      have met := Census.met_unaddressed there unaddressed
      by_cases runs : s.phase = .running
      · rw [runs] at phase
        refine clock.delay_step member isDelay met runs (ages runs) ?_
        have age := ages runs
        split_ifs at phase
        omega
      · refine ⟨_, Census.next_resting named timed met runs, ?_, fun running => (runs running).elim⟩
        rw [Status.endTick_phase, phase]
        rw [phase] at runs
        split_ifs at runs ⊢
        all_goals first | rfl | omega | exact (runs rfl).elim

theorem passes_at (isPass : a.kind = Action.fanoutKind ∨ a.kind = Action.endKind)
    (fed : g.FedBy a.id source) (done : g.DoneAt source tick) : g.DoneAt a.id (tick + 1) := by
  intro n
  have some := fed.some
  rw [Done, clock.passes member isPass, fed.arrived done, Option.some.injEq]
  split_ifs <;> simp <;> omega

theorem delays_at (isDelay : a.kind = Delay.kind) (fed : g.FedBy a.id source)
    (done : g.DoneAt source tick) : g.DoneAt a.id (tick + a.patience) := by
  intro n
  obtain ⟨s, there, phase, _⟩ := clock.delays member isDelay fed done n
  have positive : 1 ≤ a.patience := Nat.le_max_left ..
  rw [Done, Census.phase?_of there, phase, Option.some.injEq]
  split_ifs <;> simp <;> omega

theorem joins_iff (isJoin : a.kind = Action.joinKind) (n : Nat) :
    (g.Done a.id n ↔ g.joinCount a ≤ g.arrived a.id n) ∧
      ((g.course n).phase? a.id = some .listening ↔
        0 < g.arrived a.id n ∧ g.arrived a.id n < g.joinCount a) := by
  obtain ⟨s, there, at_, left, _⟩ := clock.joins member isJoin n
  obtain ⟨_, listens, done⟩ := at_.decides (g.joinCount_pos a) left
  simp only [Done, Census.phase?_of there, Option.some.injEq, listens, done, and_self]

theorem joins_all (isJoin : a.kind = Action.joinKind) (plain : a.properties.get? "count" = none)
    (fed : 0 < g.indegree a.id) (n : Nat) :
    g.Done a.id (n + 1) ↔ ∀ e ∈ g.edges, e.target = a.id → g.Done e.source n := by
  have count : g.joinCount a = g.indegree a.id := by
    rw [joinCount, plain, Option.bind_none, Option.getD_none]
    split
    · omega
    · rfl
  have whole : g.indegree a.id = (g.edges.filter (·.target = a.id)).length := List.countP_eq_length_filter
  have part : g.arrived a.id (n + 1) =
      (g.edges.filter (·.target = a.id)).countP fun e => g.Done e.source n := by
    rw [List.countP_filter, arrived, inflow]
    exact List.countP_congr fun e _ => by simp [and_comm]
  rw [(clock.joins_iff member isJoin (n + 1)).1, count, part, whole, List.countP_le_length.ge_iff_eq,
    List.countP_eq_length]
  simp

theorem joins_never (isJoin : a.kind = Action.joinKind) (barren : g.indegree a.id = 0) (n : Nat) :
    ¬g.Done a.id n := by
  have few := g.arrived_le a.id n
  have positive := g.joinCount_pos a
  rw [(clock.joins_iff member isJoin n).1]
  omega

end Action
end Graph.Clockwork

def Engine.phase? (e : Engine) (id : String) : Option Phase :=
  e.run.bind fun r => (r.plan.indexOf? id).bind fun i => (r.statuses[i]?).map (·.phase)

theorem Graph.course_eq (g : Graph) (n : Nat) :
    (List.replicate n .tick).foldl (Census.obey g) (.opened g) = g.course n := by
  induction n with
  | zero => rfl
  | succ n ih =>
    rw [List.replicate_succ', List.foldl_append, ih]
    rfl

namespace Engine

-- The engine keeps to the course of the graph.
structure Keeps (g : Graph) (n : Nat) (e : Engine) : Prop where
  tick : e.currentTick = n
  phase : ∀ id, e.phase? id = (g.course n).phase? id
  complete : e.isComplete = true ↔ ∀ a ∈ g.actions, g.Done a.id n

theorem Keeps.of_census {e : Engine} {g' : Graph} (loaded : e.run = some r)
    (reached : Reached g (List.replicate n .tick) t r turns) (actions : g'.actions = g.actions)
    (census : r.census t = g'.course n) : e.Keeps g' n := by
  have ends : ∀ (i : Nat) a, g.actions[i]? = some a → ∃ s, r.statuses[i]? = some s ∧
      (s.phase.isTerminal = true ↔ g'.Done a.id n) := by
    intro i a there
    obtain ⟨s, found⟩ := reached.found there
    have left := reached.uncancelled there (by simp)
    rw [Run.phase_of found] at left
    rw [← reached.graph] at there
    refine ⟨s, found, ?_⟩
    rw [Graph.Done, ← census, Census.phase?_of ((Run.census_status reached.indexed t there).trans found),
      Option.some.injEq]
    cases here : s.phase <;> simp_all [Phase.isTerminal]
  have phase : ∀ id, e.phase? id = (g'.course n).phase? id := by
    intro id
    rw [← census, Engine.phase?, loaded, Census.phase?, Run.census, Option.bind_some, Option.map_bind]
    rfl
  refine ⟨?_, phase, ?_⟩
  · rw [currentTick, loaded, Option.map_some, Option.getD_some,
      reached.ticks_only fun s member => List.eq_of_mem_replicate member, List.length_replicate]
  · rw [isComplete, loaded, Option.any_some, Run.allTerminal, List.all_eq_true, actions]
    constructor
    · intro final a member
      obtain ⟨i, there⟩ := List.mem_iff_getElem?.mp member
      obtain ⟨s, found, ended⟩ := ends i a there
      exact ended.mp (final s (List.mem_of_getElem? found))
    · intro done s member
      obtain ⟨i, found⟩ := List.mem_iff_getElem?.mp member
      have inside := reached.size ▸ (List.getElem?_eq_some_iff.mp found).1
      have there := List.getElem?_eq_getElem inside
      obtain ⟨s', found', ended⟩ := ends i _ there
      cases found.symm.trans found'
      exact ended.mpr (done _ (List.mem_of_getElem? there))

theorem Shows.keeps {e : Engine} (shows : e.Shows t r) (clock : g.Clockwork)
    (reached : Reached g (List.replicate n .tick) t r turns) : e.Keeps g n := by
  refine .of_census shows.run reached rfl ?_
  rw [reached.census clock.loud clock.blind, g.course_eq]

end Engine

namespace Chronicle

theorem ticks_on (opens : Opens g e) (clock : g.Clockwork) : ∃ c : Nat → Chronicle,
    (c 0).engine = e ∧ ∀ n, (⟨e, []⟩ : Chronicle).play (List.replicate n .tick) = .ok (c n) ∧
      (c n).engine.Keeps g n ∧ (c n).engine.tick = .ok (c (n + 1)).engine := by
  choose c t r played shows reached using fun n => play_reached opens (List.replicate n .tick)
  refine ⟨c, ?_, fun n => ⟨played n, (shows n).keeps clock (reached n), ?_⟩⟩
  · have opened := played 0
    simp only [List.replicate_zero, play, Except.ok.injEq] at opened
    rw [← opened]
  · obtain ⟨e', _, _, _, _, step, _⟩ := (shows n).tick (reached n).indexed
    have plays := played (n + 1)
    rw [List.replicate_succ', play_concat, played n] at plays
    simp only [next, Engine.obey, step, Except.ok.injEq] at plays
    rw [step, ← plays]

end Chronicle

theorem Engine.runFrom_stops (engine : Nat → Engine)
    (ticks : ∀ n, (engine n).tick = .ok (engine (n + 1))) {k m : Nat} (spare : Nat)
    (before : ∀ n < m, (engine n).isComplete = false)
    (stops : spare = 0 ∨ (engine m).isComplete = true) (within : k ≤ m) :
    (engine k).runFrom k (m - k + spare) = .ok (engine m, m) := by
  induction within using Nat.decreasingInduction with
  | self =>
    rw [Nat.sub_self, Nat.zero_add]
    cases spare with
    | zero => rfl
    | succ spare => rw [runFrom, if_pos (stops.resolve_left (Nat.succ_ne_zero _))]
  | of_succ k inside ih =>
    rw [show m - k + spare = m - (k + 1) + spare + 1 by omega, runFrom, before k inside,
      if_neg Bool.false_ne_true, ticks k]
    exact ih

theorem Engine.ends_at {c : Nat → Engine} (loaded : (c 0).run = some r)
    (keeps : ∀ n, (c n).Keeps g n) (ticks : ∀ n, (c n).tick = .ok (c (n + 1))) {m : Nat}
    (within : m ≤ budget) (before : ∀ k < m, ∃ a ∈ g.actions, ¬g.Done a.id k)
    (stops : m = budget ∨ ∀ a ∈ g.actions, g.Done a.id m) :
    (c 0).runUntilComplete budget = .ok (c m, m) := by
  have run := Engine.runFrom_stops c ticks (budget - m) ?_ ?_ (Nat.zero_le m)
  · rw [Engine.runUntilComplete, loaded]
    rwa [show m - 0 + (budget - m) = budget by omega] at run
  · intro k early
    obtain ⟨a, member, left⟩ := before k early
    exact Bool.eq_false_iff.mpr fun ended => left ((keeps k).complete.mp ended a member)
  · exact stops.imp (by omega) (keeps m).complete.mpr

namespace Chronicle

theorem runs_until (opens : Opens g e) (clock : g.Clockwork) {m : Nat} (within : m ≤ budget)
    (before : ∀ k < m, ∃ a ∈ g.actions, ¬g.Done a.id k)
    (stops : m = budget ∨ ∀ a ∈ g.actions, g.Done a.id m) : ∃ e',
    e.runUntilComplete budget = .ok (e', m) ∧ e'.Keeps g m := by
  obtain ⟨c, first, keeps⟩ := ticks_on opens clock
  obtain ⟨_, _, _, _, loaded, _⟩ := opens.parts
  subst first
  exact ⟨(c m).engine, Engine.ends_at (c := fun n => (c n).engine) loaded (fun n => (keeps n).2.1)
    (fun n => (keeps n).2.2) within before stops, (keeps m).2.1⟩

theorem runs_over (opens : Opens g e) (clock : g.Clockwork) {total : Nat}
    (ends : ∀ n, (∀ a ∈ g.actions, g.Done a.id n) ↔ total ≤ n) (budget : Nat) : ∃ e',
    e.runUntilComplete budget = .ok (e', min budget total) ∧ e'.Keeps g (min budget total) := by
  refine runs_until opens clock (Nat.min_le_left ..) (fun k early => ?_) ?_
  · have left := mt (ends k).mp (by omega)
    simpa using left
  · rcases Nat.le_total budget total with short | enough
    · exact .inl (Nat.min_eq_left short)
    · exact .inr ((ends _).mpr (by omega))

theorem runs_out (opens : Opens g e) (clock : g.Clockwork) (member : a ∈ g.actions)
    (never : ∀ n, ¬g.Done a.id n) (budget : Nat) : ∃ e',
    e.runUntilComplete budget = .ok (e', budget) ∧ e'.Keeps g budget :=
  runs_until opens clock (Nat.le_refl _) (fun k _ => ⟨a, member, never k⟩) (.inl rfl)

end Chronicle
end ActionGraph
