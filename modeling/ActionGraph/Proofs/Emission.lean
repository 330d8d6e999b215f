import ActionGraph.Proofs.Chronicle
import ActionGraph.Proofs.Queues
import Mathlib.Algebra.GroupWithZero.Nat
-- Every emission counts exactly once. How often an action has emitted can be told from its state
-- and the tables, and for each time every route of the port is sent, waits, or lapsed with its
-- cancelled source.
namespace ActionGraph

namespace Status

def isSpent (s : Status) : Bool := s.phase = .completed && s.propagated

@[simp] theorem endTick_isSpent (s : Status) : s.endTick.isSpent = s.isSpent := rfl

end Status

namespace Run

theorem met_isSpent (r : Run) (i : Nat) (s : Status) : (r.met i s).isSpent = s.isSpent := by
  rcases r.met_parts i s with same | ⟨left, fresh⟩
  · rw [same]
  · rw [fresh]
    cases here : s.phase <;> simp [here, Phase.isTerminal, Status.isSpent] at left ⊢

-- What has been sent was completed before, and what is completed but not sent is of a quiet kind.
structure Settled (r : Run) : Prop where
  spent : ∀ (i : Nat) s, r.statuses[i]? = some s → s.propagated = true → s.phase = .completed
  due : ∀ (i : Nat) s kind, r.statuses[i]? = some s → r.plan.kind? i = some kind →
    s.isDue = true → kind ∈ quietKinds

theorem Settled.met (settled : Settled r) (there : r.statuses[i]? = some s) :
    ((r.met i s).propagated = true → (r.met i s).phase = .completed) ∧
      ∀ kind, r.plan.kind? i = some kind → (r.met i s).isDue = true → kind ∈ quietKinds := by
  rcases r.met_parts i s with same | ⟨_, fresh⟩
  · rw [same]
    exact ⟨settled.spent i s there, fun kind => settled.due i s kind there⟩
  · rw [fresh]
    refine ⟨fun sent => ?_, fun _ _ due => ?_⟩
    · cases sent
    · cases due

theorem Settled.unsent (settled : Settled r) (there : r.statuses[i]? = some s)
    (active : (r.met i s).phase.isActive = true) : (r.met i s).propagated = false :=
  Bool.eq_false_iff.mpr fun sent => ne_completed_of_isActive active ((settled.met there).1 sent)

theorem ofPlan_status {p : Plan} {s : Status} {i : Nat} (there : (ofPlan p).statuses[i]? = some s) :
    s.propagated = false ∧ s.phase.isTerminal = false := by
  simp only [ofPlan, List.getElem?_modify, List.getElem?_map] at there
  obtain ⟨s', found, rfl⟩ := Option.map_eq_some_iff.mp there
  obtain ⟨a, _, rfl⟩ := Option.map_eq_some_iff.mp found
  split <;> exact ⟨rfl, rfl⟩

theorem ofPlan_settled (p : Plan) (log : Diagnostics) : ((ofPlan p).withLog log).Settled where
  spent i s there sent := by
    rw [(ofPlan_status there).1] at sent
    cases sent
  due i s kind there _ due := by
    have left := (ofPlan_status there).2
    simp only [Status.isDue, Bool.and_eq_true, decide_eq_true_eq] at due
    rw [due.1] at left
    cases left

theorem Settled.heed (settled : Settled r) (s : Signal) : (r.heed s).Settled := by
  have heeds := r.heed_heeds s
  refine ⟨fun i st there sent => ?_, fun i st kind there isKind due => ?_⟩
  · rcases heeds.statuses i with same | ⟨_, old, _, _, before, left, after⟩
    · exact settled.spent i st (same ▸ there) sent
    · cases there.symm.trans after
      rw [Status.enter_propagated] at sent
      rw [settled.spent i old before sent] at left
      cases left
  · rcases heeds.statuses i with same | ⟨_, old, _, _, _, _, after⟩
    · exact settled.due i st kind (same ▸ there) (heeds.plan ▸ isKind) due
    · cases there.symm.trans after
      simp [Status.isDue] at due

end Run

theorem Deed.Suits.settles {d : Deed} (suits : d.Suits kind) {a : Status}
    (active : a.phase.isActive = true) (unsent : a.propagated = false) :
    ((d.settle a).isDue = true ↔ d = .finish) ∧
      ((d.settle a).isSpent = true ↔ ∃ port, d = .finishOn port) ∧
      ((d.settle a).propagated = true → (d.settle a).phase = .completed) := by
  have differ := Run.ne_completed_of_isActive active
  cases d <;> simp_all [Deed.settle, Status.isDue, Status.isSpent, Deed.Suits]

namespace Run

theorem Settled.tick (settled : Settled r) (ticks : r.Ticks t ps ws t' r') : r'.Settled := by
  refine ⟨fun i s' there sent => ?_, fun i s' kind there isKind due => ?_⟩
  · obtain ⟨s, found, fares⟩ := ticks.origin there
    obtain ⟨spent, _⟩ := settled.met found
    cases fares with
    | propagated due => simpa [Deed.settle, Status.isDue] using (Bool.and_eq_true_iff.mp due).1
    | did member acts _ isKind driven =>
      subst acts
      have active := driven.isActive
      exact ((ticks.suits member isKind).settles active (settled.unsent found active)).2.2 sent
    | left => exact spent sent
  · rw [ticks.plan] at isKind
    obtain ⟨s, found, fares⟩ := ticks.origin there
    obtain ⟨spent, quiet⟩ := settled.met found
    cases fares with
    | propagated => simp [Deed.settle, Status.isDue] at due
    | did member acts _ _ driven =>
      subst acts
      have active := driven.isActive
      have suits := ticks.suits member isKind
      have finishes := (suits.settles active (settled.unsent found active)).1.mp due
      rw [finishes] at suits
      exact suits
    | left => exact quiet kind isKind due

end Run

theorem Reached.settled (reached : Reached g script t r turns) : r.Settled := by
  induction reached using Reached.induct with
  | opened p log => exact Run.ofPlan_settled p log
  | heeded _ _ _ _ s _ _ ih => exact ih.heed s
  | ticked _ _ _ _ _ _ _ _ _ ticks ih => exact ih.tick ticks

namespace Tables

-- The port on which an action sends that is no trigger: for a filter, the one of its outcome.
def exit? (t : Tables) (p : Plan) (i : Nat) : Option String :=
  if p.kind? i = some Filter.kind then (t.outcomes.lookup i).map Outcome.port else some "out"

def emitted (t : Tables) (r : Run) (i : Nat) (port : String) : Nat :=
  if r.plan.kind? i = some Trigger.kind then if port = "out" then t.fires.get i else 0
  else if r.statuses[i]?.any Status.isSpent = true ∧ t.exit? r.plan i = some port then 1 else 0

end Tables

theorem Deed.Suits.port_iff {d : Deed} (suits : d.Suits kind) (other : kind ≠ Trigger.kind) :
    d.port? = some port ↔ d = .finishOn port := by
  cases d <;> simp_all [Deed.port?, Deed.Suits]

theorem Deed.Suits.port_out {d : Deed} (suits : d.Suits kind) (other : kind ≠ Filter.kind)
    (sends : d.port? = some port) : port = "out" := by
  cases d with
  | finishOn p =>
    cases sends
    rcases suits with ⟨isFilter, _⟩ | ⟨_, same⟩
    · exact (other isFilter).elim
    · exact same
  | pulse | propagate => cases sends; rfl
  | rest | listen | finish => cases sends

namespace Run.Ticks
variable {t t' : Tables} {r r' : Run} {ps ws : List Work} (ticks : Ticks t r ps ws t' r')
include ticks

theorem acts_inside (acts : i ∈ (ps ++ ws).map Work.action) : i < r.statuses.length := by
  obtain ⟨_, _, works⟩ := ticks.works
  obtain ⟨w, member, rfl⟩ := List.mem_map.mp acts
  exact r.arrived_size ▸ works.there member

theorem acted (member : w ∈ ws) : ∃ s, r.statuses[w.action]? = some s :=
  ⟨_, List.getElem?_eq_getElem (ticks.acts_inside (List.mem_map_of_mem
    (List.mem_append_right ps member)))⟩

theorem swept (acts : i ∈ ps.map Work.action) :
    ∃ s, r.statuses[i]? = some s ∧ (r.met i s).isDue = true := by
  have inside := ticks.acts_inside (i := i) (by simp [List.map_append, acts])
  have found := List.getElem?_eq_getElem inside
  obtain ⟨_, _, fares⟩ := ticks.fares found
  cases fares with
  | propagated due => exact ⟨_, found, due⟩
  | did _ _ unswept => exact (unswept acts).elim
  | left unswept => exact (unswept acts).elim

theorem unswept_of_loud (settled : r.Settled) (isKind : r.plan.kind? i = some kind)
    (loud : kind ∉ quietKinds) : i ∉ ps.map Work.action := by
  intro acts
  obtain ⟨s, found, due⟩ := ticks.swept acts
  exact loud ((settled.met found).2 kind isKind due)

theorem trigger_emissions (settled : r.Settled) (isTrigger : r.plan.kind? i = some Trigger.kind)
    (port : String) : emissions (ps ++ ws) i port = if port = "out" then emissions ws i "out" else 0 := by
  rw [emissions_append, emissions_idle (ticks.unswept_of_loud settled isTrigger (by decide)), Nat.zero_add]
  split
  · next same => rw [same]
  · next other =>
    refine List.countP_eq_zero.mpr fun w member => ?_
    simp only [decide_eq_true_eq, not_and]
    rintro rfl sends
    exact other ((ticks.suits member isTrigger).port_out (by decide) sends)

theorem exit (member : w ∈ ws) (isKind : r.plan.kind? w.action = some kind)
    (finishes : w.deed = .finishOn port) : t'.exit? r'.plan w.action = some port := by
  rw [Tables.exit?, ticks.plan]
  split
  · next isFilter =>
    obtain ⟨deed, recorded⟩ := ticks.filters member isFilter
    rw [recorded, Deed.finishOn.inj (finishes.symm.trans deed)]; rfl
  · next other =>
    have suits := ticks.suits member isKind
    rw [isKind, Option.some.injEq] at other
    have leaves : w.deed.port? = some port := by rw [finishes]; rfl
    rw [suits.port_out other leaves]

theorem exit_idle (idle : i ∉ ws.map Work.action) : t'.exit? r'.plan i = t.exit? r.plan i := by
  rw [Tables.exit?, Tables.exit?, ticks.plan, ticks.outcomes idle]

theorem swept_emissions (settled : r.Settled) (there : r.statuses[i]? = some s)
    (due : (r.met i s).isDue = true) (swept : i ∈ ps.map Work.action)
    (idle : i ∉ ws.map Work.action) (port : String) : emissions (ps ++ ws) i port =
      if t'.exit? r'.plan i = some port then 1 else 0 := by
  obtain ⟨w, member, rfl⟩ := List.mem_map.mp swept
  have other : r.plan.kind? w.action ≠ some Filter.kind := fun isFilter =>
    absurd ((settled.met there).2 _ isFilter due) (by decide)
  have exit : t'.exit? r'.plan w.action = some "out" := by
    rw [Tables.exit?, ticks.plan, if_neg other]
  rw [emissions_append, emissions_single ticks.once.1 member, emissions_idle idle,
    ticks.sweeps member, exit]
  rfl

theorem did_emissions (settled : r.Settled) (there : r.statuses[w.action]? = some s)
    (member : w ∈ ws) (unswept : w.action ∉ ps.map Work.action)
    (isKind : r.plan.kind? w.action = some kind) (other : kind ≠ Trigger.kind)
    (driven : Driven kind (r.met w.action s).phase) (port : String) :
    emissions (ps ++ ws) w.action port = if (w.deed.settle (r.met w.action s)).isSpent = true ∧
      t'.exit? r'.plan w.action = some port then 1 else 0 := by
  have active := driven.isActive
  have suits := ticks.suits member isKind
  have spent := (suits.settles active (settled.unsent there active)).2.1
  rw [emissions_append, emissions_idle unswept, emissions_single ticks.once.2 member]
  simp only [suits.port_iff other]
  by_cases finishes : ∃ p, w.deed = .finishOn p
  · have sent := spent.mpr finishes
    obtain ⟨p, deed⟩ := finishes
    rw [ticks.exit member isKind deed]
    rw [deed] at sent ⊢
    simp [sent]
  · have unsent := Bool.eq_false_iff.mpr (mt spent.mp finishes)
    have never : ∀ p, w.deed ≠ .finishOn p := fun p deed => finishes ⟨p, deed⟩
    simp [unsent, never]

theorem emitted (settled : r.Settled) (i : Nat) (port : String) :
    t'.emitted r' i port = t.emitted r i port + emissions (ps ++ ws) i port := by
  by_cases isTrigger : r.plan.kind? i = some Trigger.kind
  · rw [Tables.emitted, Tables.emitted, ticks.plan, if_pos isTrigger, if_pos isTrigger,
      ticks.trigger_emissions settled isTrigger, ticks.fires isTrigger]
    split <;> rfl
  rw [Tables.emitted, Tables.emitted, if_neg (ticks.plan ▸ isTrigger), if_neg isTrigger]
  cases found : r.statuses[i]? with
  | none =>
    have outside : r.statuses.length ≤ i := List.getElem?_eq_none_iff.mp found
    have none : r'.statuses[i]? = none := List.getElem?_eq_none (by rw [ticks.size]; exact outside)
    have idle : i ∉ (ps ++ ws).map Work.action := fun acts => by
      have := ticks.acts_inside acts
      omega
    simp [none, emissions_idle idle]
  | some s =>
    obtain ⟨s', after, fares⟩ := ticks.fares found
    rw [after, Option.any_some, Option.any_some, ← r.met_isSpent i s]
    cases fares with
    | propagated due swept idle =>
      rw [ticks.swept_emissions settled found due swept idle]
      simp only [Status.isDue, Bool.and_eq_true, decide_eq_true_eq, Bool.not_eq_true'] at due
      simp [Status.isSpent, Deed.settle, due.1, due.2]
    | @did w kind member acts unswept isKind driven =>
      subst acts
      have before : (r.met w.action s).isSpent = false := by
        simp [Status.isSpent, ne_completed_of_isActive driven.isActive]
      have other : kind ≠ Trigger.kind := by
        rintro rfl
        exact isTrigger isKind
      have unspent : ¬(false = true ∧ t.exit? r.plan w.action = some port) :=
        fun sent => Bool.false_ne_true sent.1
      rw [ticks.did_emissions settled found member unswept isKind other driven, before,
        if_neg unspent, Nat.zero_add]
      rfl
    | left unswept idle =>
      rw [emissions_append, emissions_idle unswept, emissions_idle idle, ticks.exit_idle idle]
      rfl

section Own
variable (indexed : r.plan.Indexed)
include indexed

theorem sent_source (member : w ∈ ps ++ ws) (mine : q ∈ w.sent) : some q.source = some w.action :=
  congrArg some (Work.sent_source ((ticks.plan_at member).symm ▸ indexed) mine)

theorem armed_source (member : w ∈ ps ++ ws) (mine : d ∈ w.armed) :
    r.plan.sender? d = some w.action := by
  rw [← ticks.plan_at member]
  exact Work.armed_source ((ticks.plan_at member).symm ▸ indexed) mine

theorem queues_idle (idle : j ∉ (ps ++ ws).map Work.action) :
    r'.pending.filter (·.source = j) = r.arrived.released.filter (·.source = j) ∧
      r'.deferred.filter (fun d => r.plan.sender? d = some j) =
        r.arrived.retained.filter (fun d => r.plan.sender? d = some j) := by
  rw [ticks.pending, ticks.deferred]
  simp only [List.filter_append, ← Option.some_inj (α := Nat)]
  rw [flatMap_idle (fun q : Pulse => some q.source)
      (fun _ member _ mine => ticks.sent_source indexed member mine) idle,
    flatMap_idle r.plan.sender? (fun _ member _ mine => ticks.armed_source indexed member mine) idle,
    List.append_nil, List.append_nil]
  exact ⟨rfl, rfl⟩

theorem queues_single (member : w ∈ ws) (unswept : w.action ∉ ps.map Work.action) :
    r'.pending.filter (·.source = w.action) =
        r.arrived.released.filter (·.source = w.action) ++ w.sent ∧
      r'.deferred.filter (fun d => r.plan.sender? d = some w.action) =
        r.arrived.retained.filter (fun d => r.plan.sender? d = some w.action) ++ w.armed := by
  have sent := fun v (inside : v ∈ ps ++ ws) q (mine : q ∈ v.sent) =>
    ticks.sent_source indexed inside mine
  have armed := fun v (inside : v ∈ ps ++ ws) d (mine : d ∈ v.armed) =>
    ticks.armed_source indexed inside mine
  simp only [List.forall_mem_append] at sent armed
  rw [ticks.pending, ticks.deferred]
  simp only [List.flatMap_append, List.filter_append, ← Option.some_inj (α := Nat)]
  rw [flatMap_idle (fun q : Pulse => some q.source) sent.1 unswept,
    flatMap_single (fun q : Pulse => some q.source) sent.2 ticks.once.2 member,
    flatMap_idle r.plan.sender? armed.1 unswept,
    flatMap_single r.plan.sender? armed.2 ticks.once.2 member, List.nil_append, List.nil_append]
  exact ⟨rfl, rfl⟩

end Own

end Run.Ticks

theorem Run.Heeds.spent {s : Signal} {r r' : Run} (heeds : Run.Heeds r s r') (i : Nat) :
    r'.statuses[i]?.any Status.isSpent = r.statuses[i]?.any Status.isSpent := by
  rcases heeds.statuses i with same | ⟨_, old, _, _, before, left, after⟩
  · rw [same]
  · rw [before, after]
    cases here : old.phase <;> simp [here, Phase.isTerminal, Status.isSpent] at left ⊢

namespace Tables

theorem emitted_opened {p : Plan} (log : Diagnostics) (i : Nat) (port : String) :
    ({} : Tables).emitted ((Run.ofPlan p).withLog log) i port = 0 := by
  unfold emitted
  split
  · split
    · exact Tally.get_empty i
    · rfl
  · refine if_neg fun spent => ?_
    obtain ⟨s, there, sent⟩ := (Option.any_eq_true ..).mp spent.1
    rw [Status.isSpent, (Run.ofPlan_status there).1, Bool.and_false] at sent
    cases sent

theorem emitted_heed (t : Tables) (r : Run) (s : Signal) (i : Nat) (port : String) :
    t.emitted (r.heed s) i port = t.emitted r i port := by
  have heeds := r.heed_heeds s
  rw [emitted, emitted, exit?, exit?, heeds.plan, heeds.spent]

end Tables

-- How many pulses equal to `q` were ever sent. A pulse stays in the pending queue from the tick that
-- sends it to the start of the next one, so the queues that the turns left hold each of them once.
def sentIn (turns : List Turn) (q : Pulse) : Nat := (turns.flatMap fun turn => turn.after.pending).count q

-- How many entries for `q` the deferred queue lost because their source was found cancelled.
def Turn.lapsed (turn : Turn) (q : Pulse) : Nat :=
  if turn.before.phase q.source = .cancelled then turn.before.waiting q else 0

def lapsedIn (turns : List Turn) (q : Pulse) : Nat := (turns.map fun turn => turn.lapsed q).sum

theorem sentIn_append (turns : List Turn) (turn : Turn) (q : Pulse) :
    sentIn (turns ++ [turn]) q = sentIn turns q + turn.after.pending.count q := by
  simp [sentIn, List.count_append]

theorem lapsedIn_append (turns : List Turn) (turn : Turn) (q : Pulse) :
    lapsedIn (turns ++ [turn]) q = lapsedIn turns q + turn.lapsed q := by
  simp [lapsedIn]

namespace Run

theorem waiting_congr {r r' : Run} (plan : r'.plan = r.plan) (deferred : r'.deferred = r.deferred)
    (q : Pulse) : r'.waiting q = r.waiting q := by
  rw [waiting, plan, deferred, waiting]

theorem arrived_cancelled (r : Run) (i : Nat) : r.arrived.phase i = .cancelled ↔ r.phase i = .cancelled := by
  cases found : r.statuses[i]? with
  | none =>
    have none : r.arrived.statuses[i]? = none := by rw [arrived_statuses, found]; split <;> rfl
    simp [phase, found, none]
  | some s =>
    rw [phase_of (arrived_met found), phase_of found]
    rcases r.met_parts i s with same | ⟨left, fresh⟩
    · rw [same]
    · rw [fresh]
      constructor
      · intro cancelled; cases cancelled
      · intro cancelled; rw [cancelled] at left; cases left

theorem Ticks.account (ticks : Ticks t r ps ws t' r') (indexed : r.plan.Indexed) (q : Pulse) :
    r'.pending.count q + r'.waiting q + (⟨r, r'⟩ : Turn).lapsed q =
      r.waiting q + emissions (ps ++ ws) q.source q.sourcePort * r.plan.graph.multiplicity q := by
  obtain ⟨done, _, works⟩ := ticks.works
  have plan : r.arrived.releaseDeferred.plan = r.plan := r.arrived_plan
  have counts := works.count (plan ▸ indexed) q
  have release := r.arrived.release_count q
  rw [waiting_congr r.arrived_plan r.arrived_deferred] at release
  simp only [r.arrived_cancelled, r.arrived_plan] at release
  rw [plan] at counts
  rw [ticks.pending, waiting, ticks.deferred, ticks.plan, List.count_append, List.countP_append,
    Turn.lapsed, ← counts]
  dsimp only
  split at release
  · next lapses => rw [if_pos lapses]; omega
  · next stays => rw [if_neg stays]; omega

end Run

theorem Reached.account (reached : Reached g script t r turns) (q : Pulse) :
    sentIn turns q + r.waiting q + lapsedIn turns q =
      t.emitted r q.source q.sourcePort * g.multiplicity q := by
  induction reached using Reached.induct with
  | opened p log =>
    rw [Tables.emitted_opened]
    simp [sentIn, lapsedIn, Run.waiting, Run.withLog, Run.ofPlan]
  | heeded _ _ r _ s _ _ ih =>
    have heeds := r.heed_heeds s
    rw [Run.waiting_congr heeds.plan heeds.deferred, Tables.emitted_heed]
    exact ih
  | ticked _ _ _ _ _ _ _ _ prior ticks ih =>
    have adds := ticks.account prior.indexed q
    rw [prior.graph] at adds
    rw [sentIn_append, lapsedIn_append, ticks.emitted prior.settled, Nat.add_mul, ← ih]
    dsimp only
    omega

theorem Reached.lapsed (reached : Reached g script t r turns) (i : Nat)
    (left : r.phase i ≠ .cancelled) (q : Pulse) (source : q.source = i) : lapsedIn turns q = 0 := by
  induction reached using Reached.induct with
  | opened => rfl
  | heeded _ _ r _ s _ _ ih =>
    refine ih fun cancelled => left ?_
    rw [(r.heed_heeds s).final (by rw [cancelled]; rfl), cancelled]
  | ticked _ _ r _ _ _ _ _ _ ticks ih =>
    have before : r.phase i ≠ .cancelled := fun cancelled => left (by
      rw [ticks.final (by rw [cancelled]; rfl), cancelled])
    rw [lapsedIn_append, ih before, Turn.lapsed, source, if_neg before]

def Engine.exit? (e : Engine) (g : Graph) (i : Nat) : Option String :=
  if g.kind? i = some Filter.kind then (e.outcome? i).map Outcome.port else some "out"

theorem Engine.Shows.exit? {e : Engine} (shows : e.Shows t r) (same : r.plan.graph = g) (i : Nat) :
    e.exit? g i = t.exit? r.plan i := by
  rw [Engine.exit?, Tables.exit?, shows.outcome?, Plan.kind?, same]

namespace Chronicle

-- After any script each edge of an emission was sent or waits, exactly once for each time that its
-- source emitted on its port. Everything but a trigger emits at most once, on its exit and by the
-- time it is spent. A trigger emits with each fire, and if it is cancelled what waits for it lapses.
theorem sent_exactly_once (opens : Opens g e) (script : List Signal) :
    ∃ c r, (⟨e, []⟩ : Chronicle).play script = .ok c ∧ c.engine.run = some r ∧ ∀ q : Pulse,
      (g.kind? q.source ≠ some Trigger.kind → sentIn c.turns q + r.waiting q =
        if r.statuses[q.source]?.any Status.isSpent = true ∧
          c.engine.exit? g q.source = some q.sourcePort then g.multiplicity q else 0) ∧
      (g.kind? q.source = some Trigger.kind →
        (q.sourcePort ≠ "out" → sentIn c.turns q + r.waiting q = 0) ∧
        (q.sourcePort = "out" → sentIn c.turns q + r.waiting q + lapsedIn c.turns q =
          c.engine.fires q.source * g.multiplicity q) ∧
        (r.phase q.source ≠ .cancelled → lapsedIn c.turns q = 0)) := by
  obtain ⟨c, t, r, played, shows, reached⟩ := play_reached opens script
  refine ⟨c, r, played, shows.run, fun q => ?_⟩
  have account := reached.account q
  have lapsed := fun left => reached.lapsed q.source left q rfl
  rw [Tables.emitted, Plan.kind?, reached.graph] at account
  rw [shows.exit? reached.graph, shows.fires]
  refine ⟨fun other => ?_, fun isTrigger => ⟨fun port => ?_, fun port => ?_, lapsed⟩⟩
  · rw [if_neg other, ite_mul, Nat.one_mul, Nat.zero_mul] at account
    by_cases cancelled : r.phase q.source = .cancelled
    · have unspent : ¬(r.statuses[q.source]?.any Status.isSpent = true ∧
          t.exit? r.plan q.source = some q.sourcePort) := by
        rintro ⟨spent, _⟩
        obtain ⟨s, there, sent⟩ := (Option.any_eq_true ..).mp spent
        rw [Run.phase_of there] at cancelled
        simp [Status.isSpent, cancelled] at sent
      rw [if_neg unspent] at account ⊢
      omega
    · rw [lapsed cancelled] at account
      exact account
  · rw [if_pos isTrigger, if_neg port, Nat.zero_mul] at account
    omega
  · rw [if_pos isTrigger, if_pos port] at account
    exact account

theorem relay_sent_exactly_once :
    ∃ c r, (⟨(relayEngine.load relay).1, []⟩ : Chronicle).play
        [.tick, .raise "ring", .tick, .raise "ring", .tick, .setTag "open", .tick] = .ok c ∧
      c.engine.run = some r ∧ ∀ q : Pulse,
      (relay.kind? q.source ≠ some Trigger.kind → sentIn c.turns q + r.waiting q =
        if r.statuses[q.source]?.any Status.isSpent = true ∧
          c.engine.exit? relay q.source = some q.sourcePort then relay.multiplicity q else 0) ∧
      (relay.kind? q.source = some Trigger.kind →
        (q.sourcePort ≠ "out" → sentIn c.turns q + r.waiting q = 0) ∧
        (q.sourcePort = "out" → sentIn c.turns q + r.waiting q + lapsedIn c.turns q =
          c.engine.fires q.source * relay.multiplicity q) ∧
        (r.phase q.source ≠ .cancelled → lapsedIn c.turns q = 0)) :=
  sent_exactly_once relay_opens _

end Chronicle

end ActionGraph
