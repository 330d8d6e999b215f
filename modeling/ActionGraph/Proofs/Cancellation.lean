import ActionGraph.Proofs.Deferral
import ActionGraph.Proofs.Emission
import ActionGraph.Proofs.Finality
import ActionGraph.Proofs.Provenance
-- Cancelling takes one action out of a run and touches nothing else. From then on no tick has anything
-- to do with that action: what was addressed to it is dropped, what it had held back is let go of
-- without being sent, and whatever still changes is the work of others.
namespace ActionGraph

-- A tick that an action has no part in.
structure Turn.Without (turn : Turn) (i : Nat) : Prop where
  unsent : ∀ q ∈ turn.after.pending, q.source ≠ i
  unheld : ∀ d ∈ turn.after.deferred, turn.after.plan.sender? d ≠ some i
  undelivered : turn.after.deliveredTo i = []
  unwritten : ∀ key, turn.after.board.get? key ≠ turn.before.board.get? key →
    (∃ q ∈ turn.after.delivered, q.target ≠ i ∧
      key = Blackboard.activationKey (turn.after.plan.actionId q.target)) ∨
    ∃ j a, j ≠ i ∧ turn.after.plan.action? j = some a ∧ a.writes? = some key ∧ turn.completes j = true

namespace Run

theorem deliver_apart {r : Run} (q : Pulse) (apart : r.accepts q = true →
    key ≠ Blackboard.activationKey (r.plan.actionId q.target)) :
    (r.deliver q).1.board.get? key = r.board.get? key := by
  cases found : r.statuses[q.target]? with
  | none => simp only [deliver, found]
  | some s =>
    cases final : s.phase.isTerminal with
    | true => simp only [deliver, found, final, if_true]
    | false =>
      have taken : r.accepts q = true := by simp [accepts, found, final]
      simp only [deliver, found, final, Bool.false_eq_true, if_false, Blackboard.recordActivation,
        Keyed.get?_insert]
      exact if_neg (Ne.symm (apart taken))

theorem deliverAll_apart {r : Run} {ps : List Pulse} (apart : ∀ q ∈ ps, r.accepts q = true →
    key ≠ Blackboard.activationKey (r.plan.actionId q.target)) :
    (ps.foldl (fun r q => (r.deliver q).1) r).board.get? key = r.board.get? key := by
  induction ps generalizing r with
  | nil => rfl
  | cons q rest ih =>
    have first := r.deliver_delivers q
    have later : ∀ p ∈ rest, (r.deliver q).1.accepts p = true →
        key ≠ Blackboard.activationKey ((r.deliver q).1.plan.actionId p.target) := by
      rw [first.plan, first.accepts]
      exact fun p member => apart p (List.mem_cons_of_mem _ member)
    rw [List.foldl_cons, ih later]
    exact deliver_apart q (apart q List.mem_cons_self)

theorem arrived_apart {r : Run} (apart : ∀ q ∈ r.arrived.delivered,
    key ≠ Blackboard.activationKey (r.plan.actionId q.target)) :
    r.arrived.board.get? key = r.board.get? key := by
  rw [arrived_delivered] at apart
  rw [arrived, Delivery.deliverAll_run]
  exact deliverAll_apart (r := { r.beginTick with pending := [], delivered := [] })
    fun q member taken => apart q (List.mem_filter.mpr ⟨member, taken⟩)

namespace Ticks
variable {t t' : Tables} {r r' : Run} {ps ws : List Work} (ticks : Ticks t r ps ws t' r')
  (gone : r.phase i = .cancelled)
include ticks gone

theorem gone_idle : i ∉ (ps ++ ws).map Work.action := by
  intro acts
  rw [List.map_append] at acts
  rcases List.mem_append.mp acts with swept | did
  · have arrived := (r.arrived_cancelled i).mpr gone
    obtain ⟨s, there, due⟩ := ticks.swept swept
    rw [phase_of (arrived_met there)] at arrived
    simp [Status.isDue, arrived] at due
  · exact ticks.ended_idle (by rw [gone]; rfl) did

theorem gone_stays : r'.phase i = .cancelled := by
  rw [ticks.final (by rw [gone]; rfl), gone]

theorem gone_undelivered : r'.deliveredTo i = [] := by
  obtain ⟨s, there, same⟩ := status_of_phase (r := r) (i := i) (by rw [gone]; decide)
  rw [ticks.deliveredTo there, same, gone]
  rfl

theorem gone_counts : t'.arrivals.get i = t.arrivals.get i ∧ t'.fires.get i = t.fires.get i ∧
    t'.outcomes.lookup i = t.outcomes.lookup i := by
  have idle : i ∉ ws.map Work.action := fun acts => ticks.gone_idle gone (by simp [List.map_append, acts])
  refine ⟨?_, ?_, ticks.outcomes idle⟩
  · by_cases isJoin : r.plan.kind? i = some Action.joinKind
    · rw [ticks.arrivals isJoin, if_neg idle, Nat.add_zero]
    · exact (ticks.uncounted i).1 isJoin
  · by_cases isTrigger : r.plan.kind? i = some Trigger.kind
    · rw [ticks.fires isTrigger, emissions_idle idle, Nat.add_zero]
    · exact (ticks.uncounted i).2 isTrigger

variable (indexed : r.plan.Indexed)
include indexed

theorem gone_unsent : ∀ q ∈ r'.pending, q.source ≠ i := by
  intro q member source
  have own : q ∈ r'.pending.filter (·.source = i) := List.mem_filter.mpr ⟨member, decide_eq_true source⟩
  rw [(ticks.queues_idle indexed (ticks.gone_idle gone)).1] at own
  apply (Run.released_parts (List.mem_filter.mp own).1).2
  rw [source]
  exact (r.arrived_cancelled i).mpr gone

theorem gone_unheld : ∀ d ∈ r'.deferred, r'.plan.sender? d ≠ some i := by
  intro d member sender
  rw [ticks.plan] at sender
  have own : d ∈ r'.deferred.filter (fun d => r.plan.sender? d = some i) :=
    List.mem_filter.mpr ⟨member, decide_eq_true sender⟩
  rw [(ticks.queues_idle indexed (ticks.gone_idle gone)).2] at own
  rw [← r.arrived_plan] at sender
  exact (Run.retained_parts (List.mem_filter.mp own).1 sender).2 ((r.arrived_cancelled i).mpr gone)

end Ticks
end Run

namespace Engine.Shows
variable {e : Engine} (shows : e.Shows t r) (indexed : r.plan.Indexed) (step : e.tick = .ok e')
include shows indexed step

theorem tick_changes (shows' : e'.Shows t' r') (ticks : r.Ticks t ps ws t' r')
    (changed : r'.board.get? key ≠ r.board.get? key) :
    (∃ q ∈ r'.delivered, key = Blackboard.activationKey (r.plan.actionId q.target)) ∨
      ∃ j a, r.plan.action? j = some a ∧ a.writes? = some key ∧ Turn.completes ⟨r, r'⟩ j = true := by
  by_cases unwritten : r.Unwritten key r'
  · refine .inl (Classical.byContradiction fun none => changed ?_)
    rw [shows.tick_unwritten indexed step shows' unwritten]
    refine Run.arrived_apart fun q member same => none ⟨q, ?_, same⟩
    rwa [ticks.delivered, ← Run.arrived_delivered]
  · simp only [Run.Unwritten, Classical.not_forall] at unwritten
    obtain ⟨j, a, there, writes, completed, left⟩ := unwritten
    exact .inr ⟨j, a, there, writes, by simp [Turn.completes, completed, left]⟩

theorem tick_effects : ∃ sent, e'.effects.toList = e.effects.toList ++ sent ∧
    ∀ made ∈ sent, ∃ j a, r.plan.action? j = some a ∧ r.arrived.phase j = .running ∧
      made.action? = some a.id := by
  obtain ⟨last, sent, passes, hands, _⟩ :=
    Engine.pass_hands (show e.host.listening.log = true from rfl) t indexed
  simp only [Engine.tick, shows.isOpen, shows.run, shows.stages, Bool.false_eq_true, if_false,
    Engine.pass_listening e.host, passes, Except.ok.injEq] at step
  subst step
  refine ⟨sent.filter e.host.keeps, by simp [Engine.record], fun made member => ?_⟩
  have handed := (List.mem_filter.mp member).1
  rw [hands] at handed
  obtain ⟨kind, _, later⟩ := List.mem_flatMap.mp handed
  obtain ⟨j, runs, here⟩ := List.mem_flatMap.mp later
  obtain ⟨a, there, _⟩ := Run.running_action (r.arrived_plan ▸ indexed) runs
  rw [r.arrived_plan] at there
  rw [Graph.handsAt_eq there] at here
  exact ⟨j, a, there, of_decide_eq_true (List.mem_filter.mp runs).2, Action.hands_action here⟩

end Engine.Shows

structure Silenced (e : Engine) (r : Run) (i : Nat) (c : Chronicle) : Prop where
  cancelled : ∃ now, c.engine.run = some now ∧ now.plan = r.plan ∧ now.phase i = .cancelled
  turns : ∀ turn ∈ c.turns, turn.Without i
  arrivals : c.engine.arrivals i = e.arrivals i
  fires : c.engine.fires i = e.fires i
  outcome : c.engine.outcome? i = e.outcome? i
  effects : ∃ sent, c.engine.effects.toList = e.effects.toList ++ sent ∧
    ∀ made ∈ sent, made.action? ≠ some (r.plan.actionId i)

theorem Engine.Shows.tick_without {e : Engine} (shows : e.Shows t r) (indexed : r.plan.Indexed)
    (gone : r.phase i = .cancelled) (step : e.tick = .ok e') (shows' : e'.Shows t' r')
    (ticks : r.Ticks t ps ws t' r') : Turn.Without ⟨r, r'⟩ i where
  unsent := ticks.gone_unsent gone indexed
  unheld := ticks.gone_unheld gone indexed
  undelivered := ticks.gone_undelivered gone
  unwritten key changed := by
    rw [ticks.plan]
    rcases shows.tick_changes indexed step shows' ticks changed with ⟨q, member, same⟩ | wrote
    · refine .inl ⟨q, member, fun target => ?_, same⟩
      have here : q ∈ r'.deliveredTo i := List.mem_filter.mpr ⟨member, decide_eq_true target⟩
      rw [ticks.gone_undelivered gone] at here
      cases here
    · obtain ⟨j, a, there, writes, completes⟩ := wrote
      refine .inr ⟨j, a, ?_, there, writes, completes⟩
      rintro rfl
      simp [Turn.completes, ticks.gone_stays gone] at completes

namespace Silenced

theorem next {e : Engine} {c c' : Chronicle} (silenced : Silenced e r i c)
    (registered : Registered c.engine) (isAction : r.plan.action? i = some a)
    (step : c.next s = .ok c') : Silenced e r i c' := by
  obtain ⟨⟨now, loaded, plan, gone⟩, turns, arrivals, fires, outcome, sent, effects, others⟩ := silenced
  obtain ⟨e', obeys, rfl⟩ := Chronicle.next_parts step
  by_cases isTick : s = .tick
  · subst isTick
    obtain ⟨t, shows, indexed⟩ := registered.shows (Engine.tick_parts obeys).1 loaded
    obtain ⟨_, ps, ws, t', r', ticks, shows', takes⟩ := shows.tick indexed
    cases obeys.symm.trans ticks
    have without := shows.tick_without indexed gone ticks shows' takes
    obtain ⟨sameArrivals, sameFires, sameOutcome⟩ := takes.gone_counts gone
    obtain ⟨more, adds, made⟩ := shows.tick_effects indexed ticks
    refine ⟨⟨r', shows'.run, takes.plan.trans plan, takes.gone_stays gone⟩, ?_, ?_, ?_, ?_, sent ++ more,
      ?_, ?_⟩
    · intro turn member
      rw [loaded, shows'.run] at member
      rcases List.mem_append.mp member with early | last
      · exact turns turn early
      · cases List.mem_singleton.mp last
        exact without
    · rw [← arrivals, shows'.arrivals, shows.arrivals, sameArrivals]
    · rw [← fires, shows'.fires, shows.fires, sameFires]
    · rw [← outcome, shows'.outcome?, shows.outcome?, sameOutcome]
    · rw [adds, effects, List.append_assoc]
    · intro effect member
      rcases List.mem_append.mp member with early | last
      · exact others effect early
      · obtain ⟨j, b, there, running, by_⟩ := made effect last
        rw [by_, Plan.actionId_eq isAction, ne_eq, Option.some.injEq]
        intro same
        have here : j = i := Plan.same_position indexed there (plan ▸ isAction) same
        rw [here, (now.arrived_cancelled i).mpr gone] at running
        cases running
  · obtain ⟨same, run⟩ := Engine.obey_parts isTick obeys
    have heeds := now.heed_heeds s
    rw [Chronicle.turnOf_quiet isTick, List.append_nil]
    refine ⟨⟨now.heed s, by rw [run, loaded, Option.map_some], heeds.plan.trans plan, ?_⟩, turns, ?_, ?_,
      ?_, sent, ?_, others⟩
    · rw [heeds.final (by rw [gone]; rfl), gone]
    · rw [← arrivals, Engine.arrivals, same, Engine.arrivals]
    · rw [← fires, Engine.fires, same, Engine.fires]
    · rw [← outcome, Engine.outcome?, same, Engine.outcome?]
    · rw [Engine.obey_effects isTick obeys, effects]

theorem attendAll {e : Engine} {c : Chronicle} {script : List Signal} (silenced : Silenced e r i c)
    (registered : Registered c.engine) (isAction : r.plan.action? i = some a) :
    Silenced e r i (script.foldl Chronicle.attend c) := by
  induction script generalizing c with
  | nil => exact silenced
  | cons s rest ih =>
    rw [List.foldl_cons]
    cases step : c.next s with
    | error refusal => simpa [Chronicle.attend, step] using ih silenced registered
    | ok c' =>
      obtain ⟨e', obeys, same⟩ := Chronicle.next_parts step
      have registered' : Registered c'.engine := by
        rw [same]
        exact registered.obey obeys
      simpa [Chronicle.attend, step] using ih (silenced.next registered isAction step) registered'

end Silenced

def Run.cancelled (r : Run) (i : Nat) (s : Status) : Run :=
  { r with
    statuses := r.statuses.set i { s with phase := .cancelled, age := 0 }
    lastChange := r.tick }

theorem Run.cancel_eq {r : Run} (there : r.statuses[i]? = some s) (left : s.phase.isTerminal = false) :
    r.cancel i = (r.cancelled i s, true) := by
  have differ : s.phase ≠ .cancelled := by
    intro cancelled
    rw [cancelled] at left
    cases left
  have entered : s.enter .cancelled = { s with phase := .cancelled, age := 0 } := if_neg differ
  have set : r.statuses.modify i (·.enter .cancelled) = r.statuses.set i (s.enter .cancelled) := by
    rw [List.modify_eq_set_getElem?, there]
    rfl
  rw [cancel, setPhase_other there left differ, modifyStatus, set, entered]
  rfl

theorem Run.cancelled_phase {r : Run} (there : r.statuses[i]? = some s) :
    (r.cancelled i s).phase i = .cancelled := by
  have inside := (List.getElem?_eq_some_iff.mp there).1
  have stands : (r.cancelled i s).statuses[i]? = some { s with phase := .cancelled, age := 0 } :=
    List.getElem?_set_self inside
  exact phase_of stands

namespace Engine

section Cancelling
variable {e : Engine} (registered : Registered e) (loaded : e.run = some r)
include registered loaded

-- Either the id names an action that has not ended, and this one is cancelled, or nothing happens.
theorem cancel_parts (id : String) :
    (∃ i a s, r.plan.action? i = some a ∧ a.id = id ∧ r.statuses[i]? = some s ∧
      s.phase.isTerminal = false ∧ e.cancel id = .ok ({ e with run := some (r.cancelled i s) }, true)) ∨
    (∀ i a, r.plan.action? i = some a → a.id = id → (r.phase i).isTerminal = true) ∧
      e.cancel id = .ok (e, false) := by
  obtain ⟨indexed, sized⟩ := registered.whole loaded
  have same : ({ e with run := some r } : Engine) = e := by rw [← loaded]
  simp only [cancel, onRun, loaded]
  cases found : r.plan.indexOf? id with
  | none =>
    refine .inr ⟨fun i a there named => ?_, by simp only [same]⟩
    have here := (indexed.position id i).mpr (by rw [there, Option.map_some, named])
    cases found.symm.trans here
  | some i =>
    obtain ⟨a, there, named⟩ := Option.map_eq_some_iff.mp ((indexed.position id i).mp found)
    have inside := (List.getElem?_eq_some_iff.mp there).1
    rw [← sized] at inside
    have status := List.getElem?_eq_getElem inside
    generalize r.statuses[i] = s at status
    cases final : s.phase.isTerminal with
    | true =>
      refine .inr ⟨fun j b here alike => ?_, ?_⟩
      · rw [Plan.same_position indexed here there (alike.trans named.symm), Run.phase_of status, final]
      · simp only [Run.phase_of status, final, if_true, same]
    | false =>
      refine .inl ⟨i, a, s, there, named, status, final, ?_⟩
      simp only [Run.phase_of status, final, Run.cancel_eq status final, Bool.false_eq_true, if_false]

-- Cancelling succeeds for an action that has not ended, and then only its phase, its timer and the date
-- of the last change are others than before. Whatever a host does in that load afterwards, the action
-- stays out of it.
theorem cancel_is_isolated (id : String) : ∃ e' done, e.cancel id = .ok (e', done) ∧
    (done = true ↔ ∃ i a, r.plan.action? i = some a ∧ a.id = id ∧ (r.phase i).isTerminal = false) ∧
    (done = false → e' = e) ∧
    (done = true → ∃ i a s, r.plan.action? i = some a ∧ a.id = id ∧ r.statuses[i]? = some s ∧
      e' = { e with run := some (r.cancelled i s) } ∧
      ∀ script : List Signal, ∃ c, c = script.foldl Chronicle.attend ⟨e', []⟩ ∧
        (e.closed = false → (⟨e', []⟩ : Chronicle).play script = .ok c) ∧ Silenced e r i c) := by
  rcases cancel_parts registered loaded id with ⟨i, a, s, there, named, status, left, cancels⟩ | refused
  · have registered' : Registered { e with run := some (r.cancelled i s) } :=
      registered.obey (s := .cancel id) (by rw [obey, cancels]; rfl)
    have start : Silenced e r i ⟨{ e with run := some (r.cancelled i s) }, []⟩ := {
      cancelled := ⟨_, rfl, rfl, Run.cancelled_phase status⟩
      turns := by simp
      arrivals := rfl
      fires := rfl
      outcome := rfl
      effects := ⟨[], by simp, by simp⟩ }
    refine ⟨_, true, cancels, iff_of_true rfl ⟨i, a, there, named, ?_⟩, Bool.noConfusion, fun _ => ?_⟩
    · rw [Run.phase_of status, left]
    · refine ⟨i, a, s, there, named, status, rfl, fun script => ⟨_, rfl, fun isOpen => ?_, ?_⟩⟩
      · exact Chronicle.play_attend registered' isOpen rfl script
      · exact start.attendAll registered' there
  · obtain ⟨ended, cancels⟩ := refused
    refine ⟨e, false, cancels, iff_of_false Bool.false_ne_true ?_, fun _ => rfl, Bool.noConfusion⟩
    rintro ⟨i, a, there, named, left⟩
    rw [ended i a there named] at left
    cases left

end Cancelling

-- A bell that was rung once, with one pulse on its way and one that waits for a tag.
def chime : Graph where
  actions := [{ id := "start", kind := Action.startKind },
    { id := "bell", kind := Trigger.kind, properties :=
      (Keyed.empty.insert "event" (.text "ring")).insert "repeat" (.bool true) },
    { id := "near", kind := Log.kind, properties := Keyed.empty.insert "message" (.text "near") },
    { id := "far", kind := Log.kind, properties := Keyed.empty.insert "message" (.text "far") }]
  edges := [{ source := "start", target := "bell" }, { source := "bell", target := "near" },
    { source := "bell", target := "far", guard := some (.tag "open") }]

def chimeEngine : Engine :=
  [.load chime, .signal .tick, .signal .tick, .signal (.raise "ring"), .signal .tick].foldl serve
    { ofConfig .all {} with stages := Stage.standard, locked := true }

theorem chimeEngine_registered : Registered chimeEngine := by
  apply Registered.intro .all {} []
  rw [List.foldl_nil, register, Stage.standard_sorted]
  rfl

def chimeScript : List Signal := [.setTag "open", .raise "ring", .tick, .raise "ring", .tick]

theorem chime_cancelled : chimeEngine.queues = some (1, 1) ∧ chimeEngine.fires 1 = 1 ∧
    ∃ e' c, chimeEngine.cancel "bell" = .ok (e', true) ∧ e'.queues = some (1, 1) ∧
      (⟨e', []⟩ : Chronicle).play chimeScript = .ok c ∧ c.engine.queues = some (0, 0) ∧
      c.engine.fires 1 = 1 ∧ (c.engine.run.map fun r => r.phase 2) = some .completed ∧
      ∀ turn ∈ c.turns, turn.Without 1 := by
  refine ⟨by decide +kernel, by decide +kernel, ?_⟩
  obtain ⟨r, loaded⟩ : ∃ r, chimeEngine.run = some r := ⟨_, rfl⟩
  obtain ⟨e', done, cancels, _, _, silences⟩ := cancel_is_isolated chimeEngine_registered loaded "bell"
  have answer : (chimeEngine.cancel "bell").map (fun p => (p.1.queues, p.2)) = .ok (some (1, 1), true) := by
    decide +kernel
  have course : ((chimeEngine.cancel "bell").bind fun p =>
      ((⟨p.1, []⟩ : Chronicle).play chimeScript).map fun c => (c.engine.queues, c.engine.fires 1,
        c.engine.run.map fun r => r.phase 2)) = .ok (some (0, 0), 1, some .completed) := by
    decide +kernel
  have position : chimeEngine.run.bind (fun r => r.plan.indexOf? "bell") = some 1 := by decide +kernel
  rw [loaded, Option.bind_some] at position
  rw [cancels] at answer course
  obtain ⟨held, rfl⟩ := Prod.mk.inj (Except.ok.inj answer)
  obtain ⟨i, a, s, there, named, _, same, after⟩ := silences rfl
  obtain ⟨c, _, plays, silenced⟩ := after chimeScript
  have plays := plays (by decide +kernel)
  rw [Except.bind, plays] at course
  obtain ⟨drained, rest⟩ := Prod.mk.inj (Except.ok.inj course)
  obtain ⟨rung, heard⟩ := Prod.mk.inj rest
  have indexed := (chimeEngine_registered.whole loaded).1
  cases position.symm.trans ((indexed.position "bell" i).mpr (by rw [there, Option.map_some, named]))
  exact ⟨e', c, cancels, held, plays, drained, rung, heard, silenced.turns⟩

end Engine
end ActionGraph
