import ActionGraph.Proofs.Completion
import ActionGraph.Proofs.Handover
import ActionGraph.Proofs.Stillness
-- Completion is final. Once every action has ended, what is still on its way is dropped, what was held
-- back is let go and what has not sent yet sends, but nothing that a host can see comes of it.
namespace ActionGraph

namespace Run

theorem allTerminal_phases (r : Run) :
    r.allTerminal = (r.statuses.map (·.phase)).all Phase.isTerminal := by
  rw [allTerminal, List.all_map]
  rfl

structure Stands (r r' : Run) : Prop where
  plan : r'.plan = r.plan
  phases : r'.statuses.map (·.phase) = r.statuses.map (·.phase)
  board : r'.board = r.board
  log : r'.log = r.log
  lastChange : r'.lastChange = r.lastChange

namespace Stands

theorem calm {r r' : Run} (same : (r'.plan, r'.statuses, r'.board, r'.log, r'.lastChange) =
    (r.plan, r.statuses, r.board, r.log, r.lastChange)) : r.Stands r' := by
  simp only [Prod.mk.injEq] at same
  obtain ⟨plan, statuses, board, log, lastChange⟩ := same
  exact ⟨plan, by rw [statuses], board, log, lastChange⟩

theorem trans {a b c : Run} (ab : a.Stands b) (bc : b.Stands c) : a.Stands c where
  plan := bc.plan.trans ab.plan
  phases := bc.phases.trans ab.phases
  board := bc.board.trans ab.board
  log := bc.log.trans ab.log
  lastChange := bc.lastChange.trans ab.lastChange

theorem allTerminal {r r' : Run} (stands : r.Stands r') : r'.allTerminal = r.allTerminal := by
  rw [allTerminal_phases, allTerminal_phases, stands.phases]

end Stands

theorem markPropagated_stands (r : Run) (i : Nat) : r.Stands (r.markPropagated i) where
  plan := rfl
  phases := by
    apply List.ext_getElem?
    intro j
    simp only [markPropagated, modifyStatus, List.getElem?_map, List.getElem?_modify]
    by_cases same : i = j
    · simp [same, Function.comp_def]
    · simp [same]
  board := rfl
  log := rfl
  lastChange := rfl

theorem endTick_stands (r : Run) : r.Stands r.endTick where
  plan := rfl
  phases := by
    rw [endTick, List.map_map]
    rfl
  board := rfl
  log := rfl
  lastChange := rfl

section Complete
variable {r : Run} (complete : r.allTerminal = true)
include complete

theorem ended {i : Nat} (there : r.statuses[i]? = some s) : s.phase.isTerminal = true :=
  List.all_eq_true.mp complete s (List.mem_of_getElem? there)

theorem undriven_of_complete : r.Undriven := by
  intro kind _ i _ driven
  have active := driven.isActive
  obtain ⟨s, there, same⟩ := status_of_phase (r := r) (i := i) fun idle => by
    rw [idle] at active
    cases active
  have final := ended complete there
  rw [same, isTerminal_of_isActive active] at final
  cases final

theorem deliver_ended (p : Pulse) : r.deliver p = (r, false) := by
  cases there : r.statuses[p.target]? with
  | none => simp only [deliver, there]
  | some s => simp only [deliver, there, ended complete there, if_true]

theorem cancel_ended (i : Nat) : (if (r.phase i).isTerminal then (r, false) else r.cancel i) =
    (r, false) := by
  cases there : r.statuses[i]? with
  | none => simp [cancel, setPhase, there]
  | some s => rw [phase_of there, ended complete there, if_pos rfl]

theorem heed_stands (aside : ∀ a, s ≠ .board a) : r.Stands (r.heed s) := by
  cases s with
  | board a => exact (aside a rfl).elim
  | cancel id =>
    cases found : r.plan.indexOf? id with
    | none =>
      rw [heed, found]
      exact .calm rfl
    | some i =>
      have same : r.heed (.cancel id) = r := by
        have same := congrArg Prod.fst (cancel_ended complete i)
        simp only [heed, found]
        rwa [apply_ite Prod.fst] at same
      rw [same]
      exact .calm rfl
  | tick | raise | setTag | clearTag | host | enableHistory | disableHistory => exact .calm rfl

end Complete
end Run

namespace Delivery

structure Forwards (s s' : Delivery × Run) : Prop where
  stands : s.2.Stands s'.2
  delivered : s'.2.delivered = s.2.delivered
  counted : s'.1.delivered = s.1.delivered

theorem propagateOne_forwards (s : Delivery × Run) (i : Nat) : Forwards s (propagateOne s i) := by
  unfold propagateOne
  split
  · exact ⟨.calm rfl, rfl, rfl⟩
  · split
    · have emits : s.2.Stands (s.2.emitDefault i).1 := .calm rfl
      exact ⟨emits.trans (Run.markPropagated_stands _ i), rfl, rfl⟩
    · exact ⟨.calm rfl, rfl, rfl⟩

theorem propagateAll_forwards (t : Delivery) (r : Run) : Forwards (t, r) (propagateAll t r) := by
  unfold propagateAll
  generalize (t, r) = s
  induction List.range r.statuses.length generalizing s with
  | nil => exact ⟨.calm rfl, rfl, rfl⟩
  | cons i rest ih =>
    have first := propagateOne_forwards s i
    have later := ih (propagateOne s i)
    exact ⟨first.stands.trans later.stands, later.delivered.trans first.delivered,
      later.counted.trans first.counted⟩

theorem update_forwards (t : Delivery) {r : Run} (complete : r.allTerminal = true) :
    Forwards (t, { r with delivered := [] }) (t.update r.beginTick) := by
  have dropped : deliverAll t r.beginTick = (t, { r.beginTick with pending := [], delivered := [] }) := by
    refine foldl_skips fun p _ => ?_
    have refused := Run.deliver_ended (r := { r.beginTick with pending := [], delivered := [] }) complete p
    simp only [deliverOne, refused]
  have sends := propagateAll_forwards t
    ({ r.beginTick with pending := [], delivered := [] } : Run).releaseDeferred
  have releases : ({ r with delivered := [] } : Run).Stands
      ({ r.beginTick with pending := [], delivered := [] } : Run).releaseDeferred := .calm rfl
  rw [update, dropped]
  exact ⟨releases.trans sends.stands, sends.delivered, sends.counted⟩

end Delivery

def Stage.uncounted : Stage → Stage
  | delivery t => delivery { t with propagated := 0 }
  | s => s

theorem pass_complete (host : Host) (t : Tables) {r : Run} (complete : r.allTerminal = true) :
    ∃ stages r', Engine.pass host t.stages r.beginTick = (stages, r', []) ∧
      stages.map Stage.uncounted = t.stages.map Stage.uncounted ∧ r.Stands r' ∧ r'.delivered = [] := by
  obtain ⟨stands, delivered, counted⟩ := t.moved.update_forwards complete
  have begins : r.Stands { r with delivered := [] } := .calm rfl
  have still : r.Stands (t.moved.update r.beginTick).2 := begins.trans stands
  have rest := pass_undriven (Run.undriven_of_complete (still.allTerminal.trans complete)) host t
  refine ⟨.delivery (t.moved.update r.beginTick).1 :: t.stages.tail, _, ?_, ?_, still, delivered⟩
  · rw [Tables.stages, List.tail_cons] at rest ⊢
    rw [pass_cons, update_delivery, rest]
    rfl
  · have same : (Stage.delivery (t.moved.update r.beginTick).1).uncounted =
        (Stage.delivery t.moved).uncounted := by simp only [Stage.uncounted, counted]
    exact congrArg (· :: t.stages.tail.map Stage.uncounted) same

namespace Engine

theorem Shows.tick_complete {e : Engine} (shows : e.Shows t r) (complete : r.allTerminal = true) :
    ∃ e' r', e.tick = .ok e' ∧ e'.run = some r' ∧ r.Stands r' ∧ r'.delivered = [] ∧
      e'.stages.map Stage.uncounted = e.stages.map Stage.uncounted ∧ e'.effects = e.effects := by
  obtain ⟨stages, r', passes, counted, stands, delivered⟩ := pass_complete e.host t complete
  simp only [Engine.tick, shows.isOpen, shows.run, shows.stages, passes, Bool.false_eq_true, if_false]
  refine ⟨_, r'.endTick, rfl, rfl, stands.trans r'.endTick_stands, delivered, counted, ?_⟩
  simp [record]

section Complete
variable {e : Engine} (loaded : e.run = some r) (complete : r.allTerminal = true)
include loaded complete

theorem cancel_complete (id : String) : e.cancel id = .ok (e, false) := by
  have same : ({ e with run := some r } : Engine) = e := by rw [← loaded]
  simp only [cancel, onRun, loaded]
  cases found : r.plan.indexOf? id with
  | none => simp only [same]
  | some i => simp only [Run.cancel_ended complete i, same]

theorem runUntilComplete_complete (budget : Nat) : e.runUntilComplete budget = .ok (e, 0) := by
  have ended : e.isComplete = true := by rw [isComplete, loaded]; exact complete
  cases budget <;> simp [runUntilComplete, loaded, runFrom, ended]

end Complete
end Engine

theorem Registered.obey (registered : Registered e) (obeys : e.obey s = .ok e') : Registered e' := by
  obtain @⟨e, host, config, before, since, registers⟩ := registered
  have served := Registered.intro host config before (since ++ [.signal s]) registers
  rwa [List.foldl_append, List.foldl_cons, Engine.serve, obeys] at served

def Engine.queues (e : Engine) : Option (Nat × Nat) :=
  e.run.map fun r => (r.pending.length, r.deferred.length)

namespace Chronicle

def attend (c : Chronicle) (s : Signal) : Chronicle :=
  match c.next s with
  | .error _ => c
  | .ok c' => c'

-- What becomes of an engine with the run given, once every action has ended.
structure Aftermath (e : Engine) (r : Run) (c : Chronicle) : Prop where
  registered : Registered c.engine
  state : ∃ r', c.engine.run = some r' ∧ r.Stands r'
  stages : c.engine.stages.map Stage.uncounted = e.stages.map Stage.uncounted
  effects : c.engine.effects = e.effects
  silent : ∀ turn ∈ c.turns, turn.after.delivered = []

namespace Aftermath

theorem next {c c' : Chronicle} (aftermath : Aftermath e r c) (complete : r.allTerminal = true)
    (aside : ∀ a, s ≠ .board a) (step : c.next s = .ok c') : Aftermath e r c' := by
  obtain ⟨registered, ⟨now, loaded, stands⟩, stages, effects, silent⟩ := aftermath
  have ended := stands.allTerminal.trans complete
  obtain ⟨e', obeys, rfl⟩ := next_parts step
  by_cases isTick : s = .tick
  · subst isTick
    obtain ⟨t, shows, _⟩ := registered.shows (Engine.tick_parts obeys).1 loaded
    obtain ⟨_, r', ticks, loaded', kept, quiet, counted, unheard⟩ := shows.tick_complete ended
    cases obeys.symm.trans ticks
    refine ⟨registered.obey obeys, ⟨r', loaded', stands.trans kept⟩, counted.trans stages,
      unheard.trans effects, ?_⟩
    intro turn member
    rcases List.mem_append.mp member with early | last
    · exact silent turn early
    · rw [loaded, loaded'] at last
      cases List.mem_singleton.mp last
      exact quiet
  · obtain ⟨same, run⟩ := Engine.obey_parts isTick obeys
    rw [turnOf_quiet isTick, List.append_nil]
    refine ⟨registered.obey obeys, ⟨now.heed s, ?_, stands.trans (Run.heed_stands ended aside)⟩,
      same ▸ stages, (Engine.obey_effects isTick obeys).trans effects, silent⟩
    rw [run, loaded, Option.map_some]

theorem attendAll {c : Chronicle} {script : List Signal} (aftermath : Aftermath e r c)
    (complete : r.allTerminal = true) (aside : ∀ s ∈ script, ∀ a, s ≠ .board a) :
    Aftermath e r (script.foldl attend c) := by
  induction script generalizing c with
  | nil => exact aftermath
  | cons s rest ih =>
    refine ih ?_ fun s member => aside s (List.mem_cons_of_mem _ member)
    unfold attend
    cases step : c.next s with
    | error refusal => exact aftermath
    | ok c' => exact aftermath.next complete (aside s List.mem_cons_self) step

end Aftermath

theorem play_attend {c : Chronicle} (registered : Registered c.engine) (isOpen : c.engine.closed = false)
    (loaded : c.engine.run = some r) (script : List Signal) :
    c.play script = .ok (script.foldl attend c) := by
  induction script generalizing c r with
  | nil => rfl
  | cons s rest ih =>
    obtain ⟨t, shows, indexed⟩ := registered.shows isOpen loaded
    obtain ⟨c', _, _, step, shows', _⟩ := next_leads shows indexed s
    have attends : c.attend s = c' := by rw [attend, step]
    obtain ⟨e', obeys, rfl⟩ := next_parts step
    rw [play, step, List.foldl_cons, attends]
    exact ih (registered.obey obeys) shows'.isOpen shows'.run

-- Completion is final and silent. Short of writing to the blackboard, nothing that a host does then
-- leaves a trace but in the queues and in the count of what the default propagation sent.
theorem completion_is_final (registered : Registered e) (loaded : e.run = some r)
    (complete : e.isComplete = true) {script : List Signal} (aside : ∀ s ∈ script, ∀ a, s ≠ .board a) :
    ∃ c r', c = script.foldl attend ⟨e, []⟩ ∧
      (e.closed = false → (⟨e, []⟩ : Chronicle).play script = .ok c) ∧
      c.engine.run = some r' ∧ r.Stands r' ∧ (∀ turn ∈ c.turns, turn.after.delivered = []) ∧
      c.engine.stages.map Stage.uncounted = e.stages.map Stage.uncounted ∧
      c.engine.effects = e.effects ∧ (∀ id, c.engine.cancel id = .ok (c.engine, false)) ∧
      ∀ budget, c.engine.runUntilComplete budget = .ok (c.engine, 0) := by
  have ended : r.allTerminal = true := by rwa [Engine.isComplete, loaded, Option.any_some] at complete
  have start : Aftermath e r ⟨e, []⟩ :=
    ⟨registered, ⟨r, loaded, .calm rfl⟩, rfl, rfl, fun _ member => by cases member⟩
  obtain ⟨_, ⟨r', loaded', stands⟩, stages, effects, silent⟩ := start.attendAll ended aside
  have ended' := stands.allTerminal.trans ended
  exact ⟨_, r', rfl, fun isOpen => play_attend registered isOpen loaded script, loaded', stands, silent,
    stages, effects, Engine.cancel_complete loaded' ended',
    Engine.runUntilComplete_complete loaded' ended'⟩

-- A log and a fork behind the start, which all end by the second tick. The pulses that lead back to
-- the start come too late, and so does the guarded one.
def leftovers : Graph where
  actions := [{ id := "start", kind := Action.startKind }, { id := "fork", kind := Action.fanoutKind },
    { id := "note", kind := Log.kind, properties := Keyed.empty.insert "message" (.text "done") }]
  edges := [{ source := "start", target := "fork" }, { source := "start", target := "note" },
    { source := "fork", target := "start" }, { source := "note", target := "start" },
    { source := "start", target := "note", guard := some (.tag "open") }]

def leftoversEngine : Engine :=
  [.load leftovers, .signal .tick, .signal .tick].foldl Engine.serve
    { Engine.ofConfig .all {} with stages := Stage.standard, locked := true }

theorem leftoversEngine_registered : Registered leftoversEngine := by
  apply Registered.intro .all {} []
  rw [List.foldl_nil, Engine.register, Stage.standard_sorted]
  rfl

def leftoversScript : List Signal := [.tick, .setTag "open", .cancel "note", .tick, .raise "ring", .tick]

theorem leftovers_end_silently : leftoversEngine.queues = some (1, 1) ∧
    ∃ c r', (⟨leftoversEngine, []⟩ : Chronicle).play leftoversScript = .ok c ∧
      c.engine.run = some r' ∧ (∀ r, leftoversEngine.run = some r → r.Stands r') ∧
      (∀ turn ∈ c.turns, turn.after.delivered = []) ∧
      c.engine.effects = leftoversEngine.effects ∧ c.engine.cancel "note" = .ok (c.engine, false) ∧
      c.engine.runUntilComplete 5 = .ok (c.engine, 0) ∧ c.engine.queues = some (0, 0) := by
  refine ⟨by decide +kernel, ?_⟩
  obtain ⟨r, loaded⟩ : ∃ r, leftoversEngine.run = some r := ⟨_, rfl⟩
  have aside : ∀ s ∈ leftoversScript, ∀ a, s ≠ .board a := by simp [leftoversScript]
  obtain ⟨c, r', _, plays, run, stands, silent, _, effects, cancel, budget⟩ :=
    completion_is_final leftoversEngine_registered loaded (by decide +kernel) aside
  have drained : ((⟨leftoversEngine, []⟩ : Chronicle).play leftoversScript).map (·.engine.queues) =
      .ok (some (0, 0)) := by decide +kernel
  rw [plays rfl] at drained
  refine ⟨c, r', plays rfl, run, fun r₀ same => ?_, silent, effects, cancel _, budget 5,
    Except.ok.inj drained⟩
  cases loaded.symm.trans same
  exact stands

end Chronicle
end ActionGraph
