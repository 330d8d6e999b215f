import ActionGraph.Proofs.Course
import ActionGraph.Proofs.Deferral
import ActionGraph.Proofs.Handover
-- Filters over whole runs. The tick that delivers to a filter decides it: everything that writes in
-- that tick has written, the outcome is read off the blackboard as it then stands, and the edges on
-- the port of the outcome are the only ones that the filter ever sends on.
namespace ActionGraph

def Blackboard.Finds (board : Blackboard) (id key : String) (v : Value) : Prop :=
  (∃ source, board.activatedBy? id = some source ∧ board.get? (scopedKey source key) = some v) ∨
    (∀ source, board.activatedBy? id = some source → board.get? (scopedKey source key) = none) ∧
      board.get? key = some v

namespace Action

def comparison (a : Action) : Comparison :=
  (((a.properties.get? "op").bind Value.text?).bind Comparison.read?).getD .equal

-- A filter lets through what it finds, if that compares with its target.
def Passes (a : Action) (board : Blackboard) : Prop :=
  ∃ target v, a.properties.get? "target" = some target ∧
    board.Finds a.id (a.reading Value.text? "key" "") v ∧ a.comparison.holds v target = true

end Action

namespace Filter

theorem lookup?_iff {r : Run} (there : r.plan.action? i = some a) :
    lookup? r i key = some v ↔ r.board.Finds a.id key v := by
  rw [lookup?, Plan.actionId_eq there, Blackboard.Finds]
  cases r.board.activatedBy? a.id with
  | none => simp
  | some source => cases entry : r.board.get? (Blackboard.scopedKey source key) <;> simp [entry]

theorem verdict_iff {r : Run} (there : r.plan.action? i = some a) :
    verdict r i = .pass ↔ a.Passes r.board := by
  have property : ∀ key, r.plan.property? i key = a.properties.get? key := fun key => by
    rw [Plan.property?, there, Option.bind_some]
  rw [verdict_pass]
  simp only [lookup?_iff there, Plan.reading_eq there, comparison, property, Action.Passes,
    Action.comparison]

end Filter

namespace Engine

def midway? (e : Engine) (last : Int) : Option Run :=
  e.run.map fun r => (pass e.host (e.stages.filter (·.order ≤ last)) r.beginTick).2.1

theorem Shows.midway? {e : Engine} (shows : e.Shows t r) :
    e.midway? (Stage.assign 0).order = some (t.written r) := by
  have early : t.stages.filter (·.order ≤ (Stage.assign 0).order) =
      [.delivery t.moved, .flow t.arrivals, .delay t.delays, .assign t.writes] := rfl
  rw [Engine.midway?, shows.run, shows.stages, early]
  simp only [Option.map_some, pass, update_delivery, update_flow, update_delay, update_assign,
    Tables.written]

end Engine

theorem Tables.written_plan (t : Tables) {r : Run} (indexed : r.plan.Indexed) :
    (t.written r).plan = r.plan := by
  have spares : r.arrived.Spares [] (t.written r) := t.written_spares indexed (List.forall_mem_nil _)
  exact spares.plan.trans r.arrived_plan

namespace Run

theorem open?_congr {r r' : Run} (keeps : r.Keeps r') (board : r'.board = r.board) (elapsed : Nat) :
    r'.open? elapsed = r.open? elapsed := by
  funext route
  rw [open?, open?, moment, moment, board, keeps.tags, keeps.raised]

namespace Decides
variable {t : Tables} {r r' : Run} {ws : List Work} (decides : r.Decides t ws r')
  (indexed : r.plan.Indexed)
include decides indexed

theorem judges (isFilter : r.plan.kind? f = some Filter.kind) (running : r.arrived.phase f = .running) :
    ∃ w ∈ ws, w.action = f ∧ (t.written r).Keeps w.run ∧ w.run.board = (t.written r).board := by
  have spares : r.arrived.Spares [Filter.kind] (t.written r) := t.written_spares indexed (by decide)
  obtain ⟨filters, _⟩ := decides
  have isKind : (t.written r).plan.kind? f = some Filter.kind := by
    rw [t.written_plan indexed, isFilter]
  have stands : (t.written r).phase f = .running := by
    rw [spares.phase Filter.kind List.mem_cons_self f (r.arrived_plan ▸ isFilter), running]
  have acts := (filters.acts f).mpr ⟨Filter.kind, List.mem_cons_self, isKind, .inl stands⟩
  obtain ⟨w, member, rfl⟩ := List.mem_map.mp acts
  obtain ⟨before, after, rfl⟩ := List.append_of_mem member
  refine ⟨w, by simp, rfl, filters.works.keeps_at member, filters.works.board fun v inside finishes => ?_⟩
  have early := List.mem_append_left (w :: after) inside
  obtain ⟨kind, known, same, _⟩ := (filters.acts v.action).mp (List.mem_map_of_mem early)
  have suits := filters.suits v early kind same
  rw [finishes, List.mem_singleton.mp known] at suits
  have loud : Filter.kind ∉ quietKinds := by decide
  exact loud suits

omit indexed in
theorem spares (apart : ∀ kind ∈ kinds, kind ∉ [Filter.kind, Trigger.kind, Spawn.kind, Warning.kind,
    Log.kind]) : (t.written r).Spares kinds r' := by
  obtain ⟨filters, rest⟩ := decides
  have done := (filters.append rest (by decide)).spares apart
  exact ⟨done.plan, done.tick, fun kind known i isKind =>
    (endTick_phase _ i).trans (done.phase kind known i isKind)⟩

theorem wrote (isAssign : r.plan.kind? j = some Assign.kind) : (t.written r).phase j = r'.phase j := by
  have isKind : (t.written r).plan.kind? j = some Assign.kind := by
    rw [t.written_plan indexed, isAssign]
  have spares : (t.written r).Spares [Assign.kind] r' := decides.spares (by decide)
  rw [spares.phase Assign.kind List.mem_cons_self j isKind]

end Decides

namespace Ticks
variable {t t' : Tables} {r r' : Run} {ps ws : List Work} (ticks : Ticks t r ps ws t' r')
include ticks

theorem reaches (there : r.statuses[j]? = some s) : r'.deliveredTo j ≠ [] ↔
    s.phase.isTerminal = false ∧ j ∈ r.pending.map Pulse.target := by
  rw [← List.length_pos_iff_ne_nil]
  constructor
  · intro some
    have left := (ticks.activated there some).1
    rw [ticks.deliveredTo there, left] at some
    obtain ⟨q, member⟩ := List.exists_mem_of_length_pos some
    obtain ⟨inside, target⟩ := List.mem_filter.mp member
    exact ⟨left, List.mem_map.mpr ⟨q, inside, of_decide_eq_true target⟩⟩
  · intro ⟨left, addressed⟩
    exact ticks.delivered_some there left addressed

theorem filter_completes (member : w ∈ ws) (isFilter : r.plan.kind? w.action = some Filter.kind)
    (unswept : w.action ∉ ps.map Work.action) : r'.phase w.action = .completed := by
  obtain ⟨s, there⟩ := ticks.acted member
  obtain ⟨s', after, fares⟩ := ticks.fares there
  rw [phase_of after]
  cases fares with
  | propagated _ swept => exact (unswept swept).elim
  | did inside acts =>
    rw [(ticks.filters inside (acts ▸ isFilter)).1]
    simp only [Deed.settle, Status.endTick_phase, Status.enter_phase]
  | left _ idle => exact (idle (List.mem_map_of_mem member)).elim

end Ticks
end Run

theorem Reached.unheld (reached : Reached g script t r turns) (unsent : ∀ port, t.emitted r i port = 0)
    (member : d ∈ r.deferred) : r.plan.sender? d ≠ some i := by
  intro sender
  obtain ⟨q, stands, rfl⟩ := Option.map_eq_some_iff.mp sender
  have account := reached.account q
  have waits : 0 < r.waiting q := List.countP_pos_iff.mpr ⟨d, member, decide_eq_true stands⟩
  rw [unsent, Nat.zero_mul] at account
  omega

theorem Tables.emitted_filter (t : Tables) {r : Run} (isFilter : r.plan.kind? f = some Filter.kind)
    (port : String) : t.emitted r f port = if r.statuses[f]?.any Status.isSpent = true ∧
      (t.outcomes.lookup f).map Outcome.port = some port then 1 else 0 := by
  have other : r.plan.kind? f ≠ some Trigger.kind := by
    rw [isFilter]
    decide
  rw [emitted, if_neg other, exit?, if_pos isFilter]

-- After a tick that runs a filter, the queues hold of it one entry for each edge on the port: in the
-- one queue where the guard of the edge held at the decision, and in the other where it did not.
structure Branches (mid r' : Run) (f : Nat) (port : String) : Prop where
  sent : r'.pending.filter (·.source = f) =
    ((mid.routesOn f port).filter fun t => mid.open? 0 t.2).map fun t => t.2.pulse
  armed : r'.deferred.filter (fun d => r'.plan.sender? d = some f) =
    ((mid.routesOn f port).filter fun t => !mid.open? 0 t.2).map fun t => ⟨t.1, r'.tick⟩

namespace Reached
variable {g : Graph} {f : Nat} {a : Action} (reached : Reached g script t r turns)
  (there : g.actions[f]? = some a) (isFilter : a.kind = Filter.kind)
include reached there isFilter

theorem filter_unheld (left : (r.phase f).isTerminal = false) :
    ∀ d ∈ r.deferred, r.plan.sender? d ≠ some f := by
  have isKind : r.plan.kind? f = some Filter.kind := by rw [reached.kind_of there, isFilter]
  refine fun d member => reached.unheld (fun port => ?_) member
  rw [t.emitted_filter isKind, if_neg]
  rintro ⟨spent, _⟩
  obtain ⟨s, found, sent⟩ := (Option.any_eq_true ..).mp spent
  rw [Run.phase_of found] at left
  rw [Status.isSpent, Bool.and_eq_true, decide_eq_true_eq] at sent
  rw [sent.1] at left
  cases left

theorem branches (ticks : r.Ticks t ps ws t' r') (decides : r.Decides t ws r')
    (delivered : r'.deliveredTo f ≠ []) : ∃ o, (o = .pass ↔ a.Passes (t.written r).board) ∧
      t'.outcomes.lookup f = some o ∧ r'.phase f = .completed ∧ Branches (t.written r) r' f o.port := by
  have action : r.plan.action? f = some a := by rw [Plan.action?, reached.graph, there]
  have isKind : r.plan.kind? f = some Filter.kind := by rw [reached.kind_of there, isFilter]
  have unswept : f ∉ ps.map Work.action := ticks.unswept_of_loud reached.settled isKind (by decide)
  obtain ⟨s, found⟩ := reached.found there
  obtain ⟨left, running⟩ := ticks.activated found (List.length_pos_iff.mpr delivered)
  have unheld := reached.filter_unheld there isFilter (by rw [Run.phase_of found, left])
  rw [← r.arrived_deferred, ← r.arrived_plan] at unheld
  obtain ⟨released, retained⟩ := Run.release_unheld unheld
  rw [r.arrived_plan] at retained
  rw [← Run.phase_of (Run.arrived_met found)] at running
  -- Other filters may have acted in between, but none of them writes.
  obtain ⟨w, member, rfl, keeps, board⟩ := decides.judges reached.indexed isKind running
  have whole := List.mem_append_right ps member
  obtain ⟨deed, recorded⟩ := ticks.filters member isKind
  have opens := Run.open?_congr keeps board 0
  rw [Filter.verdict_congr keeps.plan board w.action] at deed recorded
  have onMid : (t.written r).plan.action? w.action = some a := by
    rw [← keeps.plan, ticks.plan_at whole, action]
  have tick : w.run.tick = r'.tick := by rw [(ticks.keeps_at whole).tick, r.arrived_tick, ticks.tick]
  have routes : w.routes = (t.written r).routesOn w.action
      (Filter.verdict (t.written r) w.action).port := by
    simp only [Work.routes, deed, Deed.port?, Run.routesOn, keeps.plan]
  -- Nothing of the filter waited before, so all that the queues hold of it was put there by this deed.
  obtain ⟨pending, deferred⟩ := ticks.queues_single reached.indexed member unswept
  refine ⟨_, Filter.verdict_iff onMid, recorded, ticks.filter_completes member isKind unswept, ?_, ?_⟩
  · rw [pending, released, List.nil_append, Work.sent, routes, opens]
  · rw [ticks.plan, deferred, retained, List.nil_append, Work.armed, routes, opens, tick]

end Reached

-- The filter is through with the outcome given. Each edge on the port of the outcome was sent or waits,
-- exactly once, and no edge on another port was ever sent or armed.
structure Decided (g : Graph) (f : Nat) (o : Outcome) (c : Chronicle) : Prop where
  outcome : c.engine.outcome? f = some o
  emitted : ∃ r, c.engine.run = some r ∧ r.phase f = .completed ∧ ∀ q : Pulse, q.source = f →
    sentIn c.turns q + r.waiting q = if q.sourcePort = o.port then g.multiplicity q else 0

theorem Run.Settled.spent_of_loud (settled : Settled r) (isKind : r.plan.kind? i = some kind)
    (loud : kind ∉ quietKinds) (completed : r.phase i = .completed) :
    r.statuses[i]?.any Status.isSpent = true := by
  obtain ⟨s, there, same⟩ := status_of_phase (r := r) (i := i) (by rw [completed]; decide)
  rw [completed] at same
  rw [there, Option.any_some, Status.isSpent, same]
  cases sent : s.propagated with
  | true => rfl
  | false => exact (loud (settled.due i s kind there isKind (by simp [Status.isDue, same, sent]))).elim

theorem Reached.decided {c : Chronicle} (reached : Reached g script t r c.turns)
    (shows : c.engine.Shows t r) (isFilter : g.kind? f = some Filter.kind)
    (completed : r.phase f = .completed) (recorded : t.outcomes.lookup f = some o) :
    Decided g f o c where
  outcome := by rw [shows.outcome?, recorded]
  emitted := by
    have isKind : r.plan.kind? f = some Filter.kind := by rw [Plan.kind?, reached.graph, isFilter]
    have spent := reached.settled.spent_of_loud isKind (by decide) completed
    refine ⟨r, shows.run, completed, fun q source => ?_⟩
    subst source
    have account := reached.account q
    rw [reached.lapsed q.source (by rw [completed]; decide) q rfl, t.emitted_filter isKind, recorded,
      Nat.add_zero] at account
    simpa [spent, eq_comm] using account

theorem Leads.outcome (leads : Leads t r turns script t' r' turns')
    (ended : (r.phase j).isTerminal = true) : t'.outcomes.lookup j = t.outcomes.lookup j := by
  induction leads with
  | nowhere => rfl
  | heeded _ _ ih => exact ih
  | ticked prior ticks ih =>
    rw [ticks.outcomes (ticks.ended_idle (by rw [(prior.final ended).1, ended])), ih]

def gate : Action :=
  ⟨"gate", Filter.kind,
    ((∅ : Keyed Value).insert "key" (.text "mood")).insert "target" (.text "glad"), ∅⟩

def gated : Graph where
  actions := [⟨"start", Action.startKind, ∅, ∅⟩, ⟨"scribe", Assign.kind,
    (((∅ : Keyed Value).insert "key" (.text "mood")).insert "value" (.text "glad")).insert "global"
      (.bool true), ∅⟩, gate, ⟨"in", Action.endKind, ∅, ∅⟩, ⟨"out", Action.endKind, ∅, ∅⟩]
  edges := [⟨"start", "gate", "out", "in", none⟩, ⟨"start", "scribe", "out", "in", none⟩,
    ⟨"gate", "in", "pass", "in", some (.tag "open")⟩, ⟨"gate", "out", "reject", "in", none⟩]

namespace Chronicle

-- A filter decides in the tick that first delivers to it, and for good. Its outcome is told by the
-- blackboard in the middle of that tick, where whoever sets a value in it has done so.
theorem filter_decides (opens : Opens g e) (script : List Signal) (f : Nat) (a : Action)
    (there : g.actions[f]? = some a) (isFilter : a.kind = Filter.kind) : ∃ c r e' r',
    (⟨e, []⟩ : Chronicle).play script = .ok c ∧ c.engine.run = some r ∧
    c.engine.tick = .ok e' ∧ e'.run = some r' ∧
    (r'.deliveredTo f ≠ [] ↔ (r.phase f).isTerminal = false ∧ f ∈ r.pending.map Pulse.target) ∧
    (r'.deliveredTo f ≠ [] → ∃ mid o, c.engine.midway? (Stage.assign 0).order = some mid ∧
      (∀ j, g.kind? j = some Assign.kind → mid.phase j = r'.phase j) ∧
      (o = .pass ↔ a.Passes mid.board) ∧ r'.phase f = .completed ∧ e'.outcome? f = some o ∧
      (mid.routesOn f o.port).map Prod.fst = g.exits a.id o.port ∧ Branches mid r' f o.port ∧
      ∀ later, ∃ d, (⟨e, []⟩ : Chronicle).play (script ++ .tick :: later) = .ok d ∧
        Decided g f o d) := by
  obtain ⟨c, t, r, played, shows, reached⟩ := play_reached opens script
  obtain ⟨e', ps, ws, t', r', step, shows', ticks, decides⟩ := shows.tick_decides reached.indexed
  obtain ⟨s, found⟩ := reached.found there
  have known : g.kind? f = some Filter.kind := by rw [Graph.kind?, there, Option.map_some, isFilter]
  refine ⟨c, r, e', r', played, shows.run, step, shows'.run, ?_, fun delivered => ?_⟩
  · rw [Run.phase_of found]
    exact ticks.reaches found
  · obtain ⟨o, passes, recorded, completed, branches⟩ :=
      reached.branches there isFilter ticks decides delivered
    have plan := t.written_plan reached.indexed
    refine ⟨t.written r, o, shows.midway?, fun j isAssign => ?_, passes, completed, ?_, ?_, branches,
      fun later => ?_⟩
    · apply decides.wrote reached.indexed
      rw [Plan.kind?, reached.graph, isAssign]
    · rw [shows'.outcome?, recorded]
    · have indexed : (t.written r).plan.Indexed := by
        rw [plan]
        exact reached.indexed
      have action : (t.written r).plan.action? f = some a := by
        rw [plan, Plan.action?, reached.graph, there]
      rw [Run.routesOn_exits indexed action, plan, reached.graph]
    · have moved : c.next .tick = .ok ⟨e', c.turns ++ [⟨r, r'⟩]⟩ := by
        simp only [next, Engine.obey, step, shows.run, shows'.run, turnOf]
      obtain ⟨d, t'', r'', plays, shows'', leads⟩ :=
        play_leads (c := ⟨e', c.turns ++ [⟨r, r'⟩]⟩) shows' (reached.ticked ticks) later
      have ended : (r'.phase f).isTerminal = true := by rw [completed]; rfl
      refine ⟨d, ?_, ?_⟩
      · rw [play_append, played]
        simp only [play, moved, plays]
      · apply ((reached.ticked ticks).leads leads).decided shows'' known
        · rw [(leads.final ended).1, completed]
        · rw [leads.outcome ended, recorded]

theorem gated_decides : ∃ c r e' r' mid,
    (⟨(relayEngine.load gated).1, []⟩ : Chronicle).play [.tick] = .ok c ∧
    c.engine.run = some r ∧ r.board.get? "mood" = none ∧ c.engine.tick = .ok e' ∧ e'.run = some r' ∧
    c.engine.midway? (Stage.assign 0).order = some mid ∧ gate.Passes mid.board ∧
    r'.phase 2 = .completed ∧ r'.pending = [] ∧ Branches mid r' 2 "pass" ∧
    ∀ later, ∃ d,
      (⟨(relayEngine.load gated).1, []⟩ : Chronicle).play ([.tick] ++ .tick :: later) = .ok d ∧
      Decided gated 2 .pass d := by
  obtain ⟨c, r, e', r', played, loaded, step, after, _, decides⟩ :=
    filter_decides (g := gated) (e := (relayEngine.load gated).1) (.load relayEngine rfl rfl) [.tick] 2
      gate rfl rfl
  have course : ((⟨(relayEngine.load gated).1, []⟩ : Chronicle).play [.tick]).bind (fun c =>
      c.engine.tick.map fun e' => (c.engine.run.map fun r => r.board.get? "mood", e'.outcome? 2,
        e'.run.map fun r => (r.deliveredTo 2, r.pending))) =
      .ok (some none, some .pass, some ([⟨0, "out", 2, "in"⟩], [])) := by decide +kernel
  rw [played, Except.bind, step, Except.map, loaded, after] at course
  obtain ⟨unset, decided⟩ := Prod.mk.inj (Except.ok.inj course)
  obtain ⟨pass, ran⟩ := Prod.mk.inj decided
  obtain ⟨delivered, silent⟩ := Prod.mk.inj (Option.some.inj ran)
  obtain ⟨mid, o, written, _, passes, completed, outcome, _, branches, settles⟩ :=
    decides (by rw [delivered]; exact List.cons_ne_nil _ _)
  cases outcome.symm.trans pass
  exact ⟨c, r, e', r', mid, played, loaded, Option.some.inj unset, step, after, written, passes.mp rfl,
    completed, silent, branches, settles⟩

end Chronicle
end ActionGraph
