import ActionGraph.Proofs.Parallel
-- Two engines side by side, whose runs are twins. What is asked of both leaves them so, loading and
-- registering included, as long as no stage is a script: a script sees the reports and the graph.
namespace ActionGraph
open Run (Abreast)

theorem Run.load_plan (loads : Run.load g = .ok r) : r.plan.graph = g ∧ r.log = {} := by
  cases planned : Plan.ofGraph g with
  | error fault => rw [Run.load, planned] at loads; cases loads
  | ok p =>
    rw [Run.load, planned] at loads
    cases loads
    obtain ⟨_, _, same, _⟩ := Plan.ofGraph_parts planned
    exact ⟨same, rfl⟩

-- A graph is loaded as the other is, and read alike afterwards.
structure Graph.Replaces (g g' : Graph) : Prop extends g.Like g' where
  loads : Run.load g' = (Run.load g).map (·.under g' {})

theorem Graph.Replaces.refl (g : Graph) : g.Replaces g where
  toLike := .refl g
  loads := by
    cases loads : Run.load g with
    | error fault => rfl
    | ok r =>
      obtain ⟨same, empty⟩ := Run.load_plan loads
      subst same
      change Except.ok r = .ok { r with log := {} }
      rw [← empty]

def Request.Unscripted : Request → Prop
  | .register stages => ∀ s ∈ stages, s.isScript = false
  | .load _ | .signal _ | .perform _ | .runFor _ | .runToEnd | .shutdown => True

namespace Run
variable {limits : Option (Nat × Nat)} {a b : Run} (twin : Twin limits a b)
include twin

theorem Twin.perform (op : Operation) : Twin limits (a.perform op).1 (b.perform op).1 := by
  cases op with
  | ask => exact twin
  | board access =>
    exact twin.move (f := fun r => { r with board := (r.board.access access).1 }) (fun _ _ _ => rfl) rfl rfl
  | propertyOr i key kind fallback => exact twin.propertyOr_run kind.read? i key fallback
  | requireProperty i key kind fallback => exact twin.requireProperty_run kind.read? i key fallback
  | setStatus i s => exact twin.modifyStatus i fun _ => s
  | takeFresh i => exact (twin.takeFresh i).run
  | setPhase i next => exact (twin.setPhase i next).run
  | complete i => exact (twin.setPhase i .completed).run
  | cancel i => exact (twin.setPhase i .cancelled).run
  | markPropagated i => exact twin.markPropagated i
  | completeAndEmit i port => exact (twin.completeAndEmit i port).run
  | emit i port => exact (twin.emit i port).run
  | emitDefault i => exact (twin.emit i "out").run
  | enqueue p => exact twin.move (f := (·.enqueue p)) (fun _ _ _ => rfl) rfl rfl
  | raise name => exact twin.move (f := (·.raise name)) (fun _ _ _ => rfl) rfl rfl
  | setTag tag => exact twin.move (f := (·.setTag tag)) (fun _ _ _ => rfl) rfl rfl
  | clearTag tag => exact twin.move (f := fun r => (r.clearTag tag).1) (fun _ _ _ => rfl) rfl rfl
  | warn i message => exact twin.warn i message

theorem Twin.allTerminal : b.allTerminal = a.allTerminal := by
  rw [Run.allTerminal, twin.mirrors.statuses, Run.allTerminal]

theorem Twin.indexOf? (id : String) : b.plan.indexOf? id = a.plan.indexOf? id := by cases twin; rfl

theorem Twin.graph (given : limits = some limit) : b.plan.graph = a.plan.graph := by
  cases twin with
  | intro _ logs => exact (logs limit.1 limit.2 given).1.symm

theorem Twin.reportUnclaimed (stages : List Stage) :
    Twin limits (Engine.reportUnclaimed stages a) (Engine.reportUnclaimed stages b) := by
  cases given : limits with
  | some limit =>
    rw [Engine.reportUnclaimed, Engine.reportUnclaimed, twin.graph given]
    exact List.foldl_rel (given ▸ twin) fun u _ _ _ twin => twin.warn u.1 _
  | none =>
    obtain ⟨log, here⟩ := Engine.reportUnclaimed_parts stages a
    obtain ⟨log', there⟩ := Engine.reportUnclaimed_parts stages b
    rw [here, there]
    exact given ▸ twin.relog given log log'

end Run

namespace Engine

-- Engines that differ in their reports and their history, and in how much they keep of either.
structure Twin (limits : Option (Nat × Nat)) (a b : Engine) : Prop where
  run : Option.Rel (Run.Twin limits) a.run b.run
  given : ∀ m n, limits = some (m, n) → a.config.maxDiagnostics = m ∧ b.config.maxDiagnostics = n
  stages : b.stages = a.stages
  unscripted : ∀ s ∈ a.stages, s.isScript = false
  locked : b.locked = a.locked
  closed : b.closed = a.closed
  host : b.host = a.host
  effects : b.effects = a.effects
  budget : b.config.defaultMaxTicks = a.config.defaultMaxTicks

inductive Answered (limits : Option (Nat × Nat)) : Except Refusal Engine → Except Refusal Engine → Prop
  | ok (twin : Twin limits a b) : Answered limits (.ok a) (.ok b)
  | refused (refusal : Refusal) : Answered limits (.error refusal) (.error refusal)

namespace Twin
variable {limits : Option (Nat × Nat)} {a b : Engine} (twin : Twin limits a b)
include twin

theorem orKeep (answered : Answered limits x y) : Twin limits (a.orKeep x) (b.orKeep y) := by
  cases answered with
  | ok after => exact after
  | refused => exact twin

theorem isOpen (shut : ¬a.closed = true) : ¬b.closed = true := by rwa [twin.closed]
theorem isFree (taken : ¬a.locked = true) : ¬b.locked = true := by rwa [twin.locked]

theorem tick : Answered limits a.tick b.tick := by
  unfold Engine.tick
  by_cases shut : a.closed = true
  · rw [if_pos shut, if_pos (twin.closed.trans shut)]
    exact .refused .closed
  · rw [if_neg shut, if_neg (twin.isOpen shut)]
    have runs := twin.run
    generalize here : a.run = run, there : b.run = run' at runs
    cases runs with
    | none => exact .refused .notLoaded
    | @some r _ started =>
      obtain ⟨t, a₁, b₁, passed, passed', passes⟩ := pass_twin started.beginTick a.host twin.unscripted
      have kept := pass_isScript a.host twin.unscripted r.beginTick
      rw [passed] at kept
      simp only [twin.host, twin.stages, passed, passed', flanked]
      exact .ok { twin with
        run := .some passes.endTick
        stages := rfl
        unscripted := kept
        locked := rfl
        effects := congrArg (· ++ _) twin.effects }

theorem isComplete : b.isComplete = a.isComplete := by
  have runs := twin.run
  unfold Engine.isComplete
  generalize a.run = run, b.run = run' at runs
  cases runs with
  | none => rfl
  | some started => exact started.allTerminal

theorem runFrom (consumed budget : Nat) : Answered limits ((a.runFrom consumed budget).map Prod.fst)
    ((b.runFrom consumed budget).map Prod.fst) := by
  induction budget generalizing a b consumed with
  | zero => exact .ok twin
  | succ budget ih =>
    unfold Engine.runFrom
    rw [twin.isComplete]
    split
    · exact .ok twin
    · have ticks := twin.tick
      generalize a.tick = x, b.tick = y at ticks
      cases ticks with
      | ok after => exact ih after (consumed + 1)
      | refused refusal => exact .refused refusal

theorem runUntilComplete (budget : Nat) : Answered limits ((a.runUntilComplete budget).map Prod.fst)
    ((b.runUntilComplete budget).map Prod.fst) := by
  have runs := twin.run
  unfold Engine.runUntilComplete
  generalize here : a.run = run, there : b.run = run' at runs
  cases runs with
  | none => exact .refused .notLoaded
  | some _ => exact twin.runFrom 0 budget

theorem onRun {f f' : Run → Run × α}
    (moves : ∀ {r r'}, Run.Twin limits r r' → Run.Twin limits (f r).1 (f' r').1) :
    Answered limits ((a.onRun f).map Prod.fst) ((b.onRun f').map Prod.fst) := by
  have runs := twin.run
  unfold Engine.onRun
  generalize here : a.run = run, there : b.run = run' at runs
  cases runs with
  | none => exact .refused .notLoaded
  | some started => exact .ok { twin with run := .some (moves started) }

theorem obey (s : Signal) : Answered limits (a.obey s) (b.obey s) := by
  cases s with
  | tick => exact twin.tick
  | raise name => exact twin.onRun fun runs => runs.perform (.raise name)
  | setTag tag => exact twin.onRun fun runs => runs.perform (.setTag tag)
  | clearTag tag => exact twin.onRun fun runs => runs.perform (.clearTag tag)
  | board access => exact twin.onRun fun runs => runs.perform (.board access)
  | cancel id =>
    refine twin.onRun fun {r r'} runs => ?_
    rw [runs.indexOf?]
    cases r.plan.indexOf? id with
    | none => exact runs
    | some i =>
      dsimp only
      rw [runs.phase]
      split
      · exact runs
      · exact (runs.setPhase i .cancelled).run
  | host h => exact .ok { twin with host := rfl }
  | enableHistory | disableHistory => exact .ok { twin with }

theorem meets (r r' : Run) : Twin limits (a.meet r) (b.meet r') := by
  have silent : ∀ r : Run, a.stages.flatMap (Stage.loadEffects r) = [] := fun r =>
    List.flatMap_eq_nil_iff.mpr fun s member => Stage.loadEffects_unscripted (twin.unscripted s member) r
  unfold meet record
  rw [twin.stages, silent, silent]
  refine { twin with stages := rfl, unscripted := ?_, effects := congrArg (· ++ _) twin.effects }
  intro s member
  obtain ⟨s', inside, rfl⟩ := List.mem_map.mp member
  exact s'.onLoad_isScript.trans (twin.unscripted s' inside)

theorem register {stages : List Stage} (unscripted : ∀ s ∈ stages, s.isScript = false) :
    Answered limits (a.register stages) (b.register stages) := by
  unfold Engine.register
  by_cases shut : a.closed = true
  · rw [if_pos shut, if_pos (twin.closed.trans shut)]
    exact .refused .closed
  · rw [if_neg shut, if_neg (twin.isOpen shut)]
    by_cases taken : a.locked = true
    · rw [if_pos taken, if_pos (twin.locked.trans taken)]
      exact .refused .stagesLocked
    · rw [if_neg taken, if_neg (twin.isFree taken)]
      have fixed : Twin limits
          { a with stages := stages.mergeSort fun a b => a.order ≤ b.order, locked := true }
          { b with stages := stages.mergeSort fun a b => a.order ≤ b.order, locked := true } :=
        { twin with
          stages := rfl
          unscripted := fun s member => unscripted s (List.mem_mergeSort.mp member)
          locked := rfl }
      have runs := twin.run
      dsimp only
      generalize here : a.run = run, there : b.run = run' at runs
      cases runs with
      | none =>
        rw [here, there] at fixed
        exact .ok fixed
      | some started =>
        exact .ok { fixed.meets _ _ with run := .some (started.reportUnclaimed _) }

theorem reports {r r' : Run} (begun : Run.Twin limits r r') : Run.Twin limits
    (if a.locked then reportUnclaimed (a.stages.map Stage.onLoad) r else r)
    (if b.locked then reportUnclaimed (b.stages.map Stage.onLoad) r' else r') := by
  rw [twin.locked, twin.stages]
  split
  · exact begun.reportUnclaimed _
  · exact begun

theorem load (replaces : g.Replaces g') (same : limits.isSome → g = g') :
    Twin limits (a.load g).1 (b.load g').1 ∧ (b.load g').2 = (a.load g).2 := by
  unfold Engine.load
  by_cases shut : a.closed = true
  · rw [if_pos shut, if_pos (twin.closed.trans shut)]
    exact ⟨twin, rfl⟩
  · rw [if_neg shut, if_neg (twin.isOpen shut), replaces.loads]
    cases loads : Run.load g with
    | error fault => exact ⟨{ twin with run := .none }, rfl⟩
    | ok r =>
      obtain ⟨plan, _⟩ := Run.load_plan loads
      have begun : Run.Twin limits (r.withDiagnosticLimit a.config.maxDiagnostics)
          ((r.under g' {}).withDiagnosticLimit b.config.maxDiagnostics) := by
        refine .intro (r := r.withDiagnosticLimit a.config.maxDiagnostics) (plan ▸ replaces.toLike) ?_
        intro m n given
        obtain ⟨rfl, rfl⟩ := twin.given m n given
        exact ⟨plan.trans (same (given ▸ rfl)), [], Diagnostics.keeping_nil _, Diagnostics.keeping_nil _⟩
      have met := twin.meets (r.withDiagnosticLimit a.config.maxDiagnostics)
        ((r.under g' {}).withDiagnosticLimit b.config.maxDiagnostics)
      exact ⟨{ met with run := .some (twin.reports begun) }, rfl⟩

theorem shutdown : Twin limits a.shutdown b.shutdown := by
  unfold Engine.shutdown
  by_cases shut : a.closed = true
  · rw [if_pos shut, if_pos (twin.closed.trans shut)]
    exact twin
  · rw [if_neg shut, if_neg (twin.isOpen shut)]
    refine { twin with
      stages := rfl
      unscripted := fun s member => (by cases member)
      closed := rfl
      effects := ?_ }
    simp only [record, twin.effects, twin.stages]

theorem serve {q : Request} (unscripted : q.Unscripted) : Twin limits (a.serve q) (b.serve q) := by
  cases q with
  | register stages => exact twin.orKeep (twin.register unscripted)
  | load g => exact (twin.load (.refl g) fun _ => rfl).1
  | signal s => exact twin.orKeep (twin.obey s)
  | perform op => exact twin.orKeep (twin.onRun fun runs => runs.perform op)
  | runFor budget => exact twin.orKeep (twin.runUntilComplete budget)
  | runToEnd =>
    unfold Engine.serve Engine.runToEnd
    rw [twin.budget]
    exact twin.orKeep (twin.runUntilComplete _)
  | shutdown => exact twin.shutdown

theorem serveAll {qs : List Request} (unscripted : ∀ q ∈ qs, q.Unscripted) :
    Twin limits (qs.foldl Engine.serve a) (qs.foldl Engine.serve b) :=
  List.foldl_rel twin fun q member _ _ twin => twin.serve (unscripted q member)

end Twin

-- What shows of two engines in the same state: their stages with all tables, what reached the host
-- and the state of the run, but neither its reports nor its graph.
structure Mirrors (a b : Engine) : Prop where
  run : Option.Rel Run.Mirrors a.run b.run
  stages : b.stages = a.stages
  effects : b.effects = a.effects
  locked : b.locked = a.locked
  closed : b.closed = a.closed
  fingerprint : b.fingerprint = a.fingerprint

theorem Twin.mirrors (twin : Twin limits a b) : Mirrors a b := by
  have runs : Option.Rel Run.Mirrors a.run b.run := by
    have twins := twin.run
    generalize a.run = run, b.run = run' at twins
    cases twins with
    | none => exact .none
    | some started => exact .some started.mirrors
  refine ⟨runs, twin.stages, twin.effects, twin.locked, twin.closed, ?_⟩
  unfold Engine.fingerprint
  generalize a.run = run, b.run = run' at runs
  cases runs with
  | none => rfl
  | some mirrors => exact congrArg (·) mirrors.fingerprint

end Engine
end ActionGraph
