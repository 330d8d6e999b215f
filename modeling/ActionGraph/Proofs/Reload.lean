import ActionGraph.Proofs.Chronicle
-- Loading starts over. Nothing of what an engine did before a load shows in what comes after it:
-- from then on the engine cannot be told from a new one, but for the snapshots in its pool.
namespace ActionGraph

inductive Request where
  | register (stages : List Stage)
  | load (g : Graph)
  | signal (s : Signal)
  | perform (op : Operation)
  | runFor (budget : Nat)
  | runToEnd
  | shutdown

namespace Engine

def orKeep (e : Engine) : Except Refusal Engine → Engine
  | .ok e' => e'
  | .error _ => e

def serve (e : Engine) : Request → Engine
  | .register stages => e.orKeep (e.register stages)
  | .load g => (e.load g).1
  | .signal s => e.orKeep (e.obey s)
  | .perform op => e.orKeep ((e.perform op).map Prod.fst)
  | .runFor budget => e.orKeep ((e.runUntilComplete budget).map Prod.fst)
  | .runToEnd => e.orKeep (e.runToEnd.map Prod.fst)
  | .shutdown => e.shutdown

theorem orKeep_related {R : Engine → Engine → Prop} (refl : ∀ e, R e e) {e : Engine}
    {done : Except Refusal Engine} (granted : ∀ e', done = .ok e' → R e e') : R e (e.orKeep done) := by
  cases done with
  | error refusal => exact refl e
  | ok e' => exact granted e' rfl

end Engine

-- An engine that was made new and had the standard pipeline registered at some time, whatever else
-- it served before and since.
inductive Registered : Engine → Prop where
  | intro (host : Host) (config : Config) (before since : List Request)
    (registers : (before.foldl Engine.serve (.ofConfig host config)).register Stage.standard = .ok e) :
    Registered (since.foldl Engine.serve e)

namespace Stage

theorem update_onLoad (host : Host) (s : Stage) (r : Run) : (s.update host r).1.onLoad = s.onLoad := by
  cases s <;> rfl

theorem onLoad_onLoad (s : Stage) : s.onLoad.onLoad = s.onLoad := by
  cases s <;> rfl

theorem loadEffects_onLoad (r : Run) (s : Stage) : s.onLoad.loadEffects r = s.loadEffects r := by
  cases s <;> rfl

theorem standard_sorted : (standard.mergeSort fun a b => a.order ≤ b.order) = standard :=
  List.mergeSort_of_pairwise (by decide)

end Stage

namespace Engine

theorem pass_onLoad (host : Host) (stages : List Stage) (r : Run) :
    (pass host stages r).1.map Stage.onLoad = stages.map Stage.onLoad := by
  induction stages generalizing r with
  | nil => rfl
  | cons s rest ih => rw [pass_cons, List.map_cons, List.map_cons, Stage.update_onLoad, ih]

theorem meet_stages (e : Engine) (r : Run) :
    (e.meet r).stages.map Stage.onLoad = e.stages.map Stage.onLoad := by
  rw [meet, List.map_map]
  exact List.map_congr_left fun s _ => s.onLoad_onLoad

-- What every request carries over: a pipeline that is fixed, and room in the history.
structure Carries (e e' : Engine) : Prop where
  isOpen : e'.closed = false → e.closed = false
  locked : e.locked = true → e'.locked = true
  stages : e'.closed = false → e.locked = true → e'.stages.map Stage.onLoad = e.stages.map Stage.onLoad
  room : (∀ h, e.history = some h → 1 ≤ h.capacity) → ∀ h, e'.history = some h → 1 ≤ h.capacity

theorem Carries.calm {e e' : Engine} (same : (e'.closed, e'.locked, e'.stages, e'.history) =
    (e.closed, e.locked, e.stages, e.history)) : Carries e e' := by
  simp only [Prod.mk.injEq] at same
  obtain ⟨closed, locked, stages, history⟩ := same
  exact ⟨fun isOpen => closed ▸ isOpen, fun fixed => locked.trans fixed, fun _ _ => by rw [stages],
    fun room h found => room h (history ▸ found)⟩

theorem Carries.refl (e : Engine) : Carries e e := .calm rfl

theorem Carries.trans (first : Carries a b) (second : Carries b c) : Carries a c := by
  refine ⟨fun isOpen => first.isOpen (second.isOpen isOpen),
    fun locked => second.locked (first.locked locked), ?_, fun room => second.room (first.room room)⟩
  intro isOpen locked
  rw [second.stages isOpen (first.locked locked), first.stages (second.isOpen isOpen) locked]

end Engine

namespace History

theorem makeRoom_capacity (h : History) : h.makeRoom.capacity = h.capacity := by
  unfold makeRoom
  split
  · split <;> rfl
  · rfl

theorem ofCapacity_room (capacity : Nat) : 1 ≤ (ofCapacity capacity).capacity := Nat.le_max_right ..

end History

namespace Engine

theorem tick_parts {e e' : Engine} (ticks : e.tick = .ok e') : e.closed = false ∧ ∃ r,
    e.run = some r ∧ e' = { e.record (pass e.host e.stages r.beginTick).2.2 with
      stages := (pass e.host e.stages r.beginTick).1
      locked := true
      run := some (pass e.host e.stages r.beginTick).2.1.endTick
      history := e.history.map (·.record (pass e.host e.stages r.beginTick).2.1.endTick) } := by
  unfold tick at ticks
  cases isOpen : e.closed with
  | true => simp [isOpen] at ticks
  | false =>
    cases loaded : e.run with
    | none => simp [isOpen, loaded] at ticks
    | some r =>
      simp only [isOpen, loaded, Bool.false_eq_true, if_false, Except.ok.injEq] at ticks
      exact ⟨rfl, r, rfl, ticks.symm⟩

theorem onRun_parts {e e' : Engine} {f : Run → Run × α}
    (done : (e.onRun f).map Prod.fst = .ok e') :
    ∃ r, e.run = some r ∧ e' = { e with run := some (f r).1 } := by
  unfold onRun at done
  cases loaded : e.run with
  | none => simp [loaded, Except.map] at done
  | some r =>
    simp only [loaded, Except.map, Except.ok.injEq] at done
    exact ⟨r, rfl, done.symm⟩

theorem runFrom_ticks {R : Engine → Engine → Prop} (refl : ∀ e, R e e)
    (next : ∀ {a b c : Engine}, a.tick = .ok b → R b c → R a c)
    {e : Engine} (done : e.runFrom consumed budget = .ok (e', n)) : R e e' := by
  induction budget generalizing e consumed with
  | zero => cases done; exact refl _
  | succ budget ih =>
    unfold runFrom at done
    split at done
    · cases done; exact refl _
    · cases step : e.tick with
      | error refusal => simp [step] at done
      | ok e₁ =>
        simp only [step] at done
        exact next step (ih done)

theorem runUntilComplete_ticks {R : Engine → Engine → Prop} (refl : ∀ e, R e e)
    (next : ∀ {a b c : Engine}, a.tick = .ok b → R b c → R a c) {e e' : Engine}
    (done : (e.runUntilComplete budget).map Prod.fst = .ok e') : R e e' := by
  unfold runUntilComplete at done
  split at done
  · cases done
  · cases ran : e.runFrom 0 budget with
    | error refusal => simp [ran, Except.map] at done
    | ok pair =>
      rw [ran] at done
      cases done
      exact runFrom_ticks refl next ran

namespace Carries

theorem tick {e e' : Engine} (ticks : e.tick = .ok e') : Carries e e' := by
  obtain ⟨_, r, _, rfl⟩ := tick_parts ticks
  refine ⟨fun isOpen => isOpen, fun _ => rfl, fun _ _ => pass_onLoad .., ?_⟩
  intro room h found
  obtain ⟨old, had, rfl⟩ := Option.map_eq_some_iff.mp found
  exact (History.makeRoom_capacity old).symm ▸ room old had

theorem onRun {e e' : Engine} {f : Run → Run × α} (done : (e.onRun f).map Prod.fst = .ok e') :
    Carries e e' := by
  obtain ⟨r, _, rfl⟩ := onRun_parts done
  exact .calm rfl

theorem obey {e e' : Engine} {s : Signal} (done : e.obey s = .ok e') : Carries e e' := by
  cases s with
  | tick => exact tick done
  | raise | setTag | clearTag | cancel | board => exact onRun done
  | host => cases done; exact .calm rfl
  | enableHistory capacity =>
    cases done
    refine ⟨fun isOpen => isOpen, fun locked => locked, fun _ _ => rfl, ?_⟩
    intro _ h found
    cases found
    split <;> exact History.ofCapacity_room capacity
  | disableHistory =>
    cases done
    refine ⟨fun isOpen => isOpen, fun locked => locked, fun _ _ => rfl, ?_⟩
    intro _ h found
    cases found

theorem runUntilComplete {e e' : Engine}
    (done : (e.runUntilComplete budget).map Prod.fst = .ok e') : Carries e e' :=
  runUntilComplete_ticks refl (fun ticks later => (tick ticks).trans later) done

theorem register {e e' : Engine} {given : List Stage} (done : e.register given = .ok e') :
    Carries e e' := by
  obtain ⟨isOpen, free, either⟩ := register_cases done
  refine ⟨fun _ => isOpen, fun locked => ?_, fun _ locked => ?_, ?_⟩
  · rw [free] at locked; cases locked
  · rw [free] at locked; cases locked
  · obtain ⟨_, rfl⟩ | ⟨_, _, _, rfl⟩ := either
    · exact fun room => room
    · exact fun room => room

theorem load (e : Engine) (g : Graph) : Carries e (e.load g).1 := by
  unfold Engine.load
  split
  · exact .refl _
  · next isOpen =>
    cases Run.load g with
    | error fault => exact .calm rfl
    | ok r =>
      refine ⟨fun isOpen => isOpen, fun locked => locked, fun _ _ => ?_, ?_⟩
      · exact e.meet_stages (r.withDiagnosticLimit e.config.maxDiagnostics)
      · intro room h found
        obtain ⟨old, had, rfl⟩ := Option.map_eq_some_iff.mp found
        exact room old had

theorem shutdown (e : Engine) : Carries e e.shutdown := by
  unfold Engine.shutdown
  split
  · exact .refl _
  · exact ⟨fun isOpen => (by cases isOpen), fun locked => locked, fun isOpen => (by cases isOpen),
      fun room => room⟩

theorem serve (e : Engine) (q : Request) : Carries e (e.serve q) := by
  cases q with
  | register stages => exact orKeep_related refl fun _ => register
  | load g => exact load e g
  | signal s => exact orKeep_related refl fun _ => obey
  | perform op => exact orKeep_related refl fun _ => onRun
  | runFor budget => exact orKeep_related refl fun _ => runUntilComplete
  | runToEnd => exact orKeep_related refl fun _ => runUntilComplete
  | shutdown => exact shutdown e

theorem serveAll (e : Engine) (qs : List Request) : Carries e (qs.foldl Engine.serve e) := by
  induction qs generalizing e with
  | nil => exact .refl _
  | cons q rest ih => exact (serve e q).trans (ih _)

end Carries

structure Ready (e : Engine) : Prop where
  stages : e.closed = false → e.locked = true ∧ e.stages.map Stage.onLoad = Stage.standard
  room : ∀ h, e.history = some h → 1 ≤ h.capacity

end Engine

theorem Engine.register_standard {e e' : Engine} (registers : e.register Stage.standard = .ok e') :
    e'.locked = true ∧ e'.stages.map Stage.onLoad = Stage.standard := by
  obtain ⟨_, _, either⟩ := register_cases registers
  rw [Stage.standard_sorted] at either
  obtain ⟨_, rfl⟩ | ⟨_, _, _, rfl⟩ := either
  · exact ⟨rfl, rfl⟩
  · exact ⟨rfl, rfl⟩

theorem Registered.ready (registered : Registered e) : e.Ready := by
  obtain ⟨host, config, before, since, registers⟩ := registered
  have carries := Engine.Carries.serveAll
  obtain ⟨locked, standard⟩ := Engine.register_standard registers
  refine ⟨fun isOpen => ?_, ?_⟩
  · exact ⟨(carries _ since).locked locked, ((carries _ since).stages isOpen locked).trans standard⟩
  · refine (((carries _ before).trans (.register registers)).trans (carries _ since)).room ?_
    intro h found
    obtain ⟨capacity, _, rfl⟩ := Option.map_eq_some_iff.mp found
    exact History.ofCapacity_room capacity

def History.kept (h : History) : Nat × List Snapshot × List Phase := (h.capacity, h.ring, h.previous)

namespace History

theorem kept_makeRoom {h h' : History} (same : h.kept = h'.kept) :
    h.makeRoom.kept = h'.makeRoom.kept := by
  obtain ⟨capacity, ring, pool, previous⟩ := h
  obtain ⟨capacity', ring', pool', previous'⟩ := h'
  simp only [kept, Prod.mk.injEq] at same
  obtain ⟨rfl, rfl, rfl⟩ := same
  unfold makeRoom
  split
  · cases ring <;> rfl
  · rfl

theorem kept_record {h h' : History} (same : h.kept = h'.kept) (r : Run) :
    (h.record r).kept = (h'.record r).kept := by
  have room := kept_makeRoom same
  simp only [kept, Prod.mk.injEq] at room
  simp only [record, kept, room]

end History

-- Two engines that cannot be told apart by what they hold from now on, where the first one had
-- already sent some effects. The digest of the run is read off the run, every counter off the
-- stages; what the pools of the histories hold is left open.
structure Engine.Alike (earlier : List Effect) (a b : Engine) : Prop where
  run : a.run = b.run
  stages : a.stages = b.stages
  effects : a.effects.toList = earlier ++ b.effects.toList
  history : a.history.map History.kept = b.history.map History.kept
  host : a.host = b.host
  config : a.config = b.config
  locked : a.locked = b.locked
  closed : a.closed = b.closed

namespace Engine.Alike

theorem tick {a b a' : Engine} (alike : Alike earlier a b) (ticks : a.tick = .ok a') :
    ∃ b', b.tick = .ok b' ∧ Alike earlier a' b' := by
  obtain ⟨isOpen, r, loaded, rfl⟩ := tick_parts ticks
  obtain ⟨run, stages, effects, history, host, config, locked, closed⟩ := alike
  rw [isOpen] at closed
  rw [loaded] at run
  simp only [Engine.tick, ← closed, ← run, Bool.false_eq_true, if_false]
  refine ⟨_, rfl, ?_⟩
  rw [host, stages]
  refine ⟨rfl, rfl, ?_, ?_, host, config, rfl, isOpen.trans closed⟩
  · simp only [record, Array.toList_appendList, effects, List.append_assoc]
  · have same : ∀ r, (a.history.map (·.record r)).map History.kept =
        (b.history.map (·.record r)).map History.kept := by
      intro r
      cases before : a.history with
      | none => rw [before] at history; rw [Option.map_eq_none_iff.mp history.symm]
      | some h =>
        rw [before] at history
        obtain ⟨h', found, kept⟩ := Option.map_eq_some_iff.mp history.symm
        rw [found]
        exact congrArg some (History.kept_record kept.symm r)
    exact same _

theorem onRun {a b a' : Engine} {f : Run → Run × α} (alike : Alike earlier a b)
    (done : (a.onRun f).map Prod.fst = .ok a') :
    ∃ b', (b.onRun f).map Prod.fst = .ok b' ∧ Alike earlier a' b' := by
  obtain ⟨r, loaded, rfl⟩ := onRun_parts done
  simp only [Engine.onRun, ← alike.run, loaded]
  exact ⟨_, rfl, rfl, alike.stages, alike.effects, alike.history, alike.host, alike.config,
    alike.locked, alike.closed⟩

theorem obey {a b a' : Engine} (alike : Alike earlier a b) {s : Signal} (done : a.obey s = .ok a') :
    ∃ b', b.obey s = .ok b' ∧ Alike earlier a' b' := by
  cases s with
  | tick => exact alike.tick done
  | raise | setTag | clearTag | cancel | board => exact alike.onRun done
  | host h =>
    cases done
    exact ⟨_, rfl, { alike with host := rfl }⟩
  | enableHistory capacity =>
    cases done
    refine ⟨_, rfl, { alike with history := ?_ }⟩
    dsimp only [enableHistory]
    rw [alike.run]
  | disableHistory =>
    cases done
    exact ⟨_, rfl, { alike with history := rfl }⟩

end Engine.Alike

namespace Chronicle

theorem next_alike {c c' d : Chronicle} (step : c.next s = .ok c')
    (alike : c.engine.Alike earlier d.engine) (turns : c.turns = d.turns) :
    ∃ d', d.next s = .ok d' ∧ c'.engine.Alike earlier d'.engine ∧ c'.turns = d'.turns := by
  obtain ⟨e, done, rfl⟩ := next_parts step
  obtain ⟨e', obeys, after⟩ := alike.obey done
  simp only [next, obeys]
  exact ⟨_, rfl, after, by rw [turns, alike.run, after.run]⟩

theorem play_alike {c c' d : Chronicle} {script : List Signal} (played : c.play script = .ok c')
    (alike : c.engine.Alike earlier d.engine) (turns : c.turns = d.turns) :
    ∃ d', d.play script = .ok d' ∧ c'.engine.Alike earlier d'.engine ∧ c'.turns = d'.turns := by
  induction script generalizing c d with
  | nil =>
    cases played
    exact ⟨d, rfl, alike, turns⟩
  | cons s rest ih =>
    unfold play at played
    cases step : c.next s with
    | error refusal => simp [step] at played
    | ok mid =>
      simp only [step] at played
      obtain ⟨mid', steps, alike, turns⟩ := next_alike step alike turns
      obtain ⟨d', plays, result⟩ := ih played alike turns
      refine ⟨d', ?_, result⟩
      rw [play, steps]
      exact plays

end Chronicle

namespace Engine

def renewed (e : Engine) : Engine :=
  match e.history with
  | none => (ofConfig e.host e.config).disableHistory
  | some h => (ofConfig e.host e.config).enableHistory h.capacity

theorem renewed_parts (e : Engine) (room : ∀ h, e.history = some h → 1 ≤ h.capacity) :
    ∃ history, e.renewed = { host := e.host, config := e.config, history := history } ∧
      history.map History.capacity = e.history.map History.capacity := by
  unfold renewed
  cases found : e.history with
  | none => exact ⟨none, rfl, rfl⟩
  | some h => exact ⟨some (.ofCapacity h.capacity), rfl, congrArg some (Nat.max_eq_left (room h found))⟩

def begun (config : Config) (p : Plan) : Run :=
  reportUnclaimed Stage.standard ((Run.ofPlan p).withDiagnosticLimit config.maxDiagnostics)

theorem begun_statuses (config : Config) (p : Plan) :
    (begun config p).statuses = (Run.ofPlan p).statuses := by
  obtain ⟨log, same⟩ := reportUnclaimed_parts Stage.standard
    ((Run.ofPlan p).withDiagnosticLimit config.maxDiagnostics)
  rw [begun, same]
  rfl

theorem load_eq {e : Engine} (planned : Plan.ofGraph g = .ok p) (isOpen : e.closed = false)
    (locked : e.locked = true) (standard : e.stages.map Stage.onLoad = Stage.standard) :
    e.load g = ({ e with
      stages := Stage.standard
      run := some (begun e.config p)
      history := e.history.map (·.reset (begun e.config p)) }, .ok ()) := by
  have silent : ∀ r, e.stages.flatMap (Stage.loadEffects r) = [] := by
    intro r
    have same : e.stages.flatMap (Stage.loadEffects r) =
        (e.stages.map Stage.onLoad).flatMap (Stage.loadEffects r) := by
      rw [List.flatMap_map]
      exact congrArg (List.flatMap · _) (funext fun s => (Stage.loadEffects_onLoad r s).symm)
    rw [same, standard]
    rfl
  simp only [load, isOpen, Bool.false_eq_true, if_false, Run.load, planned, Except.map, meet, record,
    silent, standard, locked, if_true, begun]
  simp

theorem load_register_eq {e : Engine} (planned : Plan.ofGraph g = .ok p) (isOpen : e.closed = false)
    (free : e.locked = false) (empty : e.stages = []) :
    ∃ e', e.load g = (e', .ok ()) ∧ e'.register Stage.standard = .ok { e with
      stages := Stage.standard
      locked := true
      run := some (begun e.config p)
      history := e.history.map (·.reset (begun e.config p)) } := by
  refine ⟨{ e with
    run := some ((Run.ofPlan p).withDiagnosticLimit e.config.maxDiagnostics)
    history := e.history.map (·.reset (begun e.config p)) }, ?_, ?_⟩
  · have phases : ∀ h : History, h.reset (begun e.config p) =
        h.reset ((Run.ofPlan p).withDiagnosticLimit e.config.maxDiagnostics) := by
      intro h
      rw [History.reset, begun_statuses]
      rfl
    simp only [load, isOpen, Bool.false_eq_true, if_false, Run.load, planned, Except.map, meet, record,
      empty, free, phases]
    simp
  · simp only [register, isOpen, free, Bool.false_eq_true, if_false, Stage.standard_sorted, meet, record]
    simp [begun, Stage.standard, Stage.core, Stage.domain, Stage.loadEffects, Stage.onLoad]

theorem Ready.renews {e : Engine} (ready : Ready e) (loads : (e.load g).2 = .ok ()) : ∃ a,
    (e.renewed.register Stage.standard).map (·.load g) = .ok (a, .ok ()) ∧
    (e.renewed.load g).2 = .ok () ∧ (e.renewed.load g).1.register Stage.standard = .ok a ∧
    (e.load g).1.Alike e.effects.toList a := by
  obtain ⟨p, _, planned, isOpen, _⟩ := load_parts loads
  have isOpen := (Carries.load e g).isOpen isOpen
  obtain ⟨locked, standard⟩ := ready.stages isOpen
  obtain ⟨history, made, room⟩ := e.renewed_parts ready.room
  obtain ⟨e', late, registers⟩ := load_register_eq (e := e.renewed) planned
    (by rw [made]) (by rw [made]) (by rw [made])
  refine ⟨_, ?_, by rw [late], by rw [late]; exact registers, ?_⟩
  · have early : e.renewed.register Stage.standard =
        .ok { e.renewed with stages := Stage.standard, locked := true } := by
      rw [made, register, Stage.standard_sorted]
      rfl
    rw [early, Except.map, load_eq planned (by rw [made]) rfl rfl]
  · rw [load_eq planned isOpen locked standard, made]
    refine ⟨rfl, rfl, (List.append_nil _).symm, ?_, rfl, rfl, locked, isOpen⟩
    have kept : ∀ h : Option History, (h.map (·.reset (begun e.config p))).map History.kept =
        (h.map History.capacity).map fun capacity =>
          (capacity, [], (begun e.config p).statuses.map (·.phase)) := by
      intro h
      rw [Option.map_map, Option.map_map]
      rfl
    exact (kept _).trans ((congrArg _ room.symm).trans (kept _).symm)

end Engine

namespace Chronicle

-- Whatever an engine has been through: from a load on it goes the way of an engine that is made new,
-- be the stages of that one registered before its load or after it. No script tells them apart at
-- any step.
theorem reload_starts_afresh (registered : Registered e) (loads : (e.load g).2 = .ok ()) : ∃ a,
    (e.renewed.register Stage.standard).map (·.load g) = .ok (a, .ok ()) ∧
    (e.renewed.load g).2 = .ok () ∧ (e.renewed.load g).1.register Stage.standard = .ok a ∧
    ∀ script, ∃ c d, (⟨(e.load g).1, []⟩ : Chronicle).play script = .ok c ∧
      (⟨a, []⟩ : Chronicle).play script = .ok d ∧ c.turns = d.turns ∧
      c.engine.Alike e.effects.toList d.engine := by
  have ready := registered.ready
  obtain ⟨a, early, loaded, late, alike⟩ := ready.renews loads
  refine ⟨a, early, loaded, late, fun script => ?_⟩
  obtain ⟨_, _, _, isOpen, _⟩ := Engine.load_parts loads
  have standard := (ready.stages ((Engine.Carries.load e g).isOpen isOpen)).2
  obtain ⟨c, _, _, played, _⟩ := play_reached (.load e standard loads) script
  obtain ⟨d, plays, same, turns⟩ := play_alike (d := ⟨a, []⟩) played alike rfl
  exact ⟨c, d, played, plays, turns, same⟩

def wornEngine : Engine :=
  [.load relay, .signal .tick, .load {}, .signal (.enableHistory 2), .load relay,
    .signal (.raise "ring"), .signal .tick].foldl Engine.serve
      { Engine.ofConfig .all {} with stages := Stage.standard, locked := true }

theorem wornEngine_registered : Registered wornEngine := by
  refine .intro .all {} [] _ ?_
  rw [List.foldl_nil, Engine.register, Stage.standard_sorted]
  rfl

theorem relay_reload_starts_afresh : ∃ a,
    (wornEngine.renewed.register Stage.standard).map (·.load relay) = .ok (a, .ok ()) ∧
    (wornEngine.renewed.load relay).2 = .ok () ∧
    (wornEngine.renewed.load relay).1.register Stage.standard = .ok a ∧
    ∀ script, ∃ c d, (⟨(wornEngine.load relay).1, []⟩ : Chronicle).play script = .ok c ∧
      (⟨a, []⟩ : Chronicle).play script = .ok d ∧ c.turns = d.turns ∧
      c.engine.Alike wornEngine.effects.toList d.engine :=
  reload_starts_afresh wornEngine_registered rfl

end Chronicle
end ActionGraph
