import ActionGraph.Proofs.Registration
-- The end of an engine. Once it is shut down nothing drives it any further, and on the way there every
-- stage that it ever took on is let go, once. An engine that goes out of use is shut down by that.
namespace ActionGraph

def Effect.isStop : Effect → Bool
  | stopped _ => true
  | _ => false

-- Requests that drive an engine, as against those that reach into its run or turn to its host.
def Request.drives : Request → Bool
  | register _ | load _ | signal .tick | runFor _ | runToEnd | shutdown => true
  | signal _ | perform _ => false

def GoesOn (sent : List Effect) : Prop := ∀ x ∈ sent, x.isStop = false

namespace GoesOn

theorem nil : GoesOn [] := fun _ member => by cases member

theorem single (x : Effect) (goes : x.isStop = false) : GoesOn [x] :=
  fun y member => by rwa [List.mem_singleton.mp member]

theorem append (first : GoesOn sent) (later : GoesOn sent') : GoesOn (sent ++ sent') :=
  fun x member => (List.mem_append.mp member).elim (first x) (later x)

theorem heard {heard : Bool} (sent : GoesOn [x]) : GoesOn (if heard then [x] else []) := by
  cases heard with
  | true => exact sent
  | false => exact nil

theorem accepted (host : Host) (request : Option SpawnRequest) :
    GoesOn (Spawn.accepted host request).2 := by
  cases request with
  | none => exact nil
  | some request => exact heard (single (.spawn request) rfl)

theorem spawn (host : Host) (t : Tally) (r : Run) : GoesOn (Spawn.update host t r).2.2 :=
  List.foldlRecOn (motive := fun s => GoesOn s.2.2) (r.running Spawn.kind) (Spawn.updateOne host)
    (b := (t, r, [])) nil fun _ early _ _ => early.append (accepted host _)

theorem warning (host : Host) (n : Nat) (r : Run) : GoesOn (Warning.update host n r).2.2 :=
  List.foldlRecOn (motive := fun s => GoesOn s.2.2) (r.running Warning.kind)
    (Warning.updateOne host) (b := (n, r, [])) nil
    fun _ early _ _ => early.append (heard (single _ rfl))

theorem log (host : Host) (r : Run) : GoesOn (Log.update host r).2 := by
  refine List.foldlRecOn (motive := fun s => GoesOn s.2) (r.running Log.kind)
    (Log.updateOne host) (b := (r, [])) nil fun s early i _ => ?_
  obtain ⟨log, asked⟩ := Log.level_parts (s.1.takeFresh i).1 i
  simp only [Log.updateOne, asked]
  exact early.append (heard (single _ rfl))

theorem update (host : Host) (s : Stage) (r : Run) : GoesOn (s.update host r).2.2 := by
  cases s with
  | delivery | flow | delay | assign | filter | trigger => exact nil
  | spawn t => exact spawn host t r
  | warning n => exact warning host n r
  | log => exact log host r
  | script s => exact single _ rfl

theorem pass (host : Host) (stages : List Stage) (r : Run) :
    GoesOn (Engine.pass host stages r).2.2 := by
  induction stages generalizing r with
  | nil => exact nil
  | cons s rest ih =>
    rw [pass_cons]
    exact (update host s r).append (ih _)

theorem loads (r : Run) (stages : List Stage) : GoesOn (stages.flatMap (Stage.loadEffects r)) := by
  intro x member
  obtain ⟨s, _, there⟩ := List.mem_flatMap.mp member
  cases s with
  | script s => exact single _ rfl x there
  | _ => cases there

end GoesOn

namespace Stage

theorem stopEffects_filter (stages : List Stage) :
    (stages.flatMap stopEffects).filter Effect.isStop = stages.flatMap stopEffects := by
  refine List.filter_eq_self.mpr fun x member => ?_
  obtain ⟨s, _, there⟩ := List.mem_flatMap.mp member
  cases s with
  | script s =>
    rw [List.mem_singleton.mp there]
    rfl
  | _ => cases there

theorem stopEffects_onLoad (s : Stage) : s.onLoad.stopEffects = s.stopEffects := by
  cases s <;> rfl

theorem flatMap_stopEffects (stages : List Stage) :
    (stages.map onLoad).flatMap stopEffects = stages.flatMap stopEffects := by
  rw [List.flatMap_map]
  exact List.flatMap_congr fun s _ => s.stopEffects_onLoad

end Stage

namespace Engine

def stops (e : Engine) : List Effect := e.effects.toList.filter Effect.isStop

theorem record_stops (e : Engine) (goes : GoesOn sent) : (e.record sent).stops = e.stops := by
  have none : sent.filter Effect.isStop = [] := List.filter_eq_nil_iff.mpr fun x member => by
    rw [goes x member]
    exact Bool.false_ne_true
  rw [stops, record, Array.toList_appendList, List.filter_append, none, List.append_nil, stops]

theorem meet_stops (e : Engine) (r : Run) : (e.meet r).stops = e.stops :=
  e.record_stops (.loads r e.stages)

-- The engine stays as open as it was, keeps its stages and stops none.
structure Holds (e e' : Engine) : Prop where
  closed : e'.closed = e.closed
  stages : e'.stages.map Stage.onLoad = e.stages.map Stage.onLoad
  stops : e'.stops = e.stops

namespace Holds

theorem refl (e : Engine) : Holds e e := ⟨rfl, rfl, rfl⟩

theorem trans (first : Holds a b) (later : Holds b c) : Holds a c :=
  ⟨later.closed.trans first.closed, later.stages.trans first.stages, later.stops.trans first.stops⟩

theorem tick {e e' : Engine} (ticks : e.tick = .ok e') : Holds e e' := by
  obtain ⟨_, r, _, rfl⟩ := tick_parts ticks
  exact ⟨rfl, pass_onLoad .., e.record_stops (.pass _ _ _)⟩

theorem quiet {e e' : Engine} (still : Quiet e e') : Holds e e' := by
  have same := still.same
  simp only [Prod.mk.injEq] at same
  obtain ⟨closed, _, stages, effects⟩ := same
  exact ⟨closed, by rw [stages], by rw [Engine.stops, effects, Engine.stops]⟩

theorem load (e : Engine) (g : Graph) : Holds e (e.load g).1 := by
  unfold Engine.load
  split
  · exact refl e
  · cases Run.load g with
    | error fault => exact ⟨rfl, rfl, rfl⟩
    | ok r =>
      exact ⟨rfl, e.meet_stages (r.withDiagnosticLimit e.config.maxDiagnostics),
        e.meet_stops (r.withDiagnosticLimit e.config.maxDiagnostics)⟩

end Holds

structure Tidy (e : Engine) : Prop where
  closed : e.closed = true → e.stages = []
  free : e.locked = false → e.stages = []

def takesOn (e : Engine) : Request → List Stage
  | .register given =>
    match e.register given with
    | .ok _ => given.mergeSort Stage.sooner
    | .error _ => []
  | _ => []

def letsGo (e : Engine) (q : Request) : List Stage :=
  if e.closed = false ∧ (e.serve q).closed = true then e.stages else []

def takenOn (e : Engine) : List Request → List Stage
  | [] => []
  | q :: rest => e.takesOn q ++ (e.serve q).takenOn rest

def letGo (e : Engine) : List Request → List Stage
  | [] => []
  | q :: rest => e.letsGo q ++ (e.serve q).letGo rest

theorem ofConfig_tidy (host : Host) (config : Config) : (ofConfig host config).Tidy :=
  ⟨fun _ => rfl, fun _ => rfl⟩

-- Between what an engine takes on and what it lets go there is what it has.
structure Conserves (e : Engine) (q : Request) : Prop where
  tidy : (e.serve q).Tidy
  stages : (e.letsGo q).map Stage.onLoad ++ (e.serve q).stages.map Stage.onLoad =
    e.stages.map Stage.onLoad ++ (e.takesOn q).map Stage.onLoad
  stops : (e.serve q).stops = e.stops ++ (e.letsGo q).flatMap Stage.stopEffects

theorem Holds.conserves {e : Engine} {q : Request} (holds : Holds e (e.serve q)) (tidy : e.Tidy)
    (none : e.takesOn q = []) : e.Conserves q := by
  have stays : e.letsGo q = [] := by
    rw [letsGo, holds.closed]
    cases e.closed with
    | true => rfl
    | false => rfl
  have empty : e.stages = [] → (e.serve q).stages = [] := by
    intro without
    have mapped := holds.stages
    rw [without] at mapped
    exact List.map_eq_nil_iff.mp mapped
  refine ⟨⟨fun shut => empty (tidy.closed (holds.closed ▸ shut)), fun free => empty (tidy.free ?_)⟩,
    ?_, ?_⟩
  · cases locked : e.locked with
    | false => rfl
    | true =>
      rw [(Carries.serve e q).locked locked] at free
      cases free
  · rw [stays, none, holds.stages, List.map_nil, List.nil_append, List.append_nil]
  · rw [stays, holds.stops, List.flatMap_nil, List.append_nil]

theorem register_conserves {e e' : Engine} {given : List Stage} (tidy : e.Tidy)
    (done : e.register given = .ok e') : e.Conserves (.register given) := by
  have served : e.serve (.register given) = e' := by rw [serve, done, orKeep]
  have takes : e.takesOn (.register given) = given.mergeSort Stage.sooner := by rw [takesOn, done]
  obtain ⟨locked, stages⟩ := register_stages done
  obtain ⟨isOpen, free, either⟩ := register_cases done
  have after : e'.closed = false ∧ e'.stops = e.stops := by
    obtain ⟨_, rfl⟩ | ⟨r, _, _, rfl⟩ := either
    · exact ⟨isOpen, rfl⟩
    · exact ⟨isOpen, meet_stops _ r⟩
  have stays : e.letsGo (.register given) = [] := by
    rw [letsGo, served, if_neg fun both => (by cases after.1.symm.trans both.2)]
  refine ⟨?_, ?_, ?_⟩
  · rw [served]
    refine ⟨fun shut => ?_, fun still => ?_⟩
    · cases after.1.symm.trans shut
    · cases locked.symm.trans still
  · rw [stays, served, takes, stages, tidy.free free]
  · rw [stays, served, after.2, List.flatMap_nil, List.append_nil]

theorem shutdown_conserves {e : Engine} (tidy : e.Tidy) : e.Conserves .shutdown := by
  cases shut : e.closed with
  | true =>
    have same : e.serve .shutdown = e := by rw [serve, shutdown, if_pos shut]
    exact Holds.conserves (by rw [same]; exact .refl e) tidy rfl
  | false =>
    have served : e.serve .shutdown =
        { e.record (e.stages.flatMap Stage.stopEffects) with stages := [], closed := true } := by
      rw [serve, shutdown, if_neg (by rw [shut]; exact Bool.false_ne_true)]
    have goes : e.letsGo .shutdown = e.stages := by rw [letsGo, served, if_pos ⟨shut, rfl⟩]
    refine ⟨?_, ?_, ?_⟩
    · rw [served]
      exact ⟨fun _ => rfl, fun _ => rfl⟩
    · rw [goes, served]
      rfl
    · rw [goes, served]
      change (e.record _).effects.toList.filter Effect.isStop = _
      rw [record, Array.toList_appendList, List.filter_append, Stage.stopEffects_filter, stops]

theorem serve_conserves {e : Engine} (tidy : e.Tidy) (q : Request) : e.Conserves q := by
  have inner : q.isInner = true → Holds e (e.serve q) :=
    serve_inner .refl .trans .tick .quiet e
  cases q with
  | signal | perform | runFor | runToEnd => exact (inner rfl).conserves tidy rfl
  | load g => exact (Holds.load e g).conserves tidy rfl
  | shutdown => exact shutdown_conserves tidy
  | register given =>
    cases done : e.register given with
    | ok e' => exact register_conserves tidy done
    | error refusal =>
      have same : e.serve (.register given) = e := by rw [serve, done, orKeep]
      exact Holds.conserves (by rw [same]; exact .refl e) tidy (by rw [takesOn, done])

theorem serveAll_conserves {e : Engine} (tidy : e.Tidy) (qs : List Request) :
    let after := qs.foldl serve e
    after.Tidy ∧ (e.letGo qs).map Stage.onLoad ++ after.stages.map Stage.onLoad =
      e.stages.map Stage.onLoad ++ (e.takenOn qs).map Stage.onLoad ∧
      after.stops = e.stops ++ (e.letGo qs).flatMap Stage.stopEffects := by
  induction qs generalizing e with
  | nil => exact ⟨tidy, (List.append_nil _).symm, (List.append_nil _).symm⟩
  | cons q rest ih =>
    have first := serve_conserves tidy q
    obtain ⟨last, stages, stops⟩ := ih first.tidy
    refine ⟨last, ?_, ?_⟩
    · rw [letGo, takenOn, List.map_append, List.map_append, List.append_assoc]
      refine (congrArg _ stages).trans ?_
      rw [← List.append_assoc, first.stages, List.append_assoc]
    · rw [letGo, List.flatMap_append, ← List.append_assoc, ← first.stops]
      exact stops

theorem takenOn_append (e : Engine) (qs rest : List Request) :
    e.takenOn (qs ++ rest) = e.takenOn qs ++ (qs.foldl serve e).takenOn rest := by
  induction qs generalizing e with
  | nil => rfl
  | cons q qs ih => rw [List.cons_append, takenOn, takenOn, ih, List.append_assoc]; rfl

theorem shutdown_closed (e : Engine) : e.shutdown.closed = true := by
  unfold shutdown
  split
  · assumption
  · rfl

section Closed
variable {e : Engine} (shut : e.closed = true)
include shut

theorem closed_tick : e.tick = .error .closed := by rw [tick, if_pos shut]

theorem closed_load (g : Graph) : e.load g = (e, .error .closed) := by rw [load, if_pos shut]

theorem closed_register (given : List Stage) : e.register given = .error .closed := by
  rw [register, if_pos shut]

theorem closed_runUntilComplete (budget : Nat) : e.runUntilComplete budget =
    if e.run.isNone then .error .notLoaded
    else if e.isComplete ∨ budget = 0 then .ok (e, 0) else .error .closed := by
  unfold runUntilComplete
  split
  · rfl
  · cases budget with
    | zero => simp [runFrom]
    | succ budget =>
      rw [runFrom, closed_tick shut]
      simp

theorem closed_serve {q : Request} (drives : q.drives = true) : e.serve q = e := by
  have runs : ∀ budget, e.orKeep ((e.runUntilComplete budget).map Prod.fst) = e := by
    intro budget
    rw [closed_runUntilComplete shut]
    split
    · rfl
    · split <;> rfl
  cases q with
  | perform => cases drives
  | signal s =>
    cases s with
    | tick => rw [serve, obey, closed_tick shut, orKeep]
    | _ => cases drives
  | register given => rw [serve, closed_register shut, orKeep]
  | load g => rw [serve, closed_load shut]
  | runFor budget => exact runs budget
  | runToEnd => exact runs e.config.defaultMaxTicks
  | shutdown => rw [serve, shutdown, if_pos shut]

theorem closed_serveAll {qs : List Request} (drives : ∀ q ∈ qs, q.drives = true) :
    qs.foldl serve e = e := by
  induction qs with
  | nil => rfl
  | cons q rest ih =>
    rw [List.foldl_cons, closed_serve shut (drives q List.mem_cons_self)]
    exact ih fun q member => drives q (List.mem_cons_of_mem _ member)

end Closed

theorem life_lets_go (host : Host) (config : Config) (qs : List Request) :
    let new := ofConfig host config
    let all := qs ++ [Request.shutdown]
    (new.letGo all).map Stage.onLoad = (new.takenOn qs).map Stage.onLoad ∧
      (all.foldl serve new).stops = (new.takenOn qs).flatMap Stage.stopEffects := by
  intro new all
  obtain ⟨tidy, stages, stops⟩ := serveAll_conserves (ofConfig_tidy host config) all
  have empty : (all.foldl serve new).stages = [] := by
    refine tidy.closed ?_
    rw [List.foldl_append]
    exact shutdown_closed _
  have took : new.takenOn all = new.takenOn qs := by
    rw [takenOn_append]
    exact List.append_nil _
  have gone : (new.letGo all).map Stage.onLoad = (new.takenOn qs).map Stage.onLoad := by
    have whole : (new.letGo all).map Stage.onLoad ++ (all.foldl serve new).stages.map Stage.onLoad =
      (new.takenOn all).map Stage.onLoad := stages
    rwa [empty, took, List.map_nil, List.append_nil] at whole
  refine ⟨gone, stops.trans ?_⟩
  rw [← Stage.flatMap_stopEffects (new.takenOn qs), ← gone, Stage.flatMap_stopEffects]
  rfl

-- A shutdown leaves the run, the history and the host as they are, at whatever time it comes. What
-- drives an engine is refused from then on, and whatever more is asked for in that way, not even an
-- effect is added. Over a whole life with its end, whenever shutdowns come in between, the stages
-- that are let go are those that were registered, each of them once.
theorem shutdown_is_final (host : Host) (config : Config) (qs : List Request) :
    let new := ofConfig host config
    let e := qs.foldl serve new
    let ended := e.shutdown
    (ended.run = e.run ∧ ended.fingerprint = e.fingerprint ∧ ended.history = e.history ∧
      ended.host = e.host ∧ ended.stages = []) ∧
    (ended.tick = .error .closed ∧ (∀ g, ended.load g = (ended, .error .closed)) ∧
      (∀ given, ended.register given = .error .closed) ∧
      ∀ budget, ended.runUntilComplete budget =
        if ended.run.isNone then .error .notLoaded
        else if ended.isComplete ∨ budget = 0 then .ok (ended, 0) else .error .closed) ∧
    (∀ later : List Request, (∀ q ∈ later, q.drives = true) → later.foldl serve ended = ended) ∧
    (new.letGo (qs ++ [.shutdown])).map Stage.onLoad = (new.takenOn qs).map Stage.onLoad ∧
    ((qs ++ [Request.shutdown]).foldl serve new).stops = (new.takenOn qs).flatMap Stage.stopEffects := by
  intro new e ended
  have shut : ended.closed = true := e.shutdown_closed
  have tidy : ended.Tidy :=
    (serve_conserves (serveAll_conserves (ofConfig_tidy host config) qs).1 .shutdown).tidy
  have kept : ended.history = e.history ∧ ended.host = e.host := by
    unfold ended shutdown
    split
    · exact ⟨rfl, rfl⟩
    · exact ⟨rfl, rfl⟩
  refine ⟨⟨e.shutdown_run, ?_, kept.1, kept.2, tidy.closed shut⟩,
    ⟨closed_tick shut, closed_load shut, closed_register shut, closed_runUntilComplete shut⟩,
    fun later => closed_serveAll shut, life_lets_go host config qs⟩
  rw [fingerprint, e.shutdown_run, fingerprint]

def busyLife : List Request :=
  [.register idlers, .load relay, .signal .tick, .shutdown, .register idlers, .signal .tick]

theorem busyLife_over :
    let ended := (busyLife.foldl serve (ofConfig {} {})).shutdown
    let later : List Request := [.load relay, .register Stage.standard, .signal .tick, .runFor 3, .shutdown]
    later.foldl serve ended = ended ∧
    ((busyLife ++ [Request.shutdown]).foldl serve (ofConfig {} {})).stops =
      [.stopped "early", .stopped "first", .stopped "second", .stopped "late"] := by
  obtain ⟨_, _, final, _, stops⟩ := shutdown_is_final {} {} busyLife
  refine ⟨final _ (by decide), stops.trans ?_⟩
  have ascends : idlers.Pairwise fun a b => decide (a.order ≤ b.order) = true := by decide
  have first : (ofConfig {} {}).takesOn (.register idlers) = idlers := List.mergeSort_of_pairwise ascends
  have took : (ofConfig {} {}).takenOn busyLife = idlers := by
    rw [busyLife, takenOn, first, serve_register rfl rfl rfl ascends]
    rfl
  rw [took]
  rfl

end Engine
end ActionGraph
