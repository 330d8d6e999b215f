import ActionGraph.Proofs.Between
-- Raised events. What a host raises between two ticks is raised all through the next one and never
-- after it. What a stage raises in a tick is raised for what is left of that tick only: the next tick
-- does not see it.
namespace ActionGraph

-- What an event is to the stages, to whoever asks and to guards, however long their pulses wait.
structure Run.Hears (r : Run) (name : String) (heard : Bool) : Prop where
  raised : r.raised.contains name = heard
  asked : r.answer (.isRaised name) = .flag heard
  guards : ∀ elapsed, (Guard.event name).holds (r.moment elapsed) = heard

theorem Run.hears {r : Run} (heard : name ∈ r.raised) : r.Hears name true := by
  have raised : r.raised.contains name = true := List.contains_iff_mem.mpr heard
  exact ⟨raised, congrArg Answer.flag raised, fun _ => by rw [Guard.holds]; exact raised⟩

theorem Run.not_hears {r : Run} (unheard : name ∉ r.raised) : r.Hears name false := by
  have raised : r.raised.contains name = false :=
    Bool.eq_false_iff.mpr fun heard => unheard (List.contains_iff_mem.mp heard)
  exact ⟨raised, congrArg Answer.flag raised, fun _ => by rw [Guard.holds]; exact raised⟩

theorem Run.raised_passable (Q : List String → Prop) :
    Run.Passable fun a b => Q a.raised → Q b.raised where
  refl := fun _ holds => holds
  trans := fun first last holds => last (first holds)
  deed := fun _ _ done holds => done.raised ▸ holds

theorem Stage.raised_goes {Q : List String → Prop} {s : Stage}
    (signals : ∀ op ∈ s.moves tick, ∀ l, Q l → Q (op.signals l)) :
    s.Goes (fun a b => Q a.raised → Q b.raised) tick where
  moves := fun op member r holds => r.perform_raised op ▸ signals op member _ holds
  delivery := fun _ _ _ _ delivers => ⟨fun holds => delivers.raised ▸ holds, fun holds => holds⟩

theorem Operation.signals_mem {l : List String} (heard : name ∈ l) (op : Operation) :
    name ∈ op.signals l := by
  cases op with
  | raise n => exact List.mem_insert_of_mem heard
  | _ => exact heard

theorem Operation.signals_not_mem {l : List String} {op : Operation} (other : op ≠ .raise name)
    (unheard : name ∉ l) : name ∉ op.signals l := by
  cases op with
  | raise n =>
    intro heard
    rcases List.mem_insert_iff.mp heard with rfl | early
    · exact other rfl
    · exact unheard early
  | _ => exact unheard

namespace Engine

theorem heard_throughout {stages : List Stage} {r : Run} (indexed : r.plan.Indexed)
    (heard : name ∈ r.raised) (host : Host) : Throughout (·.Hears name true) host stages r := by
  have goes : ∀ s ∈ stages, s.Goes (fun a b => name ∈ a.raised → name ∈ b.raised) r.tick :=
    fun s _ => Stage.raised_goes (Q := (name ∈ ·)) fun op _ _ heard => op.signals_mem heard
  have passes := (pass_throughout (Run.raised_passable (name ∈ ·)) indexed goes host).2
  exact passes.imp fun m way => Run.hears (way.1 heard)

theorem unheard_throughout {stages : List Stage} {r : Run} (indexed : r.plan.Indexed)
    (unheard : name ∉ r.raised) (silent : ∀ s ∈ stages, ∀ op ∈ s.moves r.tick, op ≠ .raise name)
    (host : Host) : Throughout (·.Hears name false) host stages r := by
  have goes : ∀ s ∈ stages, s.Goes (fun a b => name ∉ a.raised → name ∉ b.raised) r.tick :=
    fun s member => Stage.raised_goes (Q := (name ∉ ·)) fun op inside _ unheard =>
      Operation.signals_not_mem (silent s member op inside) unheard
  have passes := (pass_throughout (Run.raised_passable (name ∉ ·)) indexed goes host).2
  exact passes.imp fun m way => Run.not_hears (way.1 unheard)

end Engine

def Request.Quiet : Request → Prop
  | .signal s => s ≠ .tick
  | .register _ | .perform _ | .shutdown => True
  | .load _ | .runFor _ | .runToEnd => False

theorem Request.raises.quiet {q : Request} (raises : q.raises name) : q.Quiet := by
  cases q with
  | signal s =>
    rintro rfl
    exact raises
  | perform => trivial
  | _ => exact raises.elim

namespace Run

theorem perform_heard (r : Run) (op : Operation)
    (heard : name ∈ r.raised ∨ (Request.perform op).raises name) : name ∈ (r.perform op).1.raised := by
  rw [r.perform_raised op]
  rcases heard with early | raises
  · exact op.signals_mem early
  · cases op with
    | raise n => exact raises ▸ List.mem_insert_self
    | _ => cases raises

theorem heed_heard (r : Run) (s : Signal)
    (heard : name ∈ r.raised ∨ (Request.signal s).raises name) : name ∈ (r.heed s).raised := by
  cases s with
  | raise n => exact r.perform_heard (.raise n) heard
  | cancel id =>
    have early : name ∈ r.raised := heard.resolve_right fun raises => raises
    simp only [heed]
    split
    · exact early
    · split
      · exact early
      · exact (r.setPhase_raised _ .cancelled).symm ▸ early
  | _ => exact heard.resolve_right id

end Run

namespace Engine

theorem onRun_fails {e : Engine} {f : Run → Run × α}
    (fails : (e.onRun f).map Prod.fst = .error refusal) : e.run = none := by
  cases loaded : e.run with
  | none => rfl
  | some r => rw [onRun, loaded] at fails; cases fails

theorem obey_fails {e : Engine} {s : Signal} (quiet : s ≠ .tick) (fails : e.obey s = .error refusal) :
    e.run = none := by
  cases s with
  | tick => exact (quiet rfl).elim
  | host | enableHistory | disableHistory => cases fails
  | _ => exact onRun_fails fails

theorem orKeep_run {e : Engine} {done : Except Refusal Engine}
    (loaded : (e.orKeep done).run = some r) : (∃ refusal, done = .error refusal ∧ e.run = some r) ∨
      ∃ e', done = .ok e' ∧ e'.run = some r := by
  cases done with
  | error refusal => exact .inl ⟨refusal, rfl, loaded⟩
  | ok e' => exact .inr ⟨e', rfl, loaded⟩

theorem serve_quiet (e : Engine) {q : Request} (quiet : q.Quiet) : ∀ r', (e.serve q).run = some r' →
    ∃ r, e.run = some r ∧ ∀ name, name ∈ r.raised ∨ q.raises name → name ∈ r'.raised := by
  intro r' loaded
  cases q with
  | load | runFor | runToEnd => exact quiet.elim
  | shutdown =>
    exact ⟨r', e.shutdown_run.symm.trans loaded, fun name heard => heard.resolve_right id⟩
  | register stages =>
    rcases orKeep_run loaded with ⟨_, _, kept⟩ | ⟨e', done, loaded⟩
    · exact ⟨r', kept, fun name heard => heard.resolve_right id⟩
    · obtain ⟨r, log, there, rfl⟩ := (register_run done).2.1 r' loaded
      exact ⟨r, there, fun name heard => heard.resolve_right id⟩
  | signal s =>
    rcases orKeep_run loaded with ⟨_, fails, kept⟩ | ⟨e', done, loaded⟩
    · cases (obey_fails quiet fails).symm.trans kept
    · obtain ⟨r, there, rfl⟩ := Option.map_eq_some_iff.mp ((obey_parts quiet done).2 ▸ loaded)
      exact ⟨r, there, fun name => r.heed_heard s⟩
  | perform op =>
    rcases orKeep_run loaded with ⟨_, fails, kept⟩ | ⟨e', done, loaded⟩
    · cases (onRun_fails fails).symm.trans kept
    · obtain ⟨r, there, rfl⟩ := onRun_parts done
      cases loaded
      exact ⟨r, there, fun name => r.perform_heard op⟩

theorem serveAll_quiet (e : Engine) {qs : List Request} (quiet : ∀ q ∈ qs, q.Quiet) :
    ∀ r', (qs.foldl serve e).run = some r' →
      ∃ r, e.run = some r ∧ ∀ name ∈ r.raised, name ∈ r'.raised := by
  induction qs generalizing e with
  | nil => exact fun r loaded => ⟨r, loaded, fun _ heard => heard⟩
  | cons q rest ih =>
    intro r' loaded
    obtain ⟨mid, there, late⟩ := ih (e.serve q) (fun q member => quiet q (List.mem_cons_of_mem _ member))
      r' loaded
    obtain ⟨r, before, early⟩ := e.serve_quiet (quiet q List.mem_cons_self) mid there
    exact ⟨r, before, fun name heard => late name (early name (.inl heard))⟩

theorem unheard_later {e : Engine} (served : ∀ r, e.run = some r → r.plan.Indexed)
    (ended : ∀ r, e.run = some r → name ∉ r.raised) {later : List Request}
    (silent : ∀ q ∈ later, ¬q.raises name) {r : Run} (loaded : (later.foldl serve e).run = some r) :
    r.plan.Indexed ∧ name ∉ r.raised := by
  have begun : ∀ g p log, Plan.ofGraph g = .ok p →
      ((Run.ofPlan p).withLog log).plan.Indexed ∧ name ∉ ((Run.ofPlan p).withLog log).raised :=
    fun _ _ _ planned => ⟨Plan.ofGraph_indexed planned, List.not_mem_nil⟩
  refine serveAll_run (P := fun r => r.plan.Indexed ∧ name ∉ r.raised) begun ?_
    (fun r there => ⟨served r there, ended r there⟩) r loaded
  intro q member r r' heir ⟨indexed, unheard⟩
  refine ⟨heir.plan ▸ indexed, fun heard => ?_⟩
  rcases heir.raised name heard with early | raises
  · exact unheard early
  · exact silent q member raises

theorem raised_within {r : Run} (indexed : r.plan.Indexed) (host : Host) {s : Script}
    {ops soon : List Operation} (moves : ops ++ .raise name :: soon <+: s.moves r.tick)
    (rest : List Stage) : (r.performAll (ops ++ .raise name :: soon)).1.Hears name true ∧
      Throughout (·.Hears name true) host rest (s.update r).1 := by
  have keeps : ∀ (ops : List Operation) (r : Run), name ∈ r.raised →
      name ∈ (r.performAll ops).1.raised :=
    fun ops r => Run.performAll_goes (Run.raised_passable (name ∈ ·))
      (fun op _ r heard => r.perform_heard op (.inl heard)) r
  have heard : name ∈ (r.performAll (ops ++ .raise name :: soon)).1.raised := by
    rw [Run.performAll_append]
    exact keeps soon _ (Run.perform_heard _ (.raise name) (.inr rfl))
  obtain ⟨others, whole⟩ := moves
  refine ⟨Run.hears heard, heard_throughout ?_ ?_ host⟩
  · exact (r.performAll_frames (s.moves r.tick)).plan ▸ indexed
  · change name ∈ (r.performAll (s.moves r.tick)).1.raised
    rw [← whole, Run.performAll_append]
    exact keeps others _ heard

-- Whatever the pipeline, and whatever an engine has served before a tick. An event that the host has
-- raised since the last tick is seen at every moment of this one. An event that a stage raises in this
-- tick is seen from there on. After the tick nothing is raised, and no later tick sees the event at any
-- moment unless the host or a stage of that tick raises it again.
theorem raised_lasts_one_tick (host : Host) (config : Config) (asks later : List Request)
    (name : String) (silent : ∀ q ∈ later, ¬q.raises name)
    (ticks : (asks.foldl serve (.ofConfig host config)).tick = .ok e') :
    let e := asks.foldl serve (.ofConfig host config)
    let e'' := later.foldl serve e'
    ∃ r r', e.run = some r ∧ e'.run = some r' ∧
      (∀ before q quiet, asks = before ++ q :: quiet → q.raises name → (∀ q ∈ quiet, q.Quiet) →
        Throughout (·.Hears name true) e.host e.stages r.beginTick) ∧
      (∀ first s rest ops soon, e.stages = first ++ .script s :: rest →
        let mid := (pass e.host first r.beginTick).2.1
        ops ++ .raise name :: soon <+: s.moves mid.tick →
        (mid.performAll (ops ++ .raise name :: soon)).1.Hears name true ∧
          Throughout (·.Hears name true) e.host rest (s.update mid).1) ∧
      r'.raised = [] ∧ ∀ r'', e''.run = some r'' → r''.Hears name false ∧
        ((∀ s ∈ e''.stages, ∀ op ∈ s.moves (r''.tick + 1), op ≠ .raise name) →
          Throughout (·.Hears name false) e''.host e''.stages r''.beginTick) := by
  intro e e''
  have served := served_indexed host config asks
  obtain ⟨_, r, loaded, same⟩ := tick_parts ticks
  have indexed : r.beginTick.plan.Indexed := served r loaded
  refine ⟨r, _, loaded, congrArg Engine.run same, ?_, ?_, rfl, ?_⟩
  · intro before q quiet split raises calm
    have reached : (quiet.foldl serve ((before.foldl serve (.ofConfig host config)).serve q)).run =
        some r := by rw [← loaded, split, List.foldl_append]; rfl
    obtain ⟨mid, there, late⟩ := serveAll_quiet _ calm r reached
    obtain ⟨_, _, early⟩ := serve_quiet _ raises.quiet mid there
    exact heard_throughout indexed (late name (early name (.inr raises))) e.host
  · intro first s rest ops soon _ mid moves
    have frames := pass_frames e.host r.beginTick first
    exact raised_within (r := mid) (frames.plan ▸ indexed) e.host moves rest
  · intro r'' there
    have early : ∀ r, e'.run = some r → r.plan.Indexed ∧ name ∉ r.raised := by
      rw [same]
      rintro _ ⟨⟩
      exact ⟨(pass_frames e.host r.beginTick e.stages).plan ▸ indexed, List.not_mem_nil⟩
    obtain ⟨exact', unheard⟩ := unheard_later (fun r there => (early r there).1)
      (fun r there => (early r there).2) silent there
    exact ⟨Run.not_hears unheard, fun still =>
      unheard_throughout (r := r''.beginTick) exact' unheard still e''.host⟩

-- A stage of the host's that raises an event in the first tick and asks for it in the second.
def bell : Script where
  name := "bell"
  order := 5
  kinds := []
  moves := fun tick => if tick = 1 then [.raise "go"] else [.ask (.isRaised "go")]

def bellStages : List Stage := [.delivery {}, .script bell, .flow {}]

theorem bellStages_sorted :
    bellStages.Pairwise fun a b => decide (a.order ≤ b.order) = true := by decide

theorem bell_lasts_one_tick :
    let e := [.register bellStages, .load relay, .signal (.raise "ring"),
      .signal (.setTag "open")].foldl serve (.ofConfig {} {})
    ∃ e' r r', e.tick = .ok e' ∧ e.run = some r ∧ e'.run = some r' ∧
      Throughout (·.Hears "ring" true) e.host e.stages r.beginTick ∧ r'.raised = [] ∧
      ∀ r'', ([.signal .tick].foldl serve e').run = some r'' → r''.Hears "ring" false := by
  intro e
  obtain ⟨e', ticks⟩ : ∃ e', e.tick = .ok e' := by
    change ∃ e', (List.foldl serve _ _).tick = .ok e'
    rw [List.foldl_cons, serve_register rfl rfl rfl bellStages_sorted]
    exact ⟨_, rfl⟩
  obtain ⟨r, r', loaded, loaded', heard, _, silent, later⟩ := raised_lasts_one_tick {} {}
    [.register bellStages, .load relay, .signal (.raise "ring"), .signal (.setTag "open")]
    [.signal .tick] "ring" (by simp [Request.raises]) ticks
  refine ⟨e', r, r', ticks, loaded, loaded', ?_, silent, fun r'' there => (later r'' there).1⟩
  exact heard [.register bellStages, .load relay] (.signal (.raise "ring")) [.signal (.setTag "open")]
    rfl rfl (by simp [Request.Quiet])

theorem bell_unheard_next : ∃ r, ([.register bellStages, .load relay, .signal .tick].foldl serve
      (.ofConfig {} {})).run = some r ∧ bell.moves r.tick = [.raise "go"] ∧
      Throughout (·.Hears "go" false) {} bellStages r.beginTick := by
  obtain ⟨r, loaded, tick, raised⟩ : ∃ r, ([.register bellStages, .load relay, .signal .tick].foldl serve
      (.ofConfig {} {})).run = some r ∧ r.tick = 1 ∧ r.raised = [] := by
    rw [List.foldl_cons, serve_register rfl rfl rfl bellStages_sorted]
    exact ⟨_, rfl, rfl, rfl⟩
  have next : r.beginTick.tick = 2 := congrArg (· + 1) tick
  refine ⟨r, loaded, by rw [tick]; rfl, unheard_throughout (r := r.beginTick)
    (served_indexed _ _ _ r loaded) (raised ▸ List.not_mem_nil) ?_ {}⟩
  rw [next]
  simp [bellStages, bell, Stage.moves]

end Engine
end ActionGraph
