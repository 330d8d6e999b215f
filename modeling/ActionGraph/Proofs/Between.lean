import ActionGraph.Proofs.Throughout
-- Between ticks. A request leaves an engine with the run it had, or with a new one; the plan stays with
-- the run, and an event is raised afterwards only if it was before or the request raises it.
namespace ActionGraph

def Operation.signals : Operation → List String → List String
  | .raise name, l => l.insert name
  | _, l => l

theorem Run.setPhase_raised (r : Run) (i : Nat) (next : Phase) :
    (r.setPhase i next).1.raised = r.raised := by
  rcases r.setPhase_parts i next with ⟨log, same⟩ | ⟨s, there, left, same⟩
  · rw [same]
    rfl
  · rw [same]
    rfl

theorem Run.perform_raised (r : Run) (op : Operation) :
    (r.perform op).1.raised = op.signals r.raised := by
  cases op with
  | propertyOr i key kind fallback =>
    obtain ⟨log, same⟩ := r.propertyOr_parts kind.read? i key fallback
    simp only [perform, same]
    rfl
  | requireProperty i key kind fallback =>
    obtain ⟨log, same⟩ := r.requireProperty_parts kind.read? i key fallback
    simp only [perform, same]
    rfl
  | setPhase i next => exact r.setPhase_raised i next
  | complete i => exact r.setPhase_raised i .completed
  | cancel i => exact r.setPhase_raised i .cancelled
  | completeAndEmit i port =>
    change (r.completeAndEmit i port).1.raised = r.raised
    rcases r.completeAndEmit_parts i port with same | same
    · rw [same, setPhase_raised]
    · rw [same]
      exact r.setPhase_raised i .completed
  | _ => rfl

def Request.raises : Request → String → Prop
  | .signal (.raise n), name | .perform (.raise n), name => n = name
  | _, _ => False

-- The run that another one has become, events of some names having been raised on the way.
structure Run.Heir (names : String → Prop) (r r' : Run) : Prop where
  plan : r'.plan = r.plan
  size : r'.statuses.length = r.statuses.length
  raised : ∀ name ∈ r'.raised, name ∈ r.raised ∨ names name

namespace Run.Heir

theorem calm {names : String → Prop} {r r' : Run}
    (same : (r'.plan, r'.statuses, r'.raised) = (r.plan, r.statuses, r.raised)) : r.Heir names r' := by
  simp only [Prod.mk.injEq] at same
  obtain ⟨plan, statuses, raised⟩ := same
  exact ⟨plan, by rw [statuses], fun name member => .inl (raised ▸ member)⟩

theorem trans {names : String → Prop} {a b c : Run} (first : a.Heir names b)
    (last : b.Heir names c) : a.Heir names c where
  plan := last.plan.trans first.plan
  size := last.size.trans first.size
  raised := by
    intro name member
    rcases last.raised name member with early | late
    · exact first.raised name early
    · exact .inr late

theorem perform (r : Run) (op : Operation) : r.Heir (Request.perform op).raises (r.perform op).1 := by
  have frames := r.perform_frames op
  refine ⟨frames.plan, frames.size, fun name member => ?_⟩
  rw [r.perform_raised op] at member
  cases op with
  | raise n =>
    rcases List.mem_insert_iff.mp member with rfl | early
    · exact .inr rfl
    · exact .inl early
  | _ => exact .inl member

theorem heed (r : Run) (s : Signal) : r.Heir (Request.signal s).raises (r.heed s) := by
  cases s with
  | raise name => exact perform r (.raise name)
  | cancel id =>
    simp only [Run.heed]
    split
    · exact .calm rfl
    · split
      · exact .calm rfl
      · next i _ _ =>
        have steps := r.setPhase_steps i .cancelled
        exact ⟨steps.plan, steps.size, fun name member =>
          .inl (r.setPhase_raised i .cancelled ▸ member)⟩
  | _ => exact .calm rfl

end Run.Heir

namespace Engine

def Inherits (names : String → Prop) (e e' : Engine) : Prop :=
  ∀ r', e'.run = some r' → ∃ r, e.run = some r ∧ r.Heir names r'

namespace Inherits
variable {names : String → Prop}

theorem refl (e : Engine) : Inherits names e e := fun r loaded => ⟨r, loaded, .calm rfl⟩

theorem trans {a b c : Engine} (first : Inherits names a b) (last : Inherits names b c) :
    Inherits names a c := by
  intro r' loaded
  obtain ⟨mid, there, late⟩ := last r' loaded
  obtain ⟨r, before, early⟩ := first mid there
  exact ⟨r, before, early.trans late⟩

theorem tick {e e' : Engine} (ticks : e.tick = .ok e') : Inherits names e e' := by
  obtain ⟨_, r, loaded, rfl⟩ := tick_parts ticks
  rintro r' ⟨⟩
  have frames := pass_frames e.host r.beginTick e.stages
  exact ⟨r, loaded, frames.plan, (List.length_map _).trans frames.size, fun _ member => by cases member⟩

theorem obey {e e' : Engine} {s : Signal} (done : e.obey s = .ok e') :
    Inherits (Request.signal s).raises e e' := by
  by_cases isTick : s = .tick
  · subst isTick
    exact tick done
  · obtain ⟨_, run⟩ := obey_parts isTick done
    intro r' loaded
    obtain ⟨r, there, rfl⟩ := Option.map_eq_some_iff.mp (run ▸ loaded)
    exact ⟨r, there, .heed r s⟩

theorem perform {e e' : Engine} {op : Operation} (done : (e.perform op).map Prod.fst = .ok e') :
    Inherits (Request.perform op).raises e e' := by
  obtain ⟨r, there, rfl⟩ := onRun_parts done
  rintro r' ⟨⟩
  exact ⟨r, there, .perform r op⟩

theorem register {e e' : Engine} {given : List Stage} (done : e.register given = .ok e') :
    Inherits names e e' := by
  obtain ⟨_, run, _⟩ := register_run done
  intro r' loaded
  obtain ⟨r, log, there, rfl⟩ := run r' loaded
  exact ⟨r, there, .calm rfl⟩

end Inherits

theorem shutdown_run (e : Engine) : e.shutdown.run = e.run := by
  unfold shutdown
  split <;> rfl

theorem load_fails {e : Engine} (fails : (e.load g).2 = .error refusal) :
    (e.load g).1.run = e.run ∨ (e.load g).1.run = none := by
  unfold load at fails ⊢
  by_cases shut : e.closed = true
  · rw [if_pos shut]
    exact .inl rfl
  · rw [if_neg shut] at fails ⊢
    cases loads : Run.load g with
    | error fault => exact .inr rfl
    | ok r => rw [loads] at fails; cases fails

theorem serve_run (e : Engine) (q : Request) : Inherits q.raises e (e.serve q) ∨
    ∃ g p log, Plan.ofGraph g = .ok p ∧ (e.serve q).run = some ((Run.ofPlan p).withLog log) := by
  cases q with
  | register stages => exact .inl (orKeep_related .refl fun _ => .register)
  | signal s => exact .inl (orKeep_related .refl fun _ => .obey)
  | perform op => exact .inl (orKeep_related .refl fun _ => .perform)
  | runFor | runToEnd =>
    refine .inl (orKeep_related .refl fun _ => runUntilComplete_ticks (R := Inherits _) .refl ?_)
    exact fun ticks later => (Inherits.tick ticks).trans later
  | shutdown => exact .inl fun r loaded => ⟨r, e.shutdown_run.symm.trans loaded, .calm rfl⟩
  | load g =>
    cases loads : (e.load g).2 with
    | ok =>
      obtain ⟨p, log, planned, _, loaded, _⟩ := load_parts loads
      exact .inr ⟨g, p, log, planned, loaded⟩
    | error refusal =>
      rcases load_fails loads with same | gone
      · exact .inl fun r loaded => ⟨r, same.symm.trans loaded, .calm rfl⟩
      · exact .inl fun r loaded => by cases gone.symm.trans loaded

theorem serveAll_run {P : Run → Prop} {e : Engine} {qs : List Request}
    (begun : ∀ g p log, Plan.ofGraph g = .ok p → P ((Run.ofPlan p).withLog log))
    (heir : ∀ q ∈ qs, ∀ {r r'}, r.Heir q.raises r' → P r → P r')
    (holds : ∀ r, e.run = some r → P r) : ∀ r, (qs.foldl serve e).run = some r → P r := by
  induction qs generalizing e with
  | nil => exact holds
  | cons q rest ih =>
    refine ih (fun q member => heir q (List.mem_cons_of_mem _ member)) fun r' loaded => ?_
    rcases e.serve_run q with inherits | ⟨g, p, log, planned, fresh⟩
    · obtain ⟨r, there, becomes⟩ := inherits r' loaded
      exact heir q List.mem_cons_self becomes (holds r there)
    · cases fresh.symm.trans loaded
      exact begun g p log planned

theorem served_indexed (host : Host) (config : Config) (qs : List Request) :
    ∀ r, (qs.foldl serve (.ofConfig host config)).run = some r → r.plan.Indexed :=
  serveAll_run (P := fun r => r.plan.Indexed) (fun _ _ _ planned => Plan.ofGraph_indexed planned)
    (fun _ _ _ _ becomes indexed => becomes.plan ▸ indexed) fun _ none => by cases none

theorem served_sized (host : Host) (config : Config) (qs : List Request) :
    ∀ r, (qs.foldl serve (.ofConfig host config)).run = some r →
      r.statuses.length = r.plan.graph.actions.length := by
  refine serveAll_run (P := fun r => r.statuses.length = r.plan.graph.actions.length) ?_ ?_
    fun _ none => by cases none
  · intro g p log _
    simp [Run.withLog, Run.ofPlan]
  · intro q _ r r' becomes sized
    rw [becomes.size, becomes.plan, sized]

end Engine

def Request.isInner : Request → Bool
  | signal _ | perform _ | runFor _ | runToEnd => true
  | register _ | load _ | shutdown => false

namespace Engine

structure Quiet (e e' : Engine) : Prop where
  same : (e'.closed, e'.locked, e'.stages, e'.effects) = (e.closed, e.locked, e.stages, e.effects)
  plan : e'.run.map Run.plan = e.run.map Run.plan

namespace Quiet

theorem onRun {e e' : Engine} {f : Run → Run × α} (keeps : ∀ r, (f r).1.plan = r.plan)
    (done : (e.onRun f).map Prod.fst = .ok e') : Quiet e e' := by
  obtain ⟨r, loaded, rfl⟩ := onRun_parts done
  refine ⟨rfl, ?_⟩
  rw [loaded]
  exact congrArg some (keeps r)

theorem obey {e e' : Engine} {s : Signal} (quiet : s ≠ .tick) (done : e.obey s = .ok e') :
    Quiet e e' := by
  obtain ⟨_, run⟩ := obey_parts quiet done
  refine ⟨?_, ?_⟩
  · cases s with
    | tick => exact (quiet rfl).elim
    | host | enableHistory | disableHistory => cases done; rfl
    | raise | setTag | clearTag | board | cancel =>
      obtain ⟨_, _, rfl⟩ := onRun_parts done
      rfl
  · rw [run, Option.map_map]
    exact congrFun (congrArg Option.map (funext fun r => (r.heed_steps s).plan)) e.run

end Quiet

-- Whatever a request about the run does, it is done by ticks and by what is quiet.
theorem serve_inner {R : Engine → Engine → Prop} (refl : ∀ e, R e e)
    (trans : ∀ {a b c}, R a b → R b c → R a c) (tick : ∀ {e e' : Engine}, e.tick = .ok e' → R e e')
    (quiet : ∀ {e e'}, Quiet e e' → R e e') (e : Engine) {q : Request} (inner : q.isInner = true) :
    R e (e.serve q) := by
  have runs : ∀ e' budget, (e.runUntilComplete budget).map Prod.fst = .ok e' → R e e' :=
    fun _ _ => runUntilComplete_ticks refl fun ticks later => trans (tick ticks) later
  cases q with
  | register | load | shutdown => cases inner
  | perform op => exact orKeep_related refl fun _ done => quiet (.onRun (fun r => (r.perform_frames op).plan) done)
  | runFor budget => exact orKeep_related refl fun e' => runs e' budget
  | runToEnd => exact orKeep_related refl fun e' => runs e' e.config.defaultMaxTicks
  | signal s =>
    by_cases isTick : s = .tick
    · subst isTick
      exact orKeep_related refl fun _ => tick
    · exact orKeep_related refl fun _ done => quiet (.obey isTick done)

end Engine
end ActionGraph
