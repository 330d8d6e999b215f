import ActionGraph.Proofs.Course
-- Runs stay in order under any pipeline, at every moment between two ticks and within one. Only what
-- writes a whole status by hand is left out.
namespace ActionGraph

def Plan.Resolves (p : Plan) (t : Nat) : Prop := ∃ e route,
  p.edge? t = some e ∧ p.routes[t]? = some route ∧
  (p.indexOf? e.source = some route.source ∧ (p.action? route.source).isSome) ∧
  (p.indexOf? e.target = some route.target ∧ (p.action? route.target).isSome)

namespace Plan.Indexed
variable {p : Plan} (indexed : p.Indexed)
include indexed

theorem end_there {id : String} (known : (p.indexOf? id).isSome) :
    p.indexOf? id = some ((p.indexOf? id).getD 0) ∧ (p.action? ((p.indexOf? id).getD 0)).isSome := by
  obtain ⟨i, found⟩ := Option.isSome_iff_exists.mp known
  have there := (indexed.position id i).mp found
  rw [found, Option.getD_some]
  refine ⟨rfl, ?_⟩
  obtain ⟨a, here, _⟩ := Option.map_eq_some_iff.mp there
  rw [here]
  rfl

theorem resolves (inside : t < p.routes.length) : p.Resolves t := by
  have edges : t < p.graph.edges.length := by
    rwa [indexed.routes, List.length_map] at inside
  obtain ⟨source, target⟩ := indexed.known _ (List.getElem_mem edges)
  refine ⟨p.graph.edges[t], route p.positions p.graph.edges[t], List.getElem?_eq_getElem edges, ?_,
    indexed.end_there source, indexed.end_there target⟩
  rw [indexed.routes, List.getElem?_map, List.getElem?_eq_getElem edges]
  rfl

theorem leaving_resolves (member : t ∈ p.leaving i) : p.Resolves t := by
  rw [indexed.leaving] at member
  obtain ⟨route, there, _⟩ := Graph.mem_positionsOf.mp member
  exact indexed.resolves (List.getElem?_eq_some_iff.mp there).1

end Plan.Indexed

namespace Run

-- A run of the graph in order: all that it looks up is there, what it defers was armed by now, and
-- no date or timer is ahead of the tick.
structure Intact (g : Graph) (r : Run) : Prop where
  planned : Plan.ofGraph g = .ok r.plan
  size : r.statuses.length = g.actions.length
  deferred : ∀ d ∈ r.deferred, d.armed ≤ r.tick ∧ d.route < g.edges.length
  change : r.lastChange ≤ r.tick
  ages : ∀ (i : Nat) s, r.statuses[i]? = some s → s.age ≤ r.tick

def Behind (r : Run) : Prop := ∀ (i : Nat) s, r.statuses[i]? = some s → s.age < r.tick

-- What time leaves of a run, whatever happens to it.
structure Becomes (r r' : Run) : Prop where
  plan : r'.plan = r.plan
  size : r'.statuses.length = r.statuses.length
  tick : r.tick ≤ r'.tick
  final : ∀ i, (r.phase i).isTerminal = true → r'.phase i = r.phase i
  change : r.lastChange ≤ r'.lastChange

theorem Becomes.refl (r : Run) : r.Becomes r :=
  ⟨rfl, rfl, Nat.le_refl _, fun _ _ => rfl, Nat.le_refl _⟩

theorem Becomes.trans {a b c : Run} (ab : a.Becomes b) (bc : b.Becomes c) : a.Becomes c where
  plan := bc.plan.trans ab.plan
  size := bc.size.trans ab.size
  tick := Nat.le_trans ab.tick bc.tick
  final := by
    intro i ended
    have still := ab.final i ended
    rw [bc.final i (by rw [still]; exact ended), still]
  change := Nat.le_trans ab.change bc.change

theorem Steps.origin {r r' : Run} {i : Nat} {s' : Status} (steps : r.Steps r') (after : r'.statuses[i]? = some s') :
    ∃ s, r.statuses[i]? = some s ∧ s.Follows s' := by
  have inside := (List.getElem?_eq_some_iff.mp after).1
  rw [steps.size] at inside
  have found := List.getElem?_eq_getElem inside
  obtain ⟨s'', again, follows⟩ := steps.statuses i _ found
  cases again.symm.trans after
  exact ⟨_, found, follows⟩

theorem Steps.final {r r' : Run} (steps : r.Steps r') (ended : (r.phase i).isTerminal = true) :
    r'.phase i = r.phase i := by
  cases there : r.statuses[i]? with
  | none =>
    rw [phase, there] at ended
    cases ended
  | some s =>
    obtain ⟨s', after, follows⟩ := steps.statuses i s there
    rw [phase_of there] at ended ⊢
    rw [phase_of after, follows.final ended]

section Intact
variable {g : Graph} {r r' : Run} (intact : r.Intact g)
include intact

theorem Intact.inside (there : r.plan.action? i = some a) : i < r.statuses.length := by
  obtain ⟨_, _, graph, _⟩ := Plan.ofGraph_parts intact.planned
  rw [Plan.action?, graph] at there
  rw [intact.size]
  exact (List.getElem?_eq_some_iff.mp there).1

theorem Intact.routes : r.plan.routes.length = g.edges.length := by
  obtain ⟨_, _, _, _, _, _, routes, _⟩ := Plan.ofGraph_parts intact.planned
  rw [routes, List.length_map]

theorem Intact.resolves (inside : t < g.edges.length) : r.plan.Resolves t :=
  (Plan.ofGraph_indexed intact.planned).resolves (by rw [intact.routes]; exact inside)

theorem Intact.waited (there : r.statuses[i]? = some s) (early : r.tick + 1 < UInt64.size) :
    Delay.waited r i = s.age + 1 := by
  have bound := intact.ages i s there
  rw [Delay.waited, there, Option.map_some, Option.getD_some, Nat.mod_eq_of_lt (by omega)]

theorem Intact.steps (steps : r.Steps r') : r'.Intact g where
  planned := by rw [steps.plan]; exact intact.planned
  size := steps.size.trans intact.size
  deferred := by
    intro d member
    rw [steps.tick]
    rcases steps.deferred d member with early | ⟨today, inside⟩
    · exact intact.deferred d early
    · exact ⟨Nat.le_of_eq today, intact.routes ▸ inside⟩
  change := by
    have bound := intact.change
    rw [steps.tick]
    rcases steps.change with same | today
    · rw [same]; exact bound
    · exact Nat.le_of_eq today
  ages := by
    intro i s' after
    obtain ⟨s, there, follows⟩ := steps.origin after
    rw [steps.tick]
    exact Nat.le_trans follows.age (intact.ages i s there)

theorem Intact.becomes (steps : r.Steps r') : r.Becomes r' where
  plan := steps.plan
  size := steps.size
  tick := Nat.le_of_eq steps.tick.symm
  final := fun _ => steps.final
  change := by
    rcases steps.change with same | today
    · exact Nat.le_of_eq same.symm
    · rw [today]; exact intact.change

theorem Intact.beginTick : r.beginTick.Intact g where
  planned := intact.planned
  size := intact.size
  deferred := fun d member =>
    ⟨Nat.le_succ_of_le (intact.deferred d member).1, (intact.deferred d member).2⟩
  change := Nat.le_succ_of_le intact.change
  ages := fun i s there => Nat.le_succ_of_le (intact.ages i s there)

theorem Intact.behind : r.beginTick.Behind :=
  fun i s there => Nat.lt_succ_of_le (intact.ages i s there)

theorem Intact.endTick (behind : r.Behind) : r.endTick.Intact g where
  planned := intact.planned
  size := by rw [Run.endTick, List.length_map]; exact intact.size
  deferred := intact.deferred
  change := intact.change
  ages := by
    intro i s after
    rw [Run.endTick, List.getElem?_map] at after
    obtain ⟨s', there, rfl⟩ := Option.map_eq_some_iff.mp after
    have bound := behind i s' there
    change (if s'.age < Status.maxAge then s'.age + 1 else s'.age) ≤ r.tick
    split <;> omega

end Intact

theorem Steps.behind {r r' : Run} (behind : r.Behind) (steps : r.Steps r') : r'.Behind := by
  intro i s' after
  obtain ⟨s, there, follows⟩ := steps.origin after
  rw [steps.tick]
  exact Nat.lt_of_le_of_lt follows.age (behind i s there)

theorem beginTick_becomes (r : Run) : r.Becomes r.beginTick :=
  ⟨rfl, rfl, Nat.le_succ _, fun _ _ => rfl, Nat.le_refl _⟩

theorem endTick_becomes (r : Run) : r.Becomes r.endTick :=
  ⟨rfl, List.length_map .., Nat.le_refl _, fun i _ => r.endTick_phase i, Nat.le_refl _⟩

end Run

theorem Run.opened_intact (planned : Plan.ofGraph g = .ok p) (log : Diagnostics) :
    ((Run.ofPlan p).withLog log).Intact g where
  planned := planned
  size := by
    obtain ⟨_, _, graph, _⟩ := Plan.ofGraph_parts planned
    simp [Run.withLog, Run.ofPlan, graph]
  deferred := fun _ member => by cases member
  change := Nat.le_refl 0
  ages := by
    intro i s there
    simp only [Run.withLog, Run.ofPlan, List.getElem?_modify, List.getElem?_map] at there
    obtain ⟨fresh, found, rfl⟩ := Option.map_eq_some_iff.mp there
    obtain ⟨_, _, rfl⟩ := Option.map_eq_some_iff.mp found
    split <;> exact Nat.le_refl 0

theorem Engine.pass_intact {g : Graph} {r : Run} (intact : r.Intact g) (host : Host)
    {first second : List Stage} (plain : ∀ s ∈ first ++ second, s.Plain) :
    let mid := (pass host first r.beginTick).2.1
    let late := (pass host (first ++ second) r.beginTick).2.1
    mid.Intact g ∧ r.Becomes mid ∧ mid.Becomes late ∧ late.endTick.Intact g ∧
      late.Becomes late.endTick := by
  have begun := intact.beginTick
  have early : r.beginTick.Steps (pass host first r.beginTick).2.1 :=
    pass_steps host _ fun s member => plain s (List.mem_append_left _ member)
  have late : (pass host first r.beginTick).2.1.Steps (pass host (first ++ second) r.beginTick).2.1 := by
    rw [pass_append]
    exact pass_steps host _ fun s member => plain s (List.mem_append_right _ member)
  have mid := begun.steps early
  refine ⟨mid, r.beginTick_becomes.trans (begun.becomes early), mid.becomes late, ?_,
    Run.endTick_becomes _⟩
  exact (mid.steps late).endTick (late.behind (early.behind intact.behind))

def Request.Plain : Request → Prop
  | .register stages => ∀ s ∈ stages, s.Plain
  | .load _ => False
  | .perform op => op.overwrites = false
  | .signal _ | .runFor _ | .runToEnd | .shutdown => True

namespace Engine

structure Sustains (g : Graph) (e e' : Engine) : Prop where
  stages : (∀ s ∈ e.stages, s.Plain) → ∀ s ∈ e'.stages, s.Plain
  run : (∀ s ∈ e.stages, s.Plain) → ∀ r, e.run = some r → r.Intact g →
    ∃ r', e'.run = some r' ∧ r'.Intact g ∧ r.Becomes r'

namespace Sustains

theorem calm {e e' : Engine} (same : (e'.stages, e'.run) = (e.stages, e.run)) : Sustains g e e' := by
  simp only [Prod.mk.injEq] at same
  obtain ⟨stages, run⟩ := same
  refine ⟨fun plain => by rw [stages]; exact plain, fun _ r loaded intact => ?_⟩
  exact ⟨r, run.trans loaded, intact, .refl r⟩

theorem refl (e : Engine) : Sustains g e e := calm rfl

theorem trans {a b c : Engine} (first : Sustains g a b) (second : Sustains g b c) : Sustains g a c where
  stages := fun plain => second.stages (first.stages plain)
  run := by
    intro plain r loaded intact
    obtain ⟨mid, there, sound, early⟩ := first.run plain r loaded intact
    obtain ⟨r', after, sound', late⟩ := second.run (first.stages plain) mid there sound
    exact ⟨r', after, sound', early.trans late⟩

theorem tick {e e' : Engine} (ticks : e.tick = .ok e') : Sustains g e e' := by
  obtain ⟨_, r, loaded, rfl⟩ := tick_parts ticks
  refine ⟨fun plain => pass_plain e.host r.beginTick plain, fun plain r' again intact => ?_⟩
  cases loaded.symm.trans again
  have whole : ∀ s ∈ [] ++ e.stages, s.Plain := plain
  obtain ⟨_, begun, passed, intact', ended⟩ := pass_intact intact e.host whole
  exact ⟨_, rfl, intact', (begun.trans passed).trans ended⟩

theorem onRun {e e' : Engine} {f : Run → Run × α} (done : (e.onRun f).map Prod.fst = .ok e')
    (steps : ∀ r : Run, r.Steps (f r).1) : Sustains g e e' := by
  obtain ⟨r, loaded, rfl⟩ := onRun_parts done
  refine ⟨fun plain => plain, fun _ r' again intact => ?_⟩
  cases loaded.symm.trans again
  exact ⟨_, rfl, intact.steps (steps r), intact.becomes (steps r)⟩

theorem obey {e e' : Engine} {s : Signal} (done : e.obey s = .ok e') : Sustains g e e' := by
  by_cases isTick : s = .tick
  · subst isTick
    exact tick done
  · obtain ⟨stages, run⟩ := obey_parts isTick done
    refine ⟨fun plain => by rw [stages]; exact plain, fun _ r loaded intact => ?_⟩
    have steps := r.heed_steps s
    exact ⟨r.heed s, by rw [run, loaded]; rfl, intact.steps steps, intact.becomes steps⟩

theorem runUntilComplete {e e' : Engine}
    (done : (e.runUntilComplete budget).map Prod.fst = .ok e') : Sustains g e e' :=
  runUntilComplete_ticks refl (fun ticks later => (tick ticks).trans later) done

theorem register {e e' : Engine} {given : List Stage} (done : e.register given = .ok e')
    (plain : ∀ s ∈ given, s.Plain) : Sustains g e e' := by
  obtain ⟨_, _, run, stages⟩ := register_run done
  constructor
  · intro _ s member
    obtain ⟨s', inside, rfl | rfl⟩ := stages s member
    · exact plain s inside
    · exact Stage.onLoad_plain (plain s' inside)
  · intro _ r loaded intact
    obtain ⟨log, there⟩ := run r loaded
    have steps : r.Steps (r.withLog log) := .calm rfl
    exact ⟨_, there, intact.steps steps, intact.becomes steps⟩

theorem shutdown (e : Engine) : Sustains g e e.shutdown := by
  unfold Engine.shutdown
  split
  · exact refl e
  · refine ⟨fun _ s member => (by cases member), fun _ r loaded intact => ?_⟩
    exact ⟨r, loaded, intact, .refl r⟩

theorem serve (e : Engine) {q : Request} (plain : q.Plain) : Sustains g e (e.serve q) := by
  cases q with
  | register stages => exact orKeep_related refl fun _ done => register done plain
  | load g => exact plain.elim
  | signal s => exact orKeep_related refl fun _ => obey
  | perform op => exact orKeep_related refl fun _ done => onRun done fun r => r.perform_steps plain
  | runFor budget => exact orKeep_related refl fun _ => runUntilComplete
  | runToEnd => exact orKeep_related refl fun _ => runUntilComplete
  | shutdown => exact shutdown e

theorem serveAll (e : Engine) {qs : List Request} (plain : ∀ q ∈ qs, q.Plain) :
    Sustains g e (qs.foldl Engine.serve e) := by
  induction qs generalizing e with
  | nil => exact refl e
  | cons q rest ih =>
    have first := serve (g := g) e (plain q List.mem_cons_self)
    exact first.trans (ih _ fun q member => plain q (List.mem_cons_of_mem _ member))

end Sustains
end Engine

namespace Run

structure InOrder (g : Graph) (r : Run) : Prop extends Intact g r where
  start : r.plan.start < r.statuses.length
  kinds : ∀ kind, ∀ i ∈ r.plan.ofKind kind, i < r.statuses.length
  leaving : ∀ i, ∀ t ∈ r.plan.leaving i, r.plan.Resolves t
  waiting : ∀ d ∈ r.deferred, r.plan.Resolves d.route
  timers : ∀ (i : Nat) s, r.statuses[i]? = some s → r.tick + 1 < UInt64.size →
    Delay.waited r i = s.age + 1

theorem Intact.inOrder {g : Graph} {r : Run} (intact : r.Intact g) : r.InOrder g where
  toIntact := intact
  start := by
    obtain ⟨a, there, _⟩ := (Plan.ofGraph_indexed intact.planned).start
    exact intact.inside there
  kinds := by
    intro kind i member
    have isKind := (Plan.mem_ofKind (Plan.ofGraph_indexed intact.planned)).mp member
    obtain ⟨a, there, _⟩ := Option.map_eq_some_iff.mp isKind
    exact intact.inside there
  leaving := fun _ _ member => (Plan.ofGraph_indexed intact.planned).leaving_resolves member
  waiting := fun d member => intact.resolves (intact.deferred d member).2
  timers := fun _ _ there early => intact.waited there early

end Run

-- Whatever is asked of an engine between two loads, and whatever its own stages and the host's do to
-- the run within a tick: the run stays in order at every moment, and time never takes an action back
-- from where it ended or the last change back to an earlier tick.
theorem Engine.run_stays_in_order {e : Engine} (loads : (e.load g).2 = .ok ())
    (plain : ∀ s ∈ e.stages, s.Plain) (before after : List Request)
    (asks : ∀ q ∈ before ++ after, q.Plain) : ∃ r r',
    (before.foldl Engine.serve (e.load g).1).run = some r ∧
    ((before ++ after).foldl Engine.serve (e.load g).1).run = some r' ∧
    r.InOrder g ∧ r'.InOrder g ∧ r.Becomes r' ∧
    ∀ host first second, (∀ s ∈ first ++ second, s.Plain) →
      let mid := (pass host first r.beginTick).2.1
      let late := (pass host (first ++ second) r.beginTick).2.1
      mid.InOrder g ∧ r.Becomes mid ∧ mid.Becomes late ∧ late.endTick.InOrder g ∧
        late.Becomes late.endTick := by
  obtain ⟨p, log, planned, _, loaded, stages⟩ := load_parts loads
  have opened := Run.opened_intact planned log
  have plain' : ∀ s ∈ (e.load g).1.stages, s.Plain := by
    intro s member
    rw [stages] at member
    obtain ⟨s', inside, rfl⟩ := List.mem_map.mp member
    exact Stage.onLoad_plain (plain s' inside)
  have early := Sustains.serveAll (g := g) (e.load g).1 fun q member =>
    asks q (List.mem_append_left _ member)
  have late := Sustains.serveAll (g := g) (before.foldl Engine.serve (e.load g).1) fun q member =>
    asks q (List.mem_append_right _ member)
  obtain ⟨r, there, intact, _⟩ := early.run plain' _ loaded opened
  obtain ⟨r', there', intact', becomes⟩ := late.run (early.stages plain') r there intact
  refine ⟨r, r', there, by rw [List.foldl_append]; exact there', intact.inOrder, intact'.inOrder,
    becomes, ?_⟩
  intro host first second plain
  obtain ⟨mid, begun, passed, done, ended⟩ := pass_intact intact host plain
  exact ⟨mid.inOrder, begun, passed, done.inOrder, ended⟩

def meddler : Script where
  name := "meddler"
  order := 105
  kinds := []
  moves := fun tick => [.completeAndEmit 2 "out", .setPhase 0 .running, .cancel 9, .emit 1 "out",
    .enqueue ⟨7, "out", tick, "in"⟩, .markPropagated 1]

def meddledEngine : Engine := { stages := .script meddler :: Stage.standard, locked := true }

theorem meddled_plain : ∀ s ∈ meddledEngine.stages, s.Plain := by
  simp [meddledEngine, meddler, Stage.standard, Stage.core, Stage.domain, Stage.Plain,
    Operation.overwrites]

theorem Engine.relay_stays_in_order : ∃ r r',
    ([Request.signal .tick].foldl Engine.serve (meddledEngine.load relay).1).run = some r ∧
    ([Request.signal .tick, .perform (.setPhase 1 .cancelled), .runFor 3].foldl Engine.serve
      (meddledEngine.load relay).1).run = some r' ∧
    r.InOrder relay ∧ r'.InOrder relay ∧ r.Becomes r' ∧
    ∀ host first second, (∀ s ∈ first ++ second, s.Plain) →
      let mid := (pass host first r.beginTick).2.1
      let late := (pass host (first ++ second) r.beginTick).2.1
      mid.InOrder relay ∧ r.Becomes mid ∧ mid.Becomes late ∧ late.endTick.InOrder relay ∧
        late.Becomes late.endTick :=
  run_stays_in_order (by decide) meddled_plain [.signal .tick]
    [.perform (.setPhase 1 .cancelled), .runFor 3] (by simp [Request.Plain, Operation.overwrites])

end ActionGraph
