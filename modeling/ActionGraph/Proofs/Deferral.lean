import ActionGraph.Proofs.Chronicle
import ActionGraph.Proofs.Queues
-- Deferred entries over whole runs. The queue has no state of its own: what waits in it, and what a
-- tick releases from it, can be told from what was armed and from the points at which the ticks
-- since then have judged it.
namespace ActionGraph

namespace Run

def live? (r : Run) (d : Deferred) : Option Route :=
  (r.plan.routes[d.route]?).filter fun route => r.phase route.source ≠ .cancelled

def holdsBack (r : Run) (d : Deferred) : Bool :=
  (r.live? d).any fun route => !r.open? (r.tick - d.armed) route

def lets? (r : Run) (d : Deferred) : Option Pulse :=
  ((r.live? d).filter fun route => r.open? (r.tick - d.armed) route).map Route.pulse

theorem fate_parts (r : Run) (d : Deferred) :
    (r.fate d).isKept = r.holdsBack d ∧ (r.fate d).pulse? = r.lets? d := by
  unfold holdsBack lets? live?
  cases there : r.plan.routes[d.route]? with
  | none => rw [fate, there]; exact ⟨rfl, rfl⟩
  | some route =>
    rw [fate_eq there]
    by_cases lapses : r.phase route.source = .cancelled
    · simp [lapses, Fate.isKept, Fate.pulse?, Option.filter_some]
    · cases opens : r.open? (r.tick - d.armed) route <;>
        simp [lapses, opens, Fate.isKept, Fate.pulse?, Option.filter_some]

theorem retained_eq (r : Run) : r.retained = r.deferred.filter r.holdsBack :=
  List.filter_congr fun d _ => (r.fate_parts d).1

theorem released_eq (r : Run) : r.released = r.deferred.filterMap r.lets? :=
  List.filterMap_congr fun d _ => (r.fate_parts d).2

theorem live_parts {r : Run} (live : r.live? d = some route) :
    r.plan.routes[d.route]? = some route ∧ r.phase route.source ≠ .cancelled := by
  obtain ⟨there, left⟩ := Option.filter_eq_some_iff.mp live
  exact ⟨there, of_decide_eq_true left⟩

theorem released_parts {r : Run} (member : q ∈ r.released) :
    (∃ d ∈ r.deferred, r.plan.sender? d = some q.source) ∧ r.phase q.source ≠ .cancelled := by
  rw [released_eq] at member
  obtain ⟨d, waits, lets⟩ := List.mem_filterMap.mp member
  obtain ⟨route, opens, rfl⟩ := Option.map_eq_some_iff.mp lets
  obtain ⟨there, left⟩ := live_parts (Option.filter_eq_some_iff.mp opens).1
  exact ⟨⟨d, waits, by rw [Plan.sender?, Plan.pulse?, there]; rfl⟩, left⟩

theorem retained_parts {r : Run} (member : d ∈ r.retained) (sender : r.plan.sender? d = some i) :
    d ∈ r.deferred ∧ r.phase i ≠ .cancelled := by
  rw [retained_eq] at member
  obtain ⟨waits, holds⟩ := List.mem_filter.mp member
  obtain ⟨route, live, _⟩ := (Option.any_eq_true ..).mp holds
  obtain ⟨there, left⟩ := live_parts live
  rw [Plan.sender?, Plan.pulse?, there] at sender
  have source : route.source = i := Option.some.inj sender
  exact ⟨waits, source ▸ left⟩

theorem release_unheld {r : Run} (unheld : ∀ d ∈ r.deferred, r.plan.sender? d ≠ some i) :
    r.released.filter (·.source = i) = [] ∧
      r.retained.filter (fun d => r.plan.sender? d = some i) = [] := by
  constructor
  · refine List.filter_eq_nil_iff.mpr fun q member source => ?_
    obtain ⟨⟨d, waits, sender⟩, _⟩ := released_parts member
    rw [of_decide_eq_true source] at sender
    exact unheld d waits sender
  · refine List.filter_eq_nil_iff.mpr fun d member sender => ?_
    have sender := of_decide_eq_true sender
    exact unheld d (retained_parts member sender).1 sender

end Run

structure Tale where
  turn : Turn
  works : List Work

namespace Tale

def point (tale : Tale) : Run := tale.turn.before.arrived

def sent (tale : Tale) : List Pulse := tale.works.flatMap Work.sent
def armed (tale : Tale) : List Deferred := tale.works.flatMap Work.armed

def Holds (tale : Tale) : Prop :=
  ∃ done, tale.point.releaseDeferred.Works tale.works done ∧ tale.turn.after = done.endTick

end Tale

def Tells (told : List Tale) (turns : List Turn) : Prop :=
  told.map Tale.turn = turns ∧ ∀ tale ∈ told, tale.Holds

-- What was armed and held back at each point since, the oldest first.
def stillWaiting : List Tale → List Deferred
  | [] => []
  | tale :: later =>
    (tale.armed.filter fun d => later.all fun since => since.point.holdsBack d) ++ stillWaiting later

theorem stillWaiting_append (told : List Tale) (tale : Tale) : stillWaiting (told ++ [tale]) =
    (stillWaiting told).filter tale.point.holdsBack ++ tale.armed := by
  induction told with
  | nil => simp [stillWaiting]
  | cons first rest ih =>
    simp only [List.cons_append, stillWaiting, ih, List.filter_append, List.filter_filter,
      List.all_append, List.all_cons, List.all_nil, Bool.and_true, List.append_assoc]
    simp only [Bool.and_comm]

namespace Tale

-- How a turn goes on from the earlier ones. What its emissions send or arm is decided at no time
-- elapsed; what waited is let go, held back or lost at its point, each entry by its own time.
structure Follows (p : Plan) (earlier : List Tale) (tale : Tale) : Prop where
  point : tale.point.plan = p ∧ tale.point.tick = earlier.length + 1 ∧
    tale.point.tags = tale.turn.before.tags ∧ tale.point.raised = tale.turn.before.raised
  works : ∀ w ∈ tale.works, w.run.plan = p ∧ w.run.tick = earlier.length + 1 ∧
    w.run.tags = tale.turn.before.tags ∧ w.run.raised = tale.turn.before.raised
  board : ∀ before w after, tale.works = before ++ w :: after →
    (∀ v ∈ before, v.deed ≠ .finish) → w.run.board = tale.point.board
  routes : ∀ w ∈ tale.works, ∀ t route, (t, route) ∈ w.routes ↔ p.routes[t]? = some route ∧
    route.source = w.action ∧ w.deed.port? = some route.sourcePort
  pending : tale.turn.after.pending =
    (stillWaiting earlier).filterMap tale.point.lets? ++ tale.sent
  deferred : tale.turn.after.deferred = stillWaiting (earlier ++ [tale])

variable {tale : Tale} (holds : tale.Holds)
include holds

theorem Holds.pending : tale.turn.after.pending =
    tale.turn.before.deferred.filterMap tale.point.lets? ++ tale.sent := by
  obtain ⟨done, works, same⟩ := holds
  rw [same, Run.endTick, works.pending, Run.releaseDeferred_eq, Run.released_eq, point,
    Run.arrived_pending, Run.arrived_deferred, List.nil_append, sent]

theorem Holds.deferred : tale.turn.after.deferred =
    tale.turn.before.deferred.filter tale.point.holdsBack ++ tale.armed := by
  obtain ⟨done, works, same⟩ := holds
  rw [same, Run.endTick, works.deferred, Run.releaseDeferred_eq, Run.retained_eq, point,
    Run.arrived_deferred, armed]

theorem Holds.board (parts : tale.works = before ++ w :: after)
    (calm : ∀ v ∈ before, v.deed ≠ .finish) : w.run.board = tale.point.board := by
  obtain ⟨_, works, _⟩ := holds
  rw [parts] at works
  exact works.board calm

theorem Holds.keeps (member : w ∈ tale.works) : tale.point.Keeps w.run := by
  obtain ⟨_, works, _⟩ := holds
  exact tale.point.releaseDeferred_keeps.trans (works.keeps_at member)

end Tale

namespace Reached

theorem telling (reached : Reached g script t r turns) : ∃ told, Tells told turns := by
  induction reached using Reached.induct with
  | opened => exact ⟨[], rfl, by simp⟩
  | heeded _ _ _ _ _ _ _ ih => exact ih
  | ticked _ _ r _ ps ws _ r' _ ticks ih =>
    obtain ⟨told, same, hold⟩ := ih
    obtain ⟨done, after, works⟩ := ticks.works
    refine ⟨told ++ [⟨⟨r, r'⟩, ps ++ ws⟩], by simp [same], fun tale member => ?_⟩
    rcases List.mem_append.mp member with member | last
    · exact hold tale member
    · cases List.mem_singleton.mp last
      exact ⟨done, works, after⟩

theorem deferred (reached : Reached g script t r turns) (tells : Tells told turns) :
    r.deferred = stillWaiting told := by
  induction reached using Reached.induct generalizing told with
  | opened =>
    rw [List.map_eq_nil_iff.mp tells.1]
    rfl
  | heeded _ _ r _ s _ _ ih => rw [(r.heed_heeds s).deferred, ih tells]
  | ticked _ _ r _ _ _ _ r' _ _ ih =>
    obtain ⟨same, hold⟩ := tells
    obtain ⟨earlier, last, rfl, before, now⟩ := List.map_eq_append_iff.mp same
    obtain ⟨tale, rfl, turn⟩ := List.map_eq_singleton_iff.mp now
    have queue := (hold tale (by simp)).deferred
    rw [turn] at queue
    rw [stillWaiting_append, queue,
      ih ⟨before, fun tale member => hold tale (List.mem_append_left _ member)⟩]

theorem follows (reached : Reached g script t r turns)
    (tells : Tells (earlier ++ tale :: later) turns) : tale.Follows r.plan earlier := by
  obtain ⟨same, hold⟩ := tells
  rw [List.map_append, List.map_cons] at same
  subst same
  obtain ⟨_, _, _, _, _, prior, ticks⟩ := reached.turn
  have holds := hold tale (by simp)
  have before := prior.deferred ⟨rfl, fun tale member => hold tale (List.mem_append_left _ member)⟩
  have plan : tale.turn.before.plan = r.plan :=
    Except.ok.inj (prior.planned.symm.trans reached.planned)
  have tick : tale.point.tick = earlier.length + 1 := by
    rw [Tale.point, Run.arrived_tick, prior.counts, List.length_map]
  have delivers := tale.turn.before.arrived_delivers
  have works : ∀ w ∈ tale.works, w.run.plan = r.plan ∧ w.run.tick = earlier.length + 1 ∧
      w.run.tags = tale.turn.before.tags ∧ w.run.raised = tale.turn.before.raised := by
    intro w member
    have keeps := holds.keeps member
    exact ⟨keeps.plan.trans (delivers.plan.trans plan), keeps.tick.trans tick,
      keeps.tags.trans delivers.tags, keeps.raised.trans delivers.raised⟩
  refine ⟨⟨delivers.plan.trans plan, tick, delivers.tags, delivers.raised⟩, works,
    fun _ _ _ => holds.board, ?_, ?_, ?_⟩
  · intro w member t route
    have same := (works w member).1
    rw [Work.mem_routes (same ▸ reached.indexed), same]
  · rw [holds.pending, before]
  · rw [holds.deferred, before, stillWaiting_append]

end Reached

namespace Chronicle

-- After any script the turns can be told by their works, and however they are told: what each turn
-- sends is what its emissions send at once, behind what it lets go of all that was ever armed and
-- held back at each point since. What is neither let go nor held back is lost for good.
theorem deferred_fires_once (opens : Opens g e) (script : List Signal) : ∃ c r,
    (⟨e, []⟩ : Chronicle).play script = .ok c ∧ c.engine.run = some r ∧
    (∃ told, Tells told c.turns) ∧ ∀ told, Tells told c.turns → r.deferred = stillWaiting told ∧
      ∀ earlier tale later, told = earlier ++ tale :: later → tale.Follows r.plan earlier := by
  obtain ⟨c, t, r, played, shows, reached⟩ := play_reached opens script
  refine ⟨c, r, played, shows.run, reached.telling, fun told tells => ⟨reached.deferred tells, ?_⟩⟩
  rintro earlier tale later rfl
  exact reached.follows tells

theorem relay_deferred_fires_once : ∃ c r,
    (⟨(relayEngine.load relay).1, []⟩ : Chronicle).play
      [.tick, .raise "ring", .tick, .raise "ring", .tick, .setTag "open", .tick] = .ok c ∧
    c.engine.run = some r ∧ (∃ told, Tells told c.turns) ∧
    ∀ told, Tells told c.turns → r.deferred = stillWaiting told ∧
      ∀ earlier tale later, told = earlier ++ tale :: later → tale.Follows r.plan earlier :=
  deferred_fires_once relay_opens _

end Chronicle
end ActionGraph
