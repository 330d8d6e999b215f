import ActionGraph.Proofs.Tick
import Mathlib.Data.List.Induction
-- Whole runs. A graph is loaded under the standard pipeline, and then the host sends signals and
-- ticks in any order. No signal is ever refused, and what can be reached is an opening followed by
-- heeded signals and ticks.
namespace ActionGraph

-- All that a host does between two loads short of reaching into the run: it sets no phases, sends
-- no pulses and emits nothing itself.
inductive Signal where
  | tick
  | raise (name : String)
  | setTag (tag : String)
  | clearTag (tag : String)
  | cancel (id : String)
  | board (a : Blackboard.Access)
  | host (h : Host)
  | enableHistory (capacity : Nat)
  | disableHistory

def Engine.obey (e : Engine) : Signal → Except Refusal Engine
  | .tick => e.tick
  | .raise name => (e.raise name).map Prod.fst
  | .setTag tag => (e.setTag tag).map Prod.fst
  | .clearTag tag => (e.clearTag tag).map Prod.fst
  | .cancel id => (e.cancel id).map Prod.fst
  | .board a => (e.perform (.board a)).map Prod.fst
  | .host h => .ok { e with host := h }
  | .enableHistory capacity => .ok (e.enableHistory capacity)
  | .disableHistory => .ok e.disableHistory

-- The engine right after a successful load under the standard pipeline, whichever of loading and
-- registering came first. Whatever the engine did before is left open.
inductive Opens (g : Graph) : Engine → Prop where
  | load (e : Engine) (standard : e.stages.map Stage.onLoad = Stage.standard)
    (loads : (e.load g).2 = .ok ()) : Opens g (e.load g).1
  | register (e : Engine) (loads : (e.load g).2 = .ok ())
    (registers : (e.load g).1.register Stage.standard = .ok e') : Opens g e'

structure Turn where
  before : Run
  after : Run

-- An engine with its turns so far, the oldest first.
structure Chronicle where
  engine : Engine
  turns : List Turn := []

namespace Chronicle

def turnOf (s : Signal) (before after : Option Run) : List Turn :=
  match s, before, after with
  | .tick, some before, some after => [⟨before, after⟩]
  | _, _, _ => []

def next (c : Chronicle) (s : Signal) : Except Refusal Chronicle :=
  match c.engine.obey s with
  | .error refusal => .error refusal
  | .ok e => .ok ⟨e, c.turns ++ turnOf s c.engine.run e.run⟩

def play (c : Chronicle) : List Signal → Except Refusal Chronicle
  | [] => .ok c
  | s :: rest =>
    match c.next s with
    | .error refusal => .error refusal
    | .ok c => c.play rest

end Chronicle

namespace Engine

theorem reportUnclaimed_parts (stages : List Stage) (r : Run) :
    ∃ log, reportUnclaimed stages r = r.withLog log := by
  rw [reportUnclaimed]
  induction unclaimed stages r.plan.graph.actions 0 [] generalizing r with
  | nil => exact ⟨r.log, rfl⟩
  | cons u rest ih =>
    obtain ⟨log, same⟩ := ih (r.warn u.1 ("no registered system handles type '" ++ u.2 ++ "'"))
    exact ⟨log, same⟩

theorem load_parts {e : Engine} (loads : (e.load g).2 = .ok ()) : ∃ p log, Plan.ofGraph g = .ok p ∧
    (e.load g).1.closed = false ∧ (e.load g).1.run = some ((Run.ofPlan p).withLog log) ∧
    (e.load g).1.stages = e.stages.map Stage.onLoad := by
  unfold load at loads ⊢
  cases opened : e.closed with
  | true => simp [opened] at loads
  | false =>
    cases planned : Plan.ofGraph g with
    | error fault => simp [opened, Run.load, planned, Except.map] at loads
    | ok p =>
      simp only [Bool.false_eq_true, if_false, Run.load, planned, Except.map]
      split
      · obtain ⟨log, same⟩ := reportUnclaimed_parts
          (e.meet ((Run.ofPlan p).withDiagnosticLimit e.config.maxDiagnostics)).stages
          ((Run.ofPlan p).withDiagnosticLimit e.config.maxDiagnostics)
        exact ⟨p, log, rfl, opened, by rw [same]; rfl, rfl⟩
      · exact ⟨p, _, rfl, opened, rfl, rfl⟩

theorem register_cases {e e' : Engine} {given : List Stage} (done : e.register given = .ok e') :
    let staffed := { e with
      stages := given.mergeSort fun a b => a.order ≤ b.order
      locked := true }
    e.closed = false ∧ e.locked = false ∧ (e.run = none ∧ e' = staffed ∨
      ∃ r log, e.run = some r ∧ e' = { staffed.meet r with run := some (r.withLog log) }) := by
  unfold register at done
  cases isOpen : e.closed with
  | true => simp [isOpen] at done
  | false =>
    cases free : e.locked with
    | true => simp [isOpen, free] at done
    | false =>
      simp only [isOpen, free, Bool.false_eq_true, if_false] at done
      refine ⟨rfl, rfl, ?_⟩
      cases loaded : e.run with
      | none =>
        simp only [loaded] at done
        cases done
        exact .inl ⟨rfl, rfl⟩
      | some r =>
        simp only [loaded] at done
        cases done
        obtain ⟨log, same⟩ := reportUnclaimed_parts (given.mergeSort fun a b => a.order ≤ b.order) r
        refine .inr ⟨r, log, rfl, ?_⟩
        rw [← same]

theorem register_as {e e' : Engine} {given : List Stage} (loaded : e.run = some r)
    (sorted : (given.mergeSort fun a b => a.order ≤ b.order) = given)
    (new : given.map Stage.onLoad = given) (registers : e.register given = .ok e') : ∃ log,
    e'.closed = false ∧ e'.run = some (r.withLog log) ∧ e'.stages = given := by
  obtain ⟨isOpen, _, ⟨empty, _⟩ | ⟨_, log, there, rfl⟩⟩ := register_cases registers
  · rw [loaded] at empty
    cases empty
  · cases loaded.symm.trans there
    refine ⟨log, isOpen, rfl, ?_⟩
    dsimp only [meet]
    rw [sorted, new]

theorem register_parts {e e' : Engine} (loaded : e.run = some r)
    (registers : e.register Stage.standard = .ok e') : ∃ log,
    e'.closed = false ∧ e'.run = some (r.withLog log) ∧ e'.stages = Stage.standard :=
  register_as loaded (List.mergeSort_of_pairwise (by decide)) rfl registers

end Engine

theorem Opens.parts (opens : Opens g e) : ∃ p log, Plan.ofGraph g = .ok p ∧ e.closed = false ∧
    e.run = some ((Run.ofPlan p).withLog log) ∧ e.stages = ({} : Tables).stages := by
  cases opens with
  | load e standard loads =>
    obtain ⟨p, log, planned, opened, loaded, stages⟩ := Engine.load_parts loads
    exact ⟨p, log, planned, opened, loaded, stages.trans standard⟩
  | register e loads registers =>
    obtain ⟨p, log, planned, _, loaded, _⟩ := Engine.load_parts loads
    obtain ⟨log', opened, reported, stages⟩ := Engine.register_parts loaded registers
    exact ⟨p, log', planned, opened, reported, stages⟩

namespace Run

def heed (r : Run) : Signal → Run
  | .raise name => r.raise name
  | .setTag tag => r.setTag tag
  | .clearTag tag => (r.clearTag tag).1
  | .cancel id =>
    match r.plan.indexOf? id with
    | none => r
    | some i => if (r.phase i).isTerminal then r else (r.cancel i).1
  | .board a => { r with board := (r.board.access a).1 }
  | _ => r

-- Between ticks nothing is sent, delivered or deferred, and a status changes by cancelling only.
structure Heeds (r : Run) (s : Signal) (r' : Run) : Prop where
  plan : r'.plan = r.plan
  pending : r'.pending = r.pending
  delivered : r'.delivered = r.delivered
  deferred : r'.deferred = r.deferred
  tick : r'.tick = r.tick
  size : r'.statuses.length = r.statuses.length
  statuses : ∀ i : Nat, r'.statuses[i]? = r.statuses[i]? ∨ ∃ id st, s = .cancel id ∧
    r.plan.indexOf? id = some i ∧ r.statuses[i]? = some st ∧ st.phase.isTerminal = false ∧
    r'.statuses[i]? = some (st.enter .cancelled)

theorem Heeds.calm {s : Signal} {r r' : Run}
    (same : (r'.plan, r'.pending, r'.delivered, r'.deferred, r'.tick, r'.statuses) =
      (r.plan, r.pending, r.delivered, r.deferred, r.tick, r.statuses)) : r.Heeds s r' := by
  simp only [Prod.mk.injEq] at same
  obtain ⟨plan, pending, delivered, deferred, tick, statuses⟩ := same
  exact ⟨plan, pending, delivered, deferred, tick, by rw [statuses], fun i => .inl (by rw [statuses])⟩

theorem cancel_heeds {r : Run} {id : String} (found : r.plan.indexOf? id = some i)
    (left : (r.phase i).isTerminal = false) : r.Heeds (.cancel id) (r.cancel i).1 := by
  cases there : r.statuses[i]? with
  | none =>
    refine .calm ?_
    simp only [cancel, setPhase, there]
  | some st =>
    rw [phase_of there] at left
    have differ : st.phase ≠ .cancelled := by
      intro same
      rw [same] at left
      cases left
    rw [cancel, setPhase_other there left differ]
    refine ⟨rfl, rfl, rfl, rfl, rfl, List.length_modify .., fun j => ?_⟩
    by_cases same : i = j
    · subst same
      refine .inr ⟨id, st, rfl, found, there, left, ?_⟩
      simp [modifyStatus, there]
    · exact .inl (List.getElem?_modify_ne _ _ same)

theorem heed_heeds (r : Run) (s : Signal) : r.Heeds s (r.heed s) := by
  cases s with
  | cancel id =>
    cases found : r.plan.indexOf? id with
    | none => simp only [heed, found]; exact .calm rfl
    | some i =>
      cases final : (r.phase i).isTerminal with
      | true => simp only [heed, found, final, if_true]; exact .calm rfl
      | false =>
        simp only [heed, found, final, Bool.false_eq_true, if_false]
        exact cancel_heeds found final
  | _ => exact .calm rfl

theorem Heeds.final {s : Signal} (heeds : Heeds r s r') (ended : (r.phase i).isTerminal = true) :
    r'.phase i = r.phase i := by
  rcases heeds.statuses i with same | ⟨_, st, _, _, found, left, _⟩
  · rw [phase, same, phase]
  · rw [phase_of found, left] at ended
    cases ended

end Run

namespace Engine

def arrivals (e : Engine) (i : Nat) : Nat :=
  (e.stages.findSome? fun | .flow t => some (t.get i) | _ => none).getD 0

def fires (e : Engine) (i : Nat) : Nat :=
  (e.stages.findSome? fun | .trigger t => some (t.get i) | _ => none).getD 0

def outcome? (e : Engine) (i : Nat) : Option Outcome :=
  (e.stages.findSome? fun | .filter t => some (t.lookup i) | _ => none).join

structure Shows (e : Engine) (t : Tables) (r : Run) : Prop where
  isOpen : e.closed = false
  stages : e.stages = t.stages
  run : e.run = some r

namespace Shows
variable {e : Engine} (shows : e.Shows t r)
include shows

theorem arrivals (i : Nat) : e.arrivals i = t.arrivals.get i := by
  rw [Engine.arrivals, shows.stages]; rfl

theorem fires (i : Nat) : e.fires i = t.fires.get i := by
  rw [Engine.fires, shows.stages]; rfl

theorem outcome? (i : Nat) : e.outcome? i = t.outcomes.lookup i := by
  rw [Engine.outcome?, shows.stages]; rfl

theorem tick_decides (indexed : r.plan.Indexed) : ∃ e' ps ws t' r',
    e.tick = .ok e' ∧ e'.Shows t' r' ∧ r.Ticks t ps ws t' r' ∧ r.Decides t ws r' := by
  obtain ⟨ps, ws, t', stages, ticks, decides⟩ := Run.pass_ticks e.host t indexed
  rw [← shows.stages] at stages ticks decides
  simp only [Engine.tick, shows.isOpen, shows.run, Bool.false_eq_true, if_false]
  exact ⟨_, ps, ws, t', _, rfl, ⟨shows.isOpen, stages, rfl⟩, ticks, decides⟩

theorem tick (indexed : r.plan.Indexed) : ∃ e' ps ws t' r',
    e.tick = .ok e' ∧ e'.Shows t' r' ∧ r.Ticks t ps ws t' r' := by
  obtain ⟨e', ps, ws, t', r', step, shows', ticks, _⟩ := shows.tick_decides indexed
  exact ⟨e', ps, ws, t', r', step, shows', ticks⟩

theorem heed {s : Signal} (quiet : s ≠ .tick) : ∃ e', e.obey s = .ok e' ∧ e'.Shows t (r.heed s) := by
  cases s with
  | tick => exact (quiet rfl).elim
  | cancel id =>
    simp only [obey, cancel, onRun, shows.run, Except.map, Run.heed]
    refine ⟨_, rfl, shows.isOpen, shows.stages, ?_⟩
    cases r.plan.indexOf? id with
    | none => rfl
    | some i => dsimp only; split <;> rfl
  | raise name =>
    simp only [obey, raise, onRun, shows.run, Except.map]
    exact ⟨_, rfl, shows.isOpen, shows.stages, rfl⟩
  | setTag tag =>
    simp only [obey, setTag, onRun, shows.run, Except.map]
    exact ⟨_, rfl, shows.isOpen, shows.stages, rfl⟩
  | clearTag tag =>
    simp only [obey, clearTag, onRun, shows.run, Except.map]
    exact ⟨_, rfl, shows.isOpen, shows.stages, rfl⟩
  | board a =>
    simp only [obey, perform, onRun, shows.run, Except.map]
    exact ⟨_, rfl, shows.isOpen, shows.stages, rfl⟩
  | host | enableHistory | disableHistory =>
    exact ⟨_, rfl, shows.isOpen, shows.stages, shows.run⟩

end Shows
end Engine

-- Where a script can lead from given tables, run and turns.
inductive Leads (t₀ : Tables) (r₀ : Run) (turns₀ : List Turn) :
    List Signal → Tables → Run → List Turn → Prop where
  | nowhere : Leads t₀ r₀ turns₀ [] t₀ r₀ turns₀
  | heeded (prior : Leads t₀ r₀ turns₀ script t r turns) (quiet : s ≠ .tick) :
    Leads t₀ r₀ turns₀ (script ++ [s]) t (r.heed s) turns
  | ticked (prior : Leads t₀ r₀ turns₀ script t r turns) (ticks : r.Ticks t ps ws t' r') :
    Leads t₀ r₀ turns₀ (script ++ [.tick]) t' r' (turns ++ [⟨r, r'⟩])

theorem Leads.trans (first : Leads t₀ r₀ turns₀ before t r turns)
    (second : Leads t r turns script t' r' turns') :
    Leads t₀ r₀ turns₀ (before ++ script) t' r' turns' := by
  induction second with
  | nowhere => rwa [List.append_nil]
  | heeded _ quiet ih => rw [← List.append_assoc]; exact ih.heeded quiet
  | ticked _ ticks ih => rw [← List.append_assoc]; exact ih.ticked ticks

def Reached (g : Graph) (script : List Signal) (t : Tables) (r : Run) (turns : List Turn) : Prop :=
  ∃ p log, Plan.ofGraph g = .ok p ∧ Leads {} ((Run.ofPlan p).withLog log) [] script t r turns

namespace Reached

theorem opened (planned : Plan.ofGraph g = .ok p) (log : Diagnostics) :
    Reached g [] {} ((Run.ofPlan p).withLog log) [] := ⟨p, log, planned, .nowhere⟩

theorem leads (reached : Reached g before t r turns) (leads : Leads t r turns script t' r' turns') :
    Reached g (before ++ script) t' r' turns' := by
  obtain ⟨p, log, planned, first⟩ := reached
  exact ⟨p, log, planned, first.trans leads⟩

theorem heeded (prior : Reached g script t r turns) (quiet : s ≠ .tick) :
    Reached g (script ++ [s]) t (r.heed s) turns := prior.leads (.heeded .nowhere quiet)

theorem ticked (prior : Reached g script t r turns) (ticks : r.Ticks t ps ws t' r') :
    Reached g (script ++ [.tick]) t' r' (turns ++ [⟨r, r'⟩]) := prior.leads (.ticked .nowhere ticks)

theorem induct {motive : ∀ script t r turns, Reached g script t r turns → Prop}
    (opened : ∀ p log (planned : Plan.ofGraph g = .ok p), motive _ _ _ _ (opened planned log))
    (heeded : ∀ script t r turns s (prior : Reached g script t r turns) (quiet : s ≠ Signal.tick),
      motive _ _ _ _ prior → motive _ _ _ _ (prior.heeded quiet))
    (ticked : ∀ script t r turns ps ws t' r' (prior : Reached g script t r turns)
      (ticks : r.Ticks t ps ws t' r'), motive _ _ _ _ prior → motive _ _ _ _ (prior.ticked ticks))
    (reached : Reached g script t r turns) : motive script t r turns reached := by
  obtain ⟨p, log, planned, leads⟩ := reached
  induction leads with
  | nowhere => exact opened p log planned
  | heeded prior quiet ih => exact heeded _ _ _ _ _ ⟨p, log, planned, prior⟩ quiet ih
  | ticked prior ticks ih => exact ticked _ _ _ _ _ _ _ _ ⟨p, log, planned, prior⟩ ticks ih

theorem planned (reached : Reached g script t r turns) : Plan.ofGraph g = .ok r.plan := by
  induction reached using induct with
  | opened p log planned => exact planned
  | heeded _ _ r _ s _ _ ih => rw [(r.heed_heeds s).plan]; exact ih
  | ticked _ _ _ _ _ _ _ _ _ ticks ih => rw [ticks.plan]; exact ih

theorem indexed (reached : Reached g script t r turns) : r.plan.Indexed :=
  Plan.ofGraph_indexed reached.planned

theorem graph (reached : Reached g script t r turns) : r.plan.graph = g := by
  obtain ⟨_, _, same, _⟩ := Plan.ofGraph_parts reached.planned
  exact same

theorem size (reached : Reached g script t r turns) : r.statuses.length = g.actions.length := by
  induction reached using induct with
  | opened p log planned =>
    obtain ⟨_, _, same, _⟩ := Plan.ofGraph_parts planned
    simp [Run.withLog, Run.ofPlan, same]
  | heeded _ _ r _ s _ _ ih => rw [(r.heed_heeds s).size]; exact ih
  | ticked _ _ _ _ _ _ _ _ _ ticks ih => rw [ticks.size]; exact ih

theorem kind_of {g : Graph} {i : Nat} {a : Action} (reached : Reached g script t r turns)
    (there : g.actions[i]? = some a) : r.plan.kind? i = some a.kind := by
  rw [Plan.kind?, reached.graph, Graph.kind?, there, Option.map_some]

theorem found {g : Graph} {i : Nat} {a : Action} (reached : Reached g script t r turns)
    (there : g.actions[i]? = some a) : ∃ s, r.statuses[i]? = some s := by
  have inside := (List.getElem?_eq_some_iff.mp there).1
  rw [← reached.size] at inside
  exact ⟨_, List.getElem?_eq_getElem inside⟩

theorem counts (reached : Reached g script t r turns) : r.tick = turns.length := by
  induction reached using induct with
  | opened => rfl
  | heeded _ _ r _ s _ _ ih => rw [(r.heed_heeds s).tick, ih]
  | ticked _ _ _ _ _ _ _ _ _ ticks ih => rw [ticks.tick, ih, List.length_append]; rfl

theorem turn {turn : Turn} (reached : Reached g script t r (earlier ++ turn :: later)) :
    ∃ prior t ps ws t', Reached g prior t turn.before earlier ∧ turn.before.Ticks t ps ws t' turn.after := by
  generalize all : earlier ++ turn :: later = turns at reached
  induction reached using induct generalizing later with
  | opened => simp at all
  | heeded _ _ _ _ _ _ _ ih => exact ih all
  | ticked _ _ _ _ _ _ _ _ prior ticks ih =>
    rcases List.eq_nil_or_concat later with rfl | ⟨rest, last, rfl⟩
    · obtain ⟨rfl, same⟩ := List.append_inj' all rfl
      cases same
      exact ⟨_, _, _, _, _, prior, ticks⟩
    · rw [List.concat_eq_append, ← List.cons_append, ← List.append_assoc] at all
      exact ih (List.append_inj' all rfl).1

end Reached

-- A small graph for runs on fixed input: a join waits for the start and for a repeating trigger,
-- whose edge opens with a tag.
def relay : Graph where
  actions := [⟨"start", Action.startKind, ∅, ∅⟩, ⟨"bell", Trigger.kind,
    ((∅ : Keyed Value).insert "event" (.text "ring")).insert "repeat" (.bool true), ∅⟩,
    ⟨"both", Action.joinKind, ∅, ∅⟩]
  edges := [⟨"start", "bell", "out", "in", none⟩, ⟨"start", "both", "out", "in", none⟩,
    ⟨"bell", "both", "out", "in", some (.tag "open")⟩]

def relayEngine : Engine := { stages := Stage.standard, locked := true }

theorem relay_opens : Opens relay (relayEngine.load relay).1 := .load relayEngine rfl rfl

namespace Chronicle

theorem turnOf_quiet (quiet : s ≠ .tick) (before after : Option Run) : turnOf s before after = [] := by
  cases s with
  | tick => exact (quiet rfl).elim
  | _ => rfl

theorem next_parts {c c' : Chronicle} (step : c.next s = .ok c') : ∃ e, c.engine.obey s = .ok e ∧
    c' = ⟨e, c.turns ++ turnOf s c.engine.run e.run⟩ := by
  unfold next at step
  cases obeys : c.engine.obey s with
  | error refusal => simp [obeys] at step
  | ok e =>
    simp only [obeys, Except.ok.injEq] at step
    exact ⟨e, rfl, step.symm⟩

theorem next_leads {c : Chronicle} (shows : c.engine.Shows t r) (indexed : r.plan.Indexed)
    (s : Signal) : ∃ c' t' r', c.next s = .ok c' ∧ c'.engine.Shows t' r' ∧
      Leads t r c.turns [s] t' r' c'.turns := by
  by_cases isTick : s = .tick
  · subst isTick
    obtain ⟨e, ps, ws, t', r', step, shows', ticks⟩ := shows.tick indexed
    refine ⟨⟨e, c.turns ++ [⟨r, r'⟩]⟩, t', r', ?_, shows', .ticked .nowhere ticks⟩
    simp only [next, Engine.obey, step, shows.run, shows'.run, turnOf]
  · obtain ⟨e, step, shows'⟩ := shows.heed isTick
    refine ⟨⟨e, c.turns⟩, t, _, ?_, shows', .heeded .nowhere isTick⟩
    simp only [next, step, turnOf_quiet isTick, List.append_nil]

theorem play_leads {c : Chronicle} (shows : c.engine.Shows t r)
    (reached : Reached g before t r c.turns) (script : List Signal) : ∃ c' t' r',
      c.play script = .ok c' ∧ c'.engine.Shows t' r' ∧ Leads t r c.turns script t' r' c'.turns := by
  induction script generalizing c t r before with
  | nil => exact ⟨c, t, r, rfl, shows, .nowhere⟩
  | cons s rest ih =>
    obtain ⟨mid, _, _, step, shows, first⟩ := next_leads shows reached.indexed s
    obtain ⟨c', t', r', played, shows', later⟩ := ih shows (reached.leads first)
    refine ⟨c', t', r', ?_, shows', first.trans later⟩
    rw [play, step]; exact played

theorem play_reached (opens : Opens g e) (script : List Signal) : ∃ c t r,
    (⟨e, []⟩ : Chronicle).play script = .ok c ∧ c.engine.Shows t r ∧
      Reached g script t r c.turns := by
  obtain ⟨p, log, planned, opened, loaded, stages⟩ := opens.parts
  have start := Reached.opened planned log
  obtain ⟨c, t, r, played, shows, leads⟩ :=
    play_leads (c := ⟨e, []⟩) ⟨opened, stages, loaded⟩ start script
  exact ⟨c, t, r, played, shows, start.leads leads⟩

theorem play_append (c : Chronicle) (first later : List Signal) :
    c.play (first ++ later) = match c.play first with
      | .error refusal => .error refusal
      | .ok mid => mid.play later := by
  induction first generalizing c with
  | nil => rfl
  | cons s rest ih =>
    rw [List.cons_append, play, play]
    cases c.next s with
    | error refusal => rfl
    | ok mid => exact ih mid

theorem play_concat (c : Chronicle) (script : List Signal) (s : Signal) :
    c.play (script ++ [s]) = match c.play script with
      | .error refusal => .error refusal
      | .ok mid => mid.next s := by
  rw [play_append]
  cases c.play script with
  | error refusal => rfl
  | ok mid => cases step : mid.next s <;> simp [play, step]

theorem play_induct (opens : Opens g e) {motive : List Signal → Chronicle → Prop}
    (opened : motive [] ⟨e, []⟩)
    (heeded : ∀ script c t r s e', (⟨e, []⟩ : Chronicle).play script = .ok c → c.engine.Shows t r →
      s ≠ .tick → c.engine.obey s = .ok e' → e'.Shows t (r.heed s) → motive script c →
      motive (script ++ [s]) ⟨e', c.turns⟩)
    (ticked : ∀ script c t r ps ws t' r' e', (⟨e, []⟩ : Chronicle).play script = .ok c →
      c.engine.Shows t r → Reached g script t r c.turns → c.engine.tick = .ok e' → e'.Shows t' r' →
      r.Ticks t ps ws t' r' → motive script c → motive (script ++ [.tick]) ⟨e', c.turns ++ [⟨r, r'⟩]⟩)
    {script : List Signal} {c : Chronicle} (played : (⟨e, []⟩ : Chronicle).play script = .ok c) :
    motive script c := by
  induction script using List.reverseRecOn generalizing c with
  | nil => cases played; exact opened
  | append_singleton script s ih =>
    obtain ⟨mid, t, r, plays, shows, reached⟩ := play_reached opens script
    rw [play_concat, plays] at played
    have before := ih plays
    by_cases isTick : s = .tick
    · subst isTick
      obtain ⟨e', ps, ws, t', r', step, shows', ticks⟩ := shows.tick reached.indexed
      simp only [next, Engine.obey, step, shows.run, shows'.run, turnOf, Except.ok.injEq] at played
      subst played
      exact ticked script mid t r ps ws t' r' e' plays shows reached step shows' ticks before
    · obtain ⟨e', step, shows'⟩ := shows.heed isTick
      simp only [next, step, turnOf_quiet isTick, List.append_nil, Except.ok.injEq] at played
      subst played
      exact heeded script mid t r s e' plays shows isTick step shows' before

end Chronicle
end ActionGraph
