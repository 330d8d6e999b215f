import ActionGraph.Proofs.Emission
import Mathlib.Data.Nat.Basic
-- What a tick leaves behind. Of the kinds that are driven, only delays go on running and only joins
-- and triggers listen. What is completed and has not sent yet was completed by the tick before, so
-- the default propagation meets each action at most once, and one tick after its completion.
namespace ActionGraph

def Poised (kind : String) : Phase → Prop
  | .running => kind = Delay.kind
  | .listening => kind = Action.joinKind ∨ kind = Trigger.kind
  | .idle | .completed | .cancelled => True

def Turn.completes (turn : Turn) (i : Nat) : Bool :=
  turn.before.phase i ≠ .completed && turn.after.phase i = .completed

def Run.due (r : Run) : List Nat :=
  (List.range r.statuses.length).filter fun i => r.statuses[i]?.any Status.isDue

theorem Status.isDue_of_left {s : Status} (left : s.phase.isTerminal = false) : s.isDue = false := by
  refine Bool.eq_false_iff.mpr fun due => ?_
  simp only [isDue, Bool.and_eq_true, decide_eq_true_eq] at due
  rw [due.1] at left
  cases left

namespace Run

theorem mem_due {r : Run} : i ∈ r.due ↔ ∃ s, r.statuses[i]? = some s ∧ s.isDue = true := by
  rw [due, List.mem_filter, Option.any_eq_true, and_iff_right_of_imp]
  rintro ⟨s, there, _⟩
  exact List.mem_range.mpr (List.getElem?_eq_some_iff.mp there).1

theorem released_due (r : Run) : r.arrived.releaseDeferred.due = r.due := by
  have statuses : r.arrived.releaseDeferred.statuses = r.arrived.statuses := rfl
  rw [due, due, statuses, r.arrived_size]
  refine List.filter_congr fun i member => ?_
  have inside := List.mem_range.mp member
  have there := List.getElem?_eq_getElem inside
  rw [arrived_met there, there, Option.any_some, Option.any_some]
  rcases r.met_parts i r.statuses[i] with same | ⟨left, fresh⟩
  · rw [same]
  · rw [fresh, Status.isDue_of_left left]
    rfl

end Run

namespace Delivery

theorem deliverOne_propagated (s : Delivery × Run) (p : Pulse) :
    (deliverOne s p).1.propagated = s.1.propagated := by
  unfold deliverOne
  split <;> rfl

theorem deliverAll_propagated (t : Delivery) (r : Run) :
    (deliverAll t r).1.propagated = t.propagated := by
  unfold deliverAll
  generalize ({ r with pending := [], delivered := [] } : Run) = start
  induction r.pending generalizing t start with
  | nil => rfl
  | cons p rest ih =>
    rw [List.foldl_cons]
    exact (ih _ _).trans (deliverOne_propagated (t, start) p)

theorem propagateAll_propagated (t : Delivery) (r : Run) :
    (propagateAll t r).1.propagated = t.propagated + r.due.length := by
  have once := List.nodup_range (n := r.statuses.length)
  have checked := fold_checked Prod.snd propagateOne _ Status.isDue
    (fun _ _ _ => propagateOne_does) (fun _ _ => propagateOne_skips) once (t, r)
  obtain ⟨_, met⟩ := fold_works Prod.snd propagateOne _ Status.isDue
    (fun _ _ _ => propagateOne_does) (s := (t, r)) (once.filter _)
    fun i member => (List.mem_filter.mp member).2
  have counted : (r.due.foldl propagateOne (t, r)).1.propagated =
      t.propagated + r.due.countP fun _ => true :=
    foldl_count (fun s : Delivery × Run => s.1.propagated) _ fun v visited => by
      obtain ⟨st, there, due⟩ := (Option.any_eq_true ..).mp (met v visited)
      have fits : st.phase = .completed ∧ ¬st.propagated = true := by
        simpa [Status.isDue] using due
      simp only [propagateOne, there, if_pos fits, if_true]
  rw [propagateAll, checked]
  exact counted.trans (by rw [List.countP_true])

theorem update_propagated (t : Delivery) (r : Run) :
    (t.update r.beginTick).1.propagated = t.propagated + r.due.length := by
  rw [update, propagateAll_propagated, deliverAll_propagated, deliverAll_arrived, r.released_due]

end Delivery

theorem Deed.Suits.poised {d : Deed} (suits : d.Suits kind) {a : Status} (driven : Driven kind a.phase) :
    Poised kind (d.settle a).phase := by
  cases d with
  | rest =>
    have isDelay : kind = Delay.kind := suits
    rcases driven with running | ⟨isTrigger, _⟩
    · rw [Deed.settle, running]; exact isDelay
    · exact absurd (isDelay.symm.trans isTrigger) (by decide)
  | listen =>
    rw [Deed.settle, Status.enter_phase]
    exact suits
  | pulse =>
    rw [Deed.settle, Status.enter_phase]
    exact .inr suits
  | finish | finishOn => simp [Deed.settle, Poised]
  | propagate => exact suits.elim

namespace Run

def Listens (r : Run) : Prop := ∀ (i : Nat) s kind, r.statuses[i]? = some s →
  r.plan.kind? i = some kind → kind ∈ drivenKinds → s.phase = .listening → Poised kind s.phase

namespace Ticks
variable {t t' : Tables} {r r' : Run} {ps ws : List Work} (ticks : Ticks t r ps ws t' r')
include ticks

theorem fresh {i : Nat} {s : Status} (there : r'.statuses[i]? = some s) : s.fresh = false := by
  obtain ⟨done, rfl, _⟩ := ticks.keeps
  rw [Run.endTick, List.getElem?_map] at there
  obtain ⟨_, _, rfl⟩ := Option.map_eq_some_iff.mp there
  rfl

theorem poised (listens : r.Listens) (after : r'.statuses[i]? = some s')
    (isKind : r.plan.kind? i = some kind) (known : kind ∈ drivenKinds) : Poised kind s'.phase := by
  obtain ⟨s, there, fares⟩ := ticks.origin after
  cases fares with
  | propagated due =>
    have completed : (r.met i s).phase = .completed := by
      simpa [Status.isDue] using (Bool.and_eq_true_iff.mp due).1
    rw [Status.endTick_phase, Deed.settle, completed]
    trivial
  | did member acts _ isKind' driven =>
    subst acts
    rw [isKind, Option.some.injEq] at isKind'
    exact (ticks.suits member isKind).poised (isKind' ▸ driven)
  | left _ _ _ undriven =>
    have still := undriven kind known isKind
    rw [Status.endTick_phase]
    rcases r.met_parts i s with same | ⟨_, fresh⟩
    · rw [same] at still ⊢
      cases here : s.phase with
      | running => exact (still (.inl here)).elim
      | listening => exact here ▸ listens i s kind there isKind known here
      | idle | completed | cancelled => trivial
    · exact (still (.inl (by rw [fresh]))).elim

theorem listens (listens : r.Listens) : r'.Listens := by
  intro i s kind there isKind known _
  exact ticks.poised listens there (ticks.plan ▸ isKind) known

theorem completes_due (isDue : i ∈ r'.due) : Turn.completes ⟨r, r'⟩ i = true := by
  obtain ⟨s', after, due⟩ := mem_due.mp isDue
  have completed : s'.phase = .completed := by
    simpa [Status.isDue] using (Bool.and_eq_true_iff.mp due).1
  obtain ⟨s, there, fares⟩ := ticks.origin after
  have before : s.phase ≠ .completed := by
    intro early
    have same : r.met i s = s := by
      rcases r.met_parts i s with same | ⟨left, _⟩
      · exact same
      · rw [early] at left; cases left
    rw [same] at fares
    cases fares with
    | propagated => simp [Deed.settle, Status.isDue] at due
    | did _ _ _ _ driven => exact ne_completed_of_isActive driven.isActive early
    | left _ _ waits => rw [Status.endTick_isDue, waits] at due; cases due
  simp [Turn.completes, phase_of there, phase_of after, before, completed]

end Ticks

theorem Heeds.completed {s : Signal} (heeds : Heeds r s r') (i : Nat) :
    r'.phase i = .completed ↔ r.phase i = .completed := by
  rcases heeds.statuses i with same | ⟨_, old, _, _, before, left, after⟩
  · rw [phase, phase, same]
  · rw [phase_of before, phase_of after, Status.enter_phase]
    refine iff_of_false (by decide) fun ended => ?_
    rw [ended] at left
    cases left

theorem Heeds.due {s : Signal} (heeds : Heeds r s r') : i ∈ r'.due ↔ i ∈ r.due := by
  rw [mem_due, mem_due]
  rcases heeds.statuses i with same | ⟨_, st, _, _, there, left, after⟩
  · rw [same]
  · rw [there, after]
    constructor
    · rintro ⟨_, same, due⟩
      cases same
      simp [Status.isDue] at due
    · rintro ⟨_, same, due⟩
      cases same
      rw [Status.isDue_of_left left] at due
      cases due

end Run

namespace Reached

theorem listens (reached : Reached g script t r turns) : r.Listens := by
  induction reached using Reached.induct with
  | opened p log =>
    intro i s kind there _ _ listening
    simp only [Run.withLog, Run.ofPlan, List.getElem?_modify, List.getElem?_map] at there
    obtain ⟨s', found, rfl⟩ := Option.map_eq_some_iff.mp there
    obtain ⟨_, _, rfl⟩ := Option.map_eq_some_iff.mp found
    split at listening <;> cases listening
  | heeded _ _ r _ s _ _ ih =>
    intro i st kind there isKind known listening
    have heeds := r.heed_heeds s
    rcases heeds.statuses i with same | ⟨_, old, _, _, _, _, after⟩
    · exact ih i st kind (same ▸ there) (heeds.plan ▸ isKind) known listening
    · cases there.symm.trans after
      rw [Status.enter_phase] at listening
      cases listening
  | ticked _ _ _ _ _ _ _ _ _ ticks ih => exact ticks.listens ih

theorem completions (reached : Reached g script t r turns) (i : Nat) :
    turns.countP (·.completes i) = if r.phase i = .completed then 1 else 0 := by
  induction reached using Reached.induct with
  | opened p log =>
    rw [if_neg]
    · rfl
    · intro completed
      obtain ⟨s, there, same⟩ := Run.status_of_phase (i := i) (by rw [completed]; decide)
      have left := (Run.ofPlan_status there).2
      rw [same, completed] at left
      cases left
  | heeded _ _ r _ s _ _ ih =>
    simp only [ih, (r.heed_heeds s).completed]
  | ticked _ _ r _ _ _ _ r' _ ticks ih =>
    rw [List.countP_append, ih, List.countP_singleton, Turn.completes]
    by_cases early : r.phase i = .completed
    · have late : r'.phase i = .completed := by rw [ticks.final (by rw [early]; rfl), early]
      simp [early, late]
    · by_cases late : r'.phase i = .completed <;> simp [early, late]

theorem completes_once (reached : Reached g script t r turns) (i : Nat) :
    turns.countP (·.completes i) ≤ 1 := by
  rw [reached.completions i]
  split <;> decide

theorem completed_iff (reached : Reached g script t r turns) (i : Nat) :
    r.phase i = .completed ↔ ∃ turn ∈ turns, turn.completes i = true := by
  have some := List.countP_pos_iff (p := fun turn : Turn => turn.completes i) (l := turns)
  rw [← some, reached.completions i]
  split
  · next ended => exact iff_of_true ended (by decide)
  · next left => exact iff_of_false left (by decide)

theorem due_last (reached : Reached g script t r turns) (isDue : i ∈ r.due) :
    ∃ earlier last, turns = earlier ++ [last] ∧ last.completes i = true := by
  induction reached using Reached.induct with
  | opened p log =>
    obtain ⟨s, there, due⟩ := Run.mem_due.mp isDue
    rw [Status.isDue_of_left (Run.ofPlan_status there).2] at due
    cases due
  | heeded _ _ r _ s _ _ ih => exact ih ((r.heed_heeds s).due.mp isDue)
  | ticked _ _ _ turns _ _ _ _ _ ticks => exact ⟨turns, _, rfl, ticks.completes_due isDue⟩

theorem propagations (reached : Reached g script t r turns) (i : Nat) :
    turns.countP (fun turn => i ∈ turn.before.due) + (if i ∈ r.due then 1 else 0) ≤
      turns.countP (·.completes i) := by
  induction reached using Reached.induct with
  | opened p log planned =>
    rw [if_neg]
    · rfl
    · intro isDue
      obtain ⟨earlier, last, none, _⟩ := (Reached.opened planned log).due_last isDue
      simp at none
  | heeded _ _ r _ s _ _ ih => simpa only [(r.heed_heeds s).due] using ih
  | ticked _ _ r _ _ _ _ r' _ ticks ih =>
    have next := ticks.completes_due (i := i)
    simp only [List.countP_append, List.countP_singleton, decide_eq_true_eq]
    by_cases isDue : i ∈ r'.due
    · rw [if_pos isDue, if_pos (next isDue)]
      omega
    · rw [if_neg isDue]
      omega

end Reached

def Engine.propagated (e : Engine) : Nat :=
  (e.stages.findSome? fun | .delivery t => some t.propagated | _ => none).getD 0

namespace Engine.Shows
variable {e : Engine} (shows : e.Shows t r)
include shows

theorem propagated : e.propagated = t.moved.propagated := by
  rw [Engine.propagated, shows.stages]; rfl

theorem tick_propagated (ticks : e.tick = .ok e') : e'.propagated = e.propagated + r.due.length := by
  simp only [Engine.tick, shows.isOpen, shows.run, Bool.false_eq_true, if_false, Except.ok.injEq] at ticks
  subst ticks
  rw [shows.propagated, Engine.propagated, shows.stages, Tables.stages, pass_cons, update_delivery]
  exact Delivery.update_propagated t.moved r

end Engine.Shows

-- A small graph that reaches for the host: the start orders a crate and an alert, and each of these
-- has a line logged that names the number of crates.
def dispatch : Graph where
  actions := [⟨"start", Action.startKind, ∅, ∅⟩,
    ⟨"crate", Spawn.kind, ((∅ : Keyed Value).insert "prefab" (.text "box")).insert "count" (.int 2), ∅⟩,
    ⟨"alert", Warning.kind, (∅ : Keyed Value).insert "message" (.text "incoming"), ∅⟩,
    ⟨"note", Log.kind, (∅ : Keyed Value).insert "message" (.text "got \x7bcrate.spawned\x7d"), ∅⟩]
  edges := [⟨"start", "crate", "out", "in", none⟩, ⟨"start", "alert", "out", "in", none⟩,
    ⟨"crate", "note", "out", "in", none⟩, ⟨"alert", "note", "out", "in", none⟩]

def dispatchEngine : Engine := { stages := Stage.standard, locked := true, host := .all }

theorem dispatch_opens : Opens dispatch (dispatchEngine.load dispatch).1 :=
  .load dispatchEngine rfl rfl

namespace Chronicle

theorem propagated (opens : Opens g e) (played : (⟨e, []⟩ : Chronicle).play script = .ok c) :
    c.engine.propagated = (c.turns.map fun turn => turn.before.due.length).sum := by
  refine play_induct (motive := fun _ c => c.engine.propagated =
    (c.turns.map fun turn => turn.before.due.length).sum) opens ?_ ?_ ?_ played
  · obtain ⟨_, _, _, _, _, stages⟩ := opens.parts
    rw [Engine.propagated, stages]
    rfl
  · intro _ c _ _ _ e' _ shows _ _ shows' before
    rw [shows'.propagated, ← shows.propagated, before]
  · intro _ c _ _ _ _ _ _ e' _ shows _ step _ _ before
    simp [shows.tick_propagated step, before]

-- After every tick: whatever is driven is at rest, but for delays that wait and joins and triggers
-- that listen; no activation is left to take up, only what is completed has sent, and what is
-- completed and has not sent is of a kind that leaves this to the next tick and was completed by
-- this one. So the default propagation acts on each action once at most.
theorem tick_leaves_at_rest (opens : Opens g e) (script : List Signal) : ∃ c,
    (⟨e, []⟩ : Chronicle).play script = .ok c ∧
    (∀ turn ∈ c.turns, ∀ i a, g.actions[i]? = some a → ∃ s, turn.after.statuses[i]? = some s ∧
      (a.kind ∈ drivenKinds → (s.phase = .running → a.kind = Delay.kind) ∧
        (s.phase = .listening → a.kind = Action.joinKind ∨ a.kind = Trigger.kind)) ∧
      s.fresh = false ∧ (s.propagated = true → s.phase = .completed) ∧
      (s.phase = .completed → s.propagated = false →
        a.kind ∈ quietKinds ∧ turn.before.phase i ≠ .completed)) ∧
    c.engine.propagated = (c.turns.map fun turn => turn.before.due.length).sum ∧
    (∀ earlier turn later, c.turns = earlier ++ turn :: later → ∀ i ∈ turn.before.due,
      (∃ a, g.actions[i]? = some a ∧ a.kind ∈ quietKinds) ∧ ∃ prior last,
        earlier = prior ++ [last] ∧ last.before.phase i ≠ .completed ∧
        last.after.phase i = .completed) ∧
    ∀ i, c.turns.countP (fun turn => i ∈ turn.before.due) ≤ 1 := by
  obtain ⟨c, t, r, played, shows, reached⟩ := play_reached opens script
  refine ⟨c, played, ?_, propagated opens played, ?_, fun i => ?_⟩
  · intro turn member i a there
    obtain ⟨earlier, later, split⟩ := List.append_of_mem member
    obtain ⟨_, _, _, _, _, prior, ticks⟩ := (split ▸ reached).turn
    have isKind := prior.kind_of there
    obtain ⟨s, found⟩ := (prior.ticked ticks).found there
    have settled := (prior.ticked ticks).settled
    refine ⟨_, found, fun known => ?_, ticks.fresh found, settled.spent i _ found, fun ended unsent => ?_⟩
    · have poised := ticks.poised prior.listens found isKind known
      exact ⟨fun running => by rwa [running] at poised, fun listening => by rwa [listening] at poised⟩
    · have isDue : s.isDue = true := by simp [Status.isDue, ended, unsent]
      refine ⟨settled.due i _ a.kind found (ticks.plan ▸ isKind) isDue, ?_⟩
      have completes := ticks.completes_due (Run.mem_due.mpr ⟨_, found, isDue⟩)
      exact (by simpa [Turn.completes] using completes : _ ∧ _).1
  · intro earlier turn later split i isDue
    obtain ⟨_, _, _, _, _, prior, _⟩ := (split ▸ reached).turn
    obtain ⟨s, found, due⟩ := Run.mem_due.mp isDue
    obtain ⟨before, last, same, completes⟩ := prior.due_last isDue
    have inside : i < g.actions.length := prior.size ▸ (List.getElem?_eq_some_iff.mp found).1
    have there := List.getElem?_eq_getElem inside
    refine ⟨⟨_, there, prior.settled.due i s _ found (prior.kind_of there) due⟩, before, last, same, ?_⟩
    simpa [Turn.completes] using completes
  · have acted := reached.propagations i
    have once := reached.completes_once i
    omega

theorem dispatch_leaves_at_rest : ∃ c, (⟨(dispatchEngine.load dispatch).1, []⟩ : Chronicle).play
      [.tick, .cancel "alert", .tick, .tick] = .ok c ∧
    (∀ turn ∈ c.turns, ∀ i a, dispatch.actions[i]? = some a → ∃ s, turn.after.statuses[i]? = some s ∧
      (a.kind ∈ drivenKinds → (s.phase = .running → a.kind = Delay.kind) ∧
        (s.phase = .listening → a.kind = Action.joinKind ∨ a.kind = Trigger.kind)) ∧
      s.fresh = false ∧ (s.propagated = true → s.phase = .completed) ∧
      (s.phase = .completed → s.propagated = false →
        a.kind ∈ quietKinds ∧ turn.before.phase i ≠ .completed)) ∧
    c.engine.propagated = (c.turns.map fun turn => turn.before.due.length).sum ∧
    (∀ earlier turn later, c.turns = earlier ++ turn :: later → ∀ i ∈ turn.before.due,
      (∃ a, dispatch.actions[i]? = some a ∧ a.kind ∈ quietKinds) ∧ ∃ prior last,
        earlier = prior ++ [last] ∧ last.before.phase i ≠ .completed ∧
        last.after.phase i = .completed) ∧
    ∀ i, c.turns.countP (fun turn => i ∈ turn.before.due) ≤ 1 :=
  tick_leaves_at_rest dispatch_opens _

end Chronicle
end ActionGraph
