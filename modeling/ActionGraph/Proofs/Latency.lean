import ActionGraph.Proofs.Between
-- One tick from sending to arrival. Where the deliveries come first in the pipeline, whatever is sent
-- in a tick waits for the next. A stage that sorts before them sends into the tick that is under way.
namespace ActionGraph

def Operation.starts (i : Nat) : Operation → Prop
  | .setStatus j s => j = i ∧ s.phase = .running
  | .setPhase j next => j = i ∧ next = .running
  | _ => False

theorem Run.Delivers.running {r r' : Run} (delivers : Run.Delivers { r with pending := [], delivered := [] }
    r.pending r') (runs : r'.phase i = .running) :
    r.phase i = .running ∨ ∃ p ∈ r'.delivered, p.target = i := by
  have after := delivers.statuses i
  split at after
  · next addressed =>
    obtain ⟨p, sent, rfl⟩ := List.mem_map.mp addressed
    obtain ⟨s', there', _⟩ := status_of_phase (r := r') (i := p.target) (by rw [runs]; decide)
    obtain ⟨s, there, rfl⟩ := Option.map_eq_some_iff.mp (after.symm.trans there')
    cases final : s.phase.isTerminal with
    | true =>
      rw [phase_of there', Status.address_of_terminal final] at runs
      exact .inl ((phase_of there).trans runs)
    | false =>
      refine .inr ⟨p, ?_, rfl⟩
      rw [delivers.delivered]
      refine List.mem_filter.mpr ⟨sent, ?_⟩
      change (r.statuses[p.target]?).any _ = true
      rw [there]
      simp [final]
  · exact .inl (by rwa [phase, after] at runs)

-- On the way from one run to another pulses are only sent, and only some actions start.
structure Run.Sends (hand : Nat → Prop) (r r' : Run) : Prop where
  delivered : r'.delivered = r.delivered
  pending : r.pending <+: r'.pending
  running : ∀ i, r'.phase i = .running → r.phase i = .running ∨ hand i

namespace Run.Sends
variable {hand : Nat → Prop}

theorem idle {r r' : Run} (delivered : r'.delivered = r.delivered) (pending : r.pending <+: r'.pending)
    (statuses : r'.statuses = r.statuses) : r.Sends hand r' :=
  ⟨delivered, pending, fun i runs => .inl (by rwa [phase, statuses] at runs)⟩

theorem calm {r r' : Run}
    (same : (r'.delivered, r'.pending, r'.statuses) = (r.delivered, r.pending, r.statuses)) :
    r.Sends hand r' := by
  simp only [Prod.mk.injEq] at same
  obtain ⟨delivered, pending, statuses⟩ := same
  exact idle delivered (pending ▸ List.prefix_rfl) statuses

theorem trans {a b c : Run} (first : a.Sends hand b) (last : b.Sends hand c) : a.Sends hand c where
  delivered := last.delivered.trans first.delivered
  pending := first.pending.trans last.pending
  running := fun i runs => (last.running i runs).elim (first.running i) .inr

theorem emit (r : Run) (i : Nat) (port : String) : r.Sends hand (r.emit i port).1 :=
  idle rfl (List.prefix_append ..) rfl

theorem releaseDeferred (r : Run) : r.Sends hand r.releaseDeferred :=
  idle rfl (List.prefix_append ..) rfl

theorem modifyStatus (r : Run) (i : Nat) {f : Status → Status}
    (starts : ∀ s, r.statuses[i]? = some s → (f s).phase = .running → s.phase = .running ∨ hand i) :
    r.Sends hand (r.modifyStatus i f) := by
  refine ⟨rfl, List.prefix_rfl, fun j runs => ?_⟩
  by_cases same : i = j
  · subst same
    cases there : r.statuses[i]? with
    | none => simp [phase, Run.modifyStatus, there] at runs
    | some s =>
      rw [phase_of there]
      refine starts s there ?_
      simpa [phase, Run.modifyStatus, there] using runs
  · left
    rwa [phase, Run.modifyStatus, List.getElem?_modify_ne _ _ same] at runs

theorem setPhase (r : Run) (i : Nat) (next : Phase) (starts : next = .running → hand i) :
    r.Sends hand (r.setPhase i next).1 := by
  rcases r.setPhase_parts i next with ⟨log, same⟩ | ⟨_, _, _, same⟩
  · rw [same]
    exact calm rfl
  · rw [same]
    refine trans (modifyStatus r i (f := (·.enter next)) fun s _ runs => .inr (starts ?_)) (calm rfl)
    rw [← s.enter_phase next, runs]

theorem completeAndEmit (r : Run) (i : Nat) (port : String) :
    r.Sends hand (r.completeAndEmit i port).1 := by
  have done : r.Sends hand (r.setPhase i .completed).1 := setPhase r i .completed nofun
  rcases r.completeAndEmit_parts i port with same | same
  · rw [same]
    exact done
  · rw [same]
    exact (done.trans (emit _ i port)).trans (modifyStatus _ i fun _ _ runs => .inl runs)

theorem perform (r : Run) {op : Operation} (starts : ∀ i, op.starts i → hand i) :
    r.Sends hand (r.perform op).1 := by
  cases op with
  | propertyOr i key kind fallback =>
    obtain ⟨log, same⟩ := r.propertyOr_parts kind.read? i key fallback
    simp only [Run.perform, same]
    exact calm rfl
  | requireProperty i key kind fallback =>
    obtain ⟨log, same⟩ := r.requireProperty_parts kind.read? i key fallback
    simp only [Run.perform, same]
    exact calm rfl
  | setStatus i s => exact modifyStatus r i fun _ _ runs => .inr (starts i ⟨rfl, runs⟩)
  | takeFresh i | markPropagated i => exact modifyStatus r i fun _ _ runs => .inl runs
  | setPhase i next => exact setPhase r i next fun runs => starts i ⟨rfl, runs⟩
  | complete i => exact setPhase r i .completed fun runs => by cases runs
  | cancel i => exact setPhase r i .cancelled fun runs => by cases runs
  | completeAndEmit i port => exact completeAndEmit r i port
  | emit i port => exact emit r i port
  | emitDefault i => exact emit r i "out"
  | enqueue p => exact idle rfl (List.prefix_append ..) rfl
  | _ => exact calm rfl

end Run.Sends

theorem Run.Does.sends {hand : Nat → Prop} {r r' : Run} (there : r.statuses[i]? = some s)
    (done : r.Does i d r') : r.Sends hand r' := by
  refine ⟨done.delivered, ?_, fun j runs => .inl ?_⟩
  · rw [done.pending, (emitting_queues r i d).1]
    exact List.prefix_append ..
  · by_cases same : i = j
    · subst same
      rw [phase_settled there done.statuses] at runs
      rw [phase_of there, Deed.settle_running runs]
    · rwa [phase, done.other same] at runs

theorem Run.sends_passable (hand : Nat → Prop) : Run.Passable (Run.Sends hand) where
  refl := fun _ => .calm rfl
  trans := .trans
  deed := fun there _ done => done.sends there

theorem Stage.sends_goes {hand : Nat → Prop} {s : Stage} (apart : s.isDelivery = false)
    (starts : ∀ op ∈ s.moves tick, ∀ i, op.starts i → hand i) : s.Goes (Run.Sends hand) tick where
  moves := fun op member r => .perform r (starts op member)
  delivery := fun drives => by rw [apart] at drives; cases drives

theorem Delivery.update_sends (hand : Nat → Prop) (t : Delivery) (r : Run) :
    (t.deliverAll r).2.Sends hand (t.update r).2 := by
  obtain ⟨ws, works⟩ := t.update_works r
  exact (Run.Sends.releaseDeferred _).trans (works.goes (Run.sends_passable hand))

namespace Engine

-- Wherever the deliveries stand in a pipeline: what they deliver is all that is queued when it is their
-- turn, and that is what was queued before the tick with whatever the stages before them have sent.
theorem pass_arrivals {early late : List Stage} {r : Run} (indexed : r.plan.Indexed)
    (apart : ∀ s ∈ early ++ late, s.isDelivery = false) (host : Host) (t : Delivery) :
    let mid := (pass host early r).2.1
    let r' := (pass host (early ++ .delivery t :: late) r).2.1
    let hand := fun i => ∃ s ∈ early ++ late, ∃ op ∈ s.moves r.tick, op.starts i
    r.Sends hand mid ∧ r'.delivered = mid.pending.filter mid.accepts ∧
      (t.deliverAll mid).2.Sends hand r' ∧
      (Stage.delivery t).Throughout (·.Sends hand r') host mid ∧
      Throughout (·.Sends hand r') host late (t.update mid).2 := by
  intro mid r' hand
  have goes : ∀ s ∈ early ++ late, s.Goes (Run.Sends hand) r.tick := fun s member =>
    Stage.sends_goes (apart s member) fun op inside i starts => ⟨s, member, op, inside, starts⟩
  have passable := Run.sends_passable hand
  have before := pass_frames host r early
  have framed : mid.Frames (t.update mid).2 := Stage.update_frames host mid (.delivery t)
  have after : r' = (pass host late (t.update mid).2).2.1 := by
    simp only [r', pass_append, pass_cons]
    rfl
  obtain ⟨first, _⟩ := pass_throughout passable indexed
    (fun s member => goes s (List.mem_append_left _ member)) host
  have goes' : ∀ s ∈ late, s.Goes (Run.Sends hand) (t.update mid).2.tick := fun s member =>
    framed.tick ▸ before.tick ▸ goes s (List.mem_append_right _ member)
  obtain ⟨last, within⟩ := pass_throughout passable (framed.plan ▸ before.plan ▸ indexed) goes' host
  rw [← after] at last within
  have arrives := t.deliverAll_delivers mid
  have sweeps := (t.update_sends hand mid).trans last
  refine ⟨first, sweeps.delivered.trans arrives.delivered, sweeps, ?_, within.imp fun m way => way.2⟩
  obtain ⟨ws, works⟩ := t.update_works mid
  exact ⟨sweeps, ws, works, fun w member => (works.between passable member).2.trans last⟩

end Engine

namespace Stage

def sooner (a b : Stage) : Bool := a.order ≤ b.order

theorem sooner_trans (a b c : Stage) (first : sooner a b = true) (last : sooner b c = true) :
    sooner a c = true := by
  simp only [sooner, decide_eq_true_eq] at *
  omega

theorem sooner_total (a b : Stage) : (sooner a b || sooner b a) = true := by
  simp only [sooner, Bool.or_eq_true, decide_eq_true_eq]
  omega

-- By induction on what is given before the deliveries: it all has to go behind them, and of what is
-- given after them nothing is moved before.
theorem sorted_first {before after : List Stage} (t : Delivery) (first : ∀ s ∈ before, 0 < s.order)
    (last : ∀ s ∈ after, 0 ≤ s.order) :
    ∃ late, (before ++ delivery t :: after).mergeSort sooner = delivery t :: late := by
  induction before with
  | nil =>
    obtain ⟨l₁, l₂, sorted, rest, earlier⟩ :=
      List.mergeSort_cons sooner_trans sooner_total (delivery t) after
    cases l₁ with
    | nil => exact ⟨l₂, sorted⟩
    | cons s l₁ =>
      have placed : s ∈ after.mergeSort sooner := by
        rw [rest]
        exact List.mem_cons_self
      have inside : s ∈ after := List.mem_mergeSort.mp placed
      have ahead := earlier s List.mem_cons_self
      simp only [sooner, Bool.not_eq_true', decide_eq_false_iff_not] at ahead
      exact (ahead (last s inside)).elim
  | cons b before ih =>
    obtain ⟨late, found⟩ := ih fun s member => first s (List.mem_cons_of_mem _ member)
    obtain ⟨l₁, l₂, sorted, rest, _⟩ :=
      List.mergeSort_cons sooner_trans sooner_total b (before ++ delivery t :: after)
    rw [found] at rest
    cases l₁ with
    | nil =>
      have ordered := List.pairwise_mergeSort sooner_trans sooner_total
        (b :: (before ++ delivery t :: after))
      rw [sorted, List.nil_append, ← rest.trans (List.nil_append _)] at ordered
      have ahead := (List.pairwise_cons.mp ordered).1 _ List.mem_cons_self
      simp only [sooner, decide_eq_true_eq] at ahead
      exact (Int.not_lt.mpr ahead (first b List.mem_cons_self)).elim
    | cons s l₁ =>
      obtain ⟨rfl, _⟩ := List.cons.inj rest
      exact ⟨l₁ ++ b :: l₂, sorted⟩

end Stage

namespace Engine

def Leads (stages : List Stage) : Prop :=
  ∃ t late, stages = .delivery t :: late ∧ ∀ s ∈ late, s.isDelivery = false

theorem Leads.onLoad {stages stages' : List Stage} (leads : Leads stages)
    (same : stages'.map Stage.onLoad = stages.map Stage.onLoad) : Leads stages' := by
  obtain ⟨t, late, rfl, apart⟩ := leads
  cases stages' with
  | nil => cases same
  | cons s rest =>
    obtain ⟨here, later⟩ := List.cons.inj same
    have drives : s.isDelivery = true := by rw [← s.onLoad_isDelivery, here]; rfl
    cases s with
    | delivery t' =>
      refine ⟨t', rest, rfl, fun s member => ?_⟩
      obtain ⟨s', inside, equal⟩ := List.mem_map.mp (later ▸ List.mem_map_of_mem member)
      rw [← s.onLoad_isDelivery, ← equal, s'.onLoad_isDelivery]
      exact apart s' inside
    | _ => cases drives

theorem register_stages {e e' : Engine} {given : List Stage} (done : e.register given = .ok e') :
    e'.locked = true ∧
      e'.stages.map Stage.onLoad = (given.mergeSort Stage.sooner).map Stage.onLoad := by
  obtain ⟨_, _, ⟨_, rfl⟩ | ⟨r, _, _, rfl⟩⟩ := register_cases done
  · exact ⟨rfl, rfl⟩
  · exact ⟨rfl, meet_stages _ r⟩

theorem register_leads {e e' : Engine} {before after : List Stage} {t : Delivery}
    (first : ∀ s ∈ before, 0 < s.order) (last : ∀ s ∈ after, 0 ≤ s.order)
    (single : ∀ s ∈ before ++ after, s.isDelivery = false)
    (done : e.register (before ++ .delivery t :: after) = .ok e') : e'.locked = true ∧ Leads e'.stages := by
  obtain ⟨locked, same⟩ := register_stages done
  obtain ⟨late, sorted⟩ := Stage.sorted_first t first last
  rw [sorted] at same
  refine ⟨locked, Leads.onLoad ⟨t, late, rfl, fun s member => single s ?_⟩ same⟩
  have perm := List.mergeSort_perm (before ++ .delivery t :: after) Stage.sooner
  rw [sorted] at perm
  exact ((List.perm_cons _).mp (perm.trans List.perm_middle)).subset member

-- A pipeline as it should be: one delivery stage, all others of a larger order or of the same order
-- and given after it, whatever they are and whatever they do to a run. An engine registers it, and is
-- asked anything before and since. Then each tick delivers what was queued before it and nothing that
-- is sent within it, at any moment: that all stays in the queue until the tick is over. And no action
-- is started but by a delivery, unless a stage of the host's sets it running by hand.
theorem sent_now_arrives_next (host : Host) (config : Config) (earlier since : List Request)
    {before after : List Stage} {t₀ : Delivery} (first : ∀ s ∈ before, 0 < s.order)
    (last : ∀ s ∈ after, 0 ≤ s.order) (single : ∀ s ∈ before ++ after, s.isDelivery = false)
    (registers : (earlier.foldl serve (.ofConfig host config)).register
      (before ++ .delivery t₀ :: after) = .ok e)
    (ticks : (since.foldl serve e).tick = .ok e') :
    let now := since.foldl serve e
    ∃ t late r r', now.stages = .delivery t :: late ∧ now.run = some r ∧ e'.run = some r' ∧
      r'.delivered = r.pending.filter r.accepts ∧
      (∀ i, r'.phase i = .running → r.phase i = .running ∨ (∃ p ∈ r'.delivered, p.target = i) ∨
        ∃ s ∈ late, ∃ op ∈ s.moves r'.tick, op.starts i) ∧
      let queued := fun m : Run => m.delivered = r'.delivered ∧ m.pending <+: r'.pending
      (Stage.delivery t).Throughout queued now.host r.beginTick ∧
        Throughout queued now.host late (t.update r.beginTick).2 := by
  intro now
  obtain ⟨locked, leads⟩ := register_leads first last single registers
  obtain ⟨isOpen, r, loaded, same⟩ := tick_parts ticks
  obtain ⟨t, late, stages, apart⟩ :=
    leads.onLoad ((Carries.serveAll e since).stages isOpen locked)
  have indexed : r.beginTick.plan.Indexed := by
    refine served_indexed host config (earlier ++ .register (before ++ .delivery t₀ :: after) :: since) r ?_
    rw [List.foldl_append, List.foldl_cons, serve, registers]
    exact loaded
  have apart' : ∀ s ∈ [] ++ late, s.isDelivery = false := apart
  obtain ⟨_, delivered, sweeps, within, later⟩ := pass_arrivals indexed apart' now.host t
  have after : e'.run = some (pass now.host (.delivery t :: late) r.beginTick).2.1.endTick := by
    rw [same, ← stages]
  refine ⟨t, late, r, _, stages, loaded, after, delivered, fun i runs => ?_, ?_, ?_⟩
  · rw [Run.endTick_phase] at runs
    rcases sweeps.running i runs with arrived | byHand
    · rcases (t.deliverAll_delivers r.beginTick).running arrived with before | ⟨p, taken, target⟩
      · exact .inl before
      · exact .inr (.inl ⟨p, (congrArg (p ∈ ·) sweeps.delivered).mpr taken, target⟩)
    · refine .inr (.inr ?_)
      change ∃ s ∈ late, ∃ op ∈ s.moves (pass now.host (.delivery t :: late) r.beginTick).2.1.tick, _
      rw [(pass_frames now.host r.beginTick (.delivery t :: late)).tick]
      exact byHand
  · exact within.imp fun m sends => ⟨sends.delivered.symm, sends.pending⟩
  · exact later.imp fun m sends => ⟨sends.delivered.symm, sends.pending⟩

-- A stage of the host's that sends to the join in the first tick.
def caller (order : Int) : Script where
  name := "caller"
  order := order
  kinds := []
  moves := fun tick => if tick = 1 then [.enqueue ⟨0, "out", 2, "in"⟩] else []

theorem caller_arrives_next : ∃ e e',
    (Engine.ofConfig {} {}).register ([.flow {}] ++ .delivery {} :: [.script (caller 0)]) = .ok e ∧
    (e.serve (.load relay)).tick = .ok e' ∧ ∃ t late r r',
      (e.serve (.load relay)).stages = .delivery t :: late ∧ (e.serve (.load relay)).run = some r ∧
      e'.run = some r' ∧ r'.delivered = r.pending.filter r.accepts ∧
      let queued := fun m : Run => m.delivered = r'.delivered ∧ m.pending <+: r'.pending
      (Stage.delivery t).Throughout queued e.host r.beginTick ∧
        Throughout queued e.host late (t.update r.beginTick).2 := by
  obtain ⟨e, registers⟩ : ∃ e, (Engine.ofConfig {} {}).register
    ([.flow {}] ++ .delivery {} :: [.script (caller 0)]) = .ok e := ⟨_, rfl⟩
  obtain ⟨e', ticks⟩ : ∃ e', (e.serve (.load relay)).tick = .ok e' := by
    cases registers
    exact ⟨_, rfl⟩
  obtain ⟨t, late, r, r', stages, loaded, loaded', delivered, _, within⟩ :=
    sent_now_arrives_next {} {} [] [.load relay] (by decide) (by decide) (by decide) registers ticks
  cases registers
  exact ⟨_, e', rfl, ticks, t, late, r, r', stages, loaded, loaded', delivered, within⟩

theorem caller_arrives_at_once : ∃ r r',
    let e := [.register [.script (caller (-5)), .delivery {}], .load relay].foldl serve (.ofConfig {} {})
    e.run = some r ∧ (e.serve (.signal .tick)).run = some r' ∧ r.pending = [] ∧ r.phase 2 = .idle ∧
      r'.tick = 1 ∧ r'.delivered = [⟨0, "out", 2, "in"⟩] ∧ r'.phase 2 = .running := by
  rw [List.foldl_cons, serve_register rfl rfl rfl (by decide)]
  exact ⟨_, _, rfl, rfl, rfl, rfl, rfl, rfl, rfl⟩

end Engine
end ActionGraph
