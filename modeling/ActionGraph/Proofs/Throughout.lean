import ActionGraph.Proofs.Course
-- Inside a tick. There is a run before each stage, before each deed that a stage does and before each
-- move of a script, and something may be claimed of them all.
namespace ActionGraph

namespace Stage

def isDelivery : Stage → Bool
  | delivery _ => true
  | _ => false

def moves : Stage → Nat → List Operation
  | script s, tick => s.moves tick
  | _, _ => []

@[simp] theorem onLoad_isDelivery (s : Stage) : s.onLoad.isDelivery = s.isDelivery := by
  cases s <;> rfl

theorem update_works (host : Host) {s : Stage} {r : Run} (indexed : r.plan.Indexed)
    (own : s.isScript = false) (drives : s.isDelivery = false) :
    ∃ ws, r.Works ws (s.update host r).2.1 := by
  cases s with
  | delivery => cases drives
  | script => cases own
  | flow t =>
    obtain ⟨ws, passes⟩ := flow_passes { arrivals := t } indexed
    exact ⟨ws, passes.works⟩
  | delay n =>
    obtain ⟨ws, round, _⟩ := Delay.update_round n indexed
    exact ⟨ws, round.works⟩
  | assign n =>
    obtain ⟨ws, round⟩ := Assign.update_round n indexed
    exact ⟨ws, round.works⟩
  | filter t =>
    obtain ⟨ws, round, _⟩ := Filter.update_round t indexed
    exact ⟨ws, round.works⟩
  | trigger t =>
    obtain ⟨ws, round, _⟩ := Trigger.update_round t indexed
    exact ⟨ws, round.works⟩
  | spawn t =>
    obtain ⟨ws, round⟩ := Spawn.update_round host t indexed
    exact ⟨ws, round.works⟩
  | warning n =>
    obtain ⟨ws, round⟩ := Warning.update_round host n indexed
    exact ⟨ws, round.works⟩
  | log =>
    obtain ⟨ws, round⟩ := Log.update_round host indexed
    exact ⟨ws, round.works⟩

end Stage

namespace Delivery

theorem deliverAll_delivers (t : Delivery) (r : Run) :
    Run.Delivers { r with pending := [], delivered := [] } r.pending (t.deliverAll r).2 := by
  rw [deliverAll_run]
  exact Run.delivers_all _ _

theorem update_works (t : Delivery) (r : Run) :
    ∃ ws, (t.deliverAll r).2.releaseDeferred.Works ws (t.update r).2 := by
  obtain ⟨ws, sweep⟩ := propagateAll_sweep (t.deliverAll r).1 (t.deliverAll r).2.releaseDeferred
  exact ⟨ws, sweep.works⟩

end Delivery

-- The runs within a stage: before each deed, or after some of the moves; and in a delivery the one
-- on which everything deferred is judged.
def Stage.Throughout (P : Run → Prop) (host : Host) (r : Run) : Stage → Prop
  | .script s => ∀ ops, ops <+: s.moves r.tick → P (r.performAll ops).1
  | .delivery t => P (t.deliverAll r).2 ∧
    ∃ ws, (t.deliverAll r).2.releaseDeferred.Works ws (t.update r).2 ∧ ∀ w ∈ ws, P w.run
  | s => ∃ ws, r.Works ws (s.update host r).2.1 ∧ ∀ w ∈ ws, P w.run

def Engine.Throughout (P : Run → Prop) (host : Host) : List Stage → Run → Prop
  | [], r => P r
  | s :: rest, r => P r ∧ s.Throughout P host r ∧ Throughout P host rest (s.update host r).2.1

theorem Stage.Throughout.imp {P Q : Run → Prop} {host : Host} (weaker : ∀ r, P r → Q r) {s : Stage}
    (holds : s.Throughout P host r) : s.Throughout Q host r := by
  cases s with
  | script s => exact fun ops early => weaker _ (holds ops early)
  | delivery t =>
    obtain ⟨judged, ws, works, each⟩ := holds
    exact ⟨weaker _ judged, ws, works, fun w member => weaker _ (each w member)⟩
  | _ =>
    obtain ⟨ws, works, each⟩ := holds
    exact ⟨ws, works, fun w member => weaker _ (each w member)⟩

theorem Engine.Throughout.imp {P Q : Run → Prop} {host : Host} (weaker : ∀ r, P r → Q r)
    {stages : List Stage} (holds : Throughout P host stages r) : Throughout Q host stages r := by
  induction stages generalizing r with
  | nil => exact weaker _ holds
  | cons s rest ih =>
    obtain ⟨here, within, later⟩ := holds
    exact ⟨weaker _ here, within.imp weaker, ih later⟩

theorem Run.performAll_append (r : Run) (first rest : List Operation) :
    (r.performAll (first ++ rest)).1 = ((r.performAll first).1.performAll rest).1 := by
  induction first generalizing r with
  | nil => rfl
  | cons op first ih => exact ih _

theorem Run.Works.split (works : Run.Works r ws r') (member : w ∈ ws) :
    ∃ before after, r.Works before w.run ∧ w.run.Works after r' := by
  induction works with
  | nil => cases member
  | cons there fits done rest ih =>
    rcases List.mem_cons.mp member with rfl | later
    · exact ⟨[], _, .nil, .cons there fits done rest⟩
    · obtain ⟨before, after, first, last⟩ := ih later
      exact ⟨_, after, .cons there fits done first, last⟩

-- A way of getting from run to run that every deed goes.
structure Run.Passable (R : Run → Run → Prop) : Prop where
  refl : ∀ r, R r r
  trans : ∀ {a b c}, R a b → R b c → R a c
  deed : ∀ {r i s d r'}, r.statuses[i]? = some s → d.Fits s → r.Does i d r' → R r r'

structure Stage.Goes (R : Run → Run → Prop) (tick : Nat) (s : Stage) : Prop where
  moves : ∀ op ∈ s.moves tick, ∀ r, R r (r.perform op).1
  delivery : s.isDelivery = true → ∀ {r ps r'},
    Run.Delivers { r with pending := [], delivered := [] } ps r' → R r r' ∧ R r' r'.releaseDeferred

section Passable
variable {R : Run → Run → Prop} (passable : Run.Passable R)
include passable

theorem Run.Works.goes (works : Run.Works r ws r') : R r r' := by
  induction works with
  | nil => exact passable.refl _
  | cons there fits done _ ih => exact passable.trans (passable.deed there fits done) ih

theorem Run.performAll_goes {ops : List Operation}
    (goes : ∀ op ∈ ops, ∀ r, R r (r.perform op).1) (r : Run) : R r (r.performAll ops).1 := by
  induction ops generalizing r with
  | nil => exact passable.refl _
  | cons op rest ih =>
    have first := goes op List.mem_cons_self r
    exact passable.trans first (ih (fun op member => goes op (List.mem_cons_of_mem _ member)) _)

theorem Run.Works.between (works : Run.Works r ws r') (member : w ∈ ws) : R r w.run ∧ R w.run r' := by
  obtain ⟨before, after, first, last⟩ := works.split member
  exact ⟨first.goes passable, last.goes passable⟩

theorem Stage.Goes.throughout {s : Stage} (goes : s.Goes R r.tick) (indexed : r.plan.Indexed)
    (host : Host) : R r (s.update host r).2.1 ∧
      s.Throughout (fun m => R r m ∧ R m (s.update host r).2.1) host r := by
  cases own : s.isScript with
  | true =>
    cases s with
    | script s =>
      refine ⟨Run.performAll_goes passable goes.moves r, fun ops early => ?_⟩
      obtain ⟨rest, whole⟩ := early
      have each : ∀ op ∈ ops ++ rest, ∀ r, R r (r.perform op).1 := by rw [whole]; exact goes.moves
      refine ⟨Run.performAll_goes passable (fun op member => each op (List.mem_append_left _ member)) r,
        ?_⟩
      change R _ (r.performAll (s.moves r.tick)).1
      rw [← whole, Run.performAll_append]
      exact Run.performAll_goes passable (fun op member => each op (List.mem_append_right _ member)) _
    | _ => cases own
  | false =>
    cases drives : s.isDelivery with
    | true =>
      cases s with
      | delivery t =>
        obtain ⟨arrives, releases⟩ := goes.delivery rfl (t.deliverAll_delivers r)
        obtain ⟨ws, works⟩ := t.update_works r
        have sweeps := passable.trans releases (works.goes passable)
        refine ⟨passable.trans arrives sweeps, ⟨arrives, sweeps⟩, ws, works, fun w member => ?_⟩
        obtain ⟨before, after⟩ := works.between passable member
        exact ⟨passable.trans arrives (passable.trans releases before), after⟩
      | _ => cases drives
    | false =>
      obtain ⟨ws, works⟩ := Stage.update_works host indexed own drives
      refine ⟨works.goes passable, ?_⟩
      cases s with
      | script => cases own
      | delivery => cases drives
      | _ => exact ⟨ws, works, fun w member => works.between passable member⟩

theorem Engine.pass_throughout {stages : List Stage} (indexed : r.plan.Indexed)
    (goes : ∀ s ∈ stages, s.Goes R r.tick) (host : Host) : R r (pass host stages r).2.1 ∧
      Throughout (fun m => R r m ∧ R m (pass host stages r).2.1) host stages r := by
  induction stages generalizing r with
  | nil => exact ⟨passable.refl _, passable.refl _, passable.refl _⟩
  | cons s rest ih =>
    have frames := Stage.update_frames host r s
    obtain ⟨first, within⟩ := (goes s List.mem_cons_self).throughout passable indexed host
    obtain ⟨last, later⟩ := ih (frames.plan ▸ indexed) fun s member =>
      frames.tick ▸ goes s (List.mem_cons_of_mem _ member)
    rw [pass_cons]
    refine ⟨passable.trans first last, ⟨passable.refl _, passable.trans first last⟩, ?_, ?_⟩
    · exact within.imp fun m ⟨early, late⟩ => ⟨early, passable.trans late last⟩
    · exact later.imp fun m ⟨early, late⟩ => ⟨passable.trans first early, late⟩

end Passable
end ActionGraph
