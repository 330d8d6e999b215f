import ActionGraph.Stage.Delivery
import ActionGraph.Proofs.Works
-- The stage that moves pulses. What is delivered is settled by the run as the tick found it, what
-- is released by the run as the deliveries left it, and what is propagated by the statuses alone.
namespace ActionGraph

namespace Status

-- What a delivery makes of its target. A second one in the same tick changes nothing more.
def address (s : Status) : Status := if s.phase.isTerminal then s else s.activate

def isDue (s : Status) : Bool := s.phase = .completed && !s.propagated

@[simp] theorem endTick_isDue (s : Status) : s.endTick.isDue = s.isDue := rfl

@[simp] theorem address_isTerminal (s : Status) : s.address.phase.isTerminal = s.phase.isTerminal := by
  unfold address
  split
  · rfl
  · next left => simpa [activate, Phase.isTerminal] using left

theorem address_of_terminal {s : Status} (final : s.phase.isTerminal = true) : s.address = s :=
  if_pos final

theorem address_of_left {s : Status} (left : s.phase.isTerminal = false) :
    s.address = { phase := .running, fresh := true } := if_neg (by simp [left])

@[simp] theorem address_address (s : Status) : s.address.address = s.address := by
  cases final : s.phase.isTerminal with
  | true => rw [address_of_terminal final, address_of_terminal final]
  | false => rw [address_of_left (s := s.address) (by simpa using final), address_of_left final]

end Status

namespace Run

def accepts (r : Run) (p : Pulse) : Bool := r.statuses[p.target]?.any fun s => !s.phase.isTerminal

-- A stretch of deliveries. Nothing is said of the log, the blackboard and the last change.
structure Delivers (r : Run) (ps : List Pulse) (r' : Run) : Prop where
  plan : r'.plan = r.plan
  statuses : ∀ i, r'.statuses[i]? =
    if i ∈ ps.map Pulse.target then r.statuses[i]?.map Status.address else r.statuses[i]?
  pending : r'.pending = r.pending
  delivered : r'.delivered = r.delivered ++ ps.filter r.accepts
  deferred : r'.deferred = r.deferred
  raised : r'.raised = r.raised
  tags : r'.tags = r.tags
  tick : r'.tick = r.tick

namespace Delivers

theorem nil (r : Run) : r.Delivers [] r :=
  ⟨rfl, fun _ => rfl, rfl, by simp, rfl, rfl, rfl, rfl⟩

theorem accepts (delivers : Delivers r ps r') : r'.accepts = r.accepts := by
  funext p
  rw [Run.accepts, Run.accepts, delivers.statuses]
  split
  · cases r.statuses[p.target]? <;> simp
  · rfl

theorem append (first : Delivers r ps next) (second : Delivers next qs r') :
    Delivers r (ps ++ qs) r' where
  plan := second.plan.trans first.plan
  statuses i := by
    rw [second.statuses, first.statuses]
    by_cases early : i ∈ ps.map Pulse.target <;> by_cases late : i ∈ qs.map Pulse.target <;>
      simp only [early, late, List.map_append, List.mem_append, or_self, or_true, true_or, if_true,
        if_false, Option.map_map]
    exact congrArg (Option.map · _) (funext Status.address_address)
  pending := second.pending.trans first.pending
  delivered := by
    rw [second.delivered, first.delivered, first.accepts, List.filter_append, List.append_assoc]
  deferred := second.deferred.trans first.deferred
  raised := second.raised.trans first.raised
  tags := second.tags.trans first.tags
  tick := second.tick.trans first.tick

end Delivers

theorem deliver_delivers (r : Run) (p : Pulse) : r.Delivers [p] (r.deliver p).1 := by
  cases there : r.statuses[p.target]? with
  | none =>
    have refused : r.accepts p = false := by simp [accepts, there]
    simp only [deliver, there]
    refine ⟨rfl, fun i => ?_, rfl, by simp [refused], rfl, rfl, rfl, rfl⟩
    by_cases here : i = p.target
    · simp [here, there]
    · simp [here]
  | some s =>
    cases final : s.phase.isTerminal with
    | true =>
      have refused : r.accepts p = false := by simp [accepts, there, final]
      simp only [deliver, there, final, if_true]
      refine ⟨rfl, fun i => ?_, rfl, by simp [refused], rfl, rfl, rfl, rfl⟩
      by_cases here : i = p.target
      · simp [here, there, Status.address_of_terminal final]
      · simp [here]
    | false =>
      have taken : r.accepts p = true := by simp [accepts, there, final]
      simp only [deliver, there, final, Bool.false_eq_true, if_false, modifyStatus]
      refine ⟨rfl, fun i => ?_, rfl, by simp [taken], rfl, rfl, rfl, rfl⟩
      by_cases here : i = p.target
      · subst here
        simp [there, Status.address, final]
      · simp [here, List.getElem?_modify_ne _ _ (Ne.symm here)]

theorem delivers_all (r : Run) (ps : List Pulse) :
    r.Delivers ps (ps.foldl (fun r p => (r.deliver p).1) r) := by
  induction ps generalizing r with
  | nil => exact .nil r
  | cons p rest ih => exact (deliver_delivers r p).append (ih _)

-- The next tick right after its deliveries, which is where everything deferred is judged.
def arrived (r : Run) : Run := (Delivery.deliverAll {} r.beginTick).2

end Run

namespace Delivery

theorem deliverOne_run (s : Delivery × Run) (p : Pulse) : (deliverOne s p).2 = (s.2.deliver p).1 := by
  unfold deliverOne
  split
  · next took => rw [took]
  · next took => rw [took]

theorem deliverAll_run (t : Delivery) (r : Run) : (deliverAll t r).2 =
    r.pending.foldl (fun r p => (r.deliver p).1) { r with pending := [], delivered := [] } := by
  unfold deliverAll
  generalize ({ r with pending := [], delivered := [] } : Run) = s
  induction r.pending generalizing t s with
  | nil => rfl
  | cons p rest ih =>
    rw [List.foldl_cons, List.foldl_cons, ← deliverOne_run (t, s) p]
    exact ih _ _

theorem deliverAll_arrived (t : Delivery) (r : Run) : (deliverAll t r.beginTick).2 = r.arrived := by
  rw [Run.arrived, deliverAll_run {}, ← deliverAll_run t]

theorem update_run (t : Delivery) (r : Run) :
    ∃ t', (update t r.beginTick).2 = (propagateAll t' r.arrived.releaseDeferred).2 := by
  refine ⟨(deliverAll t r.beginTick).1, ?_⟩
  rw [update, ← deliverAll_arrived t]

end Delivery

namespace Run

section Arrived
variable (r : Run)

theorem arrived_delivers :
    Delivers { r.beginTick with pending := [], delivered := [] } r.pending r.arrived := by
  rw [arrived, Delivery.deliverAll_run]
  exact delivers_all _ _

theorem arrived_plan : r.arrived.plan = r.plan := r.arrived_delivers.plan
theorem arrived_pending : r.arrived.pending = [] := r.arrived_delivers.pending
theorem arrived_deferred : r.arrived.deferred = r.deferred := r.arrived_delivers.deferred
theorem arrived_tick : r.arrived.tick = r.tick + 1 := r.arrived_delivers.tick

theorem arrived_statuses (i : Nat) : r.arrived.statuses[i]? =
    if i ∈ r.pending.map Pulse.target then r.statuses[i]?.map Status.address
    else r.statuses[i]? := r.arrived_delivers.statuses i

theorem arrived_delivered : r.arrived.delivered = r.pending.filter r.accepts :=
  r.arrived_delivers.delivered

theorem arrived_size : r.arrived.statuses.length = r.statuses.length := by
  have same : ∀ i : Nat, r.arrived.statuses[i]? = none ↔ r.statuses[i]? = none := by
    intro i
    rw [arrived_statuses]
    split <;> simp
  simp only [List.getElem?_eq_none_iff] at same
  exact Nat.le_antisymm ((same _).mpr (Nat.le_refl _)) ((same _).mp (Nat.le_refl _))

end Arrived

def Fate.pulse? : Fate → Option Pulse
  | released p => some p
  | _ => none

def Fate.isKept : Fate → Bool
  | kept => true
  | _ => false

def released (r : Run) : List Pulse := r.deferred.filterMap fun d => (r.fate d).pulse?
def retained (r : Run) : List Deferred := r.deferred.filter fun d => (r.fate d).isKept

theorem releaseDeferred_eq (r : Run) : r.releaseDeferred =
    { r with deferred := r.retained, pending := r.pending ++ r.released } := rfl

theorem releaseDeferred_keeps (r : Run) : r.Keeps r.releaseDeferred :=
  ⟨rfl, rfl, rfl, rfl, rfl, rfl⟩

structure Sweep (r : Run) (ws : List Work) (r' : Run) : Prop where
  works : r.Works ws r'
  once : (ws.map Work.action).Nodup
  acts : ∀ i : Nat, i ∈ ws.map Work.action ↔ r.statuses[i]?.any Status.isDue = true
  deeds : ∀ w ∈ ws, w.deed = .propagate

end Run

namespace Delivery

theorem propagateOne_does {s : Delivery × Run} (there : s.2.statuses[i]? = some st)
    (due : st.isDue = true) :
    Deed.propagate.Fits st ∧ s.2.Does i .propagate (propagateOne s i).2 := by
  have fits : st.phase = .completed ∧ ¬st.propagated = true := by
    simpa [Status.isDue] using due
  refine ⟨by simpa [Deed.Fits] using fits, ?_⟩
  simp only [propagateOne, there, if_pos fits]
  exact Run.does_propagate there

theorem propagateOne_skips {s : Delivery × Run}
    (idle : s.2.statuses[i]?.any Status.isDue = false) : propagateOne s i = s := by
  unfold propagateOne
  split
  · rfl
  · next st there =>
    refine if_neg fun fits => ?_
    simp [there, Status.isDue, fits] at idle

theorem propagateAll_sweep (t : Delivery) (r : Run) : ∃ ws, r.Sweep ws (propagateAll t r).2 := by
  have does : ∀ (s : Delivery × Run) i st, s.2.statuses[i]? = some st → st.isDue = true →
      Deed.propagate.Fits st ∧ s.2.Does i .propagate (propagateOne s i).2 :=
    fun _ _ _ => propagateOne_does
  have once := List.nodup_range (n := r.statuses.length)
  have checked := fold_checked Prod.snd propagateOne _ Status.isDue does
    (fun _ _ => propagateOne_skips) once (t, r)
  obtain ⟨works, _⟩ := fold_works Prod.snd propagateOne _ Status.isDue does (s := (t, r))
    (once.filter _) fun i member => (List.mem_filter.mp member).2
  rw [propagateAll, checked]
  refine ⟨_, works, ?_, fun i => ?_, ?_⟩
  · rw [List.map_map]
    exact (visits_elements propagateOne (t, r) _).symm ▸ once.filter _
  · rw [List.map_map, show Work.action ∘ _ = Prod.snd from rfl, visits_elements, List.mem_filter]
    refine and_iff_right_of_imp fun due => ?_
    obtain ⟨st, there, _⟩ := (Option.any_eq_true ..).mp due
    exact List.mem_range.mpr (List.getElem?_eq_some_iff.mp there).1
  · intro w member
    obtain ⟨v, _, rfl⟩ := List.mem_map.mp member
    rfl

end Delivery
end ActionGraph
