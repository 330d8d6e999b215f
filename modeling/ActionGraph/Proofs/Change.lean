import ActionGraph.Proofs.Tick
-- The tick of the last change. Whether a stretch of a run changed any phase can be told from the
-- phases at its two ends, since none that is left in a tick is entered again in it.
namespace ActionGraph.Run

-- The date of the last change stays while the phases do, and else is the tick under way.
structure Dates (r r' : Run) : Prop where
  tick : r'.tick = r.tick
  calm : (∀ i, r'.phase i = r.phase i) → r'.lastChange = r.lastChange
  changed : r'.phase i ≠ r.phase i → r'.lastChange = r.tick

namespace Dates

theorem refl (r : Run) : r.Dates r := ⟨rfl, fun _ => rfl, fun differ => (differ rfl).elim⟩

theorem trans {a b c : Run} (first : a.Dates b) (second : b.Dates c)
    (lasts : ∀ i, c.phase i = a.phase i → b.phase i = a.phase i) : a.Dates c where
  tick := second.tick.trans first.tick
  calm same := by
    have before : ∀ i, b.phase i = a.phase i := fun i => lasts i (same i)
    rw [second.calm fun i => (same i).trans (before i).symm, first.calm before]
  changed {i} differ := by
    by_cases same : ∀ j, c.phase j = b.phase j
    · rw [second.calm same, first.changed (i := i)]
      rw [← same i]
      exact differ
    · obtain ⟨j, later⟩ := not_forall.mp same
      rw [second.changed later, first.tick]

end Dates

theorem Does.phase_other {r r' : Run} (done : r.Does i d r') (differ : i ≠ j) :
    r'.phase j = r.phase j := by
  rw [phase, done.other differ, phase]

theorem Does.dates {r r' : Run} (done : r.Does i d r') : r.Dates r' where
  tick := done.tick
  calm same := by rw [done.lastChange, if_pos (same i)]
  changed {j} differ := by
    rw [done.lastChange, if_neg]
    intro same
    by_cases here : i = j
    · exact differ (here ▸ same)
    · exact differ (done.phase_other here)

theorem Works.dates (works : Works r ws r') (once : (ws.map Work.action).Nodup) : r.Dates r' := by
  induction works with
  | nil => exact .refl _
  | @cons _ _ _ _ _ _ i _ _ done rest ih =>
    obtain ⟨fresh, once⟩ := List.nodup_cons.mp once
    refine done.dates.trans (ih once) fun j same => ?_
    by_cases here : i = j
    · subst here
      rw [← same, rest.phase_other fresh]
    · exact done.phase_other here

theorem deliver_phase (r : Run) (p : Pulse) (i : Nat) :
    (r.deliver p).1.phase i = r.phase i ∨ (r.deliver p).1.phase i = .running := by
  rw [phase, (r.deliver_delivers p).statuses]
  split
  · cases there : r.statuses[i]? with
    | none => exact .inl (by rw [phase, there]; rfl)
    | some s =>
      cases final : s.phase.isTerminal with
      | true => exact .inl (by rw [phase_of there, Option.map_some, Status.address_of_terminal final]; rfl)
      | false => exact .inr (by rw [Option.map_some, Status.address_of_left final]; rfl)
  · exact .inl rfl

theorem deliver_dates (r : Run) (p : Pulse) : r.Dates (r.deliver p).1 where
  tick := (r.deliver_delivers p).tick
  calm same := by
    cases there : r.statuses[p.target]? with
    | none => simp only [deliver, there]
    | some s =>
      have here := same p.target
      rw [phase_of there] at here
      cases final : s.phase.isTerminal with
      | true => simp only [deliver, there, final, if_true]
      | false =>
        simp only [deliver, there, final, Bool.false_eq_true, if_false] at here ⊢
        refine if_pos ?_
        rw [← here]
        simp [phase, modifyStatus, there, Status.activate]
  changed {i} differ := by
    cases there : r.statuses[p.target]? with
    | none => simp only [deliver, there] at differ; exact (differ rfl).elim
    | some s =>
      cases final : s.phase.isTerminal with
      | true => simp only [deliver, there, final, if_true] at differ; exact (differ rfl).elim
      | false =>
        simp only [deliver, there, final, Bool.false_eq_true, if_false] at differ ⊢
        refine if_neg fun running => differ ?_
        by_cases here : p.target = i
        · subst here
          simp [phase, modifyStatus, there, Status.activate, running]
        · simp [phase, modifyStatus, List.getElem?_modify_ne _ _ here]

theorem deliveries_dates (r : Run) (ps : List Pulse) :
    r.Dates (ps.foldl (fun r p => (r.deliver p).1) r) ∧ ∀ i, r.phase i = .running →
      (ps.foldl (fun r p => (r.deliver p).1) r).phase i = .running := by
  induction ps generalizing r with
  | nil => exact ⟨.refl r, fun _ running => running⟩
  | cons p rest ih =>
    obtain ⟨dates, stays⟩ := ih (r.deliver p).1
    refine ⟨(r.deliver_dates p).trans dates fun i same => ?_, fun i running => stays i ?_⟩
    · rcases r.deliver_phase p i with before | running
      · exact before
      · rw [← same, running]
        exact (stays i running).symm
    · rcases r.deliver_phase p i with before | entered
      · rw [before, running]
      · exact entered

theorem arrived_dates (r : Run) : r.beginTick.Dates r.arrived := by
  rw [arrived, Delivery.deliverAll_run]
  obtain ⟨tick, calm, changed⟩ :=
    (deliveries_dates { r.beginTick with pending := [], delivered := [] } r.pending).1
  exact ⟨tick, calm, changed⟩

theorem Ticks.dates (ticks : Ticks t r ps ws t' r') :
    ((∀ i, r.arrived.phase i = r.phase i ∧ r'.phase i = r.arrived.phase i) →
      r'.lastChange = r.lastChange) ∧
    ∀ i, r.arrived.phase i ≠ r.phase i ∨ r'.phase i ≠ r.arrived.phase i →
      r'.lastChange = r.tick + 1 := by
  obtain @⟨swept, done, sweep, passes⟩ := ticks
  have arrival := r.arrived_dates
  have swept_same : ∀ i, swept.phase i = r.arrived.phase i := sweep.phase
  have early : swept.lastChange = r.arrived.lastChange :=
    (sweep.works.dates sweep.once).calm swept_same
  have late := passes.works.dates passes.once
  have tick : swept.tick = r.tick + 1 := sweep.works.keeps.tick.trans r.arrived_tick
  have ended : ∀ i, done.endTick.phase i = done.phase i := by
    intro i
    simp only [endTick, phase, List.getElem?_map, Option.map_map]
    rfl
  have last : done.endTick.lastChange = done.lastChange := rfl
  simp only [ended, last]
  constructor
  · intro same
    rw [late.calm fun i => (same i).2.trans (swept_same i).symm, early,
      arrival.calm fun i => (same i).1]
    rfl
  · intro i differ
    by_cases same : ∀ j, done.phase j = swept.phase j
    · rw [late.calm same, early, arrival.changed (i := i)]
      · rfl
      · refine differ.resolve_right fun other => other ?_
        rw [same, swept_same]
    · obtain ⟨j, later⟩ := not_forall.mp same
      rw [late.changed later, tick]

end ActionGraph.Run
