import ActionGraph.Proofs.Outbox
-- What the tables of the stages gain in one pass: each counts the actions that its stage completes.
namespace ActionGraph

theorem running_visits (run : σ → Run) (f : σ → Nat → σ) (deed : σ → Nat → Deed) {kind : String}
    (does : ∀ s i st, (run s).statuses[i]? = some st → isRunning st.phase = true →
      (deed s i).Suits kind ∧ (run s).Does i (deed s i) (run (f s i)))
    (other : kind ≠ Trigger.kind) {s : σ} (indexed : (run s).plan.Indexed)
    (met : v ∈ visits f s ((run s).running kind)) : (run s).Keeps (run v.1) ∧ ∃ st,
      (run v.1).statuses[v.2]? = some st ∧ isRunning st.phase = true ∧
      (run (((run s).running kind).foldl f s)).statuses[v.2]? = some ((deed v.1 v.2).settle st) := by
  have round := running_round run f deed does other indexed
  have member := List.mem_map_of_mem (f := fun v => (⟨run v.1, v.2, deed v.1 v.2⟩ : Work)) met
  obtain ⟨st, _, found, _, after⟩ := round.works.single round.once member
  obtain ⟨st', again, running⟩ := (loop_works run f deed active_of_isRunning does indexed).2 v met
  cases found.symm.trans again
  exact ⟨round.works.keeps_at member, st, found, running, after⟩

def Deed.finishes : Deed → Bool
  | finish | finishOn _ => true
  | rest | listen | pulse | propagate => false

theorem Deed.settle_completed (d : Deed) {s : Status} (active : s.phase.isActive = true) :
    (d.settle s).phase = .completed ↔ d.finishes = true := by
  have left := Run.ne_completed_of_isActive active
  cases d <;> simp [settle, finishes, left]

namespace Delivery

theorem deliverOne_delivered (s : Delivery × Run) (p : Pulse) :
    (deliverOne s p).1.delivered + s.2.delivered.length =
      s.1.delivered + (deliverOne s p).2.delivered.length := by
  cases there : s.2.statuses[p.target]? with
  | none => simp only [deliverOne, Run.deliver, there]
  | some st =>
    cases final : st.phase.isTerminal with
    | true => simp only [deliverOne, Run.deliver, there, final, if_true]
    | false =>
      simp only [deliverOne, Run.deliver, there, final, Bool.false_eq_true, if_false,
        List.length_append, List.length_singleton]
      omega

theorem deliverAll_delivered (t : Delivery) (r : Run) :
    (deliverAll t r).1.delivered = t.delivered + (deliverAll t r).2.delivered.length := by
  have whole : ∀ (ps : List Pulse) (s : Delivery × Run),
      (ps.foldl deliverOne s).1.delivered + s.2.delivered.length =
        s.1.delivered + (ps.foldl deliverOne s).2.delivered.length := by
    intro ps
    induction ps with
    | nil => exact fun _ => rfl
    | cons p rest ih =>
      intro s
      have first := deliverOne_delivered s p
      have later := ih (deliverOne s p)
      rw [List.foldl_cons]
      omega
  exact whole r.pending (t, { r with pending := [], delivered := [] })

theorem propagateAll_delivered (t : Delivery) (r : Run) :
    (propagateAll t r).1.delivered = t.delivered := by
  refine List.foldlRecOn (motive := fun s => s.1.delivered = t.delivered) (b := (t, r)) _
    propagateOne rfl ?_
  intro s same i _
  rw [← same]
  unfold propagateOne
  split
  · rfl
  · split <;> rfl

theorem update_delivered (t : Delivery) (r : Run) :
    (t.update r.beginTick).1.delivered = t.delivered + r.arrived.delivered.length := by
  rw [update, propagateAll_delivered, deliverAll_delivered, deliverAll_arrived]

end Delivery

namespace Delay

theorem updateOne_count {s : Nat × Run} (there : s.2.statuses[i]? = some st) :
    (updateOne s i).1 = s.1 + if (deed s.2 i).finishes then 1 else 0 := by
  obtain ⟨n, r⟩ := s
  obtain ⟨log, read⟩ := (r.takeFresh i).1.propertyOr_parts Value.u64? i "ticks" defaultTicks
  have age : waited ((r.takeFresh i).1.withLog log) i = waited r i := by
    rw [show (r.takeFresh i).1.withLog log = r.takenUp i log from rfl, waited,
      Run.takenUp_status there, waited, there]
    rfl
  have plan : (r.takeFresh i).1.plan = r.plan := rfl
  simp only [updateOne, read, plan, age, deed]
  split <;> rfl

theorem update_count (n : Nat) {r : Run} (indexed : r.plan.Indexed) : (update n r).1 =
    n + (r.running kind).countP fun i => (update n r).2.phase i = .completed := by
  refine foldl_count Prod.fst _ fun v met => ?_
  obtain ⟨_, st, there, running, after⟩ := running_visits (s := (n, r)) Prod.snd updateOne _
    (fun _ _ _ => updateOne_does) (by decide) indexed met
  have ends := (deed v.1.2 v.2).settle_completed (active_of_isRunning _ running)
  rw [updateOne_count there, update, Run.phase_of after]
  simp only [ends, Bool.decide_eq_true]

end Delay

def Action.writes (a : Action) : Bool :=
  !(a.reading Value.text? "key" "").isEmpty && (a.properties.get? "value").isSome

namespace Assign

theorem updateOne_count {s : Nat × Run} (there : s.2.plan.action? i = some a) :
    (updateOne s i).1 = s.1 + if a.writes then 1 else 0 := by
  obtain ⟨n, r⟩ := s
  obtain ⟨log, key⟩ := (r.takeFresh i).1.requireProperty_parts Value.text? i "key" ""
  obtain ⟨log', global⟩ := ((r.takeFresh i).1.withLog log).propertyOr_parts Value.bool? i "global" false
  have plan : (r.takeFresh i).1.plan = r.plan := rfl
  have value : (((r.takeFresh i).1.withLog log).withLog log').plan.property? i "value" =
      a.properties.get? "value" := by
    rw [Plan.property?, show ((((r.takeFresh i).1.withLog log).withLog log').plan.action? i) = some a
      from there, Option.bind_some]
  rw [plan, Plan.reading_eq there] at key
  cases empty : (a.reading Value.text? "key" "").isEmpty with
  | true => simp only [updateOne, key, global, write, Action.writes, empty]; rfl
  | false =>
    simp only [updateOne, key, global, write, Action.writes, empty, value]
    cases a.properties.get? "value" <;> rfl

theorem update_count (n : Nat) {r : Run} (indexed : r.plan.Indexed) : (update n r).1 =
    n + (r.running kind).countP fun i => (r.plan.action? i).any Action.writes := by
  refine foldl_count Prod.fst _ fun v met => ?_
  obtain ⟨keeps, _⟩ := running_visits (s := (n, r)) Prod.snd updateOne _
    (fun _ _ _ => updateOne_does) (by decide) indexed met
  have member : v.2 ∈ r.running kind := by
    have inside := List.mem_map_of_mem (f := Prod.snd) met
    rwa [visits_elements] at inside
  obtain ⟨a, there, _⟩ := Run.running_action indexed member
  rw [updateOne_count (keeps.plan.symm ▸ there), there]
  rfl

end Assign

namespace Spawn

theorem updateOne_tally (host : Host) {s : Tally × Run × List Effect}
    (there : s.2.1.plan.action? i = some a) (isSpawn : a.kind = kind) :
    (updateOne host s i).1 = s.1.addWord i (a.accepts host) := by
  obtain ⟨spawned, r, effects⟩ := s
  obtain ⟨log, asked⟩ := request_eq (r := (r.takeFresh i).1) there
  have taken := accepted_eq host isSpawn r.tick r.board
  have tick : (r.takeFresh i).1.tick = r.tick := rfl
  simp only [updateOne, asked, tick, taken]

theorem updateOne_steady (host : Host) (s : Tally × Run × List Effect) (i j : Nat) (differ : i ≠ j) :
    (updateOne host s i).1.get j = s.1.get j := by
  simp only [updateOne, Tally.get_addWord, if_neg (Ne.symm differ)]

theorem update_tally (host : Host) (spawned : Tally) {r : Run} (indexed : r.plan.Indexed) :
    (∀ i ∈ r.running kind, ∀ a, r.plan.action? i = some a → (update host spawned r).1.get i =
      (spawned.get i + a.accepts host) % UInt32.size) ∧
    ∀ i, i ∉ r.running kind → (update host spawned r).1.get i = spawned.get i := by
  have once : (r.running kind).Nodup := openOnes_nodup isRunning kind indexed
  have steady := updateOne_steady host
  constructor
  · intro i member a there
    obtain ⟨_, here, isSpawn⟩ := Run.running_action indexed member
    cases here.symm.trans there
    rw [← visits_elements (updateOne host) (spawned, r, []) (r.running kind)] at member
    obtain ⟨v, met, rfl⟩ := List.mem_map.mp member
    obtain ⟨before, after⟩ := view_visit (fun s j => s.1.get j) steady once met
    obtain ⟨keeps, _⟩ := running_visits (s := (spawned, r, [])) (fun s => s.2.1) (updateOne host) _
      (fun _ _ _ => updateOne_does host) (by decide) indexed met
    rw [updateOne_tally host (keeps.plan.symm ▸ there) isSpawn, Tally.get_addWord, if_pos rfl,
      before] at after
    exact after
  · intro i idle
    exact view_other (fun (s : Tally × Run × List Effect) j => s.1.get j) steady idle

end Spawn

namespace Warning

theorem update_count (host : Host) (n : Nat) (r : Run) : (update host n r).1 =
    n + (r.running kind).countP fun _ => host.warning := by
  refine foldl_count (fun s : Nat × Run × List Effect => s.1) _ fun v _ => ?_
  change (if host.warning then v.1.1 + 1 else v.1.1) = v.1.1 + if host.warning then 1 else 0
  split <;> rfl

end Warning

end ActionGraph
