import ActionGraph.Proofs.Round
-- What each stage has its actions do: the deed of an action in a run, and that the stage's pass is
-- a round of such deeds.
namespace ActionGraph

def Plan.reading (p : Plan) (read? : Value → Option α) (i : Nat) (key : String) (fallback : α) : α :=
  ((p.property? i key).bind read?).getD fallback

namespace Run

theorem propertyOr_parts (r : Run) (read? : Value → Option α) (i : Nat) (key : String)
    (fallback : α) : ∃ log,
      r.propertyOr read? i key fallback = (r.withLog log, r.plan.reading read? i key fallback) := by
  cases here : r.plan.property? i key with
  | none => exact ⟨r.log, by simp only [propertyOr, Plan.reading, here]; rfl⟩
  | some v =>
    cases taken : read? v with
    | none => exact ⟨_, by simp only [propertyOr, Plan.reading, here, Option.bind_some, taken]; rfl⟩
    | some a =>
      exact ⟨r.log, by simp only [propertyOr, Plan.reading, here, Option.bind_some, taken]; rfl⟩

theorem requireProperty_parts (r : Run) (read? : Value → Option α) (i : Nat) (key : String)
    (fallback : α) : ∃ log, r.requireProperty read? i key fallback =
      (r.withLog log, r.plan.reading read? i key fallback) := by
  cases here : r.plan.property? i key with
  | none => exact ⟨_, by simp only [requireProperty, Plan.reading, here]; rfl⟩
  | some v => simpa only [requireProperty, here] using r.propertyOr_parts read? i key fallback

end Run

def isRunning (p : Phase) : Bool := p = .running

theorem active_of_isRunning (p : Phase) (running : isRunning p = true) : p.isActive = true := by
  rw [of_decide_eq_true running]; rfl

theorem driven_iff {kind : String} (other : kind ≠ Trigger.kind) (p : Phase) :
    Driven kind p ↔ isRunning p = true := by
  simp [Driven, isRunning, other]

theorem running_round (run : σ → Run) (f : σ → Nat → σ) (deed : σ → Nat → Deed) {kind : String}
    (does : ∀ s i st, (run s).statuses[i]? = some st → isRunning st.phase = true →
      (deed s i).Suits kind ∧ (run s).Does i (deed s i) (run (f s i)))
    (other : kind ≠ Trigger.kind) {s : σ} (indexed : (run s).plan.Indexed) :
    (run s).Round [kind]
      ((visits f s ((run s).running kind)).map fun v => ⟨run v.1, v.2, deed v.1 v.2⟩)
      (run (((run s).running kind).foldl f s)) :=
  loop_round run f deed active_of_isRunning does (driven_iff other) indexed

namespace Flow

theorem passOne_does {r : Run} (there : r.statuses[i]? = some s) (running : isRunning s.phase = true) :
    r.Does i (.finishOn "out") (passOne r i) := by
  have here : r.phase i = .running := by rw [Run.phase_of there, of_decide_eq_true running]
  rw [passOne, if_pos here]
  exact Run.does_finishOn there (active_of_isRunning _ running) r.log "out"

theorem passThrough_round {r : Run} (kind : String) (structural : kind ∈ outKinds)
    (other : kind ≠ Trigger.kind) (indexed : r.plan.Indexed) :
    ∃ ws, r.Round [kind] ws (passThrough r kind) := by
  have does : ∀ (r : Run) i st, r.statuses[i]? = some st → isRunning st.phase = true →
      (Deed.finishOn "out").Suits kind ∧ r.Does i (.finishOn "out") (passOne r i) :=
    fun _ _ _ there running => ⟨.inr ⟨structural, rfl⟩, passOne_does there running⟩
  have skips : ∀ (r : Run) i, isRunning (r.phase i) = false → passOne r i = r :=
    fun r i idle => if_neg (of_decide_eq_false idle)
  have checked : passThrough r kind = (openOnes isRunning kind r).foldl passOne r :=
    loop_checked id passOne _ active_of_isRunning does skips indexed
  rw [checked]
  exact ⟨_, loop_round id passOne _ active_of_isRunning does (driven_iff other) indexed⟩

def needed (p : Plan) (i : Nat) : Nat :=
  max 1 (p.reading Value.u32? i "count" (p.entering i).length)

theorem required_parts (r : Run) (i : Nat) :
    ∃ log, required r i = (r.withLog log, needed r.plan i) := by
  obtain ⟨log, read⟩ := r.propertyOr_parts Value.u32? i "count" (r.plan.entering i).length
  rw [required, read, needed]
  generalize r.plan.reading Value.u32? i "count" (r.plan.entering i).length = n
  cases n with
  | zero => exact ⟨_, rfl⟩
  | succ n => exact ⟨log, by rw [Nat.max_eq_right (by omega)]; rfl⟩

def joinDeed (arrivals : Nat) (r : Run) (i : Nat) : Deed :=
  if needed r.plan i ≤ arrivals + (r.deliveredTo i).length then .finishOn "out" else .listen

theorem joinDeed_suits (arrivals : Nat) (r : Run) (i : Nat) :
    (joinDeed arrivals r i).Suits Action.joinKind := by
  unfold joinDeed
  split
  · exact .inr ⟨by decide, rfl⟩
  · exact .inl rfl

theorem joinOne_parts {s : Tally × Run} (there : s.2.statuses[i]? = some st)
    (running : isRunning st.phase = true) :
    s.2.Does i (joinDeed (s.1.get i) s.2 i) (joinOne s i).2 ∧
      (joinOne s i).1 = s.1.add i (s.2.deliveredTo i).length := by
  obtain ⟨arrivals, r⟩ := s
  have here : r.phase i = .running := by rw [Run.phase_of there, of_decide_eq_true running]
  have active := active_of_isRunning _ running
  obtain ⟨log, read⟩ := required_parts (r.takeFresh i).1 i
  have upon : (r.takeFresh i).1.withLog log = r.takenUp i log := rfl
  have plan : (r.takeFresh i).1.plan = r.plan := rfl
  simp only [joinOne, here, if_true, read, plan, upon, Tally.get_add, joinDeed]
  split
  · exact ⟨Run.does_finishOn there active log "out", rfl⟩
  · exact ⟨Run.does_listen there active log, rfl⟩

theorem joinOne_skips {s : Tally × Run} (idle : isRunning (s.2.phase i) = false) :
    joinOne s i = s := by
  obtain ⟨arrivals, r⟩ := s
  exact if_neg (of_decide_eq_false idle)

theorem joinDeed_keeps (arrivals : Nat) {r r' : Run} (keeps : r.Keeps r') (i : Nat) :
    joinDeed arrivals r' i = joinDeed arrivals r i := by
  unfold joinDeed Run.deliveredTo
  rw [keeps.plan, keeps.delivered]

theorem joinOne_steady (s : Tally × Run) (i j : Nat) (differ : i ≠ j) :
    (joinOne s i).1.get j = s.1.get j := by
  cases here : isRunning (s.2.phase i) with
  | false => rw [joinOne_skips here]
  | true =>
    obtain ⟨st, there, same⟩ := Run.status_of_phase (r := s.2) (i := i) fun idle => by
      rw [idle] at here; cases here
    rw [(joinOne_parts there (by rw [same, here])).2, Tally.get_add, if_neg (Ne.symm differ)]

theorem joinAll_round (arrivals : Tally) {r : Run} (indexed : r.plan.Indexed) :
    ∃ ws, r.Round [Action.joinKind] ws (joinAll arrivals r).2 ∧
      (∀ w ∈ ws, w.deed = joinDeed (arrivals.get w.action) r w.action) ∧
      ∀ j, (joinAll arrivals r).1.get j =
        arrivals.get j + if j ∈ ws.map Work.action then (r.deliveredTo j).length else 0 := by
  have does : ∀ (s : Tally × Run) i st, s.2.statuses[i]? = some st → isRunning st.phase = true →
      (joinDeed (s.1.get i) s.2 i).Suits Action.joinKind ∧
        s.2.Does i (joinDeed (s.1.get i) s.2 i) (joinOne s i).2 :=
    fun _ _ _ there running => ⟨joinDeed_suits _ _ _, (joinOne_parts there running).1⟩
  have checked : joinAll arrivals r =
      (openOnes isRunning Action.joinKind r).foldl joinOne (arrivals, r) :=
    loop_checked Prod.snd joinOne _ active_of_isRunning does (fun _ _ => joinOne_skips) indexed
  have round := loop_round Prod.snd joinOne _ (s := (arrivals, r)) active_of_isRunning does
    (driven_iff (by decide)) indexed
  have once := openOnes_nodup isRunning Action.joinKind indexed
  rw [checked]
  refine ⟨_, round, ?_, ?_⟩
  · intro w member
    have keeps := round.works.keeps_at member
    obtain ⟨v, met, rfl⟩ := List.mem_map.mp member
    have before : v.1.1.get v.2 = arrivals.get v.2 :=
      (view_visit (fun s j => s.1.get j) joinOne_steady once met).1
    rw [joinDeed_keeps _ keeps, before]
  · intro j
    split
    · next acts =>
      obtain ⟨w, member, rfl⟩ := List.mem_map.mp acts
      have keeps := round.works.keeps_at member
      obtain ⟨v, met, rfl⟩ := List.mem_map.mp member
      obtain ⟨before, after⟩ := view_visit (fun s j => s.1.get j) joinOne_steady once met
      obtain ⟨st, there, running⟩ :=
        (loop_works Prod.snd joinOne _ active_of_isRunning does indexed).2 v met
      rw [(joinOne_parts there running).2, Tally.get_add, if_pos rfl, before] at after
      exact after.trans (by rw [Run.deliveredTo, Run.deliveredTo, keeps.delivered])
    · next idle =>
      have absent : j ∉ openOnes isRunning Action.joinKind r := by
        rwa [List.map_map, show Work.action ∘ _ = Prod.snd from rfl, visits_elements] at idle
      exact view_other (fun (s : Tally × Run) j => s.1.get j) joinOne_steady absent

end Flow

namespace Delay

def deed (r : Run) (i : Nat) : Deed :=
  if r.plan.reading Value.u64? i "ticks" defaultTicks ≤ waited r i then .finishOn "out" else .rest

theorem updateOne_does {s : Nat × Run} (there : s.2.statuses[i]? = some st)
    (running : isRunning st.phase = true) :
    (deed s.2 i).Suits kind ∧ s.2.Does i (deed s.2 i) (updateOne s i).2 := by
  obtain ⟨n, r⟩ := s
  obtain ⟨log, read⟩ := (r.takeFresh i).1.propertyOr_parts Value.u64? i "ticks" defaultTicks
  have upon : (r.takeFresh i).1.withLog log = r.takenUp i log := rfl
  have plan : (r.takeFresh i).1.plan = r.plan := rfl
  have age : waited (r.takenUp i log) i = waited r i := by
    rw [waited, Run.takenUp_status there, waited, there]; rfl
  simp only [updateOne, read, upon, plan, age, deed]
  split
  · exact ⟨.inr ⟨by decide, rfl⟩, Run.does_finishOn there (active_of_isRunning _ running) log "out"⟩
  · exact ⟨rfl, Run.does_rest there log⟩

theorem deed_congr {r r' : Run} (plan : r'.plan = r.plan)
    (same : r'.statuses[i]? = r.statuses[i]?) : deed r' i = deed r i := by
  unfold deed waited
  rw [plan, same]

theorem update_round (completed : Nat) {r : Run} (indexed : r.plan.Indexed) :
    ∃ ws, r.Round [kind] ws (update completed r).2 ∧ ∀ w ∈ ws, w.deed = deed r w.action := by
  have round := running_round Prod.snd updateOne _ (s := (completed, r))
    (fun _ _ _ => updateOne_does) (by decide) indexed
  refine ⟨_, round, ?_⟩
  intro w member
  obtain ⟨s, before, found, _⟩ := round.works.single round.once member
  have keeps := round.works.keeps_at member
  obtain ⟨v, _, rfl⟩ := List.mem_map.mp member
  exact deed_congr keeps.plan (found.trans before.symm)

end Delay

namespace Assign

theorem write_parts (n : Nat) (r : Run) (i : Nat) (key : String) (global : Bool) :
    ∃ log f, (write (n, r) i key global).2 = (r.withLog log).onBoard f := by
  by_cases empty : key.isEmpty = true
  · exact ⟨r.log, id, by simp only [write, empty, if_true]; rfl⟩
  · cases value : r.plan.property? i "value" with
    | none =>
      exact ⟨(r.warn i "missing property 'value'; nothing written").log, id, by
        simp only [write, empty, value, Bool.false_eq_true, if_false]; rfl⟩
    | some v => exact ⟨r.log, _, by simp only [write, empty, value, Bool.false_eq_true, if_false]; rfl⟩

theorem updateOne_does {s : Nat × Run} (there : s.2.statuses[i]? = some st)
    (running : isRunning st.phase = true) :
    Deed.finish.Suits kind ∧ s.2.Does i .finish (updateOne s i).2 := by
  obtain ⟨n, r⟩ := s
  obtain ⟨log, key⟩ := (r.takeFresh i).1.requireProperty_parts Value.text? i "key" ""
  obtain ⟨log', global⟩ := ((r.takeFresh i).1.withLog log).propertyOr_parts Value.bool? i "global" false
  obtain ⟨log'', f, wrote⟩ := write_parts n (((r.takeFresh i).1.withLog log).withLog log') i
    ((r.takeFresh i).1.plan.reading Value.text? i "key" "")
    (((r.takeFresh i).1.withLog log).plan.reading Value.bool? i "global" false)
  refine ⟨by unfold Deed.Suits; decide, ?_⟩
  simp only [updateOne, key, global, wrote]
  exact Run.does_finish there (active_of_isRunning _ running) log'' f

theorem update_round (writes : Nat) {r : Run} (indexed : r.plan.Indexed) :
    ∃ ws, r.Round [kind] ws (update writes r).2 :=
  ⟨_, running_round Prod.snd updateOne _ (s := (writes, r)) (fun _ _ _ => updateOne_does)
    (by decide) indexed⟩

end Assign

namespace Filter

def comparison (p : Plan) (i : Nat) : Comparison :=
  (((p.property? i "op").bind Value.text?).bind Comparison.read?).getD .equal

theorem operator_parts (r : Run) (i : Nat) :
    (∃ log, (operator r i).1 = r.withLog log) ∧ (operator r i).2 = comparison r.plan i := by
  obtain ⟨log, read⟩ := r.propertyOr_parts Value.text? i "op" "=="
  have default : (Comparison.read? (r.plan.reading Value.text? i "op" "==")).getD .equal =
      comparison r.plan i := by
    rw [Plan.reading, comparison]
    cases (r.plan.property? i "op").bind Value.text? with
    | none => decide +kernel
    | some text => rfl
  simp only [operator, read, ← default]
  cases Comparison.read? (r.plan.reading Value.text? i "op" "==") with
  | none => exact ⟨⟨_, rfl⟩, rfl⟩
  | some op => exact ⟨⟨log, rfl⟩, rfl⟩

theorem judge_parts (r : Run) (i : Nat) :
    (∃ log, (judge r i).1 = r.withLog log) ∧
      ((judge r i).2 = .pass ↔ ∃ target v, r.plan.property? i "target" = some target ∧
        lookup? r i (r.plan.reading Value.text? i "key" "") = some v ∧
        (comparison r.plan i).holds v target = true) := by
  obtain ⟨log, key⟩ := r.requireProperty_parts Value.text? i "key" ""
  obtain ⟨⟨log', op⟩, compares⟩ := operator_parts (r.withLog log) i
  have target : (operator (r.withLog log) i).1.plan.property? i "target" = r.plan.property? i "target" := by
    rw [op]
    rfl
  have looks : lookup? (operator (r.withLog log) i).1 i = lookup? r i := by
    rw [op]
    rfl
  have plan : (r.withLog log).plan = r.plan := rfl
  simp only [judge, key, target, looks, compares, plan]
  cases r.plan.property? i "target" with
  | none => exact ⟨⟨_, by rw [op]; rfl⟩, by simp⟩
  | some target =>
    cases lookup? r i (r.plan.reading Value.text? i "key" "") with
    | none => exact ⟨⟨_, by rw [op]; rfl⟩, by simp⟩
    | some v =>
      refine ⟨⟨log', op⟩, ?_⟩
      cases holds : (comparison r.plan i).holds v target with
      | true => simp [holds]
      | false => simp [holds]

def verdict (r : Run) (i : Nat) : Outcome := (judge (r.takeFresh i).1 i).2

theorem verdict_pass (r : Run) (i : Nat) : verdict r i = .pass ↔
    ∃ target v, r.plan.property? i "target" = some target ∧
      lookup? r i (r.plan.reading Value.text? i "key" "") = some v ∧
      (comparison r.plan i).holds v target = true :=
  (judge_parts (r.takeFresh i).1 i).2

theorem verdict_congr {r r' : Run} (plan : r'.plan = r.plan) (board : r'.board = r.board) (i : Nat) :
    verdict r' i = verdict r i := by
  have same : verdict r' i = .pass ↔ verdict r i = .pass := by
    rw [verdict_pass, verdict_pass, plan]
    simp only [lookup?, plan, board]
  cases here : verdict r' i <;> cases there : verdict r i <;> simp_all

theorem updateOne_does {s : Outcomes × Run} (there : s.2.statuses[i]? = some st)
    (running : isRunning st.phase = true) :
    (Deed.finishOn (verdict s.2 i).port).Suits kind ∧
      s.2.Does i (.finishOn (verdict s.2 i).port) (updateOne s i).2 := by
  obtain ⟨log, judged⟩ := (judge_parts (s.2.takeFresh i).1 i).1
  refine ⟨.inl ⟨rfl, _, rfl⟩, ?_⟩
  simp only [updateOne, judged]
  exact Run.does_finishOn there (active_of_isRunning _ running) log _

theorem lookup_updateOne (s : Outcomes × Run) (i j : Nat) :
    (updateOne s i).1.lookup j = if j = i then some (verdict s.2 i) else s.1.lookup j := by
  simp only [updateOne, verdict, List.lookup_cons]
  by_cases same : j = i
  · simp [same]
  · simp [beq_false_of_ne same, same]

theorem update_round (outcomes : Outcomes) {r : Run} (indexed : r.plan.Indexed) :
    ∃ ws, r.Round [kind] ws (update outcomes r).2 ∧
      (∀ w ∈ ws, w.deed = .finishOn (verdict w.run w.action).port ∧
        (update outcomes r).1.lookup w.action = some (verdict w.run w.action)) ∧
      ∀ j, j ∉ ws.map Work.action → (update outcomes r).1.lookup j = outcomes.lookup j := by
  have round := running_round Prod.snd updateOne _ (s := (outcomes, r))
    (fun _ _ _ => updateOne_does) (by decide) indexed
  have steady : ∀ s i j, i ≠ j → (updateOne s i).1.lookup j = s.1.lookup j := by
    intro s i j differ
    rw [lookup_updateOne, if_neg (Ne.symm differ)]
  have once : (r.running kind).Nodup := openOnes_nodup isRunning kind indexed
  refine ⟨_, round, ?_, ?_⟩
  · intro w member
    obtain ⟨v, met, rfl⟩ := List.mem_map.mp member
    have after := (view_visit (fun s j => s.1.lookup j) steady once met).2
    rw [lookup_updateOne, if_pos rfl] at after
    exact ⟨rfl, after⟩
  · intro j idle
    rw [List.map_map, show Work.action ∘ _ = Prod.snd from rfl, visits_elements] at idle
    exact view_other (fun (s : Outcomes × Run) j => s.1.lookup j) steady idle

end Filter

namespace Trigger

def fires? (r : Run) (i : Nat) : Bool :=
  let name := r.plan.reading Value.text? i "event" ""
  !name.isEmpty && r.raised.contains name

def exhausted (p : Plan) (i fires : Nat) : Bool :=
  let limit := p.reading Value.u32? i "max_fires" 0
  !p.reading Value.bool? i "repeat" false || (0 < limit && limit ≤ fires)

def deed (fires : Nat) (r : Run) (i : Nat) : Deed :=
  if fires? r i then if exhausted r.plan i (fires + 1) then .finishOn "out" else .pulse
  else .listen

theorem deed_suits (fires : Nat) (r : Run) (i : Nat) : (deed fires r i).Suits kind := by
  unfold deed
  split
  · split
    · exact .inr ⟨by decide, rfl⟩
    · exact rfl
  · exact .inr rfl

theorem event_parts (r : Run) (i : Nat) : ∃ log,
    event r i = (r.takenUp i log, r.plan.reading Value.text? i "event" "") := by
  obtain ⟨log, loud⟩ := (r.takeFresh i).1.requireProperty_parts Value.text? i "event" ""
  obtain ⟨log', silent⟩ := (r.takeFresh i).1.propertyOr_parts Value.text? i "event" ""
  rw [event, show r.takeFresh i = ((r.takeFresh i).1, (r.takeFresh i).2) from rfl]
  cases (r.takeFresh i).2 with
  | true => exact ⟨log, loud⟩
  | false => exact ⟨log', silent⟩

theorem fire_parts (t : Tally) {r : Run} (there : r.statuses[i]? = some st)
    (active : st.phase.isActive = true) (log : Diagnostics) :
    r.Does i (if exhausted r.plan i (t.get i + 1) then .finishOn "out" else .pulse)
        (fire (t, r.takenUp i log) i).2 ∧
      (fire (t, r.takenUp i log) i).1 = t.add i 1 := by
  obtain ⟨log', again⟩ := (r.takenUp i log).propertyOr_parts Value.bool? i "repeat" false
  obtain ⟨log'', limit⟩ :=
    ((r.takenUp i log).withLog log').propertyOr_parts Value.u32? i "max_fires" 0
  have fired : fire (t, r.takenUp i log) i = if exhausted r.plan i (t.get i + 1)
      then (t.add i 1, ((r.takenUp i log'').completeAndEmit i "out").1)
      else (t.add i 1, (((r.takenUp i log'').emit i "out").1.setPhase i .listening).1) := by
    simp only [fire, again, limit, Tally.get_add, if_true]; rfl
  rw [fired]
  split
  · exact ⟨Run.does_finishOn there active log'' "out", rfl⟩
  · exact ⟨Run.does_pulse there active log'', rfl⟩

theorem updateOne_parts {s : Tally × Run} (there : s.2.statuses[i]? = some st)
    (active : st.phase.isActive = true) :
    s.2.Does i (deed (s.1.get i) s.2 i) (updateOne s i).2 ∧
      (updateOne s i).1 = if fires? s.2 i then s.1.add i 1 else s.1 := by
  obtain ⟨t, r⟩ := s
  obtain ⟨log, named⟩ := event_parts r i
  have here : (r.phase i).isActive = true := by rw [Run.phase_of there, active]
  have step : updateOne (t, r) i = if fires? r i then fire (t, r.takenUp i log) i
      else (t, ((r.takenUp i log).setPhase i .listening).1) := by
    simp only [updateOne, here, if_true, named]; rfl
  rw [step, deed]
  split
  · exact fire_parts t there active log
  · exact ⟨Run.does_listen there active log, rfl⟩

theorem updateOne_skips {s : Tally × Run} (idle : (s.2.phase i).isActive = false) :
    updateOne s i = s := by
  simp [updateOne, idle]

theorem deed_keeps (fires : Nat) {r r' : Run} (keeps : r.Keeps r') (i : Nat) :
    deed fires r' i = deed fires r i := by
  unfold deed fires?
  rw [keeps.plan, keeps.raised]

theorem deed_port? (fires : Nat) (r : Run) (i : Nat) :
    (deed fires r i).port? = if fires? r i then some "out" else none := by
  unfold deed
  split
  · split <;> rfl
  · rfl

theorem updateOne_steady (s : Tally × Run) (i j : Nat) (differ : i ≠ j) :
    (updateOne s i).1.get j = s.1.get j := by
  cases here : (s.2.phase i).isActive with
  | false => rw [updateOne_skips here]
  | true =>
    obtain ⟨st, there, same⟩ := Run.status_of_phase (r := s.2) (i := i) fun idle => by
      rw [idle] at here; cases here
    rw [(updateOne_parts there (by rw [same, here])).2]
    split
    · rw [Tally.get_add, if_neg (Ne.symm differ)]
    · rfl

theorem driven_active (p : Phase) : Driven kind p ↔ p.isActive = true := by
  cases p <;> simp [Driven, Phase.isActive]

theorem update_round (fires : Tally) {r : Run} (indexed : r.plan.Indexed) :
    ∃ ws, r.Round [kind] ws (update fires r).2 ∧
      (∀ w ∈ ws, w.deed = deed (fires.get w.action) r w.action) ∧
      ∀ j, (update fires r).1.get j = fires.get j + emissions ws j "out" := by
  have does : ∀ (s : Tally × Run) i st, s.2.statuses[i]? = some st → st.phase.isActive = true →
      (deed (s.1.get i) s.2 i).Suits kind ∧ s.2.Does i (deed (s.1.get i) s.2 i) (updateOne s i).2 :=
    fun _ _ _ there active => ⟨deed_suits _ _ _, (updateOne_parts there active).1⟩
  have checked : update fires r = (openOnes Phase.isActive kind r).foldl updateOne (fires, r) :=
    loop_checked Prod.snd updateOne _ (fun _ active => active) does (fun _ _ => updateOne_skips)
      indexed
  have round := loop_round Prod.snd updateOne _ (s := (fires, r)) (fun _ active => active) does
    driven_active indexed
  have once := openOnes_nodup Phase.isActive kind indexed
  have deeds : ∀ v ∈ visits updateOne (fires, r) (openOnes Phase.isActive kind r),
      r.Keeps v.1.2 ∧ v.1.1.get v.2 = fires.get v.2 := fun v met =>
    ⟨round.works.keeps_at (List.mem_map_of_mem met),
      (view_visit (fun s j => s.1.get j) updateOne_steady once met).1⟩
  rw [checked]
  refine ⟨_, round, ?_, ?_⟩
  · intro w member
    obtain ⟨v, met, rfl⟩ := List.mem_map.mp member
    obtain ⟨keeps, before⟩ := deeds v met
    rw [deed_keeps _ keeps, before]
  · intro j
    by_cases acts : j ∈ openOnes Phase.isActive kind r
    · rw [← visits_elements updateOne (fires, r) (openOnes Phase.isActive kind r)] at acts
      obtain ⟨v, met, rfl⟩ := List.mem_map.mp acts
      obtain ⟨st, there, active⟩ :=
        (loop_works Prod.snd updateOne _ (fun _ active => active) does indexed).2 v met
      have after := (view_visit (fun s j => s.1.get j) updateOne_steady once met).2
      rw [(updateOne_parts there active).2] at after
      have sends := emissions_single round.once (List.mem_map_of_mem met) "out"
      refine after.trans (.trans ?_ (congrArg _ sends).symm)
      rw [deed_port?]
      split
      · rw [Tally.get_add, if_pos rfl, (deeds v met).2]; rfl
      · exact (deeds v met).2
    · have absent := view_other (s := (fires, r)) (fun s j => s.1.get j) updateOne_steady acts
      rw [← visits_elements updateOne (fires, r) (openOnes Phase.isActive kind r)] at acts
      rw [emissions_idle (by rwa [List.map_map]), Nat.add_zero]
      exact absent

end Trigger

namespace Spawn

theorem request_parts (r : Run) (i : Nat) : ∃ log, (request r i).1 = r.withLog log := by
  obtain ⟨log, prefab⟩ := r.requireProperty_parts Value.text? i "prefab" ""
  obtain ⟨log', count⟩ := (r.withLog log).propertyOr_parts Value.u32? i "count" 1
  simp only [request, prefab]
  split
  · exact ⟨log, rfl⟩
  · simp only [count]
    split
    · exact ⟨_, rfl⟩
    · exact ⟨log', rfl⟩

theorem updateOne_does (host : Host) {s : Tally × Run × List Effect}
    (there : s.2.1.statuses[i]? = some st) (running : isRunning st.phase = true) :
    Deed.finish.Suits kind ∧ s.2.1.Does i .finish (updateOne host s i).2.1 := by
  obtain ⟨log, asked⟩ := request_parts (s.2.1.takeFresh i).1 i
  refine ⟨by unfold Deed.Suits; decide, ?_⟩
  simp only [updateOne, asked]
  exact Run.does_finish there (active_of_isRunning _ running) log _

theorem update_round (host : Host) (spawned : Tally) {r : Run} (indexed : r.plan.Indexed) :
    ∃ ws, r.Round [kind] ws (update host spawned r).2.1 :=
  ⟨_, running_round (fun s => s.2.1) (updateOne host) _ (s := (spawned, r, []))
    (fun _ _ _ => updateOne_does host) (by decide) indexed⟩

end Spawn

namespace Warning

theorem request_parts (r : Run) (i : Nat) : ∃ log, (request r i).1 = r.withLog log := by
  obtain ⟨log, message⟩ := r.requireProperty_parts Value.text? i "message" ""
  obtain ⟨log', duration⟩ :=
    (r.withLog log).propertyOr_parts Value.u64? i "duration_ticks" defaultTicks
  exact ⟨log', by simp only [request, message, duration]; rfl⟩

theorem updateOne_does (host : Host) {s : Nat × Run × List Effect}
    (there : s.2.1.statuses[i]? = some st) (running : isRunning st.phase = true) :
    Deed.finish.Suits kind ∧ s.2.1.Does i .finish (updateOne host s i).2.1 := by
  obtain ⟨log, asked⟩ := request_parts (s.2.1.takeFresh i).1 i
  refine ⟨by unfold Deed.Suits; decide, ?_⟩
  simp only [updateOne, asked]
  exact Run.does_finish there (active_of_isRunning _ running) log id

theorem update_round (host : Host) (shown : Nat) {r : Run} (indexed : r.plan.Indexed) :
    ∃ ws, r.Round [kind] ws (update host shown r).2.1 :=
  ⟨_, running_round (fun s => s.2.1) (updateOne host) _ (s := (shown, r, []))
    (fun _ _ _ => updateOne_does host) (by decide) indexed⟩

end Warning

namespace Log

theorem level_parts (r : Run) (i : Nat) : ∃ log, (level r i).1 = r.withLog log := by
  obtain ⟨log, read⟩ := r.propertyOr_parts Value.text? i "level" "info"
  simp only [level, read]
  split
  · exact ⟨log, rfl⟩
  · exact ⟨_, rfl⟩

theorem updateOne_does (host : Host) {s : Run × List Effect}
    (there : s.1.statuses[i]? = some st) (running : isRunning st.phase = true) :
    Deed.finish.Suits kind ∧ s.1.Does i .finish (updateOne host s i).1 := by
  obtain ⟨log, asked⟩ := level_parts (s.1.takeFresh i).1 i
  obtain ⟨log', message⟩ :=
    ((s.1.takeFresh i).1.withLog log).requireProperty_parts Value.text? i "message" ""
  refine ⟨by unfold Deed.Suits; decide, ?_⟩
  simp only [updateOne, asked, message]
  exact Run.does_finish there (active_of_isRunning _ running) log' id

theorem update_round (host : Host) {r : Run} (indexed : r.plan.Indexed) :
    ∃ ws, r.Round [kind] ws (update host r).1 :=
  ⟨_, running_round Prod.fst (updateOne host) _ (s := (r, [])) (fun _ _ _ => updateOne_does host)
    (by decide) indexed⟩

end Log
end ActionGraph
