import ActionGraph.Proofs.Reload
-- What nothing that happens to a run can do, whatever the pipeline and whatever positions an operation
-- is given: plan, tick and number of statuses stay, no action comes back from a final phase, nothing
-- is deferred but along an edge, and the last change is never dated otherwise than today.
namespace ActionGraph

structure Status.Follows (s s' : Status) : Prop where
  final : s.phase.isTerminal = true → s'.phase = s.phase
  age : s'.age ≤ s.age

namespace Status.Follows

theorem refl (s : Status) : s.Follows s := ⟨fun _ => rfl, Nat.le_refl _⟩

theorem trans {a b c : Status} (ab : a.Follows b) (bc : b.Follows c) : a.Follows c where
  final := by
    intro ended
    have still := ab.final ended
    rw [bc.final (by rw [still]; exact ended), still]
  age := Nat.le_trans bc.age ab.age

theorem enter {s : Status} (left : s.phase.isTerminal = false) (next : Phase) :
    s.Follows (s.enter next) where
  final := fun ended => by rw [left] at ended; cases ended
  age := by
    unfold Status.enter
    split
    · exact Nat.le_refl _
    · exact Nat.zero_le _

theorem activate {s : Status} (left : s.phase.isTerminal = false) : s.Follows s.activate :=
  ⟨fun ended => (by rw [left] at ended; cases ended), Nat.zero_le _⟩

end Status.Follows

namespace Run

structure Frames (r r' : Run) : Prop where
  plan : r'.plan = r.plan
  tick : r'.tick = r.tick
  size : r'.statuses.length = r.statuses.length

theorem Frames.refl (r : Run) : r.Frames r := ⟨rfl, rfl, rfl⟩

theorem Frames.trans {a b c : Run} (ab : a.Frames b) (bc : b.Frames c) : a.Frames c :=
  ⟨bc.plan.trans ab.plan, bc.tick.trans ab.tick, bc.size.trans ab.size⟩

structure Steps (r r' : Run) : Prop extends Frames r r' where
  statuses : ∀ (i : Nat) s, r.statuses[i]? = some s → ∃ s', r'.statuses[i]? = some s' ∧ s.Follows s'
  deferred : ∀ d ∈ r'.deferred, d ∈ r.deferred ∨ d.armed = r.tick ∧ d.route < r.plan.routes.length
  change : r'.lastChange = r.lastChange ∨ r'.lastChange = r.tick

namespace Steps

theorem calm {r r' : Run} (same : (r'.plan, r'.tick, r'.statuses, r'.deferred, r'.lastChange) =
    (r.plan, r.tick, r.statuses, r.deferred, r.lastChange)) : r.Steps r' := by
  simp only [Prod.mk.injEq] at same
  obtain ⟨plan, tick, statuses, deferred, change⟩ := same
  refine ⟨⟨plan, tick, by rw [statuses]⟩, ?_, ?_, .inl change⟩
  · intro i s there
    exact ⟨s, statuses ▸ there, .refl s⟩
  · intro d member
    exact .inl (deferred ▸ member)

theorem refl (r : Run) : r.Steps r := calm rfl

theorem trans {a b c : Run} (ab : a.Steps b) (bc : b.Steps c) : a.Steps c where
  toFrames := ab.toFrames.trans bc.toFrames
  statuses := by
    intro i s there
    obtain ⟨s', mid, first⟩ := ab.statuses i s there
    obtain ⟨s'', after, second⟩ := bc.statuses i s' mid
    exact ⟨s'', after, first.trans second⟩
  deferred := by
    intro d member
    rcases bc.deferred d member with early | ⟨today, inside⟩
    · exact ab.deferred d early
    · exact .inr ⟨today.trans ab.tick, ab.plan ▸ inside⟩
  change := by
    rcases bc.change with same | today
    · rw [same]; exact ab.change
    · exact .inr (today.trans ab.tick)

theorem foldl {v : σ → Run} {f : σ → α → σ} (each : ∀ s a, (v s).Steps (v (f s a)))
    (l : List α) (s : σ) : (v s).Steps (v (l.foldl f s)) := by
  induction l generalizing s with
  | nil => exact refl _
  | cons a rest ih => exact (each s a).trans (ih _)

end Steps

section Operations
variable (r : Run) (i : Nat)

theorem modifyStatus_steps {f : Status → Status}
    (follows : ∀ s, r.statuses[i]? = some s → s.Follows (f s)) : r.Steps (r.modifyStatus i f) where
  plan := rfl
  tick := rfl
  size := List.length_modify ..
  statuses := by
    intro j s there
    by_cases same : i = j
    · subst same
      refine ⟨f s, ?_, follows s there⟩
      simp [modifyStatus, there]
    · refine ⟨s, ?_, .refl s⟩
      rw [modifyStatus, List.getElem?_modify_ne _ _ same, there]
  deferred := fun _ member => .inl member
  change := .inl rfl

theorem takeFresh_steps : r.Steps (r.takeFresh i).1 :=
  r.modifyStatus_steps i fun _ _ => ⟨fun _ => rfl, Nat.le_refl _⟩

theorem markPropagated_steps : r.Steps (r.markPropagated i) :=
  r.modifyStatus_steps i fun _ _ => ⟨fun _ => rfl, Nat.le_refl _⟩

theorem setPhase_steps (next : Phase) : r.Steps (r.setPhase i next).1 := by
  rcases r.setPhase_parts i next with ⟨log, same⟩ | ⟨s, there, left, same⟩
  · rw [same]
    exact .calm rfl
  · have moved : r.Steps (r.modifyStatus i (·.enter next)) := by
      apply r.modifyStatus_steps i
      intro s' found
      cases found.symm.trans there
      exact .enter left next
    rw [same]
    exact ⟨⟨rfl, rfl, moved.size⟩, moved.statuses, moved.deferred, .inr rfl⟩

theorem emit_steps (port : String) : r.Steps (r.emit i port).1 where
  plan := rfl
  tick := rfl
  size := rfl
  statuses := fun _ s there => ⟨s, there, .refl s⟩
  deferred := by
    intro d member
    rcases List.mem_append.mp member with early | late
    · exact .inl early
    · obtain ⟨⟨t, route⟩, waits, rfl⟩ := List.mem_map.mp late
      obtain ⟨t', _, found⟩ := List.mem_filterMap.mp (List.mem_filter.mp waits).1
      obtain ⟨route', there, same⟩ := Option.bind_eq_some_iff.mp found
      split at same
      · cases same
        exact .inr ⟨rfl, (List.getElem?_eq_some_iff.mp there).1⟩
      · cases same
  change := .inl rfl

theorem completeAndEmit_steps (port : String) : r.Steps (r.completeAndEmit i port).1 := by
  have done := r.setPhase_steps i .completed
  rcases r.completeAndEmit_parts i port with same | same
  · rw [same]
    exact done
  · rw [same]
    exact (done.trans (emit_steps _ i port)).trans (markPropagated_steps _ i)

theorem propertyOr_steps (read? : Value → Option α) (key : String) (fallback : α) :
    r.Steps (r.propertyOr read? i key fallback).1 := by
  obtain ⟨log, same⟩ := r.propertyOr_parts read? i key fallback
  rw [same]
  exact .calm rfl

theorem requireProperty_steps (read? : Value → Option α) (key : String) (fallback : α) :
    r.Steps (r.requireProperty read? i key fallback).1 := by
  obtain ⟨log, same⟩ := r.requireProperty_parts read? i key fallback
  rw [same]
  exact .calm rfl

theorem deliver_steps (p : Pulse) : r.Steps (r.deliver p).1 := by
  unfold deliver
  split
  · exact .refl r
  · next s there =>
    split
    · exact .refl r
    · next left =>
      have moved : r.Steps (r.modifyStatus p.target Status.activate) := by
        apply r.modifyStatus_steps
        intro s' found
        cases found.symm.trans there
        exact .activate (Bool.eq_false_iff.mpr left)
      refine ⟨⟨rfl, rfl, moved.size⟩, moved.statuses, moved.deferred, ?_⟩
      dsimp only
      split
      · exact .inl rfl
      · exact .inr rfl

theorem releaseDeferred_steps : r.Steps r.releaseDeferred :=
  ⟨⟨rfl, rfl, rfl⟩, fun _ s there => ⟨s, there, .refl s⟩,
    fun _ member => .inl (List.mem_filter.mp member).1, .inl rfl⟩

end Operations

end Run

-- The one operation that writes a whole status, whatever it was before.
def Operation.overwrites : Operation → Bool
  | .setStatus .. => true
  | _ => false

namespace Run

theorem perform_steps (r : Run) {op : Operation} (plain : op.overwrites = false) :
    r.Steps (r.perform op).1 := by
  cases op with
  | setStatus => cases plain
  | ask | board | enqueue | raise | setTag | clearTag | warn => exact .calm rfl
  | propertyOr i key kind fallback => exact r.propertyOr_steps i kind.read? key fallback
  | requireProperty i key kind fallback => exact r.requireProperty_steps i kind.read? key fallback
  | takeFresh i => exact r.takeFresh_steps i
  | setPhase i next => exact r.setPhase_steps i next
  | complete i => exact r.setPhase_steps i .completed
  | cancel i => exact r.setPhase_steps i .cancelled
  | markPropagated i => exact r.markPropagated_steps i
  | completeAndEmit i port => exact r.completeAndEmit_steps i port
  | emit i port => exact r.emit_steps i port
  | emitDefault i => exact r.emit_steps i "out"

theorem perform_frames (r : Run) (op : Operation) : r.Frames (r.perform op).1 := by
  cases plain : op.overwrites with
  | false => exact (r.perform_steps plain).toFrames
  | true =>
    cases op with
    | setStatus i s => exact ⟨rfl, rfl, List.length_modify ..⟩
    | _ => cases plain

theorem performAll_steps (r : Run) {ops : List Operation}
    (plain : ∀ op ∈ ops, op.overwrites = false) : r.Steps (r.performAll ops).1 := by
  induction ops generalizing r with
  | nil => exact .refl r
  | cons op rest ih =>
    have first := r.perform_steps (plain op List.mem_cons_self)
    exact first.trans (ih _ fun op member => plain op (List.mem_cons_of_mem _ member))

theorem endTick_phase (r : Run) (i : Nat) : r.endTick.phase i = r.phase i := by
  rw [phase, phase, endTick, List.getElem?_map, Option.map_map]
  rfl

theorem performAll_frames (r : Run) (ops : List Operation) : r.Frames (r.performAll ops).1 := by
  induction ops generalizing r with
  | nil => exact .refl r
  | cons op rest ih => exact (r.perform_frames op).trans (ih _)

end Run

namespace Delivery

theorem update_steps (t : Delivery) (r : Run) : r.Steps (t.update r).2 := by
  have emptied : r.Steps { r with pending := [], delivered := [] } := .calm rfl
  have delivers : r.Steps (deliverAll t r).2 := by
    refine emptied.trans (Run.Steps.foldl (v := Prod.snd) ?_ r.pending (t, _))
    intro s p
    rw [deliverOne_run]
    exact s.2.deliver_steps p
  refine (delivers.trans (Run.releaseDeferred_steps _)).trans ?_
  refine Run.Steps.foldl (v := Prod.snd) ?_ (List.range _) ((deliverAll t r).1, _)
  intro s i
  unfold propagateOne
  split
  · exact .refl _
  · split
    · exact (s.2.emit_steps i "out").trans (Run.markPropagated_steps _ i)
    · exact .refl _

end Delivery

namespace Flow

theorem passThrough_steps (r : Run) (kind : String) : r.Steps (passThrough r kind) := by
  refine Run.Steps.foldl (v := id) ?_ (r.plan.ofKind kind) r
  intro r i
  unfold passOne
  split
  · exact (r.takeFresh_steps i).trans (Run.completeAndEmit_steps _ i "out")
  · exact .refl r

theorem joinOne_steps (s : Tally × Run) (i : Nat) : s.2.Steps (joinOne s i).2 := by
  obtain ⟨arrivals, r⟩ := s
  obtain ⟨log, asked⟩ := required_parts (r.takeFresh i).1 i
  have taken : r.Steps ((r.takeFresh i).1.withLog log) := (r.takeFresh_steps i).trans (.calm rfl)
  simp only [joinOne, asked]
  split
  · split
    · exact taken.trans (Run.completeAndEmit_steps _ i "out")
    · exact taken.trans (Run.setPhase_steps _ i .listening)
  · exact .refl r

theorem update_steps (arrivals : Tally) (r : Run) : r.Steps (update arrivals r).2 := by
  have started := passThrough_steps r Action.startKind
  have fanned := started.trans (passThrough_steps _ Action.fanoutKind)
  have joined := fanned.trans (Run.Steps.foldl (v := Prod.snd) joinOne_steps
    ((passThrough (passThrough r Action.startKind) Action.fanoutKind).plan.ofKind Action.joinKind)
    (arrivals, _))
  exact joined.trans (passThrough_steps _ Action.endKind)

end Flow

theorem Delay.update_steps (completed : Nat) (r : Run) : r.Steps (Delay.update completed r).2 := by
  refine Run.Steps.foldl (v := Prod.snd) ?_ (r.running Delay.kind) (completed, r)
  rintro ⟨n, r⟩ i
  obtain ⟨log, asked⟩ := (r.takeFresh i).1.propertyOr_parts Value.u64? i "ticks" defaultTicks
  have taken : r.Steps ((r.takeFresh i).1.withLog log) := (r.takeFresh_steps i).trans (.calm rfl)
  simp only [updateOne, asked]
  split
  · exact taken.trans (Run.completeAndEmit_steps _ i "out")
  · exact taken

theorem Assign.updateOne_steps (s : Nat × Run) (i : Nat) : s.2.Steps (updateOne s i).2 := by
  obtain ⟨n, r⟩ := s
  obtain ⟨log, key⟩ := (r.takeFresh i).1.requireProperty_parts Value.text? i "key" ""
  obtain ⟨log', global⟩ :=
    ((r.takeFresh i).1.withLog log).propertyOr_parts Value.bool? i "global" false
  simp only [updateOne, key, global]
  refine Run.Steps.trans ?_ (Run.setPhase_steps _ i .completed)
  obtain ⟨log'', f, wrote⟩ := write_parts n (((r.takeFresh i).1.withLog log).withLog log') i
    ((r.takeFresh i).1.plan.reading Value.text? i "key" "")
    (((r.takeFresh i).1.withLog log).plan.reading Value.bool? i "global" false)
  rw [wrote]
  exact (r.takeFresh_steps i).trans (.calm rfl)

theorem Assign.update_steps (writes : Nat) (r : Run) : r.Steps (Assign.update writes r).2 :=
  Run.Steps.foldl (v := Prod.snd) updateOne_steps (r.running Assign.kind) (writes, r)

theorem Filter.update_steps (outcomes : Outcomes) (r : Run) :
    r.Steps (Filter.update outcomes r).2 := by
  refine Run.Steps.foldl (v := Prod.snd) ?_ (r.running Filter.kind) (outcomes, r)
  rintro ⟨outcomes, r⟩ i
  obtain ⟨log, judged⟩ := (judge_parts (r.takeFresh i).1 i).1
  simp only [updateOne, judged]
  refine Run.Steps.trans ?_ (Run.completeAndEmit_steps _ i _)
  exact (r.takeFresh_steps i).trans (.calm rfl)

namespace Trigger

theorem fire_steps (s : Tally × Run) (i : Nat) : s.2.Steps (fire s i).2 := by
  obtain ⟨t, r⟩ := s
  obtain ⟨log, again⟩ := r.propertyOr_parts Value.bool? i "repeat" false
  obtain ⟨log', limit⟩ := (r.withLog log).propertyOr_parts Value.u32? i "max_fires" 0
  have read : r.Steps ((r.withLog log).withLog log') := .calm rfl
  simp only [fire, again, limit]
  split
  · exact read.trans (Run.completeAndEmit_steps _ i "out")
  · exact (read.trans (Run.emit_steps _ i "out")).trans (Run.setPhase_steps _ i .listening)

theorem update_steps (fires : Tally) (r : Run) : r.Steps (update fires r).2 := by
  refine Run.Steps.foldl (v := Prod.snd) ?_ (r.plan.ofKind kind) (fires, r)
  rintro ⟨t, r⟩ i
  obtain ⟨log, asked⟩ := event_parts r i
  have taken : r.Steps (r.takenUp i log) := (r.takeFresh_steps i).trans (.calm rfl)
  simp only [updateOne, asked]
  split
  · split
    · exact taken.trans (fire_steps (t, _) i)
    · exact taken.trans (Run.setPhase_steps _ i .listening)
  · exact .refl r

end Trigger

theorem Spawn.updateOne_steps (host : Host) (s : Tally × Run × List Effect) (i : Nat) :
    s.2.1.Steps (updateOne host s i).2.1 := by
  obtain ⟨t, r, sent⟩ := s
  obtain ⟨log, asked⟩ := request_parts (r.takeFresh i).1 i
  simp only [updateOne, asked]
  refine Run.Steps.trans ?_ (Run.setPhase_steps _ i .completed)
  exact (r.takeFresh_steps i).trans (.calm rfl)

theorem Spawn.update_steps (host : Host) (spawned : Tally) (r : Run) :
    r.Steps (Spawn.update host spawned r).2.1 :=
  Run.Steps.foldl (v := fun s => s.2.1) (updateOne_steps host) (r.running kind) (spawned, r, [])

theorem Warning.update_steps (host : Host) (shown : Nat) (r : Run) :
    r.Steps (Warning.update host shown r).2.1 := by
  refine Run.Steps.foldl (v := fun s => s.2.1) (f := updateOne host) ?_ (r.running kind) (shown, r, [])
  rintro ⟨n, r, sent⟩ i
  obtain ⟨log, asked⟩ := request_parts (r.takeFresh i).1 i
  simp only [updateOne, asked]
  refine Run.Steps.trans ?_ (Run.setPhase_steps _ i .completed)
  exact (r.takeFresh_steps i).trans (.calm rfl)

theorem Log.update_steps (host : Host) (r : Run) : r.Steps (Log.update host r).1 := by
  refine Run.Steps.foldl (v := Prod.fst) ?_ (r.running Log.kind) (r, [])
  rintro ⟨r, sent⟩ i
  obtain ⟨log, asked⟩ := level_parts (r.takeFresh i).1 i
  obtain ⟨log', message⟩ :=
    ((r.takeFresh i).1.withLog log).requireProperty_parts Value.text? i "message" ""
  simp only [updateOne, asked, message]
  refine Run.Steps.trans ?_ (Run.setPhase_steps _ i .completed)
  exact (r.takeFresh_steps i).trans (.calm rfl)

def Stage.Plain : Stage → Prop
  | .script s => ∀ tick, ∀ op ∈ s.moves tick, op.overwrites = false
  | _ => True

namespace Stage
variable (host : Host) (r : Run)

theorem update_steps {s : Stage} (plain : s.Plain) : r.Steps (s.update host r).2.1 := by
  cases s with
  | delivery t => exact t.update_steps r
  | flow t => exact Flow.update_steps t r
  | delay n => exact Delay.update_steps n r
  | assign n => exact Assign.update_steps n r
  | filter t => exact Filter.update_steps t r
  | trigger t => exact Trigger.update_steps t r
  | spawn t => exact Spawn.update_steps host t r
  | warning n => exact Warning.update_steps host n r
  | log => exact Log.update_steps host r
  | script s => exact r.performAll_steps (plain r.tick)

theorem update_frames (s : Stage) : r.Frames (s.update host r).2.1 := by
  cases s with
  | script s => exact r.performAll_frames (s.moves r.tick)
  | _ =>
    refine (update_steps host r ?_).toFrames
    trivial

theorem update_plain {s : Stage} (plain : s.Plain) : (s.update host r).1.Plain := by
  cases s with
  | script => exact plain
  | _ => trivial

theorem onLoad_plain {s : Stage} (plain : s.Plain) : s.onLoad.Plain := by
  cases s with
  | script => exact plain
  | _ => trivial

def isScript : Stage → Bool
  | script _ => true
  | _ => false

@[simp] theorem update_isScript (s : Stage) : (s.update host r).1.isScript = s.isScript := by
  cases s <;> rfl

@[simp] theorem onLoad_isScript (s : Stage) : s.onLoad.isScript = s.isScript := by
  cases s <;> rfl

end Stage

namespace Engine
variable (host : Host) (r : Run)

theorem pass_steps {stages : List Stage} (plain : ∀ s ∈ stages, s.Plain) :
    r.Steps (pass host stages r).2.1 := by
  induction stages generalizing r with
  | nil => exact .refl r
  | cons s rest ih =>
    have first := Stage.update_steps host r (plain s List.mem_cons_self)
    exact first.trans (ih _ fun s member => plain s (List.mem_cons_of_mem _ member))

theorem pass_frames (stages : List Stage) : r.Frames (pass host stages r).2.1 := by
  induction stages generalizing r with
  | nil => exact .refl r
  | cons s rest ih => exact (Stage.update_frames host r s).trans (ih _)

theorem pass_plain {stages : List Stage} (plain : ∀ s ∈ stages, s.Plain) :
    ∀ s ∈ (pass host stages r).1, s.Plain := by
  induction stages generalizing r with
  | nil => exact plain
  | cons s rest ih =>
    intro s' member
    rcases List.mem_cons.mp member with rfl | later
    · exact Stage.update_plain host r (plain s List.mem_cons_self)
    · exact ih _ (fun s member => plain s (List.mem_cons_of_mem _ member)) s' later

theorem pass_append (first rest : List Stage) : (pass host (first ++ rest) r).2.1 =
    (pass host rest (pass host first r).2.1).2.1 := by
  induction first generalizing r with
  | nil => rfl
  | cons s first ih => exact ih _

end Engine
theorem Run.heed_steps (r : Run) (s : Signal) : r.Steps (r.heed s) := by
  cases s with
  | cancel id =>
    simp only [heed]
    split
    · exact .refl r
    · split
      · exact .refl r
      · exact r.setPhase_steps _ .cancelled
  | tick | raise | setTag | clearTag | board | host | enableHistory | disableHistory =>
    exact .calm rfl

theorem Engine.obey_parts {e e' : Engine} {s : Signal} (quiet : s ≠ .tick)
    (done : e.obey s = .ok e') : e'.stages = e.stages ∧ e'.run = e.run.map (·.heed s) := by
  have same : ∀ r : Option Run, r = r.map id := fun r => by rw [Option.map_id, id]
  cases s with
  | tick => exact (quiet rfl).elim
  | host | enableHistory | disableHistory => cases done; exact ⟨rfl, same _⟩
  | raise | setTag | clearTag | board =>
    obtain ⟨r, loaded, rfl⟩ := onRun_parts done
    rw [loaded]
    exact ⟨rfl, rfl⟩
  | cancel id =>
    obtain ⟨r, loaded, rfl⟩ := onRun_parts done
    rw [loaded]
    refine ⟨rfl, ?_⟩
    simp only [Option.map_some, Run.heed]
    cases r.plan.indexOf? id with
    | none => rfl
    | some i => dsimp only; split <;> rfl

theorem Engine.register_run {e e' : Engine} {given : List Stage} (done : e.register given = .ok e') :
    e'.history = e.history ∧
    (∀ r', e'.run = some r' → ∃ r log, e.run = some r ∧ r' = r.withLog log) ∧
    (∀ r, e.run = some r → ∃ log, e'.run = some (r.withLog log)) ∧
    ∀ s ∈ e'.stages, ∃ s' ∈ given, s = s' ∨ s = s'.onLoad := by
  obtain ⟨_, _, ⟨empty, rfl⟩ | ⟨r, log, loaded, rfl⟩⟩ := register_cases done
  · refine ⟨rfl, ?_, ?_, fun s member => ⟨s, List.mem_mergeSort.mp member, .inl rfl⟩⟩
    · intro r' there
      cases empty.symm.trans there
    · intro r there
      cases empty.symm.trans there
  · refine ⟨rfl, ?_, ?_, ?_⟩
    · intro r' there
      cases there
      exact ⟨r, log, loaded, rfl⟩
    · intro r' there
      cases loaded.symm.trans there
      exact ⟨log, rfl⟩
    · intro s member
      obtain ⟨s', inside, rfl⟩ := List.mem_map.mp member
      exact ⟨s', List.mem_mergeSort.mp inside, .inr rfl⟩

theorem Engine.serve_register {e : Engine} {stages : List Stage} (isOpen : e.closed = false)
    (free : e.locked = false) (empty : e.run = none)
    (sorted : stages.Pairwise fun a b => decide (a.order ≤ b.order) = true) :
    e.serve (.register stages) = { e with stages := stages, locked := true } := by
  simp [serve, orKeep, register, isOpen, free, empty, List.mergeSort_of_pairwise sorted]

end ActionGraph
