import ActionGraph.Proofs.Twins
-- Twins through a tick. Every stage but a script goes the same way with both, with the same table
-- and the same for the host, and so does a pass through such stages.
namespace ActionGraph
open Run (Twin Twins Abreast)

variable {limits : Option (Nat × Nat)} {a b : Run} (twin : Twin limits a b)

def trailed (sent : List Effect) (r : Run) : Run × List Effect := (r, sent)
def flanked (t : τ × List Effect) (r : Run) : τ × Run × List Effect := (t.1, r, t.2)

namespace Delivery
include twin

theorem deliverOne_twin (t : Delivery) (p : Pulse) :
    Abreast limits Prod.mk (deliverOne (t, a) p) (deliverOne (t, b) p) := by
  obtain ⟨a₁, b₁, taken, here, there, twin⟩ := twin.deliver p
  simp only [deliverOne, here, there]
  cases taken with
  | false => exact ⟨_, _, _, rfl, rfl, twin⟩
  | true => exact ⟨_, _, _, rfl, rfl, twin⟩

theorem propagateOne_twin (t : Delivery) (i : Nat) :
    Abreast limits Prod.mk (propagateOne (t, a) i) (propagateOne (t, b) i) := by
  simp only [propagateOne, twin.mirrors.statuses]
  split
  · exact ⟨_, _, _, rfl, rfl, twin⟩
  · split
    · exact ⟨_, _, _, rfl, rfl, (twin.emit i "out").run.markPropagated i⟩
    · exact ⟨_, _, _, rfl, rfl, twin⟩

theorem update_twin (t : Delivery) : Abreast limits Prod.mk (t.update a) (t.update b) := by
  have emptied : Twin limits { a with pending := [], delivered := [] }
      { b with pending := [], delivered := [] } :=
    twin.move (f := fun r => { r with pending := [], delivered := [] }) (fun _ _ _ => rfl) rfl rfl
  have delivers : Abreast limits Prod.mk (deliverAll t a) (deliverAll t b) := by
    rw [deliverAll, deliverAll, twin.mirrors.pending]
    exact Abreast.foldl (fun t _ _ p twin => deliverOne_twin twin t p) _ ⟨t, _, _, rfl, rfl, emptied⟩
  obtain ⟨t, a₁, b₁, here, there, twin⟩ := delivers
  simp only [update, here, there, propagateAll, twin.releaseDeferred.mirrors.statuses]
  exact Abreast.foldl (fun t _ _ i twin => propagateOne_twin twin t i) _
    ⟨t, _, _, rfl, rfl, twin.releaseDeferred⟩

end Delivery

namespace Flow
include twin

theorem passOne_twin (i : Nat) : Twin limits (passOne a i) (passOne b i) := by
  rw [passOne, passOne, twin.phase]
  split
  · exact ((twin.takeFresh i).run.completeAndEmit i "out").run
  · exact twin

theorem passThrough_twin (kind : String) : Twin limits (passThrough a kind) (passThrough b kind) := by
  rw [passThrough, passThrough, twin.ofKind]
  exact List.foldl_rel twin fun i _ _ _ twin => passOne_twin twin i

theorem required_twin (i : Nat) : Twins limits (required a i) (required b i) := by
  obtain ⟨a₁, b₁, count, here, there, twin'⟩ := twin.propertyOr Value.u32? i "count"
    (fun _ useless => useless.count (by decide)) (a.plan.entering i).length
  simp only [required, twin.entering, here, there]
  cases count with
  | zero => exact ⟨_, _, _, rfl, rfl, twin'.warn i _⟩
  | succ count => exact ⟨_, _, _, rfl, rfl, twin'⟩

theorem joinOne_twin (arrivals : Tally) (i : Nat) :
    Abreast limits Prod.mk (joinOne (arrivals, a) i) (joinOne (arrivals, b) i) := by
  have delivered : b.deliveredTo i = a.deliveredTo i := by
    rw [Run.deliveredTo, twin.mirrors.delivered, Run.deliveredTo]
  obtain ⟨a₁, b₁, needed, here, there, asked⟩ := required_twin (twin.takeFresh i).run i
  simp only [joinOne, twin.phase, delivered, here, there]
  split
  · split
    · exact ⟨_, _, _, rfl, rfl, (asked.completeAndEmit i "out").run⟩
    · exact ⟨_, _, _, rfl, rfl, (asked.setPhase i .listening).run⟩
  · exact ⟨_, _, _, rfl, rfl, twin⟩

theorem update_twin (arrivals : Tally) :
    Abreast limits Prod.mk (update arrivals a) (update arrivals b) := by
  have fanned := passThrough_twin (passThrough_twin twin Action.startKind) Action.fanoutKind
  have joins : Abreast limits Prod.mk
      (joinAll arrivals (passThrough (passThrough a Action.startKind) Action.fanoutKind))
      (joinAll arrivals (passThrough (passThrough b Action.startKind) Action.fanoutKind)) := by
    rw [joinAll, joinAll, fanned.ofKind]
    exact Abreast.foldl (fun t _ _ i twin => joinOne_twin twin t i) _ ⟨_, _, _, rfl, rfl, fanned⟩
  obtain ⟨arrivals, a₁, b₁, here, there, twin⟩ := joins
  simp only [update, here, there]
  exact ⟨_, _, _, rfl, rfl, passThrough_twin twin Action.endKind⟩

end Flow

namespace Delay
include twin

theorem updateOne_twin (completed i : Nat) :
    Abreast limits Prod.mk (updateOne (completed, a) i) (updateOne (completed, b) i) := by
  obtain ⟨a₁, b₁, ticks, here, there, twin⟩ := (twin.takeFresh i).run.propertyOr Value.u64? i "ticks"
    (fun _ useless => useless.ticks (by decide)) defaultTicks
  simp only [updateOne, here, there, waited, twin.mirrors.statuses]
  split
  · exact ⟨_, _, _, rfl, rfl, (twin.completeAndEmit i "out").run⟩
  · exact ⟨_, _, _, rfl, rfl, twin⟩

theorem update_twin (completed : Nat) :
    Abreast limits Prod.mk (update completed a) (update completed b) := by
  rw [update, update, twin.running]
  exact Abreast.foldl (fun t _ _ i twin => updateOne_twin twin t i) _ ⟨_, _, _, rfl, rfl, twin⟩

end Delay

namespace Assign
include twin

theorem write_twin (writes i : Nat) (key : String) (global : Bool) :
    Abreast limits Prod.mk (write (writes, a) i key global) (write (writes, b) i key global) := by
  simp only [write, twin.property?_eq i "value" (by decide), twin.actionId]
  split
  · exact ⟨_, _, _, rfl, rfl, twin⟩
  · split
    · exact ⟨_, _, _, rfl, rfl, twin.warn i _⟩
    · exact ⟨_, _, _, rfl, rfl, twin.onBoard _⟩

theorem updateOne_twin (writes i : Nat) :
    Abreast limits Prod.mk (updateOne (writes, a) i) (updateOne (writes, b) i) := by
  obtain ⟨a₁, b₁, key, here, there, twin⟩ := (twin.takeFresh i).run.requireProperty Value.text? i "key"
    (fun _ useless => useless.text (by decide)) ""
  obtain ⟨a₂, b₂, global, here', there', twin⟩ := twin.propertyOr Value.bool? i "global"
    (fun _ useless => useless.flag (by decide)) false
  obtain ⟨writes', a₃, b₃, wrote, wrote', twin⟩ := write_twin twin writes i key global
  simp only [updateOne, here, there, here', there', wrote, wrote']
  exact ⟨_, _, _, rfl, rfl, (twin.setPhase i .completed).run⟩

theorem update_twin (writes : Nat) : Abreast limits Prod.mk (update writes a) (update writes b) := by
  rw [update, update, twin.running]
  exact Abreast.foldl (fun t _ _ i twin => updateOne_twin twin t i) _ ⟨_, _, _, rfl, rfl, twin⟩

end Assign

namespace Filter

theorem operator_parsed (r : Run) (i : Nat) : operator r i =
    r.parsed Comparison.read? i "op" "==" .equal fun text =>
      "unknown operator '" ++ text ++ "'; using ==" := by
  simp only [operator, Run.parsed]
  cases Comparison.read? _ <;> rfl

include twin

theorem operator_twin (i : Nat) : Twins limits (operator a i) (operator b i) := by
  rw [operator_parsed, operator_parsed]
  refine twin.parsed i "op" (fun v useless => ?_) (by decide) _
  simpa [Want.takes] using useless.refused .comparison (by decide)

theorem judge_twin (i : Nat) : Twins limits (judge a i) (judge b i) := by
  obtain ⟨a₁, b₁, key, here, there, twin⟩ := twin.requireProperty Value.text? i "key"
    (fun _ useless => useless.text (by decide)) ""
  obtain ⟨a₂, b₂, op, here', there', twin⟩ := operator_twin twin i
  have found : lookup? b₂ i key = lookup? a₂ i key := by
    simp only [lookup?, twin.mirrors.board, twin.actionId]
  simp only [judge, here, there, here', there', found, twin.property?_eq i "target" (by decide)]
  split
  · exact ⟨_, _, _, rfl, rfl, twin.warn i _⟩
  · split
    · exact ⟨_, _, _, rfl, rfl, twin.warn i _⟩
    · exact ⟨_, _, _, rfl, rfl, twin⟩

theorem updateOne_twin (outcomes : Outcomes) (i : Nat) :
    Abreast limits Prod.mk (updateOne (outcomes, a) i) (updateOne (outcomes, b) i) := by
  obtain ⟨a₁, b₁, outcome, here, there, twin⟩ := judge_twin (twin.takeFresh i).run i
  simp only [updateOne, here, there]
  exact ⟨_, _, _, rfl, rfl, (twin.completeAndEmit i outcome.port).run⟩

theorem update_twin (outcomes : Outcomes) :
    Abreast limits Prod.mk (update outcomes a) (update outcomes b) := by
  rw [update, update, twin.running]
  exact Abreast.foldl (fun t _ _ i twin => updateOne_twin twin t i) _ ⟨_, _, _, rfl, rfl, twin⟩

end Filter

namespace Trigger
include twin

theorem fire_twin (fires : Tally) (i : Nat) :
    Abreast limits Prod.mk (fire (fires, a) i) (fire (fires, b) i) := by
  obtain ⟨a₁, b₁, again, here, there, twin⟩ := twin.propertyOr Value.bool? i "repeat"
    (fun _ useless => useless.flag (by decide)) false
  obtain ⟨a₂, b₂, limit, here', there', twin⟩ := twin.propertyOr Value.u32? i "max_fires"
    (fun _ useless => useless.count (by decide)) 0
  simp only [fire, here, there, here', there']
  split
  · exact ⟨_, _, _, rfl, rfl, (twin.completeAndEmit i "out").run⟩
  · exact ⟨_, _, _, rfl, rfl, ((twin.emit i "out").run.setPhase i .listening).run⟩

theorem event_twin (i : Nat) : Twins limits (event a i) (event b i) := by
  obtain ⟨a₁, b₁, fresh, here, there, twin⟩ := twin.takeFresh i
  have refused : ∀ v : Value, v.Useless "event" → v.text? = none :=
    fun _ useless => useless.text (by decide)
  simp only [event, here, there]
  cases fresh with
  | true => exact twin.requireProperty Value.text? i "event" refused ""
  | false => exact twin.propertyOr Value.text? i "event" refused ""

theorem updateOne_twin (fires : Tally) (i : Nat) :
    Abreast limits Prod.mk (updateOne (fires, a) i) (updateOne (fires, b) i) := by
  simp only [updateOne, twin.phase]
  split
  · obtain ⟨a₁, b₁, name, here, there, twin⟩ := event_twin twin i
    simp only [here, there, twin.mirrors.raised]
    split
    · exact fire_twin twin fires i
    · exact ⟨_, _, _, rfl, rfl, (twin.setPhase i .listening).run⟩
  · exact ⟨_, _, _, rfl, rfl, twin⟩

theorem update_twin (fires : Tally) : Abreast limits Prod.mk (update fires a) (update fires b) := by
  rw [update, update, twin.ofKind]
  exact Abreast.foldl (fun t _ _ i twin => updateOne_twin twin t i) _ ⟨_, _, _, rfl, rfl, twin⟩

end Trigger

namespace Spawn
include twin

theorem request_twin (i : Nat) : Twins limits (request a i) (request b i) := by
  obtain ⟨a₁, b₁, prefab, here, there, twin⟩ := twin.requireProperty Value.text? i "prefab"
    (fun _ useless => useless.text (by decide)) ""
  obtain ⟨a₂, b₂, count, here', there', twin'⟩ := twin.propertyOr Value.u32? i "count"
    (fun _ useless => useless.count (by decide)) 1
  simp only [request, here, there, here', there', twin'.binding?,
    twin'.property?_eq i "anchor" (by decide)]
  split
  · exact ⟨_, _, _, rfl, rfl, twin⟩
  · split
    · exact ⟨_, _, _, rfl, by simp only [(twin'.warn i _).actionId, (twin'.warn i _).mirrors.tick],
        twin'.warn i _⟩
    · exact ⟨_, _, _, rfl, by simp only [twin'.actionId, twin'.mirrors.tick], twin'⟩

theorem updateOne_twin (host : Host) (t : Tally × List Effect) (i : Nat) :
    Abreast limits flanked (updateOne host (flanked t a) i) (updateOne host (flanked t b) i) := by
  obtain ⟨a₁, b₁, asked, here, there, twin⟩ := request_twin (twin.takeFresh i).run i
  simp only [flanked, updateOne, here, there, twin.actionId]
  exact ⟨(_, _), _, _, rfl, rfl, ((twin.onBoard _).setPhase i .completed).run⟩

theorem update_twin (host : Host) (spawned : Tally) :
    Abreast limits flanked (update host spawned a) (update host spawned b) := by
  rw [update, update, twin.running]
  exact Abreast.foldl (fun t _ _ i twin => updateOne_twin twin host t i) _
    ⟨(_, _), _, _, rfl, rfl, twin⟩

end Spawn

namespace Warning
include twin

theorem request_twin (i : Nat) : Twins limits (request a i) (request b i) := by
  obtain ⟨a₁, b₁, message, here, there, twin⟩ := twin.requireProperty Value.text? i "message"
    (fun _ useless => useless.text (by decide)) ""
  obtain ⟨a₂, b₂, duration, here', there', twin⟩ := twin.propertyOr Value.u64? i "duration_ticks"
    (fun _ useless => useless.ticks (by decide)) defaultTicks
  simp only [request, here, there, here', there', twin.actionId, twin.mirrors.tick]
  exact ⟨_, _, _, rfl, rfl, twin⟩

theorem updateOne_twin (host : Host) (t : Nat × List Effect) (i : Nat) :
    Abreast limits flanked (updateOne host (flanked t a) i) (updateOne host (flanked t b) i) := by
  obtain ⟨a₁, b₁, asked, here, there, twin⟩ := request_twin (twin.takeFresh i).run i
  simp only [flanked, updateOne, here, there]
  exact ⟨(_, _), _, _, rfl, rfl, (twin.setPhase i .completed).run⟩

theorem update_twin (host : Host) (shown : Nat) :
    Abreast limits flanked (update host shown a) (update host shown b) := by
  rw [update, update, twin.running]
  exact Abreast.foldl (fun t _ _ i twin => updateOne_twin twin host t i) _
    ⟨(_, _), _, _, rfl, rfl, twin⟩

end Warning

namespace Log

theorem level_parsed (r : Run) (i : Nat) : level r i =
    r.parsed Level.read? i "level" "info" .info fun text =>
      "unknown log level '" ++ text ++ "'; using info" := by
  simp only [level, Run.parsed]
  cases Level.read? _ <;> rfl

include twin

theorem level_twin (i : Nat) : Twins limits (level a i) (level b i) := by
  rw [level_parsed, level_parsed]
  refine twin.parsed i "level" (fun v useless => ?_) (by decide) _
  simpa [Want.takes] using useless.refused .level (by decide)

theorem updateOne_twin (host : Host) (sent : List Effect) (i : Nat) :
    Abreast limits trailed (updateOne host (trailed sent a) i) (updateOne host (trailed sent b) i) := by
  obtain ⟨a₁, b₁, level, here, there, twin⟩ := level_twin (twin.takeFresh i).run i
  obtain ⟨a₂, b₂, template, here', there', twin⟩ := twin.requireProperty Value.text? i "message"
    (fun _ useless => useless.text (by decide)) ""
  simp only [trailed, updateOne, here, there, here', there', twin.actionId, twin.mirrors.board]
  exact ⟨_, _, _, rfl, rfl, (twin.setPhase i .completed).run⟩

theorem update_twin (host : Host) : Abreast limits trailed (update host a) (update host b) := by
  rw [update, update, twin.running]
  exact Abreast.foldl (fun sent _ _ i twin => updateOne_twin twin host sent i) _
    ⟨_, _, _, rfl, rfl, twin⟩

end Log

namespace Stage

theorem loadEffects_unscripted {s : Stage} (unscripted : s.isScript = false) (r : Run) :
    s.loadEffects r = [] := by
  cases s with
  | script => cases unscripted
  | _ => rfl

theorem silent_twin {x y : τ × Run} (loops : Abreast limits Prod.mk x y) (seat : τ → Stage) :
    Abreast limits flanked (seat x.1, x.2, ([] : List Effect)) (seat y.1, y.2, []) := by
  obtain ⟨t, a, b, rfl, rfl, twin⟩ := loops
  exact ⟨(seat t, []), a, b, rfl, rfl, twin⟩

theorem sending_twin {x y : τ × Run × List Effect} (loops : Abreast limits flanked x y)
    (seat : τ → Stage) : Abreast limits flanked (seat x.1, x.2) (seat y.1, y.2) := by
  obtain ⟨t, a, b, rfl, rfl, twin⟩ := loops
  exact ⟨(seat t.1, t.2), a, b, rfl, rfl, twin⟩

include twin

theorem update_twin (host : Host) {s : Stage} (unscripted : s.isScript = false) :
    Abreast limits flanked (s.update host a) (s.update host b) := by
  cases s with
  | delivery t => exact silent_twin (Delivery.update_twin twin t) delivery
  | flow t => exact silent_twin (Flow.update_twin twin t) flow
  | delay t => exact silent_twin (Delay.update_twin twin t) delay
  | assign t => exact silent_twin (Assign.update_twin twin t) assign
  | filter t => exact silent_twin (Filter.update_twin twin t) filter
  | trigger t => exact silent_twin (Trigger.update_twin twin t) trigger
  | spawn t => exact sending_twin (Spawn.update_twin twin host t) spawn
  | warning t => exact sending_twin (Warning.update_twin twin host t) warning
  | log =>
    obtain ⟨sent, a₁, b₁, here, there, twin⟩ := Log.update_twin twin host
    simp only [update, here, there, trailed]
    exact ⟨(_, _), _, _, rfl, rfl, twin⟩
  | script => cases unscripted

end Stage

namespace Engine

theorem pass_isScript (host : Host) {stages : List Stage}
    (unscripted : ∀ s ∈ stages, s.isScript = false) (r : Run) :
    ∀ s ∈ (pass host stages r).1, s.isScript = false := by
  induction stages generalizing r with
  | nil => exact unscripted
  | cons s rest ih =>
    intro s' member
    rcases List.mem_cons.mp member with rfl | later
    · exact (Stage.update_isScript host r s).trans (unscripted s List.mem_cons_self)
    · exact ih (fun s member => unscripted s (List.mem_cons_of_mem _ member)) _ s' later

theorem pass_twin (twin : Twin limits a b) (host : Host) {stages : List Stage}
    (unscripted : ∀ s ∈ stages, s.isScript = false) :
    Abreast limits flanked (pass host stages a) (pass host stages b) := by
  induction stages generalizing a b with
  | nil => exact ⟨(_, _), _, _, rfl, rfl, twin⟩
  | cons s rest ih =>
    obtain ⟨t, a₁, b₁, here, there, twin⟩ :=
      Stage.update_twin twin host (unscripted s List.mem_cons_self)
    obtain ⟨t', a₂, b₂, here', there', twin⟩ :=
      ih twin fun s member => unscripted s (List.mem_cons_of_mem _ member)
    simp only [pass, here, there, flanked, here', there']
    exact ⟨(_, _), _, _, rfl, rfl, twin⟩

end Engine
end ActionGraph
