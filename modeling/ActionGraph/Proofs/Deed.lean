import ActionGraph.Proofs.Plan
-- Deeds: what a stage can do on behalf of one action in one tick. A deed says what becomes of the
-- action's status and on which port it sends; the diagnostics that go with it are left open.
namespace ActionGraph

inductive Deed where
  | rest
  | listen
  | finish
  | finishOn (port : String)
  | pulse
  | propagate
  deriving DecidableEq

@[simp] theorem Status.enter_phase (s : Status) (next : Phase) : (s.enter next).phase = next := by
  unfold enter
  split
  · assumption
  · rfl

namespace Status

@[simp] theorem enter_propagated (s : Status) (next : Phase) :
    (s.enter next).propagated = s.propagated := by
  unfold enter
  split <;> rfl

@[simp] theorem endTick_phase (s : Status) : s.endTick.phase = s.phase := rfl
@[simp] theorem endTick_propagated (s : Status) : s.endTick.propagated = s.propagated := rfl

end Status

namespace Deed

def port? : Deed → Option String
  | finishOn port => some port
  | pulse | propagate => some "out"
  | _ => none

def settle (d : Deed) (s : Status) : Status :=
  match d with
  | rest => { s with fresh := false }
  | listen | pulse => ({ s with fresh := false } : Status).enter .listening
  | finish => ({ s with fresh := false } : Status).enter .completed
  | finishOn _ => { ({ s with fresh := false } : Status).enter .completed with propagated := true }
  | propagate => { s with propagated := true }

def Fits (d : Deed) (s : Status) : Prop :=
  match d with
  | propagate => s.phase = .completed ∧ s.propagated = false
  | _ => s.phase.isActive = true

theorem settle_running {d : Deed} {s : Status} (runs : (d.settle s).phase = .running) :
    s.phase = .running := by
  cases d with
  | rest | propagate => exact runs
  | listen | pulse | finish | finishOn => simp [settle] at runs

end Deed

namespace Run

def emitting (r : Run) (i : Nat) (d : Deed) : Run :=
  match d.port? with
  | none => r
  | some port => (r.emit i port).1

-- A deed done. Nothing is said of the log, nor of what a finish leaves on the blackboard.
structure Does (r : Run) (i : Nat) (d : Deed) (r' : Run) : Prop where
  plan : r'.plan = r.plan
  statuses : r'.statuses = r.statuses.modify i d.settle
  pending : r'.pending = (r.emitting i d).pending
  deferred : r'.deferred = (r.emitting i d).deferred
  delivered : r'.delivered = r.delivered
  raised : r'.raised = r.raised
  tags : r'.tags = r.tags
  tick : r'.tick = r.tick
  board : d ≠ .finish → r'.board = r.board
  lastChange : r'.lastChange = if r'.phase i = r.phase i then r.lastChange else r.tick

theorem phase_of {r : Run} (there : r.statuses[i]? = some s) : r.phase i = s.phase := by
  simp [phase, there]

theorem status_of_phase {r : Run} (left : r.phase i ≠ .idle) :
    ∃ s, r.statuses[i]? = some s ∧ s.phase = r.phase i := by
  cases there : r.statuses[i]? with
  | none => simp [phase, there] at left
  | some s => exact ⟨s, rfl, (phase_of there).symm⟩

theorem modify_congr {f g : α → α} {l : List α} (there : l[i]? = some a) (same : f a = g a) :
    l.modify i f = l.modify i g := by
  refine List.ext_getElem? fun j => ?_
  by_cases here : i = j
  · subst here; simp [there, same]
  · simp [List.getElem?_modify_ne, here]

theorem isTerminal_of_isActive {p : Phase} (active : p.isActive = true) : p.isTerminal = false := by
  cases p <;> simp_all [Phase.isActive, Phase.isTerminal]

theorem ne_completed_of_isActive {p : Phase} (active : p.isActive = true) : p ≠ .completed := by
  rintro rfl; cases active

theorem setPhase_same {r : Run} (there : r.statuses[i]? = some s) (same : s.phase = next) :
    r.setPhase i next = (r, false) := by
  simp [setPhase, there, same]

theorem setPhase_other {r : Run} (there : r.statuses[i]? = some s)
    (left : s.phase.isTerminal = false) (differ : s.phase ≠ next) :
    r.setPhase i next = ({ r.modifyStatus i (·.enter next) with lastChange := r.tick }, true) := by
  simp [setPhase, there, left, differ]

def withLog (r : Run) (log : Diagnostics) : Run := { r with log := log }

theorem setPhase_parts (r : Run) (i : Nat) (next : Phase) :
    (∃ log, r.setPhase i next = (r.withLog log, false)) ∨
      ∃ s, r.statuses[i]? = some s ∧ s.phase.isTerminal = false ∧
        r.setPhase i next = ({ r.modifyStatus i (·.enter next) with lastChange := r.tick }, true) := by
  cases there : r.statuses[i]? with
  | none => exact .inl ⟨r.log, by rw [setPhase, there]; rfl⟩
  | some s =>
    by_cases same : s.phase = next
    · exact .inl ⟨r.log, setPhase_same there same⟩
    · cases left : s.phase.isTerminal with
      | true => exact .inl ⟨_, by simp only [setPhase, there, same, left]; rfl⟩
      | false => exact .inr ⟨s, rfl, left, setPhase_other there left same⟩

theorem completeAndEmit_parts (r : Run) (i : Nat) (port : String) :
    (r.completeAndEmit i port).1 = (r.setPhase i .completed).1 ∨
      (r.completeAndEmit i port).1 =
        ((r.setPhase i .completed).1.emit i port).1.markPropagated i := by
  simp only [completeAndEmit, complete]
  split
  · next same => exact .inl (by rw [same])
  · next same => exact .inr (by rw [same])

def takenUp (r : Run) (i : Nat) (log : Diagnostics) : Run := (r.takeFresh i).1.withLog log

theorem takenUp_status {r : Run} (there : r.statuses[i]? = some s) (log : Diagnostics) :
    (r.takenUp i log).statuses[i]? = some { s with fresh := false } := by
  simp [takenUp, takeFresh, modifyStatus, withLog, there]

theorem phase_settled {r r' : Run} {d : Deed} (there : r.statuses[i]? = some s)
    (settled : r'.statuses = r.statuses.modify i d.settle) : r'.phase i = (d.settle s).phase := by
  simp [phase, settled, there]

theorem Does.of_parts {r r' : Run} {d : Deed} (there : r.statuses[i]? = some s)
    (settled : r'.statuses = r.statuses.modify i d.settle)
    (queues : r'.pending = (r.emitting i d).pending ∧ r'.deferred = (r.emitting i d).deferred)
    (same : (r'.plan, r'.delivered, r'.raised, r'.tags, r'.tick) =
      (r.plan, r.delivered, r.raised, r.tags, r.tick))
    (board : d ≠ .finish → r'.board = r.board)
    (change : r'.lastChange = if (d.settle s).phase = s.phase then r.lastChange else r.tick) :
    r.Does i d r' := by
  simp only [Prod.mk.injEq] at same
  obtain ⟨plan, delivered, raised, tags, tick⟩ := same
  exact ⟨plan, settled, queues.1, queues.2, delivered, raised, tags, tick, board, by
    rw [change, phase_settled there settled, phase_of there]⟩

section Done
variable {r : Run} {i : Nat} {s : Status} (there : r.statuses[i]? = some s)
include there

theorem does_rest (log : Diagnostics) : r.Does i .rest (r.takenUp i log) :=
  .of_parts there rfl ⟨rfl, rfl⟩ rfl (fun _ => rfl) (if_pos rfl).symm

theorem does_propagate : r.Does i .propagate ((r.emitDefault i).1.markPropagated i) :=
  .of_parts there rfl ⟨rfl, rfl⟩ rfl (fun _ => rfl) (if_pos rfl).symm

variable (active : s.phase.isActive = true)
include active

theorem does_finish (log : Diagnostics) (f : Blackboard → Blackboard) :
    r.Does i .finish (((r.takenUp i log).onBoard f).complete i).1 := by
  have here : ((r.takenUp i log).onBoard f).statuses[i]? = some { s with fresh := false } :=
    takenUp_status there log
  have differ := ne_completed_of_isActive active
  rw [complete, setPhase_other here (isTerminal_of_isActive active) differ]
  refine .of_parts there (List.modify_modify_eq ..) ⟨rfl, rfl⟩ rfl (fun other => (other rfl).elim)
    (if_neg ?_).symm
  simpa [Deed.settle] using Ne.symm differ

theorem does_finishOn (log : Diagnostics) (port : String) :
    r.Does i (.finishOn port) ((r.takenUp i log).completeAndEmit i port).1 := by
  have differ := ne_completed_of_isActive active
  rw [completeAndEmit, complete,
    setPhase_other (takenUp_status there log) (isTerminal_of_isActive active) differ]
  refine .of_parts there ?_ ⟨rfl, rfl⟩ rfl (fun _ => rfl) (if_neg ?_).symm
  · exact (congrArg _ (List.modify_modify_eq ..)).trans (List.modify_modify_eq ..)
  · simpa [Deed.settle] using Ne.symm differ

theorem does_listen (log : Diagnostics) :
    r.Does i .listen ((r.takenUp i log).setPhase i .listening).1 := by
  have here := takenUp_status there log
  by_cases same : s.phase = .listening
  · rw [setPhase_same here same]
    refine .of_parts there (modify_congr there ?_) ⟨rfl, rfl⟩ rfl (fun _ => rfl) (if_pos ?_).symm
    · simp [Deed.settle, Status.enter, same]
    · simp [Deed.settle, same]
  · rw [setPhase_other here (isTerminal_of_isActive active) same]
    refine .of_parts there (List.modify_modify_eq ..) ⟨rfl, rfl⟩ rfl (fun _ => rfl) (if_neg ?_).symm
    simpa [Deed.settle] using Ne.symm same

theorem does_pulse (log : Diagnostics) :
    r.Does i .pulse (((r.takenUp i log).emit i "out").1.setPhase i .listening).1 := by
  have sent : (r.emit i "out").1.statuses[i]? = some s := there
  obtain ⟨plan, settled, pending, deferred, delivered, raised, tags, tick, board, change⟩ :=
    does_listen sent active log
  exact ⟨plan, settled, pending, deferred, delivered, raised, tags, tick, fun _ => board (by decide),
    change⟩

end Done

end Run
end ActionGraph
