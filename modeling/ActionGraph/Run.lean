import ActionGraph.Graph.Plan
import ActionGraph.Status
import ActionGraph.Diagnostics
-- A run: a plan with all the live state of one play of its graph, and the operations that stages
-- and hosts perform on it. Every operation is total; a position outside the graph has no effect.
namespace ActionGraph

structure Deferred where
  route : Nat
  armed : Nat
  deriving DecidableEq

structure Run where
  plan : Plan
  statuses : List Status
  pending : List Pulse := []
  delivered : List Pulse := []
  deferred : List Deferred := []
  board : Blackboard
  raised : List String := []
  tags : List String := []
  tick : Nat := 0
  lastChange : Nat := 0
  log : Diagnostics := {}

def Route.pulse (route : Route) : Pulse :=
  ⟨route.source, route.sourcePort, route.target, route.targetPort⟩

namespace Run

def ofPlan (p : Plan) : Run where
  plan := p
  statuses := (p.graph.actions.map fun _ => ({} : Status)).modify p.start Status.activate
  board := p.graph.board

def load (g : Graph) : Except Fault Run := (Plan.ofGraph g).map ofPlan

def withDiagnosticLimit (r : Run) (limit : Nat) : Run := { r with log := { limit := limit } }

def phase (r : Run) (i : Nat) : Phase := (r.statuses[i]?.map (·.phase)).getD .idle

def deliveredTo (r : Run) (i : Nat) : List Pulse := r.delivered.filter (·.target = i)

def allTerminal (r : Run) : Bool := r.statuses.all (·.phase.isTerminal)

def moment (r : Run) (elapsed : Nat) : Moment := ⟨r.board, r.tags, r.raised, elapsed⟩

def running (r : Run) (kind : String) : List Nat :=
  (r.plan.ofKind kind).filter fun i => r.phase i = .running

def warn (r : Run) (i : Nat) (message : String) : Run :=
  { r with log := r.log.push ⟨r.tick, (r.plan.action? i).map (·.id), message⟩ }

-- An absent property silently reads as the default; one that the reader refuses is reported.
def propertyOr (r : Run) (read? : Value → Option α) (i : Nat) (key : String) (fallback : α) :
    Run × α :=
  match r.plan.property? i key with
  | none => (r, fallback)
  | some v =>
    match read? v with
    | some a => (r, a)
    | none =>
      (r.warn i ("property '" ++ key ++ "' has unexpected type " ++ v.typeName ++
        "; using default"), fallback)

def requireProperty (r : Run) (read? : Value → Option α) (i : Nat) (key : String) (fallback : α) :
    Run × α :=
  match r.plan.property? i key with
  | none => (r.warn i ("missing property '" ++ key ++ "'; using default"), fallback)
  | some _ => r.propertyOr read? i key fallback

def modifyStatus (r : Run) (i : Nat) (f : Status → Status) : Run :=
  { r with statuses := r.statuses.modify i f }

def takeFresh (r : Run) (i : Nat) : Run × Bool :=
  (r.modifyStatus i fun s => { s with fresh := false }, (r.statuses[i]?.map (·.fresh)).getD false)

-- A final phase is never left: such a change is refused and reported. Whether the phase changed.
def setPhase (r : Run) (i : Nat) (phase : Phase) : Run × Bool :=
  match r.statuses[i]? with
  | none => (r, false)
  | some s =>
    if s.phase = phase then (r, false)
    else if s.phase.isTerminal then
      (r.warn i ("refused phase change " ++ s.phase.name ++ " -> " ++ phase.name), false)
    else ({ r.modifyStatus i (·.enter phase) with lastChange := r.tick }, true)

def complete (r : Run) (i : Nat) : Run × Bool := r.setPhase i .completed
def cancel (r : Run) (i : Nat) : Run × Bool := r.setPhase i .cancelled

def markPropagated (r : Run) (i : Nat) : Run :=
  r.modifyStatus i fun s => { s with propagated := true }

def enqueue (r : Run) (p : Pulse) : Run := { r with pending := r.pending ++ [p] }

def routesOn (r : Run) (i : Nat) (port : String) : List (Nat × Route) :=
  (r.plan.leaving i).filterMap fun t =>
    (r.plan.routes[t]?).bind fun route => if route.sourcePort = port then some (t, route) else none

def open? (r : Run) (elapsed : Nat) (route : Route) : Bool :=
  match route.guard with
  | none => true
  | some g => g.holds (r.moment elapsed)

-- Sends on every route that leaves the port: at once where the guard holds, deferred where it
-- does not. How many were sent at once.
def emit (r : Run) (i : Nat) (port : String) : Run × Nat :=
  let routes := r.routesOn i port
  let ready := routes.filter fun t => r.open? 0 t.2
  let waiting := routes.filter fun t => !r.open? 0 t.2
  ({ r with
      deferred := r.deferred ++ waiting.map fun t => ⟨t.1, r.tick⟩
      pending := r.pending ++ ready.map fun t => t.2.pulse }, ready.length)

def emitDefault (r : Run) (i : Nat) : Run × Nat := r.emit i "out"

def completeAndEmit (r : Run) (i : Nat) (port : String) : Run × Nat :=
  match r.complete i with
  | (r, false) => (r, 0)
  | (r, true) =>
    let (r, sent) := r.emit i port
    (r.markPropagated i, sent)

def raise (r : Run) (name : String) : Run := { r with raised := r.raised.insert name }
def setTag (r : Run) (tag : String) : Run := { r with tags := r.tags.insert tag }
def clearTag (r : Run) (tag : String) : Run × Bool :=
  ({ r with tags := r.tags.filter (· ≠ tag) }, r.tags.contains tag)

def onBoard (r : Run) (f : Blackboard → Blackboard) : Run := { r with board := f r.board }

def beginTick (r : Run) : Run := { r with tick := r.tick + 1 }

def deliver (r : Run) (p : Pulse) : Run × Bool :=
  match r.statuses[p.target]? with
  | none => (r, false)
  | some s =>
    if s.phase.isTerminal then (r, false)
    else
      ({ r.modifyStatus p.target Status.activate with
          lastChange := if s.phase = .running then r.lastChange else r.tick
          board := r.board.recordActivation (r.plan.actionId p.target) (r.plan.actionId p.source)
          delivered := r.delivered ++ [p] }, true)

inductive Fate where
  | dropped | released (p : Pulse) | kept

-- The entry of a cancelled source is dropped; else its guard decides, the time since it was
-- armed counted in.
def fate (r : Run) (d : Deferred) : Fate :=
  match r.plan.routes[d.route]? with
  | none => .dropped
  | some route =>
    if r.phase route.source = .cancelled then .dropped
    else if r.open? (r.tick - d.armed) route then .released route.pulse
    else .kept

def releaseDeferred (r : Run) : Run :=
  { r with
    deferred := r.deferred.filter fun d => match r.fate d with | .kept => true | _ => false
    pending := r.pending ++ r.deferred.filterMap fun d =>
      match r.fate d with | .released p => some p | _ => none }

def endTick (r : Run) : Run :=
  { r with statuses := r.statuses.map Status.endTick, raised := [] }

end Run
end ActionGraph
