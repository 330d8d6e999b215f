import ActionGraph.Stage
import ActionGraph.Config
import ActionGraph.Snapshot.History
import ActionGraph.Run.Fingerprint
-- An engine owns a pipeline of stages, the loaded run, its history and the host's capabilities,
-- and drives ticks. What reached the host is kept in order in `effects`.
namespace ActionGraph

structure Engine where
  stages : List Stage := []
  locked : Bool := false
  run : Option Run := none
  host : Host := {}
  history : Option History := none
  config : Config := {}
  closed : Bool := false
  effects : Array Effect := #[]

inductive Refusal where
  | stagesLocked
  | notLoaded
  | closed
  | load (fault : Fault)
  deriving DecidableEq

def Refusal.message : Refusal → String
  | stagesLocked => "systems are locked; register them once, before the first tick"
  | notLoaded => "no graph loaded"
  | closed => "runner has been shut down"
  | load fault => fault.message

namespace Engine

def ofConfig (host : Host) (config : Config) : Engine :=
  { host := host, config := config, history := config.historyCapacity.map History.ofCapacity }

def record (e : Engine) (sent : List Effect) : Engine := { e with effects := e.effects ++ sent }

def unclaimed (stages : List Stage) : List Action → Nat → List String → List (Nat × String)
  | [], _, _ => []
  | a :: rest, i, seen =>
    if seen.contains a.kind || stages.any (·.kinds.contains a.kind) then
      unclaimed stages rest (i + 1) seen
    else (i, a.kind) :: unclaimed stages rest (i + 1) (a.kind :: seen)

def reportUnclaimed (stages : List Stage) (r : Run) : Run :=
  (unclaimed stages r.plan.graph.actions 0 []).foldl (fun r u =>
    r.warn u.1 ("no registered system handles type '" ++ u.2 ++ "'")) r

-- Every stage sees the run as it was loaded, before anything is reported on it.
def meet (e : Engine) (r : Run) : Engine :=
  { e.record (e.stages.flatMap (Stage.loadEffects r)) with stages := e.stages.map Stage.onLoad }

-- Stages of equal order keep the sequence they are given in. A run that is already loaded is
-- met by them now.
def register (e : Engine) (stages : List Stage) : Except Refusal Engine :=
  if e.closed then .error .closed
  else if e.locked then .error .stagesLocked
  else
    let e := { e with
      stages := stages.mergeSort fun a b => a.order ≤ b.order
      locked := true }
    match e.run with
    | none => .ok e
    | some r => .ok { e.meet r with run := some (reportUnclaimed e.stages r) }

def load (e : Engine) (g : Graph) : Engine × Except Refusal Unit :=
  if e.closed then (e, .error .closed)
  else match Run.load g with
    | .error fault => ({ e with run := none }, .error (.load fault))
    | .ok r =>
      let r := r.withDiagnosticLimit e.config.maxDiagnostics
      let e := e.meet r
      let r := if e.locked then reportUnclaimed e.stages r else r
      ({ e with run := some r, history := e.history.map (·.reset r) }, .ok ())

def pass (host : Host) : List Stage → Run → List Stage × Run × List Effect
  | [], r => ([], r, [])
  | s :: rest, r =>
    let (s, r, sent) := s.update host r
    let (rest, r, later) := pass host rest r
    (s :: rest, r, sent ++ later)

def tick (e : Engine) : Except Refusal Engine :=
  if e.closed then .error .closed
  else match e.run with
    | none => .error .notLoaded
    | some r =>
      let (stages, r, sent) := pass e.host e.stages r.beginTick
      let r := r.endTick
      .ok { e.record sent with
        stages := stages
        locked := true
        run := some r
        history := e.history.map (·.record r) }

def isComplete (e : Engine) : Bool := e.run.any Run.allTerminal

def currentTick (e : Engine) : Nat := (e.run.map (·.tick)).getD 0

-- At most `budget` ticks, fewer if every action is final before. Ticks that are over are
-- counted in `consumed`.
def runFrom (e : Engine) (consumed : Nat) : Nat → Except Refusal (Engine × Nat)
  | 0 => .ok (e, consumed)
  | budget + 1 =>
    if e.isComplete then .ok (e, consumed)
    else match e.tick with
      | .error refusal => .error refusal
      | .ok e => runFrom e (consumed + 1) budget

def runUntilComplete (e : Engine) (budget : Nat) : Except Refusal (Engine × Nat) :=
  if e.run.isNone then .error .notLoaded else e.runFrom 0 budget

def runToEnd (e : Engine) : Except Refusal (Engine × Nat) :=
  e.runUntilComplete e.config.defaultMaxTicks

def onRun (e : Engine) (f : Run → Run × α) : Except Refusal (Engine × α) :=
  match e.run with
  | none => .error .notLoaded
  | some r => let (r, a) := f r; .ok ({ e with run := some r }, a)

def raise (e : Engine) (name : String) : Except Refusal (Engine × Unit) :=
  e.onRun fun r => (r.raise name, ())

def setTag (e : Engine) (tag : String) : Except Refusal (Engine × Unit) :=
  e.onRun fun r => (r.setTag tag, ())

def clearTag (e : Engine) (tag : String) : Except Refusal (Engine × Bool) :=
  e.onRun fun r => r.clearTag tag

-- An unknown id and an action that is final already are no fault; nothing is cancelled then.
def cancel (e : Engine) (id : String) : Except Refusal (Engine × Bool) :=
  e.onRun fun r =>
    match r.plan.indexOf? id with
    | none => (r, false)
    | some i => if (r.phase i).isTerminal then (r, false) else r.cancel i

def perform (e : Engine) (op : Operation) : Except Refusal (Engine × Answer) :=
  e.onRun fun r => r.perform op

def enableHistory (e : Engine) (capacity : Nat) : Engine :=
  let h := History.ofCapacity capacity
  { e with history := some (match e.run with
    | none => h
    | some r => h.reset r) }

def disableHistory (e : Engine) : Engine := { e with history := none }

def fingerprint (e : Engine) : UInt64 := (e.run.map Run.fingerprint).getD 0

def shutdown (e : Engine) : Engine :=
  if e.closed then e
  else { e.record (e.stages.flatMap Stage.stopEffects) with stages := [], closed := true }

end Engine
end ActionGraph
