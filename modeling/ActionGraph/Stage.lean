import ActionGraph.Stage.Delivery
import ActionGraph.Stage.Flow
import ActionGraph.Stage.Delay
import ActionGraph.Stage.Assign
import ActionGraph.Stage.Filter
import ActionGraph.Stage.Trigger
import ActionGraph.Stage.Spawn
import ActionGraph.Stage.Warning
import ActionGraph.Stage.Log
import ActionGraph.Stage.Script
-- Stages make up a pipeline. Each takes the run once a tick, in ascending order, and keeps a
-- table of its own from load to load.
namespace ActionGraph

inductive Stage where
  | delivery (t : Delivery)
  | flow (arrivals : Tally)
  | delay (completed : Nat)
  | assign (writes : Nat)
  | filter (outcomes : Filter.Outcomes)
  | trigger (fires : Tally)
  | spawn (spawned : Tally)
  | warning (shown : Nat)
  | log
  | script (s : Script)

namespace Stage

def name : Stage → String
  | delivery _ => "transition"
  | flow _ => "flow"
  | delay _ => "delay"
  | assign _ => "set_value"
  | filter _ => "filter"
  | trigger _ => "trigger"
  | spawn _ => "spawn"
  | warning _ => "warning"
  | log => "log"
  | script s => s.name

-- Values are written before they are read, and host effects come last.
def order : Stage → Int
  | delivery _ => 0
  | flow _ => 10
  | delay _ => 100
  | assign _ => 110
  | filter _ => 120
  | trigger _ => 130
  | spawn _ => 140
  | warning _ => 150
  | log => 160
  | script s => s.order

def kinds : Stage → List String
  | delivery _ => []
  | flow _ => [Action.startKind, Action.fanoutKind, Action.joinKind, Action.endKind]
  | delay _ => [Delay.kind]
  | assign _ => [Assign.kind]
  | filter _ => [Filter.kind]
  | trigger _ => [Trigger.kind]
  | spawn _ => [Spawn.kind]
  | warning _ => [Warning.kind]
  | log => [Log.kind]
  | script s => s.kinds

def onLoad : Stage → Stage
  | delivery _ => delivery {}
  | flow _ => flow {}
  | delay _ => delay 0
  | assign _ => assign 0
  | filter _ => filter []
  | trigger _ => trigger {}
  | spawn _ => spawn {}
  | warning _ => warning 0
  | log => log
  | script s => script s

def loadEffects (r : Run) : Stage → List Effect
  | script s => [.loaded s.name r.statuses.length]
  | _ => []

def stopEffects : Stage → List Effect
  | script s => [.stopped s.name]
  | _ => []

def update (host : Host) : Stage → Run → Stage × Run × List Effect
  | delivery t, r => let (t, r) := t.update r; (delivery t, r, [])
  | flow t, r => let (t, r) := Flow.update t r; (flow t, r, [])
  | delay n, r => let (n, r) := Delay.update n r; (delay n, r, [])
  | assign n, r => let (n, r) := Assign.update n r; (assign n, r, [])
  | filter t, r => let (t, r) := Filter.update t r; (filter t, r, [])
  | trigger t, r => let (t, r) := Trigger.update t r; (trigger t, r, [])
  | spawn t, r => let (t, r, sent) := Spawn.update host t r; (spawn t, r, sent)
  | warning n, r => let (n, r, sent) := Warning.update host n r; (warning n, r, sent)
  | log, r => let (r, sent) := Log.update host r; (log, r, sent)
  | script s, r => let (r, sent) := s.update r; (script s, r, sent)

def core : List Stage := [delivery {}, flow {}]
def domain : List Stage :=
  [delay 0, assign 0, filter [], trigger {}, spawn {}, warning 0, log]
def standard : List Stage := core ++ domain

end Stage
end ActionGraph
