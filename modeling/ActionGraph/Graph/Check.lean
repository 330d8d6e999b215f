import ActionGraph.Graph
-- The structural check. A graph that fails it is never run; one that passes it has an index of
-- its ids and a single start.
namespace ActionGraph

inductive EdgeEnd where
  | source | target
  deriving DecidableEq

inductive Fault where
  | duplicateId (id : String)
  | danglingEdge (edge : Nat) (side : EdgeEnd) (id : String)
  | noStart
  | manyStarts (ids : List String)
  deriving DecidableEq

def EdgeEnd.name : EdgeEnd → String
  | source => "source"
  | target => "target"

def Fault.message : Fault → String
  | duplicateId id => "duplicate action id '" ++ id ++ "'"
  | danglingEdge edge side id =>
    "transition " ++ toString edge ++ " has unknown " ++ side.name ++ " action '" ++ id ++ "'"
  | noStart => "graph has no start action"
  | manyStarts ids =>
    "graph has " ++ toString ids.length ++ " start actions: " ++ ", ".intercalate ids

structure Directory where
  positions : Keyed Nat
  start : Nat

namespace Graph

def enrol : List Action → Nat → Keyed Nat → Except Fault (Keyed Nat)
  | [], _, known => .ok known
  | a :: rest, i, known =>
    if known.contains a.id then .error (.duplicateId a.id)
    else enrol rest (i + 1) (known.insert a.id i)

def checkEdges (known : Keyed Nat) : List Edge → Nat → Except Fault Unit
  | [], _ => .ok ()
  | e :: rest, i =>
    if !known.contains e.source then .error (.danglingEdge i .source e.source)
    else if !known.contains e.target then .error (.danglingEdge i .target e.target)
    else checkEdges known rest (i + 1)

def positionsOf (p : α → Bool) (xs : List α) : List Nat :=
  (xs.zipIdx.filter fun entry => p entry.1).map (·.2)

def theStart (actions : List Action) : Except Fault Nat :=
  match positionsOf Action.isStart actions with
  | [] => .error .noStart
  | [i] => .ok i
  | _ => .error (.manyStarts ((actions.filter Action.isStart).map (·.id)))

def check (g : Graph) : Except Fault Directory := do
  let positions ← enrol g.actions 0 ∅
  checkEdges positions g.edges 0
  let start ← theStart g.actions
  return ⟨positions, start⟩

end Graph
end ActionGraph
