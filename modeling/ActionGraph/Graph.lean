import ActionGraph.Guard
-- A graph as its author wrote it: actions, edges between their ports, and the blackboard's first
-- entries. Ends of edges are ids; whether they mean anything is for the check to say.
namespace ActionGraph

structure Action where
  id : String
  kind : String
  properties : Keyed Value := ∅
  bindings : Keyed Nat := ∅

structure Edge where
  source : String
  target : String
  sourcePort : String := "out"
  targetPort : String := "in"
  guard : Option Guard := none

structure Graph where
  actions : List Action := []
  edges : List Edge := []
  board : Keyed Value := ∅

namespace Action

def startKind : String := "start"
def fanoutKind : String := "fanout"
def joinKind : String := "join"
def endKind : String := "end"

def isStart (a : Action) : Bool := a.kind == startKind

end Action
end ActionGraph
