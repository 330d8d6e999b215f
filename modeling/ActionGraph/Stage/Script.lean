import ActionGraph.Host
-- Stages written by the host: what they do in each tick is given as operations on the run.
namespace ActionGraph

structure Script where
  name : String
  order : Int
  kinds : List String
  moves : Nat → List Operation

namespace Script

def update (s : Script) (r : Run) : Run × List Effect :=
  let (next, answers) := r.performAll (s.moves r.tick)
  (next, [.updated s.name r.tick answers])

end Script
end ActionGraph
