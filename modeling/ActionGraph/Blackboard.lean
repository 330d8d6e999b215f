import ActionGraph.Keyed
import ActionGraph.Value
namespace ActionGraph

abbrev Blackboard := Keyed Value

namespace Blackboard

def activationKey (target : String) : String := "_activatedBy." ++ target

def scopedKey (source field : String) : String := source ++ "." ++ field

def recordActivation (board : Blackboard) (target source : String) : Blackboard :=
  board.insert (activationKey target) (.text source)

def activatedBy? (board : Blackboard) (target : String) : Option String :=
  (board.get? (activationKey target)).bind Value.text?

def read? (board : Blackboard) (kind : Kind) (key : String) : Option Scalar :=
  (board.get? key).bind kind.read?

def read (board : Blackboard) (kind : Kind) (key : String) : Scalar :=
  (board.read? kind key).getD kind.blank

end Blackboard
end ActionGraph
