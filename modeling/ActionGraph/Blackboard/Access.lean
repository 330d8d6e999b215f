import ActionGraph.Blackboard
-- The requests that a host or a scripted stage can make of a blackboard, with their replies.
namespace ActionGraph.Blackboard

inductive Access where
  | set (key : String) (value : Value)
  | read (kind : Kind) (key : String)
  | tryRead (kind : Kind) (key : String)
  | value (key : String)
  | contains (key : String)
  | remove (key : String)
  | clear
  | size
  | recordActivation (target source : String)
  | activatedBy (target : String)
  | scopedKey (source field : String)
  | contents

inductive Reply where
  | done
  | scalar (s : Scalar)
  | scalar? (s : Option Scalar)
  | value? (v : Option Value)
  | flag (b : Bool)
  | size (n : Nat)
  | text (s : String)
  | text? (s : Option String)
  | contents (board : Blackboard)

def access (board : Blackboard) : Access → Blackboard × Reply
  | .set key value => (board.insert key value, .done)
  | .read kind key => (board, .scalar (board.read kind key))
  | .tryRead kind key => (board, .scalar? (board.read? kind key))
  | .value key => (board, .value? (board.get? key))
  | .contains key => (board, .flag (board.contains key))
  | .remove key => (board.erase key, .value? (board.get? key))
  | .clear => (∅, .done)
  | .size => (board, .size board.size)
  | .recordActivation target source => (board.recordActivation target source, .done)
  | .activatedBy target => (board, .text? (board.activatedBy? target))
  | .scopedKey source field => (board, .text (Blackboard.scopedKey source field))
  | .contents => (board, .contents board)

end ActionGraph.Blackboard
