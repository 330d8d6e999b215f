import ActionGraph.Run
-- Branching: a filter compares a blackboard value with its target and leaves on one of two ports.
namespace ActionGraph

inductive Outcome where
  | pass | reject
  deriving DecidableEq

def Outcome.port : Outcome → String
  | pass => "pass"
  | reject => "reject"

namespace Filter

def kind : String := "filter"

-- The entry that the activating action wrote for itself comes before the shared one.
def lookup? (r : Run) (i : Nat) (key : String) : Option Value :=
  let own := (r.board.activatedBy? (r.plan.actionId i)).bind fun source =>
    r.board.get? (Blackboard.scopedKey source key)
  own <|> r.board.get? key

def operator (r : Run) (i : Nat) : Run × Comparison :=
  let (r, text) := r.propertyOr Value.text? i "op" "=="
  match Comparison.read? text with
  | some op => (r, op)
  | none => (r.warn i ("unknown operator '" ++ text ++ "'; using =="), .equal)

def judge (r : Run) (i : Nat) : Run × Outcome :=
  let (r, key) := r.requireProperty Value.text? i "key" ""
  let (r, op) := operator r i
  match r.plan.property? i "target" with
  | none => (r.warn i "missing property 'target'; rejecting", .reject)
  | some target =>
    match lookup? r i key with
    | none => (r.warn i ("blackboard has no value for '" ++ key ++ "'; rejecting"), .reject)
    | some value => (r, if op.holds value target then .pass else .reject)

abbrev Outcomes := List (Nat × Outcome)

def updateOne (s : Outcomes × Run) (i : Nat) : Outcomes × Run :=
  let (r, outcome) := judge (s.2.takeFresh i).1 i
  ((i, outcome) :: s.1, (r.completeAndEmit i outcome.port).1)

def update (outcomes : Outcomes) (r : Run) : Outcomes × Run :=
  (r.running kind).foldl updateOne (outcomes, r)

end Filter
end ActionGraph
