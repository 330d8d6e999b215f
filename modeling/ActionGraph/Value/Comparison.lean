import ActionGraph.Value
namespace ActionGraph

inductive Comparison where
  | equal | differ | above | atLeast | below | atMost
  deriving DecidableEq

namespace Comparison

def symbol : Comparison → String
  | equal => "=="
  | differ => "!="
  | above => ">"
  | atLeast => ">="
  | below => "<"
  | atMost => "<="

def read? (text : String) : Option Comparison :=
  match Text.trim text with
  | "==" | "=" | "eq" => some equal
  | "!=" | "<>" | "ne" => some differ
  | ">" | "gt" => some above
  | ">=" | "gte" => some atLeast
  | "<" | "lt" => some below
  | "<=" | "lte" => some atMost
  | _ => none

-- Whether the operator accepts two operands that stand to each other in this way. Operands
-- that stand in no order only differ.
def accepts : Comparison → Option Ordering → Bool
  | equal, o => o == some .eq
  | differ, o => o != some .eq
  | above, o => o == some .gt
  | atLeast, o => o == some .gt || o == some .eq
  | below, o => o == some .lt
  | atMost, o => o == some .lt || o == some .eq

def ofBools : Comparison → Bool → Bool → Bool
  | equal, a, b => a == b
  | differ, a, b => a != b
  | _, _, _ => false

-- Numbers if both sides have a numeric view, truth values if both are such, and texts otherwise,
-- ordered by their characters' code points.
def holds (op : Comparison) (lhs rhs : Value) : Bool :=
  match lhs.number?, rhs.number? with
  | some a, some b => op.accepts (Binary64.compare? a b)
  | _, _ =>
    match lhs.bool?, rhs.bool? with
    | some a, some b => op.ofBools a b
    | _, _ => op.accepts (some (compare lhs.toText rhs.toText))

end Comparison
end ActionGraph
