import ActionGraph.Blackboard
import ActionGraph.Value.Comparison
namespace ActionGraph

inductive Guard where
  | immediate
  | delay (ticks : Nat)
  | expression (key : String) (op : Comparison) (value : Value)
  | tag (name : String)
  | event (name : String)
  | allOf (parts : List Guard)
  | anyOf (parts : List Guard)

structure Moment where
  board : Blackboard
  tags : List String
  raised : List String
  elapsed : Nat

namespace Guard

mutual
def holds (m : Moment) : Guard → Bool
  | immediate => true
  | delay ticks => ticks ≤ m.elapsed
  | expression key op value => (m.board.get? key).any (op.holds · value)
  | tag name => m.tags.contains name
  | event name => m.raised.contains name
  | allOf parts => allHold m parts
  | anyOf parts => anyHolds m parts

def allHold (m : Moment) : List Guard → Bool
  | [] => true
  | g :: rest => holds m g && allHold m rest

def anyHolds (m : Moment) : List Guard → Bool
  | [] => false
  | g :: rest => holds m g || anyHolds m rest
end

theorem allHold_eq (m : Moment) : (parts : List Guard) → allHold m parts = parts.all (holds m)
  | [] => by simp [allHold]
  | g :: rest => by simp [allHold, allHold_eq m rest]

theorem anyHolds_eq (m : Moment) : (parts : List Guard) → anyHolds m parts = parts.any (holds m)
  | [] => by simp [anyHolds]
  | g :: rest => by simp [anyHolds, anyHolds_eq m rest]

@[simp] theorem holds_allOf (m : Moment) (parts : List Guard) :
    holds m (allOf parts) = parts.all (holds m) := by rw [holds, allHold_eq]

@[simp] theorem holds_anyOf (m : Moment) (parts : List Guard) :
    holds m (anyOf parts) = parts.any (holds m) := by rw [holds, anyHolds_eq]

end Guard
end ActionGraph
