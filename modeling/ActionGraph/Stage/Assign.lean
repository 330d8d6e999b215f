import ActionGraph.Run
-- Blackboard writes: a value goes under the writer's own scope, or under the plain key if the
-- write is global. Successors are left to the default propagation.
namespace ActionGraph.Assign

def kind : String := "set_value"

def write (s : Nat × Run) (i : Nat) (key : String) (global : Bool) : Nat × Run :=
  if key.isEmpty then s
  else match s.2.plan.property? i "value" with
    | none => (s.1, s.2.warn i "missing property 'value'; nothing written")
    | some value =>
      let key := if global then key else Blackboard.scopedKey (s.2.plan.actionId i) key
      (s.1 + 1, s.2.onBoard (·.insert key value))

def updateOne (s : Nat × Run) (i : Nat) : Nat × Run :=
  let (r, key) := (s.2.takeFresh i).1.requireProperty Value.text? i "key" ""
  let (r, global) := r.propertyOr Value.bool? i "global" false
  let (writes, r) := write (s.1, r) i key global
  (writes, (r.complete i).1)

def update (writes : Nat) (r : Run) : Nat × Run :=
  (r.running kind).foldl updateOne (writes, r)

end ActionGraph.Assign
