import ActionGraph.Run
-- Timed waits: a delay that is activated in tick `n` completes in tick `n + ticks - 1`.
namespace ActionGraph.Delay

def kind : String := "delay"
def defaultTicks : Nat := 1

-- The tick under way counts too; the sum is taken in a 64-bit word.
def waited (r : Run) (i : Nat) : Nat :=
  (((r.statuses[i]?.map (·.age)).getD 0) + 1) % UInt64.size

def updateOne (s : Nat × Run) (i : Nat) : Nat × Run :=
  let (r, ticks) := (s.2.takeFresh i).1.propertyOr Value.u64? i "ticks" defaultTicks
  if ticks ≤ waited r i then (s.1 + 1, (r.completeAndEmit i "out").1) else (s.1, r)

def update (completed : Nat) (r : Run) : Nat × Run :=
  (r.running kind).foldl updateOne (completed, r)

end ActionGraph.Delay
