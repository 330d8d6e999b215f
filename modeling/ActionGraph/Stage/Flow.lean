import ActionGraph.Run
import ActionGraph.Tally
-- The structural kinds. Start, fanout and end complete as soon as they run and send in the same
-- tick; a join completes on the arrival that reaches its count and listens until then.
namespace ActionGraph.Flow

def passOne (r : Run) (i : Nat) : Run :=
  if r.phase i = .running then (r.takeFresh i).1.completeAndEmit i "out" |>.1 else r

def passThrough (r : Run) (kind : String) : Run := (r.plan.ofKind kind).foldl passOne r

-- How many arrivals a join waits for: its own count, or else every edge that leads to it. A
-- count of zero is reported and read as one.
def required (r : Run) (i : Nat) : Run × Nat :=
  match r.propertyOr Value.u32? i "count" (r.plan.entering i).length with
  | (r, 0) => (r.warn i "join count is 0; treating as 1", 1)
  | (r, n) => (r, n)

def joinOne (s : Tally × Run) (i : Nat) : Tally × Run :=
  let (arrivals, r) := s
  if r.phase i = .running then
    let now := (r.deliveredTo i).length
    let (r, needed) := required (r.takeFresh i).1 i
    let arrivals := arrivals.add i now
    if needed ≤ arrivals.get i then (arrivals, (r.completeAndEmit i "out").1)
    else (arrivals, (r.setPhase i .listening).1)
  else s

def joinAll (arrivals : Tally) (r : Run) : Tally × Run :=
  (r.plan.ofKind Action.joinKind).foldl joinOne (arrivals, r)

def update (arrivals : Tally) (r : Run) : Tally × Run :=
  let r := passThrough (passThrough r Action.startKind) Action.fanoutKind
  let (arrivals, r) := joinAll arrivals r
  (arrivals, passThrough r Action.endKind)

end ActionGraph.Flow
