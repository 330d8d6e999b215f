import ActionGraph.Run
-- The stage that moves pulses. It delivers what the previous tick sent, releases the deferred
-- routes whose guards now hold, and sends for every completed action that has not sent yet.
namespace ActionGraph

structure Delivery where
  delivered : Nat := 0
  propagated : Nat := 0
  deriving DecidableEq

namespace Delivery

def deliverOne (s : Delivery × Run) (p : Pulse) : Delivery × Run :=
  match s.2.deliver p with
  | (r, true) => ({ s.1 with delivered := s.1.delivered + 1 }, r)
  | (r, false) => (s.1, r)

-- The pulses of the last tick make way for those that take effect now.
def deliverAll (t : Delivery) (r : Run) : Delivery × Run :=
  r.pending.foldl deliverOne (t, { r with pending := [], delivered := [] })

def propagateOne (s : Delivery × Run) (i : Nat) : Delivery × Run :=
  match s.2.statuses[i]? with
  | none => s
  | some status =>
    if status.phase = .completed ∧ ¬status.propagated then
      ({ s.1 with propagated := s.1.propagated + 1 }, (s.2.emitDefault i).1.markPropagated i)
    else s

def propagateAll (t : Delivery) (r : Run) : Delivery × Run :=
  (List.range r.statuses.length).foldl propagateOne (t, r)

def update (t : Delivery) (r : Run) : Delivery × Run :=
  let (t, r) := deliverAll t r
  propagateAll t r.releaseDeferred

end Delivery
end ActionGraph
