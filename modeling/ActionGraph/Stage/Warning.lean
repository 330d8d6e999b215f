import ActionGraph.Host
namespace ActionGraph.Warning

def kind : String := "warning"
def defaultTicks : Nat := 60

def request (r : Run) (i : Nat) : Run × WarningRequest :=
  let (r, message) := r.requireProperty Value.text? i "message" ""
  let (r, duration) := r.propertyOr Value.u64? i "duration_ticks" defaultTicks
  (r, ⟨r.plan.actionId i, message, duration, r.tick⟩)

def updateOne (host : Host) (s : Nat × Run × List Effect) (i : Nat) : Nat × Run × List Effect :=
  let (shown, r, effects) := s
  let (r, request) := request (r.takeFresh i).1 i
  (if host.warning then shown + 1 else shown, (r.complete i).1, effects ++ host.onWarning request)

def update (host : Host) (shown : Nat) (r : Run) : Nat × Run × List Effect :=
  (r.running kind).foldl (updateOne host) (shown, r, [])

end ActionGraph.Warning
