import ActionGraph.Host
namespace ActionGraph.Log

def kind : String := "log"

def level (r : Run) (i : Nat) : Run × Level :=
  let (r, text) := r.propertyOr Value.text? i "level" "info"
  match Level.read? text with
  | some level => (r, level)
  | none => (r.warn i ("unknown log level '" ++ text ++ "'; using info"), .info)

def updateOne (host : Host) (s : Run × List Effect) (i : Nat) : Run × List Effect :=
  let (r, level) := level (s.1.takeFresh i).1 i
  let (r, template) := r.requireProperty Value.text? i "message" ""
  let sent := host.onLog level (r.plan.actionId i) (Template.fill r.board template)
  ((r.complete i).1, s.2 ++ sent)

def update (host : Host) (r : Run) : Run × List Effect :=
  (r.running kind).foldl (updateOne host) (r, [])

end ActionGraph.Log
