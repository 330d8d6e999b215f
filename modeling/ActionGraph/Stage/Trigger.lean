import ActionGraph.Run
import ActionGraph.Tally
-- Triggers listen for a host event and send when it is raised: once, or on every raise up to a
-- limit. An event raised while a trigger is not active is not remembered.
namespace ActionGraph.Trigger

def kind : String := "trigger"

def fire (s : Tally × Run) (i : Nat) : Tally × Run :=
  let (r, again) := s.2.propertyOr Value.bool? i "repeat" false
  let (r, limit) := r.propertyOr Value.u32? i "max_fires" 0
  let fires := s.1.add i 1
  if !again || (0 < limit && limit ≤ fires.get i) then (fires, (r.completeAndEmit i "out").1)
  else (fires, ((r.emit i "out").1.setPhase i .listening).1)

-- A missing event name is reported once, when the trigger is entered.
def event (r : Run) (i : Nat) : Run × String :=
  match r.takeFresh i with
  | (r, true) => r.requireProperty Value.text? i "event" ""
  | (r, false) => r.propertyOr Value.text? i "event" ""

def updateOne (s : Tally × Run) (i : Nat) : Tally × Run :=
  if (s.2.phase i).isActive then
    let (r, name) := event s.2 i
    if !name.isEmpty && r.raised.contains name then fire (s.1, r) i
    else (s.1, (r.setPhase i .listening).1)
  else s

def update (fires : Tally) (r : Run) : Tally × Run :=
  (r.plan.ofKind kind).foldl updateOne (fires, r)

end ActionGraph.Trigger
