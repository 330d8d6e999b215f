import ActionGraph.Host
import ActionGraph.Tally
-- Spawning: a request to the host, and the number it accepted on the blackboard. Like the other
-- host effects it completes at once and leaves its successors to the default propagation.
namespace ActionGraph.Spawn

def kind : String := "spawn"

def request (r : Run) (i : Nat) : Run × Option SpawnRequest :=
  let (r, prefab) := r.requireProperty Value.text? i "prefab" ""
  if prefab.isEmpty then (r, none)
  else
    let (r, count) := r.propertyOr Value.u32? i "count" 1
    let anchor := r.plan.binding? i "anchor"
    let r := if anchor.isNone && (r.plan.property? i "anchor").isSome then
        r.warn i "anchor is not a scene binding; using host default" else r
    (r, some ⟨r.plan.actionId i, prefab, count, anchor, r.tick⟩)

def accepted (host : Host) : Option SpawnRequest → Nat × List Effect
  | none => (0, [])
  | some request => (if host.spawn then request.count else 0, host.onSpawn request)

def updateOne (host : Host) (s : Tally × Run × List Effect) (i : Nat) :
    Tally × Run × List Effect :=
  let (spawned, r, effects) := s
  let (r, request) := request (r.takeFresh i).1 i
  let (count, sent) := accepted host request
  let key := Blackboard.scopedKey (r.plan.actionId i) "spawned"
  let r := r.onBoard (·.insert key (.int (Int64.ofNat count)))
  (spawned.addWord i count, (r.complete i).1, effects ++ sent)

def update (host : Host) (spawned : Tally) (r : Run) : Tally × Run × List Effect :=
  (r.running kind).foldl (updateOne host) (spawned, r, [])

end ActionGraph.Spawn
