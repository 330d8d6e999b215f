import ActionGraph.Text.Blank
import ActionGraph.Run.Operation
-- What a run does to the world: requests to a host that has registered for them. A capability
-- that is not registered loses the request and nothing else.
namespace ActionGraph

inductive Level where
  | info | warning | error
  deriving DecidableEq

namespace Level

def name : Level → String
  | info => "Info"
  | warning => "Warning"
  | error => "Error"

def read? (text : String) : Option Level :=
  match Text.lower (Text.trim text) with
  | "info" => some info
  | "warn" | "warning" => some warning
  | "error" => some error
  | _ => none

end Level

structure SpawnRequest where
  action : String
  prefab : String
  count : Nat
  anchor : Option Nat
  tick : Nat
  deriving DecidableEq

structure WarningRequest where
  action : String
  message : String
  duration : Nat
  tick : Nat
  deriving DecidableEq

inductive Effect where
  | log (level : Level) (action message : String)
  | spawn (request : SpawnRequest)
  | warning (request : WarningRequest)
  | loaded (stage : String) (actions : Nat)
  | updated (stage : String) (tick : Nat) (answers : List Answer)
  | stopped (stage : String)

structure Host where
  log : Bool := false
  spawn : Bool := false
  warning : Bool := false
  deriving DecidableEq

namespace Host

def all : Host := ⟨true, true, true⟩

def onLog (h : Host) (level : Level) (action message : String) : List Effect :=
  if h.log then [.log level action message] else []

def onSpawn (h : Host) (request : SpawnRequest) : List Effect :=
  if h.spawn then [.spawn request] else []

def onWarning (h : Host) (request : WarningRequest) : List Effect :=
  if h.warning then [.warning request] else []

def describe (h : Host) : String :=
  let word (b : Bool) := if b then "true" else "false"
  "HostServices \x7b spawn: " ++ word h.spawn ++ ", warning: " ++ word h.warning ++ ", .. \x7d"

end Host
end ActionGraph
