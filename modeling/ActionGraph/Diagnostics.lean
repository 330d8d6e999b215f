import ActionGraph.Text.Blank
-- Recoverable problems met during a run. They never stop it: a default is used and a line is kept.
namespace ActionGraph

structure Diagnostic where
  tick : Nat
  action : Option String
  message : String
  deriving DecidableEq

-- A bounded log. Once it is full, further lines are counted and not kept.
structure Diagnostics where
  limit : Nat := 1024
  entries : List Diagnostic := []
  dropped : Nat := 0
  deriving DecidableEq

namespace Diagnostics

def push (log : Diagnostics) (d : Diagnostic) : Diagnostics :=
  if log.entries.length < log.limit then { log with entries := log.entries ++ [d] }
  else { log with dropped := log.dropped + 1 }

def mentions (log : Diagnostics) (action needle : String) : Bool :=
  log.entries.any fun d => d.action == some action && Text.contains d.message needle

end Diagnostics
end ActionGraph
