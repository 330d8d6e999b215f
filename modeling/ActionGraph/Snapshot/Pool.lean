import ActionGraph.Snapshot
-- A free list of snapshots, with counts of what it made and what it gave out again. Everything
-- on the list has been cleared.
namespace ActionGraph

structure Pool where
  free : List Snapshot := []
  created : Nat := 0
  reused : Nat := 0
  deriving DecidableEq

namespace Pool

def acquire (p : Pool) : Pool × Snapshot :=
  match p.free with
  | s :: rest => ({ p with free := rest, reused := p.reused + 1 }, s)
  | [] => ({ p with created := p.created + 1 }, {})

def cleared (_ : Snapshot) : Snapshot := {}

def release (p : Pool) (s : Snapshot) : Pool := { p with free := cleared s :: p.free }

end Pool
end ActionGraph
