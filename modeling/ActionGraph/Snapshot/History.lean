import ActionGraph.Snapshot.Pool
-- The newest snapshots of a run, oldest first, in a ring of bounded size that gives what it
-- evicts back to its pool.
namespace ActionGraph

structure History where
  capacity : Nat
  ring : List Snapshot := []
  pool : Pool := {}
  previous : List Phase := []
  deriving DecidableEq

namespace History

def ofCapacity (capacity : Nat) : History := { capacity := max capacity 1 }

def reset (h : History) (r : Run) : History :=
  { h with
    ring := []
    pool := h.ring.foldl Pool.release h.pool
    previous := r.statuses.map (·.phase) }

def makeRoom (h : History) : History :=
  if h.ring.length = h.capacity then
    match h.ring with
    | [] => h
    | oldest :: rest => { h with ring := rest, pool := h.pool.release oldest }
  else h

def record (h : History) (r : Run) : History :=
  let h := h.makeRoom
  { h with
    ring := h.ring ++ [Snapshot.capture h.previous r]
    pool := h.pool.acquire.1
    previous := r.statuses.map (·.phase) }

def get? (h : History) (tick : Nat) : Option Snapshot := h.ring.find? (·.tick = tick)

def latest? (h : History) : Option Snapshot := h.ring.getLast?

def changesOf (h : History) (i : Nat) : List (Nat × PhaseChange) :=
  h.ring.flatMap fun s => (s.changes.filter (·.index = i)).map fun c => (s.tick, c)

end History
end ActionGraph
