import ActionGraph.Run
-- A copy of a run's statuses and pending pulses at the end of a tick, with the phases that
-- changed since the copy before.
namespace ActionGraph

structure PhaseChange where
  index : Nat
  old : Phase
  new : Phase
  deriving DecidableEq

structure Snapshot where
  tick : Nat := 0
  statuses : List Status := []
  pending : List Pulse := []
  changes : List PhaseChange := []
  deriving DecidableEq

namespace Snapshot

def phase (s : Snapshot) (i : Nat) : Phase := (s.statuses[i]?.map (·.phase)).getD .idle

def changed (s : Snapshot) (i : Nat) : Bool := s.changes.any (·.index = i)

-- In index order; an action without an earlier phase counts as idle before.
def changesFrom (previous : List Phase) (statuses : List Status) : List PhaseChange :=
  statuses.zipIdx.filterMap fun (s, i) =>
    let old := previous[i]?.getD .idle
    if old = s.phase then none else some ⟨i, old, s.phase⟩

def capture (previous : List Phase) (r : Run) : Snapshot :=
  ⟨r.tick, r.statuses, r.pending, changesFrom previous r.statuses⟩

end Snapshot
end ActionGraph
