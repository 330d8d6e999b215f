import ActionGraph.Digest
import ActionGraph.Run
-- The digest of a run's observable state: tick, statuses, pending pulses and blackboard.
namespace ActionGraph

namespace Message

def phase : Phase → List UInt8
  | .idle => u32 0
  | .running => u32 1
  | .listening => u32 2
  | .completed => u32 3
  | .cancelled => u32 4

def status (s : Status) : List UInt8 :=
  phase s.phase ++ u64 s.age ++ flag s.fresh ++ flag s.propagated

def pulse (p : Pulse) : List UInt8 :=
  u32 p.source ++ text p.sourcePort ++ u32 p.target ++ text p.targetPort

def entry (e : String × Value) : List UInt8 := text e.1 ++ value e.2

def list (item : α → List UInt8) (xs : List α) : List UInt8 := u64 xs.length ++ xs.flatMap item

def run (r : Run) : List UInt8 :=
  u64 r.tick ++ list status r.statuses ++ list pulse r.pending ++ list entry r.board.entries

end Message

def Run.fingerprint (r : Run) : UInt64 := (({} : Digest).write (Message.run r)).word

end ActionGraph
