namespace ActionGraph

inductive Phase where
  | idle | running | listening | completed | cancelled
  deriving DecidableEq, Inhabited

namespace Phase

def name : Phase → String
  | idle => "Idle"
  | running => "Running"
  | listening => "Listening"
  | completed => "Completed"
  | cancelled => "Cancelled"

def all : List Phase := [idle, running, listening, completed, cancelled]

def isTerminal : Phase → Bool
  | completed | cancelled => true
  | _ => false

def isActive : Phase → Bool
  | running | listening => true
  | _ => false

end Phase

-- `age` counts the tick boundaries since the phase was entered. `fresh` marks an activation that
-- no stage has taken up yet, `propagated` an action that has sent its outgoing pulses.
structure Status where
  phase : Phase := .idle
  age : Nat := 0
  fresh : Bool := false
  propagated : Bool := false
  deriving DecidableEq, Inhabited

namespace Status

def maxAge : Nat := UInt64.size - 1

def enter (s : Status) (phase : Phase) : Status :=
  if s.phase = phase then s else { s with phase := phase, age := 0 }

def activate (_ : Status) : Status := { phase := .running, fresh := true }

def endTick (s : Status) : Status :=
  { s with age := if s.age < maxAge then s.age + 1 else s.age, fresh := false }

end Status

structure Pulse where
  source : Nat
  sourcePort : String
  target : Nat
  targetPort : String
  deriving DecidableEq

end ActionGraph
