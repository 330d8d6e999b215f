namespace ActionGraph

structure Config where
  historyCapacity : Option Nat := none
  defaultMaxTicks : Nat := 10000
  maxDiagnostics : Nat := 1024
  deriving DecidableEq, Inhabited

end ActionGraph
