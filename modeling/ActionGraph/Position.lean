-- Positions of actions as hosts see them: numbers of 32 bits, of which larger ones keep the low
-- part only, written with a hash sign.
namespace ActionGraph.Position

def ofSize (n : Nat) : Nat := n % UInt32.size

def label (n : Nat) : String := "#" ++ toString n

theorem ofSize_of_lt {n : Nat} (small : n < UInt32.size) : ofSize n = n := Nat.mod_eq_of_lt small

end ActionGraph.Position
