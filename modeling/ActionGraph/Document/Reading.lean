-- A reading of a tree gives what the tree stands for, if anything, and how deep it had to go.
namespace ActionGraph.Document

def Reading (α : Type) : Type := Option (α × Nat)

namespace Reading

def fail : Reading α := none

def ofOption (a : Option α) : Reading α := a.map (·, 0)

def within (levels : Nat) (r : Reading α) : Reading α := r.map fun (a, depth) => (a, levels + depth)

instance : Monad Reading where
  pure a := some (a, 0)
  bind r next := r.bind fun (a, depth) => (next a).map fun (b, other) => (b, max depth other)

def upTo (limit : Nat) (r : Reading α) : Option α :=
  r.bind fun (a, depth) => if depth ≤ limit then some a else none

end Reading
end ActionGraph.Document
