import ActionGraph.Graph.Check
-- A checked graph with everything that a run looks up, worked out once. A plan never changes.
namespace ActionGraph

structure Route where
  source : Nat
  sourcePort : String
  target : Nat
  targetPort : String
  guard : Option Guard

structure Plan where
  graph : Graph
  positions : Keyed Nat
  start : Nat
  byKind : Keyed (List Nat)
  routes : List Route
  outgoing : List (List Nat)
  incoming : List (List Nat)

namespace Plan

-- Both ends of a checked edge are known, so the default is never taken.
def route (known : Keyed Nat) (e : Edge) : Route :=
  ⟨(known.get? e.source).getD 0, e.sourcePort, (known.get? e.target).getD 0, e.targetPort, e.guard⟩

def file (table : Keyed (List Nat)) (key : String) (i : Nat) : Keyed (List Nat) :=
  table.insert key ((table.get? key).getD [] ++ [i])

def sortByKind (actions : List Action) : Keyed (List Nat) :=
  actions.zipIdx.foldl (fun table a => file table a.1.kind a.2) ∅

def sortByEnd (n : Nat) (finish : Route → Nat) (routes : List Route) : List (List Nat) :=
  routes.zipIdx.foldl (fun table r => table.modify (finish r.1) (· ++ [r.2]))
    (List.replicate n [])

def ofGraph (g : Graph) : Except Fault Plan := do
  let directory ← g.check
  let routes := g.edges.map (route directory.positions)
  return {
    graph := g
    positions := directory.positions
    start := directory.start
    byKind := sortByKind g.actions
    routes := routes
    outgoing := sortByEnd g.actions.length Route.source routes
    incoming := sortByEnd g.actions.length Route.target routes }

-- Look-ups are forgiving: an unknown position, kind or name yields nothing.
def action? (p : Plan) (i : Nat) : Option Action := p.graph.actions[i]?
def actionId (p : Plan) (i : Nat) : String := ((p.action? i).map (·.id)).getD ""
def indexOf? (p : Plan) (id : String) : Option Nat := p.positions.get? id
def ofKind (p : Plan) (kind : String) : List Nat := (p.byKind.get? kind).getD []
def leaving (p : Plan) (i : Nat) : List Nat := p.outgoing[i]?.getD []
def entering (p : Plan) (i : Nat) : List Nat := p.incoming[i]?.getD []
def edge? (p : Plan) (t : Nat) : Option Edge := p.graph.edges[t]?
def property? (p : Plan) (i : Nat) (key : String) : Option Value :=
  (p.action? i).bind fun a => a.properties.get? key
def binding? (p : Plan) (i : Nat) (name : String) : Option Nat :=
  (p.action? i).bind fun a => a.bindings.get? name

end Plan
end ActionGraph
