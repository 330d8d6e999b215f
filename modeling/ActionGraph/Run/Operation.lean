import ActionGraph.Run
import ActionGraph.Blackboard.Access
import ActionGraph.Blackboard.Template
-- The public face of a run as data: what may be asked of it and what may be done to it, between
-- ticks by a host or in the middle of one by a scripted stage.
namespace ActionGraph

inductive Query where
  | view
  | graph
  | action (i : Nat)
  | indexOf (id : String)
  | start
  | ofKind (kind : String)
  | leaving (i : Nat)
  | entering (i : Nat)
  | edge (t : Nat)
  | property (i : Nat) (key : String)
  | binding (i : Nat) (name : String)
  | status (i : Nat)
  | phase (i : Nat)
  | deliveredTo (i : Nat)
  | isRaised (name : String)
  | hasTag (tag : String)
  | diagnostics
  | mentions (id needle : String)
  | interpolate (template : String)

inductive Operation where
  | ask (q : Query)
  | board (a : Blackboard.Access)
  | propertyOr (i : Nat) (key : String) (kind : Kind) (fallback : Scalar)
  | requireProperty (i : Nat) (key : String) (kind : Kind) (fallback : Scalar)
  | setStatus (i : Nat) (s : Status)
  | takeFresh (i : Nat)
  | setPhase (i : Nat) (phase : Phase)
  | complete (i : Nat)
  | cancel (i : Nat)
  | markPropagated (i : Nat)
  | completeAndEmit (i : Nat) (port : String)
  | emit (i : Nat) (port : String)
  | emitDefault (i : Nat)
  | enqueue (p : Pulse)
  | raise (name : String)
  | setTag (tag : String)
  | clearTag (tag : String)
  | warn (i : Nat) (message : String)

inductive Answer where
  | done
  | flag (b : Bool)
  | count (n : Nat)
  | text (s : String)
  | scalar (s : Scalar)
  | value? (v : Option Value)
  | number? (n : Option Nat)
  | numbers (ns : List Nat)
  | phase (p : Phase)
  | status? (s : Option Status)
  | pulses (ps : List Pulse)
  | edge? (e : Option Edge)
  | action (a : Option Action) (id : String)
  | graph (g : Graph)
  | view (r : Run)
  | diagnostics (log : Diagnostics)
  | board (reply : Blackboard.Reply)

namespace Run

def answer (r : Run) : Query → Answer
  | .view => .view r
  | .graph => .graph r.plan.graph
  | .action i => .action (r.plan.action? i) (r.plan.actionId i)
  | .indexOf id => .number? (r.plan.indexOf? id)
  | .start => .count r.plan.start
  | .ofKind kind => .numbers (r.plan.ofKind kind)
  | .leaving i => .numbers (r.plan.leaving i)
  | .entering i => .numbers (r.plan.entering i)
  | .edge t => .edge? (r.plan.edge? t)
  | .property i key => .value? (r.plan.property? i key)
  | .binding i name => .number? (r.plan.binding? i name)
  | .status i => .status? r.statuses[i]?
  | .phase i => .phase (r.phase i)
  | .deliveredTo i => .pulses (r.deliveredTo i)
  | .isRaised name => .flag (r.raised.contains name)
  | .hasTag tag => .flag (r.tags.contains tag)
  | .diagnostics => .diagnostics r.log
  | .mentions id needle => .flag (r.log.mentions id needle)
  | .interpolate template => .text (Template.fill r.board template)

def perform (r : Run) : Operation → Run × Answer
  | .ask q => (r, r.answer q)
  | .board a =>
    let (board, reply) := r.board.access a
    ({ r with board := board }, .board reply)
  | .propertyOr i key kind fallback => (r.propertyOr kind.read? i key fallback).map id .scalar
  | .requireProperty i key kind fallback =>
    (r.requireProperty kind.read? i key fallback).map id .scalar
  | .setStatus i s => (r.modifyStatus i fun _ => s, .flag (i < r.statuses.length))
  | .takeFresh i => (r.takeFresh i).map id .flag
  | .setPhase i phase => (r.setPhase i phase).map id .flag
  | .complete i => (r.complete i).map id .flag
  | .cancel i => (r.cancel i).map id .flag
  | .markPropagated i => (r.markPropagated i, .done)
  | .completeAndEmit i port => (r.completeAndEmit i port).map id .count
  | .emit i port => (r.emit i port).map id .count
  | .emitDefault i => (r.emitDefault i).map id .count
  | .enqueue p => (r.enqueue p, .done)
  | .raise name => (r.raise name, .done)
  | .setTag tag => (r.setTag tag, .done)
  | .clearTag tag => (r.clearTag tag).map id .flag
  | .warn i message => (r.warn i message, .done)

def performAll (r : Run) : List Operation → Run × List Answer
  | [] => (r, [])
  | op :: rest =>
    let (r, a) := r.perform op
    let (r, answers) := r.performAll rest
    (r, a :: answers)

end Run
end ActionGraph
