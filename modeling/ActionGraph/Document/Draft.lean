import ActionGraph.Graph
-- A graph as its document has it. Resolving a draft puts every part of it into the graph's own
-- types; operators of guards are still texts, and reading them is the one step that can fail.
namespace ActionGraph.Document

inductive ValueDraft where
  | bool (b : Bool)
  | int (n : Int64)
  | float (x : Binary64)
  | text (s : String)
  | member (name : String)

structure ActionDraft where
  id : String
  kind : String
  properties : Keyed ValueDraft := ∅
  bindings : Keyed Nat := ∅

inductive GuardDraft where
  | immediate
  | delay (ticks : Nat)
  | expression (key op : String) (value : ValueDraft)
  | tag (name : String)
  | event (name : String)
  | allOf (parts : List GuardDraft)
  | anyOf (parts : List GuardDraft)

structure EdgeDraft where
  source : String
  target : String
  sourcePort : String := "out"
  targetPort : String := "in"
  guard : Option GuardDraft := none

structure Draft where
  actions : List ActionDraft
  edges : List EdgeDraft := []
  board : Keyed ValueDraft := ∅

def ValueDraft.resolve : ValueDraft → Value
  | bool b => .bool b
  | int n => .int n
  | float x => .float x
  | text s => .text s
  | member name => .member name

def ActionDraft.resolve (a : ActionDraft) : Action where
  id := a.id
  kind := a.kind
  properties := a.properties.map ValueDraft.resolve
  bindings := a.bindings

namespace GuardDraft

mutual
def operators : GuardDraft → List String
  | expression _ op _ => [op]
  | allOf parts => operatorsOfAll parts
  | anyOf parts => operatorsOfAll parts
  | _ => []

def operatorsOfAll : List GuardDraft → List String
  | [] => []
  | g :: rest => operators g ++ operatorsOfAll rest
end

mutual
def resolve : GuardDraft → Except String Guard
  | immediate => .ok .immediate
  | delay ticks => .ok (.delay ticks)
  | expression key op value =>
    match Comparison.read? op with
    | none => .error op
    | some comparison => .ok (.expression key comparison value.resolve)
  | tag name => .ok (.tag name)
  | event name => .ok (.event name)
  | allOf parts => (resolveAll parts).map .allOf
  | anyOf parts => (resolveAll parts).map .anyOf

def resolveAll : List GuardDraft → Except String (List Guard)
  | [] => .ok []
  | g :: rest => do
    let first ← resolve g
    return first :: (← resolveAll rest)
end

end GuardDraft

structure UnknownOperator where
  edge : Nat
  op : String
  deriving DecidableEq

def UnknownOperator.message (u : UnknownOperator) : String :=
  "invalid value in transition " ++ toString u.edge ++ ": unknown comparison operator '" ++ u.op ++ "'"

namespace EdgeDraft

def operators (e : EdgeDraft) : List String := (e.guard.map GuardDraft.operators).getD []

def resolve (e : EdgeDraft) : Except String Edge := do
  let guard ← match e.guard with
    | none => .ok none
    | some g => g.resolve.map some
  return ⟨e.source, e.target, e.sourcePort, e.targetPort, guard⟩

def resolveFrom : Nat → List EdgeDraft → Except UnknownOperator (List Edge)
  | _, [] => .ok []
  | i, e :: rest => do
    let first ← e.resolve.mapError (UnknownOperator.mk i)
    return first :: (← resolveFrom (i + 1) rest)

end EdgeDraft

def Draft.resolve (d : Draft) : Except UnknownOperator Graph := do
  let edges ← EdgeDraft.resolveFrom 0 d.edges
  return ⟨d.actions.map ActionDraft.resolve, edges, d.board.map ValueDraft.resolve⟩

end ActionGraph.Document
