import ActionGraph.Config
import ActionGraph.Document.Draft
import ActionGraph.Document.Format.Tree
import ActionGraph.Document.Shape
namespace ActionGraph.Document

structure Schema (α : Type) where
  shape : Shape
  read : Format → Node → Reading α

namespace Schema

def ofInteger (n : Int) : ValueDraft :=
  if isInt64 n then .int (Int64.ofInt n) else .float (.ofInt n)

def memberField : String := "enum"

-- Whether a key names the field of a member. Small integers are taken as places of fields, as
-- are those of 64 bits; the ones between are no keys.
def isMemberKey? : Node → Option Bool
  | .text key => some (key = memberField)
  | .number (.whole n) =>
    if n = 0 then some true else if n < UInt8.size ∨ UInt32.size ≤ n then some false else none
  | _ => none

def atMember? : List (Node × Node) → Option (List Node)
  | [] => some []
  | (key, n) :: rest => do
    let found ← atMember? rest
    if ← isMemberKey? key then return n :: found else return found

def member? : List Node → Option ValueDraft
  | [.text name] => some (.member name)
  | _ => none

def scalar? : Node → Option ValueDraft
  | .bool b => some (.bool b)
  | .number (.whole n) => some (ofInteger n)
  | .number (.signed n) => some (ofInteger n)
  | .number (.real x) => some (.float x)
  | .text s => some (.text s)
  | .dict entries => (atMember? entries).bind member?
  | .record _ fields => member? ((fields.filter (·.1 = memberField)).map (·.2))
  | _ => none

-- The whole tree is read before it is taken for a value, parts without a meaning included.
def value (f : Format) (n : Node) : Reading ValueDraft :=
  if n.isSound then .within (n.height f.inside) (.ofOption (scalar? n)) else .fail

def delay (f : Format) (m : Members) : Reading GuardDraft := do
  return .delay (← f.required "ticks" Format.word m)

def expression (f : Format) (m : Members) : Reading GuardDraft := do
  return .expression (← f.required "key" Format.text m)
    (← f.defaulted "op" Format.text Comparison.equal.symbol m)
    (← f.required "value" (value f) m)

def tag (f : Format) (m : Members) : Reading GuardDraft := do
  return .tag (← f.required "tag" Format.text m)

def event (f : Format) (m : Members) : Reading GuardDraft := do
  return .event (← f.required "name" Format.text m)

def bare (name : String) : Reading GuardDraft :=
  if name = "immediate" then pure .immediate else .fail

def isUnit : Format → Node → Bool
  | .json, .null => true
  | .toml, .dict [] => true
  | .toml, .list [] => true
  | _, _ => false

def plain (f : Format) (name : String) (body : Node) : Reading GuardDraft :=
  match name with
  | "immediate" => if isUnit f body then pure .immediate else .fail
  | "delay" => f.record none true ["ticks"] body (delay f)
  | "expression" => f.record none true ["key", "op", "value"] body (expression f)
  | "tag" => f.record none true ["tag"] body (tag f)
  | "event" => f.record none true ["name"] body (event f)
  | _ => .fail

def combined? (name : String) : Option (List GuardDraft → GuardDraft) :=
  match name with
  | "all_of" => some .allOf
  | "any_of" => some .anyOf
  | _ => none

mutual
def guard (f : Format) : Node → Reading GuardDraft
  | .text name => if f = .ron then .fail else bare name
  | .symbol name => if f = .ron then .within 2 (bare name) else .fail
  | .dict [(.text name, body)] =>
    if f = .ron then .fail
    else .within 1 <| match combined? name with
      | some combine => combine <$> parts f body
      | none => plain f name body
  | .tuple (some name) [body] =>
    match combined? name with
    | some combine => if f = .ron then .within 2 (combine <$> parts f body) else .fail
    | none => .fail
  | .tuple (some name) items =>
    if f = .ron then .within 1 (plain f name (.tuple none items)) else .fail
  | .record (some name) fields =>
    if f = .ron then .within 1 (plain f name (.record none fields)) else .fail
  | _ => .fail

def parts (f : Format) : Node → Reading (List GuardDraft)
  | .list items => .within 1 (guards f items)
  | _ => .fail

def guards (f : Format) : List Node → Reading (List GuardDraft)
  | [] => pure []
  | n :: rest => do
    let first ← .within f.inside (guard f n)
    return first :: (← guards f rest)
end

def action (f : Format) (n : Node) : Reading ActionDraft :=
  f.record (some "ActionData") false ["id", "type", "properties", "bindings"] n fun m => do
    return {
      id := ← f.required "id" Format.text m
      kind := ← f.required "type" Format.text m
      properties := ← f.defaulted "properties" (f.table (value f)) ∅ m
      bindings := ← f.defaulted "bindings" (f.table Format.word) ∅ m }

def edge (f : Format) (n : Node) : Reading EdgeDraft :=
  let names := ["from", "from_port", "to", "to_port", "condition"]
  f.record (some "TransitionData") false names n fun m => do
    return {
      source := ← f.required "from" Format.text m
      target := ← f.required "to" Format.text m
      sourcePort := ← f.defaulted "from_port" Format.text "out" m
      targetPort := ← f.defaulted "to_port" Format.text "in" m
      guard := ← f.defaulted "condition" (f.option (guard f)) none m }

def readDraft (f : Format) (n : Node) : Reading Draft :=
  f.record (some "GraphDocument") false ["actions", "transitions", "blackboard"] n fun m => do
    return {
      actions := ← f.required "actions" (f.list (action f)) m
      edges := ← f.defaulted "transitions" (f.list (edge f)) [] m
      board := ← f.defaulted "blackboard" (f.table (value f)) ∅ m }

def draft : Schema Draft where
  shape := .record [("transitions", .list (.record [("condition", .optional)]))]
  read := readDraft

def readConfig (f : Format) (n : Node) : Reading Config :=
  let names := ["history_capacity", "default_max_ticks", "max_diagnostics"]
  let fallback : Config := {}
  f.record (some "RunnerConfig") false names n fun m => do
    return {
      historyCapacity :=
        ← f.defaulted "history_capacity" (f.option Format.word) fallback.historyCapacity m
      defaultMaxTicks := ← f.defaulted "default_max_ticks" Format.word fallback.defaultMaxTicks m
      maxDiagnostics := ← f.defaulted "max_diagnostics" Format.word fallback.maxDiagnostics m }

def config : Schema Config where
  shape := .record [("history_capacity", .optional)]
  read := readConfig

end Schema
end ActionGraph.Document
