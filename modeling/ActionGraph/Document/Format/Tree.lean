import ActionGraph.Document.Format
import ActionGraph.Document.Node
import ActionGraph.Document.Reading
import ActionGraph.Keyed
-- How records, lists, tables and absent values stand in the trees of each format, and what it
-- costs to go into them.
namespace ActionGraph.Document

abbrev Members := List (String × Node)

namespace Format

def inside : Format → Nat
  | ron => 1
  | _ => 0

def limit? : Format → Option Nat
  | json => some 127
  | toml => none
  | ron => some 128

def text : Node → Reading String
  | .text s => pure s
  | _ => .fail

def word : Node → Reading Nat
  | .number (.whole n) => if 0 ≤ n ∧ n < UInt64.size then pure n.toNat else .fail
  | _ => .fail

def element (format : Format) (read : Node → Reading α) (n : Node) : Reading α :=
  .within format.inside (read n)

def list (format : Format) (item : Node → Reading α) : Node → Reading (List α)
  | .list items => .within 1 (items.mapM (format.element item))
  | _ => .fail

def named? : List (Node × Node) → Option (List (String × Node))
  | [] => some []
  | (.text key, n) :: rest => (named? rest).map ((key, n) :: ·)
  | _ :: _ => none

def table (format : Format) (item : Node → Reading α) : Node → Reading (Keyed α)
  | .dict entries => .within 1 do
    let pairs ← .ofOption (named? entries)
    return Keyed.ofList (← pairs.mapM fun (key, n) => do return (key, ← format.element item n))
  | _ => .fail

def option (format : Format) (read : Node → Reading α) (n : Node) : Reading (Option α) :=
  match format, n with
  | json, .null => pure none
  | json, n => some <$> read n
  | toml, n => some <$> read n
  | ron, .null => pure none
  | ron, .present inner => .within 1 (some <$> read inner)
  | ron, _ => .fail

-- Known fields may be given once. Unknown ones are passed over; some formats look into them for
-- that.
def select (format : Format) (names : List String) (fields : List (String × Node)) :
    Reading Members :=
  let (known, others) := fields.partition fun field => names.contains field.1
  if (known.map (·.1)).Nodup then
    .within (if format = ron then Node.tallestField format.inside others else 0) (pure known)
  else .fail

-- A record by its fields' names, or by their order where the format lets a list stand for one.
-- `owner` is the name that it may carry; a `closed` one has no unknown fields.
def members (format : Format) (owner : Option String) (closed : Bool) (names : List String)
    (n : Node) : Reading Members :=
  match format, n with
  | json, .dict entries => do format.select names (← .ofOption (named? entries))
  | json, .list items => if items.length ≤ names.length then pure (names.zip items) else .fail
  | toml, .dict entries => do
    let fields ← .ofOption (named? entries)
    if closed && !fields.all fun field => names.contains field.1 then .fail
    else format.select names fields
  | toml, .list items => pure (names.zip items)
  | ron, .record name fields =>
    if name.isNone ∨ name = owner then format.select names fields else .fail
  | ron, .unit => pure []
  | ron, .tuple name [] => if name.isNone ∨ name = owner then pure [] else .fail
  | _, _ => .fail

def record (format : Format) (owner : Option String) (closed : Bool) (names : List String)
    (n : Node) (read : Members → Reading α) : Reading α :=
  .within 1 (format.members owner closed names n >>= read)

def required (format : Format) (name : String) (read : Node → Reading α) (m : Members) :
    Reading α :=
  match m.lookup name with
  | some n => format.element read n
  | none => .fail

def defaulted (format : Format) (name : String) (read : Node → Reading α) (fallback : α)
    (m : Members) : Reading α :=
  match m.lookup name with
  | some n => format.element read n
  | none => pure fallback

end Format
end ActionGraph.Document
