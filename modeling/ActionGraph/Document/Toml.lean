import ActionGraph.Document.Toml.Moment
import ActionGraph.Document.Toml.Number
import ActionGraph.Document.Toml.Table
import ActionGraph.Document.Toml.Text
-- TOML texts as trees: a text is a list of statements, which put a table together. Scanners are
-- given fuel for the whole text.
namespace ActionGraph.Document.Toml

def maxDepth : Nat := 79

def isBare (c : Char) : Bool :=
  Scan.isDigit c || ('a' ≤ c && c ≤ 'z') || ('A' ≤ c && c ≤ 'Z') || c = '_' || c = '-'

def keyPart (fuel : Nat) (cs : List Char) : Option (String × List Char) :=
  let bare := cs.takeWhile isBare
  if bare.isEmpty then (oneLine fuel cs).map fun (s, cs) => (String.ofList s, cs)
  else some (String.ofList bare, cs.drop bare.length)

def dottedKey (fuel : Nat) : Nat → Scan Key
  | 0, _ => none
  | parts + 1, cs => do
    let (part, cs) ← keyPart fuel (skip cs)
    match skip cs with
    | '.' :: cs =>
      let (key, cs) ← dottedKey fuel parts cs
      return (⟨part :: key.path, key.last⟩, cs)
    | cs => return (⟨[], part⟩, cs)

def key (fuel : Nat) : Scan Key := dottedKey fuel maxDepth

def pair (fuel : Nat) (value : Scan Node) (cs : List Char) :
    Option ((Key × Node) × List Char) := do
  let (k, cs) ← key fuel cs
  let (v, cs) ← value (skip (← Scan.after? ['='] cs))
  return ((k, v), cs)

def scalar (fuel : Nat) (cs : List Char) : Option (Node × List Char) :=
  match cs with
  | 't' :: 'r' :: 'u' :: 'e' :: cs => some (.bool true, cs)
  | 'f' :: 'a' :: 'l' :: 's' :: 'e' :: cs => some (.bool false, cs)
  | cs =>
    match text fuel cs with
    | some (s, cs) => some (.text (String.ofList s), cs)
    | none =>
      match moment cs with
      | some found => some found
      | none => (number cs).map fun (n, cs) => (.number n, cs)

def elements (value : Scan Node) : Nat → Scan (List Node)
  | 0, _ => none
  | fuel + 1, cs => do
    match gap false cs with
    | ']' :: cs => return ([], cs)
    | cs =>
      let (n, cs) ← value cs
      match gap false cs with
      | ',' :: cs =>
        let (ns, cs) ← elements value fuel cs
        return (n :: ns, cs)
      | ']' :: cs => return ([n], cs)
      | _ => none

-- Pairs up to the closing brace, on one line and without a comma at the end.
def pairs (value : Scan Node) : Nat → Scan (List (Key × Node))
  | 0, _ => none
  | fuel + 1, cs => do
    let (p, cs) ← pair (fuel + 1) value cs
    match skip cs with
    | ',' :: cs =>
      let (ps, cs) ← pairs value fuel cs
      return (p :: ps, cs)
    | '}' :: cs => return ([p], cs)
    | _ => none

def braced (fuel : Nat) (value : Scan Node) (cs : List Char) : Option (Node × List Char) :=
  match skip cs with
  | '}' :: cs => some (.dict [], cs)
  | cs => do
    let (ps, cs) ← pairs value fuel cs
    return ((← Table.ofPairs? ps).node, cs)

def value (fuel : Nat) : Nat → Scan Node
  | 0 => scalar fuel
  | levels + 1 => fun cs =>
    match cs with
    | '[' :: cs => (elements (value fuel levels) fuel cs).map fun (ns, cs) => (.list ns, cs)
    | '{' :: cs => braced fuel (value fuel levels) cs
    | cs => scalar fuel cs

inductive Statement where
  | pair (key : Key) (value : Node)
  | table (key : Key)
  | element (key : Key)

def statement (fuel : Nat) (cs : List Char) : Option (Statement × List Char) := do
  match cs with
  | '[' :: '[' :: cs =>
    let (k, cs) ← key fuel cs
    return (.element k, ← Scan.after? [']', ']'] cs)
  | '[' :: cs =>
    let (k, cs) ← key fuel cs
    return (.table k, ← Scan.after? [']'] cs)
  | cs =>
    let ((k, v), cs) ← pair fuel (value fuel maxDepth) cs
    return (.pair k v, cs)

def statements : Nat → List Char → Option (List Statement)
  | 0, _ => none
  | fuel + 1, cs => do
    if cs.isEmpty then return []
    match lineEnd? cs with
    | some cs => statements fuel cs
    | none =>
      let (s, cs) ← statement (fuel + 1) (skip cs)
      return s :: (← statements fuel (← lineEnd? cs))

def Key.whole (k : Key) : List String := k.path ++ [k.last]

def build : List Statement → List String → Table → Option Table
  | [], _, root => some root
  | .pair k v :: rest, here, root => do
    build rest here (← root.alter .passed (Table.assign k v) here)
  | .table k :: rest, _, root => do build rest k.whole (← root.declare k)
  | .element k :: rest, _, root => do build rest k.whole (← root.extend k)

def read? (content : String) : Option Node := do
  let cs := match content.toList with
    | '\uFEFF' :: cs => cs
    | cs => cs
  let root ← build (← statements (cs.length + 1) cs) [] (.empty .declared)
  return root.node

end ActionGraph.Document.Toml
