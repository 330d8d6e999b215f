import ActionGraph.Document.Node
-- Tables while they are put together. A table remembers how it came to be, because that decides
-- who may still add to it.
namespace ActionGraph.Document.Toml

inductive Origin where
  | declared
  | passed
  | dotted
  deriving DecidableEq

structure TableOf (ι : Type) where
  origin : Origin
  entries : List (String × ι)

inductive Item where
  | value (n : Node)
  | table (t : TableOf Item)
  | tables (newest : TableOf Item) (older : List (TableOf Item))

abbrev Table := TableOf Item

structure Key where
  path : List String
  last : String

namespace Table

def empty (origin : Origin) : Table := ⟨origin, []⟩

def get? (t : Table) (key : String) : Option Item := t.entries.lookup key

def put (t : Table) (key : String) (item : Item) : Table :=
  ⟨t.origin, (key, item) :: t.entries.filter (·.1 ≠ key)⟩

-- Changes the table at the end of a path. Tables that are not there are made; of a list of tables
-- the newest is meant. A dotted key may not go through a declared table.
def alter (made : Origin) (change : Table → Option Table) : List String → Table → Option Table
  | [], t => change t
  | key :: path, t => do
    match t.get? key with
    | none => return t.put key (.table (← alter made change path (empty made)))
    | some (.value _) => none
    | some (.tables newest older) => return t.put key (.tables (← alter made change path newest) older)
    | some (.table inner) =>
      if made = .dotted ∧ inner.origin = .declared then none
      else return t.put key (.table (← alter made change path inner))

-- A pair is added where no entry stands, and by a dotted key only to a table that dotted keys made.
def assign (key : Key) (value : Node) (t : Table) : Option Table :=
  t.alter .dotted (fun inner =>
    if key.path ≠ [] ∧ inner.origin ≠ .dotted then none
    else match inner.get? key.last with
      | some _ => none
      | none => some (inner.put key.last (.value value))) key.path

def declare (key : Key) (t : Table) : Option Table :=
  t.alter .passed (fun owner =>
    match owner.get? key.last with
    | none => some (owner.put key.last (.table (empty .declared)))
    | some (.table inner) =>
      if inner.origin = .passed then
        some (owner.put key.last (.table ⟨.declared, inner.entries⟩))
      else none
    | some _ => none) key.path

def extend (key : Key) (t : Table) : Option Table :=
  t.alter .passed (fun owner =>
    match owner.get? key.last with
    | none => some (owner.put key.last (.tables (empty .declared) []))
    | some (.tables newest older) =>
      some (owner.put key.last (.tables (empty .declared) (newest :: older)))
    | some _ => none) key.path

def ofPairs? (pairs : List (Key × Node)) : Option Table :=
  pairs.foldlM (fun t (key, value) => t.assign key value) (empty .declared)

end Table

mutual
def Item.node : Item → Node
  | .value n => n
  | .table ⟨_, entries⟩ => .dict (entryNodes entries)
  | .tables ⟨_, entries⟩ older => .list (tableNodes older ++ [.dict (entryNodes entries)])

def entryNodes : List (String × Item) → List (Node × Node)
  | [] => []
  | (key, item) :: rest => (.text key, item.node) :: entryNodes rest

def tableNodes : List Table → List Node
  | [] => []
  | ⟨_, entries⟩ :: rest => tableNodes rest ++ [.dict (entryNodes entries)]
end

def Table.node (t : Table) : Node := (Item.table t).node

end ActionGraph.Document.Toml
