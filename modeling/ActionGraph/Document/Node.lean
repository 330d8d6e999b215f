import ActionGraph.Number.Rounding
-- What the readers of the three formats make of a text: one tree type, wide enough for all of
-- them, that says what stood there and leaves its meaning to the schema.
namespace ActionGraph.Document

inductive Numeral where
  | whole (n : Int)
  -- An integer written with a sign in a format whose unsigned fields take none.
  | signed (n : Int)
  | real (x : Binary64)
  | outOfRange
  deriving DecidableEq

def isInt64 (n : Int) : Bool := Int64.minValue.toInt ≤ n && n ≤ Int64.maxValue.toInt

inductive Node where
  | null
  | bool (b : Bool)
  | number (n : Numeral)
  | text (s : String)
  -- A text with an escape that stands for no character; wrong only where the text is asked for.
  | brokenText
  | char (c : Char)
  | list (items : List Node)
  | dict (entries : List (Node × Node))
  | symbol (name : String)
  | present (inner : Node)
  | unit
  | tuple (name : Option String) (items : List Node)
  | record (name : Option String) (fields : List (String × Node))

namespace Node

-- How deep a tree nests: each bracket counts one, and each element in it `inside` more.
mutual
def height (inside : Nat) : Node → Nat
  | list items => 1 + tallest inside items
  | dict entries => 1 + tallestEntry inside entries
  | present inner => 1 + height inside inner
  | tuple _ items => 1 + tallest inside items
  | record _ fields => 1 + tallestField inside fields
  | _ => 0

def tallest (inside : Nat) : List Node → Nat
  | [] => 0
  | n :: rest => max (inside + height inside n) (tallest inside rest)

def tallestEntry (inside : Nat) : List (Node × Node) → Nat
  | [] => 0
  | (k, v) :: rest =>
    max (inside + max (height inside k) (height inside v)) (tallestEntry inside rest)

def tallestField (inside : Nat) : List (String × Node) → Nat
  | [] => 0
  | (_, v) :: rest => max (inside + height inside v) (tallestField inside rest)
end

mutual
def isSound : Node → Bool
  | number .outOfRange => false
  | brokenText => false
  | list items => allSound items
  | dict entries => entriesSound entries
  | present inner => isSound inner
  | tuple _ items => allSound items
  | record _ fields => fieldsSound fields
  | _ => true

def allSound : List Node → Bool
  | [] => true
  | n :: rest => isSound n && allSound rest

def entriesSound : List (Node × Node) → Bool
  | [] => true
  | (k, v) :: rest => isSound k && isSound v && entriesSound rest

def fieldsSound : List (String × Node) → Bool
  | [] => true
  | (_, v) :: rest => isSound v && fieldsSound rest
end

end Node
end ActionGraph.Document
