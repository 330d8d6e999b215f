import ActionGraph.Number.Literal
import ActionGraph.Number.Shortest
import ActionGraph.Text.Blank
-- The dynamic values that properties and the blackboard hold, with the views that readers take.
namespace ActionGraph

inductive Value where
  | int (n : Int64)
  | float (x : Binary64)
  | bool (b : Bool)
  | text (s : String)
  | member (name : String)
  deriving DecidableEq

namespace Value

def typeName : Value → String
  | int _ => "int"
  | float _ => "float"
  | bool _ => "bool"
  | text _ => "string"
  | member _ => "enum"

def int? : Value → Option Int64
  | int n => some n
  | _ => none

def float? : Value → Option Binary64
  | int n => some (.ofInt n.toInt)
  | float x => some x
  | _ => none

def bool? : Value → Option Bool
  | bool b => some b
  | _ => none

def text? : Value → Option String
  | text s => some s
  | member s => some s
  | _ => none

def below? (bound : Nat) (v : Value) : Option Nat :=
  v.int?.bind fun n => if 0 ≤ n.toInt ∧ n.toInt < bound then some n.toInt.toNat else none

def u32? : Value → Option Nat := below? UInt32.size
def u64? : Value → Option Nat := below? UInt64.size

-- The numeric view of comparisons: a text that is written as a number counts as that number.
def number? : Value → Option Binary64
  | int n => some (.ofInt n.toInt)
  | float x => some x
  | text s => Literal.read? (Text.trimmed s.toList)
  | bool _ => none
  | member _ => none

def toText : Value → String
  | int n => toString n.toInt
  | float x => Shortest.text x
  | bool b => if b then "true" else "false"
  | text s => s
  | member s => s

end Value

inductive Kind where
  | i64 | u32 | u64 | f64 | bool | text | any
  deriving DecidableEq

inductive Scalar where
  | int (n : Int64)
  | nat (n : Nat)
  | float (x : Binary64)
  | bool (b : Bool)
  | text (s : String)
  | any (v : Value)
  deriving DecidableEq

namespace Kind

def read? : Kind → Value → Option Scalar
  | i64, v => v.int?.map .int
  | u32, v => v.u32?.map .nat
  | u64, v => v.u64?.map .nat
  | f64, v => v.float?.map .float
  | bool, v => v.bool?.map .bool
  | text, v => v.text?.map .text
  | any, v => some (.any v)

def blank : Kind → Scalar
  | i64 => .int 0
  | u32 => .nat 0
  | u64 => .nat 0
  | f64 => .float (.zero false)
  | bool => .bool false
  | text => .text ""
  | any => .any (.text "")

end Kind
end ActionGraph
