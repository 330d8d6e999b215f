import ActionGraph.Document.Node
import ActionGraph.Document.Scan
import ActionGraph.Number.Literal
namespace ActionGraph.Document.Toml

def moreDigits (p : Char → Bool) : List Char → List Char × List Char
  | '_' :: c :: cs =>
    if p c then
      let (digits, rest) := moreDigits p cs
      (c :: digits, rest)
    else ([], '_' :: c :: cs)
  | c :: cs =>
    if p c then
      let (digits, rest) := moreDigits p cs
      (c :: digits, rest)
    else ([], c :: cs)
  | [] => ([], [])

def digits (p : Char → Bool) : Scan (List Char)
  | [] => none
  | c :: cs => if p c then some (moreDigits p (c :: cs)) else none

def wholePart : Scan (List Char)
  | '0' :: cs => some (['0'], cs)
  | cs => digits Scan.isDigit cs

def fractionPart : Scan (List Char)
  | '.' :: cs => do
    let (ds, cs) ← digits Scan.isDigit cs
    return ('.' :: ds, cs)
  | cs => some ([], cs)

def exponentPart : Scan (List Char)
  | c :: cs =>
    if c = 'e' ∨ c = 'E' then
      let (sign, cs) := match cs with
        | '+' :: cs => (['+'], cs)
        | '-' :: cs => (['-'], cs)
        | cs => ([], cs)
      (digits Scan.isDigit cs).map fun (ds, cs) => ('e' :: sign ++ ds, cs)
    else some ([], c :: cs)
  | [] => some ([], [])

def ofInteger? (negative : Bool) (magnitude : Nat) : Option Numeral :=
  let n : Int := if negative then -magnitude else magnitude
  if isInt64 n then some (.whole n) else none

-- A float may not be too large, though it may be too small.
def ofFloat? (written : List Char) : Option Numeral := do
  let x ← Literal.read? written
  if x = .infinity false then none else return .real x

def decimal (sign : List Char) (cs : List Char) : Option (Numeral × List Char) := do
  let (whole, cs) ← wholePart cs
  let (fraction, cs) ← fractionPart cs
  let (exponent, cs) ← exponentPart cs
  if fraction.isEmpty ∧ exponent.isEmpty then
    return (← ofInteger? (sign = ['-']) (← Scan.inBase? 10 0 whole), cs)
  else return (← ofFloat? (sign ++ whole ++ fraction ++ exponent), cs)

def isOctal (c : Char) : Bool := '0' ≤ c && c ≤ '7'
def isBinary (c : Char) : Bool := c = '0' || c = '1'
def isHex (c : Char) : Bool := (Scan.hexValue? c).isSome

def inBase (base : Nat) (p : Char → Bool) (cs : List Char) : Option (Numeral × List Char) := do
  let (ds, cs) ← digits p cs
  return (← ofInteger? false (← Scan.inBase? base 0 ds), cs)

def signed (sign : List Char) : Scan Numeral
  | 'i' :: 'n' :: 'f' :: cs => some (.real (.infinity (sign = ['-'])), cs)
  | 'n' :: 'a' :: 'n' :: cs => some (.real (.nan (sign = ['-'])), cs)
  | cs => decimal sign cs

def number : Scan Numeral
  | '+' :: cs => signed ['+'] cs
  | '-' :: cs => signed ['-'] cs
  | '0' :: 'x' :: cs => inBase 16 isHex cs
  | '0' :: 'o' :: cs => inBase 8 isOctal cs
  | '0' :: 'b' :: cs => inBase 2 isBinary cs
  | cs => signed [] cs

end ActionGraph.Document.Toml
