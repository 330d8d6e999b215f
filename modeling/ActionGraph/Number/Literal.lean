import ActionGraph.Number.Rounding
-- Decimal numbers as people write them: `12`, `-.5`, `6.25e-1`, `+Infinity`, `nan`.
namespace ActionGraph.Literal

def isDigit (c : Char) : Bool := '0' ≤ c && c ≤ '9'

def value (digits : List Char) : Nat :=
  digits.foldl (fun n c => 10 * n + (c.toNat - '0'.toNat)) 0

def sign : List Char → Bool × List Char
  | '-' :: rest => (true, rest)
  | '+' :: rest => (false, rest)
  | rest => (false, rest)

def exponent? : List Char → Option Int
  | [] => some 0
  | c :: rest =>
    let (negative, digits) := sign rest
    if (c = 'e' ∨ c = 'E') ∧ digits ≠ [] ∧ digits.all isDigit then
      some (if negative then -(value digits : Int) else value digits)
    else none

def unsigned? (negative : Bool) (cs : List Char) : Option Binary64 :=
  let whole := cs.takeWhile isDigit
  let tail := cs.dropWhile isDigit
  let (fraction, tail) := match tail with
    | '.' :: rest => (rest.takeWhile isDigit, rest.dropWhile isDigit)
    | rest => ([], rest)
  if whole.isEmpty && fraction.isEmpty then none
  else (exponent? tail).map fun e =>
    Binary64.ofDecimal negative (value (whole ++ fraction)) (e - fraction.length)

def read? (cs : List Char) : Option Binary64 :=
  let (negative, body) := sign cs
  match String.ofList (body.map Char.toLower) with
  | "inf" | "infinity" => some (.infinity negative)
  | "nan" => some (.nan negative)
  | _ => unsigned? negative body

end ActionGraph.Literal
