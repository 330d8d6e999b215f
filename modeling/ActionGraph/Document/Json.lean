import ActionGraph.Document.Node
import ActionGraph.Document.Scan
namespace ActionGraph.Document.Json

def isSpace (c : Char) : Bool := c = ' ' || c = '\t' || c = '\n' || c = '\r'

def skip (cs : List Char) : List Char := cs.dropWhile isSpace

def maxWord : Nat := UInt64.size - 1

def takeUp : Nat → List Char → Nat × List Char
  | significand, [] => (significand, [])
  | significand, c :: cs =>
    let next := 10 * significand + (c.toNat - '0'.toNat)
    if maxWord < next then (significand, c :: cs) else takeUp next cs

def powerOfTen (e : Nat) : Binary64 := .nearest false (Nat.pow 10 e) 1

-- The significand times a power of ten, rounded after each step. Powers beyond the largest of
-- the format are split off one at a time; after three of them nothing is left.
def scaleBy : Nat → Binary64 → Int → Option Binary64
  | 0, _, _ => none
  | fuel + 1, x, e =>
    if e.natAbs ≤ 308 then
      let y := if 0 ≤ e then x.times (powerOfTen e.natAbs) else x.dividedBy (powerOfTen e.natAbs)
      if y.isInfinite then none else some y
    else if x.magnitude = 0 then some x
    else if 0 ≤ e then none
    else scaleBy fuel (x.dividedBy (powerOfTen 308)) (e + 308)

def ofParts (negative : Bool) (significand : Nat) (e : Int) : Numeral :=
  match scaleBy 4 (.ofInt significand) e with
  | none => .outOfRange
  | some x => .real (if negative then .ofMagnitude true x.magnitude else x)

def withExponent (negative : Bool) (significand : Nat) (shift : Int) (down : Bool)
    (digits : List Char) : Numeral :=
  match Scan.inBase? 10 0 digits with
  | none => .outOfRange
  | some e =>
    if Int32.maxValue.toInt < e then
      if significand ≠ 0 ∧ ¬down then .outOfRange else .real (.zero negative)
    else ofParts negative significand (if down then shift - e else shift + e)

structure Parts where
  negative : Bool
  whole : List Char
  fraction : Option (List Char)
  exponent : Option (Bool × List Char)

-- An integer that fits is kept as one; negative zero and all larger ones become floats.
def Parts.numeral (p : Parts) : Numeral :=
  let (significand, long) := takeUp 0 p.whole
  match p.fraction, p.exponent with
  | none, none =>
    if long ≠ [] then ofParts p.negative significand long.length
    else if ¬p.negative then .whole significand
    else if significand = 0 ∨ ¬isInt64 (-significand) then
      .real (.ofMagnitude true (Binary64.ofInt significand).magnitude)
    else .whole (-significand)
  | fraction, exponent =>
    let digits := fraction.getD []
    let (significand, unused) := takeUp significand digits
    let shift : Int := long.length - (digits.length - unused.length : Nat)
    match exponent with
    | none => ofParts p.negative significand shift
    | some (down, e) => withExponent p.negative significand shift down e

def whole : Scan (List Char)
  | '0' :: cs => if (cs.head?.map Scan.isDigit).getD false then none else some (['0'], cs)
  | cs =>
    let digits := cs.takeWhile Scan.isDigit
    if digits.isEmpty then none else some (digits, cs.dropWhile Scan.isDigit)

def fraction : Scan (Option (List Char))
  | '.' :: cs =>
    let digits := cs.takeWhile Scan.isDigit
    if digits.isEmpty then none else some (some digits, cs.dropWhile Scan.isDigit)
  | cs => some (none, cs)

def exponentDigits (down : Bool) : Scan (Option (Bool × List Char)) := fun cs =>
  let digits := cs.takeWhile Scan.isDigit
  if digits.isEmpty then none else some (some (down, digits), cs.dropWhile Scan.isDigit)

def exponent : Scan (Option (Bool × List Char))
  | [] => some (none, [])
  | c :: cs =>
    if c = 'e' ∨ c = 'E' then
      match cs with
      | '+' :: cs => exponentDigits false cs
      | '-' :: cs => exponentDigits true cs
      | cs => exponentDigits false cs
    else some (none, c :: cs)

def number (cs : List Char) : Option (Node × List Char) := do
  let (negative, cs) := match cs with
    | '-' :: cs => (true, cs)
    | cs => (false, cs)
  let (whole, cs) ← whole cs
  let (fraction, cs) ← fraction cs
  let (exponent, cs) ← exponent cs
  return (.number (Parts.numeral ⟨negative, whole, fraction, exponent⟩), cs)

def shortEscape? : Char → Option Char
  | '"' => some '"'
  | '\\' => some '\\'
  | '/' => some '/'
  | 'b' => some '\x08'
  | 'f' => some '\x0c'
  | 'n' => some '\n'
  | 'r' => some '\r'
  | 't' => some '\t'
  | _ => none

-- The code units of a text up to its closing quote. Escapes may name half of a pair; control
-- characters must be escaped.
def units : Nat → Scan (List Nat)
  | 0, _ => none
  | fuel + 1, cs =>
    match cs with
    | [] => none
    | '"' :: cs => some ([], cs)
    | '\\' :: 'u' :: cs => do
      let (n, cs) ← Scan.hex 4 0 cs
      let (ns, cs) ← units fuel cs
      return (n :: ns, cs)
    | '\\' :: c :: cs => do
      let c ← shortEscape? c
      let (ns, cs) ← units fuel cs
      return (c.toNat :: ns, cs)
    | ['\\'] => none
    | c :: cs => do
      if c.toNat < 0x20 then none
      else
        let (ns, cs) ← units fuel cs
        return (c.toNat :: ns, cs)

def join? : List Nat → Option (List Char)
  | [] => some []
  | n :: rest =>
    if 0xD800 ≤ n ∧ n < 0xDC00 then
      match rest with
      | low :: rest =>
        if 0xDC00 ≤ low ∧ low < 0xE000 then do
          let c ← Scan.charOf? (0x10000 + (n - 0xD800) * 0x400 + (low - 0xDC00))
          return c :: (← join? rest)
        else none
      | [] => none
    else do
      let c ← Scan.charOf? n
      return c :: (← join? rest)

def text (fuel : Nat) (cs : List Char) : Option (Node × List Char) := do
  let (ns, cs) ← units fuel cs
  match join? ns with
  | some chars => return (.text (String.ofList chars), cs)
  | none => return (.brokenText, cs)

def more (close : Char) (item : Scan α) : Nat → Scan (List α)
  | 0, _ => none
  | fuel + 1, cs =>
    match skip cs with
    | ',' :: cs => do
      let (x, cs) ← item (skip cs)
      let (xs, cs) ← more close item fuel cs
      return (x :: xs, cs)
    | c :: cs => if c = close then some ([], cs) else none
    | [] => none

def series (fuel : Nat) (close : Char) (item : Scan α) (cs : List Char) :
    Option (List α × List Char) :=
  match skip cs with
  | [] => none
  | c :: rest =>
    if c = close then some ([], rest)
    else do
      let (x, cs) ← item (c :: rest)
      let (xs, cs) ← more close item fuel cs
      return (x :: xs, cs)

def entry (fuel : Nat) (value : Scan Node) : Scan (Node × Node)
  | '"' :: cs => do
    let (key, cs) ← text fuel cs
    match skip cs with
    | ':' :: cs =>
      let (v, cs) ← value (skip cs)
      return ((key, v), cs)
    | _ => none
  | _ => none

-- A value at the head of a text that is no longer than the fuel; each bracket takes up some of
-- both.
def value : Nat → Scan Node
  | 0 => fun _ => none
  | fuel + 1 => fun cs =>
    match cs with
    | '"' :: cs => text fuel cs
    | '[' :: cs => (series fuel ']' (value fuel) cs).map fun (xs, cs) => (.list xs, cs)
    | '{' :: cs =>
      (series fuel '}' (entry fuel (value fuel)) cs).map fun (xs, cs) => (.dict xs, cs)
    | 't' :: 'r' :: 'u' :: 'e' :: cs => some (.bool true, cs)
    | 'f' :: 'a' :: 'l' :: 's' :: 'e' :: cs => some (.bool false, cs)
    | 'n' :: 'u' :: 'l' :: 'l' :: cs => some (.null, cs)
    | cs => number cs

def read? (content : String) : Option Node := do
  let cs := content.toList
  let (node, rest) ← value cs.length (skip cs)
  if (skip rest).isEmpty then some node else none

end ActionGraph.Document.Json
