import ActionGraph.Document.Node
import ActionGraph.Document.Scan
import ActionGraph.Document.Shape
import ActionGraph.Number.Literal
namespace ActionGraph.Document.Ron

def isSpace (c : Char) : Bool := c = ' ' || c = '\t' || c = '\n' || c = '\r'
def isNameStart (c : Char) : Bool := ('a' ≤ c && c ≤ 'z') || ('A' ≤ c && c ≤ 'Z') || c = '_'
def isNamePart (c : Char) : Bool := isNameStart c || Scan.isDigit c
def isRawPart (c : Char) : Bool := isNamePart c || c = '.' || c = '+' || c = '-'
def isIntPart (c : Char) : Bool := (Scan.hexValue? c).isSome || c = '_'
def isFloatPart (c : Char) : Bool :=
  Scan.isDigit c || c = '.' || c = 'e' || c = 'E' || c = '+' || c = '-' || c = '_'

inductive Between where
  | space
  | line
  | block (around : Nat)

def skipFrom : Between → List Char → Option (List Char)
  | .space, '/' :: '/' :: cs => skipFrom .line cs
  | .space, '/' :: '*' :: cs => skipFrom (.block 0) cs
  | .space, '/' :: _ => none
  | .space, c :: cs => if isSpace c then skipFrom .space cs else some (c :: cs)
  | .line, c :: cs => skipFrom (if c = '\n' then .space else .line) cs
  | .block n, '/' :: '*' :: cs => skipFrom (.block (n + 1)) cs
  | .block 0, '*' :: '/' :: cs => skipFrom .space cs
  | .block (n + 1), '*' :: '/' :: cs => skipFrom (.block n) cs
  | .block n, _ :: cs => skipFrom (.block n) cs
  | .block _, [] => none
  | _, [] => some []

def skip (cs : List Char) : Option (List Char) := skipFrom .space cs

def word? (w : String) (cs : List Char) : Option (List Char) := do
  let rest ← Scan.after? w.toList cs
  if (rest.head?.map isNamePart).getD false then none else some rest

def plainName (cs : List Char) : Option (String × List Char) :=
  let name := cs.takeWhile isNamePart
  if name.length < (cs.takeWhile isRawPart).length then none
  else some (String.ofList name, cs.drop name.length)

def name : Scan String
  | ['r'] => none
  | 'r' :: '"' :: _ => none
  | 'r' :: '#' :: cs =>
    let raw := cs.takeWhile isRawPart
    if raw.isEmpty then none else some (String.ofList raw, cs.drop raw.length)
  | c :: cs => if isNameStart c then plainName (c :: cs) else none
  | [] => none

def base : List Char → Nat × List Char
  | '0' :: 'x' :: cs => (16, cs)
  | '0' :: 'b' :: cs => (2, cs)
  | '0' :: 'o' :: cs => (8, cs)
  | cs => (10, cs)

def magnitude (cs : List Char) : Option (Nat × List Char) := do
  let (b, cs) := base cs
  let digits := cs.takeWhile isIntPart
  match digits with
  | [] | '_' :: _ => none
  | _ =>
    let n ← Scan.inBase? b 0 (digits.filter (· ≠ '_'))
    return (n, cs.drop digits.length)

def integer : Scan Numeral
  | '+' :: cs => do
    let (n, cs) ← magnitude cs
    if isInt64 n then return (.signed n, cs) else none
  | '-' :: cs => do
    let (n, cs) ← magnitude cs
    if isInt64 (-n) then return (.signed (-n), cs) else none
  | cs => do
    let (n, cs) ← magnitude cs
    if n < UInt64.size then return (.whole n, cs) else none

def specials : List (String × Binary64) :=
  [("inf", .infinity false), ("+inf", .infinity false), ("-inf", .infinity true),
   ("NaN", .nan false), ("+NaN", .nan false), ("-NaN", .nan true)]

def special? (cs : List Char) : Option (Numeral × List Char) :=
  specials.findSome? fun (w, x) => (word? w cs).map fun rest => (.real x, rest)

def float (cs : List Char) : Option (Numeral × List Char) :=
  match special? cs with
  | some found => some found
  | none => do
    let digits := cs.takeWhile isFloatPart
    let x ← Literal.read? digits
    return (.real x, cs.drop digits.length)

-- A number is a float if it has more float characters than integer ones, sign aside, and also if
-- it is no integer of 64 bits.
def number (cs : List Char) : Option (Numeral × List Char) :=
  let body := match cs with
    | '+' :: rest | '-' :: rest => rest
    | rest => rest
  if (body.takeWhile isIntPart).length < (body.takeWhile isFloatPart).length then float cs
  else match integer cs with
    | some found => some found
    | none => float cs

def bracedDigits : Nat → Nat → Scan Nat
  | _, n, '}' :: cs => some (n, cs)
  | fuel + 1, n, c :: cs => do bracedDigits fuel (16 * n + (← Scan.hexValue? c)) cs
  | _, _, _ => none

def escape : Scan Char
  | '\'' :: cs => some ('\'', cs)
  | '"' :: cs => some ('"', cs)
  | '\\' :: cs => some ('\\', cs)
  | 'n' :: cs => some ('\n', cs)
  | 'r' :: cs => some ('\r', cs)
  | 't' :: cs => some ('\t', cs)
  | '0' :: cs => some ('\x00', cs)
  | 'x' :: cs => do
    let (n, cs) ← Scan.hex 2 0 cs
    return (← Scan.charOf? n, cs)
  | 'u' :: '{' :: '}' :: _ => none
  | 'u' :: '{' :: cs => do
    let (n, cs) ← bracedDigits 6 0 cs
    return (← Scan.charOf? n, cs)
  | _ => none

def quoted : Nat → Scan (List Char)
  | 0, _ => none
  | fuel + 1, cs =>
    match cs with
    | [] => none
    | '"' :: cs => some ([], cs)
    | '\\' :: cs => do
      let (c, cs) ← escape cs
      let (rest, cs) ← quoted fuel cs
      return (c :: rest, cs)
    | c :: cs => do
      let (rest, cs) ← quoted fuel cs
      return (c :: rest, cs)

def rawBody (ending : List Char) : Scan (List Char)
  | [] => none
  | c :: cs =>
    match Scan.after? ending (c :: cs) with
    | some rest => some ([], rest)
    | none => (rawBody ending cs).map fun (body, rest) => (c :: body, rest)

def raw (cs : List Char) : Option (List Char × List Char) :=
  let hashes := cs.takeWhile (· = '#')
  match cs.drop hashes.length with
  | '"' :: cs => rawBody ('"' :: hashes) cs
  | _ => none

def char : Scan Char
  | '\\' :: cs => do
    match ← escape cs with
    | (c, '\'' :: cs) => return (c, cs)
    | _ => none
  | c :: '\'' :: cs => if c = '\'' then none else some (c, cs)
  | _ => none

def elements (close : Char) (item : Scan α) : Nat → Scan (List α)
  | 0, _ => none
  | fuel + 1, cs => do
    match ← skip cs with
    | [] => none
    | c :: cs =>
      if c = close then return ([], cs)
      else
        let (x, cs) ← item (c :: cs)
        match ← skip cs with
        | ',' :: cs =>
          let (xs, cs) ← elements close item fuel cs
          return (x :: xs, cs)
        | c :: cs => if c = close then return ([x], cs) else none
        | [] => none

def pair (key : Scan α) (value : α → Scan β) (cs : List Char) :
    Option ((α × β) × List Char) := do
  let (k, cs) ← key cs
  match ← skip cs with
  | ':' :: cs =>
    let (v, cs) ← value k (← skip cs)
    return ((k, v), cs)
  | _ => none

def startsField (cs : List Char) : Option Bool := do
  match name (← skip cs) with
  | none => return false
  | some (_, cs) =>
    match ← skip cs with
    | [] => none
    | c :: _ => return c = ':'

abbrev Parts := Shape → Scan Node

def body (fuel : Nat) (part : Parts) (shape : Shape) (owner : Option String) (cs : List Char) :
    Option (Node × List Char) := do
  if ← startsField cs then
    let (fields, cs) ← elements ')' (pair name fun key => part (shape.field key)) fuel cs
    return (.record owner fields, cs)
  else
    let (items, cs) ← elements ')' (part .free) fuel cs
    return (.tuple owner items, cs)

def afterName (fuel : Nat) (part : Parts) (shape : Shape) (owner : String) (cs : List Char) :
    Option (Node × List Char) := do
  match ← skip cs with
  | '(' :: cs => body fuel part shape (some owner) cs
  | cs => return (.symbol owner, cs)

def marked (unmarked : Bool) (inner : Scan Node) (cs : List Char) :
    Option (Node × List Char) := do
  match ← skip cs with
  | '(' :: cs =>
    let (n, cs) ← inner (← skip cs)
    let cs ← match ← skip cs with
      | ',' :: cs => skip cs
      | cs => some cs
    match cs with
    | ')' :: cs => return (.present n, cs)
    | _ => none
  | cs =>
    if unmarked then
      let (n, cs) ← inner cs
      return (.present n, cs)
    else none

-- A value that may be absent. Its mark need not end where a word would.
def optional (unmarked : Bool) (inner : Scan Node) (cs : List Char) : Option (Node × List Char) :=
  match Scan.after? "None".toList cs with
  | some cs => some (.null, cs)
  | none => match Scan.after? "Some".toList cs with
    | some cs => marked unmarked inner cs
    | none => if unmarked then (inner cs).map fun (n, cs) => (.present n, cs) else none

def keyword? (unmarked : Bool) (inner : Scan Node) (cs : List Char) :
    Option (Option (Node × List Char)) :=
  match word? "true" cs with
  | some cs => some (some (.bool true, cs))
  | none => match word? "false" cs with
    | some cs => some (some (.bool false, cs))
    | none => match word? "Some" cs with
      | some cs => some (marked unmarked inner cs)
      | none => match word? "None" cs with
        | some cs => some (some (.null, cs))
        | none => match special? cs with
          | some (x, cs) => some (some (.number x, cs))
          | none => none

def plain (unmarked : Bool) (fuel : Nat) (part : Parts) (shape : Shape) (cs : List Char) :
    Option (Node × List Char) :=
  match keyword? unmarked (part .free) cs with
  | some found => found
  | none => match name cs with
    | some (owner, cs) => afterName fuel part shape owner cs
    | none => match cs with
      | '(' :: ')' :: cs => some (.unit, cs)
      | '(' :: cs => body fuel part shape none cs
      | '[' :: cs => (elements ']' (part shape.item) fuel cs).map fun (xs, cs) => (.list xs, cs)
      | '{' :: cs =>
        (elements '}' (pair (part .free) fun _ => part .free) fuel cs).map
          fun (xs, cs) => (.dict xs, cs)
      | '"' :: cs => (quoted fuel cs).map fun (s, cs) => (.text (String.ofList s), cs)
      | 'r' :: cs => (raw cs).map fun (s, cs) => (.text (String.ofList s), cs)
      | '\'' :: cs => (char cs).map fun (c, cs) => (.char c, cs)
      | c :: _ =>
        if Scan.isDigit c || c = '+' || c = '-' || c = '.' then
          (number cs).map fun (n, cs) => (.number n, cs)
        else none
      | [] => none

-- A value at the head of a text that is no longer than the fuel; each part takes up some of both.
def value (unmarked : Bool) : Nat → Parts
  | 0 => fun _ _ => none
  | fuel + 1 => fun shape =>
    let plain := plain unmarked fuel (value unmarked fuel)
    match shape with
    | .optional => optional unmarked (plain .free)
    | shape => plain shape

def extensionNames : List String := ["unwrap_newtypes", "implicit_some", "unwrap_variant_newtypes"]

def wordsAfter? : List String → List Char → Option (List Char)
  | [], cs => some cs
  | w :: rest, cs => do wordsAfter? rest (← skip (← Scan.after? w.toList cs))

def extension : Scan String := fun cs => do
  let (n, cs) ← name cs
  if extensionNames.contains n then return (n, cs) else none

def extensions : Nat → Scan (List String)
  | 0, _ => none
  | fuel + 1, cs => do
    let (n, cs) ← extension cs
    match ← skip cs with
    | ',' :: cs =>
      let cs ← skip cs
      if (cs.head?.map isNamePart).getD false then
        let (ns, cs) ← extensions fuel cs
        return (n :: ns, cs)
      else return ([n], cs)
    | cs => return ([n], cs)

def attributes : Nat → Scan (List String)
  | 0, _ => none
  | fuel + 1, cs => do
    match cs with
    | '#' :: _ =>
      let cs ← wordsAfter? ["#", "!", "[", "enable", "("] cs
      let (ns, cs) ← extensions cs.length cs
      let cs ← wordsAfter? [")", "]"] cs
      let (more, cs) ← attributes fuel cs
      return (ns ++ more, cs)
    | cs => return ([], cs)

-- A document is one value, behind its attributes, which say whether present values may go
-- unmarked.
def read? (shape : Shape) (content : String) : Option Node := do
  let cs ← skip content.toList
  let (extensions, cs) ← attributes (cs.length + 1) cs
  let (node, cs) ← value (extensions.contains "implicit_some") (cs.length + 1) shape cs
  if (← skip cs).isEmpty then return node else none

end ActionGraph.Document.Ron
