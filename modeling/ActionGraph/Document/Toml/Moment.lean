import ActionGraph.Document.Node
import ActionGraph.Document.Scan
-- Dates and times of a TOML text. No field of a schema asks for one; whoever takes a table gets
-- one with a reserved key.
namespace ActionGraph.Document.Toml

def figures (count least most : Nat) (cs : List Char) : Option (List Char × List Char) := do
  let ds := cs.take count
  if ds.length = count ∧ ds.all Scan.isDigit then
    let n ← Scan.inBase? 10 0 ds
    if least ≤ n ∧ n ≤ most then return (ds, cs.drop count) else none
  else none

def mark (c : Char) (cs : List Char) : Option (List Char) := Scan.after? [c] cs

def isLeap (year : Nat) : Bool := year % 4 = 0 && (year % 100 ≠ 0 || year % 400 = 0)

def daysOf (year month : Nat) : Nat :=
  if month = 2 then (if isLeap year then 29 else 28)
  else if [4, 6, 9, 11].contains month then 30
  else 31

def date (cs : List Char) : Option (List Char × List Char) := do
  let (year, cs) ← figures 4 0 9999 cs
  let (month, cs) ← figures 2 1 12 (← mark '-' cs)
  let days := daysOf (← Scan.inBase? 10 0 year) (← Scan.inBase? 10 0 month)
  let (day, cs) ← figures 2 1 days (← mark '-' cs)
  return (year ++ '-' :: month ++ '-' :: day, cs)

def secondFraction (cs : List Char) : List Char × List Char :=
  match cs with
  | '.' :: rest =>
    let ds := rest.takeWhile Scan.isDigit
    if ds.isEmpty then ([], cs)
    else
      let kept := ((ds.take 9).reverse.dropWhile (· = '0')).reverse
      (if kept.isEmpty then [] else '.' :: kept, rest.drop ds.length)
  | cs => ([], cs)

def time (cs : List Char) : Option (List Char × List Char) := do
  let (hour, cs) ← figures 2 0 23 cs
  let (minute, cs) ← figures 2 0 59 (← mark ':' cs)
  let (second, cs) ← figures 2 0 60 (← mark ':' cs)
  let (fraction, cs) := secondFraction cs
  return (hour ++ ':' :: minute ++ ':' :: second ++ fraction, cs)

-- An offset of zero has no sign of its own.
def offset : Scan (List Char)
  | [] => none
  | c :: cs =>
    if c = 'Z' ∨ c = 'z' then some (['Z'], cs)
    else if c = '+' ∨ c = '-' then do
      let (hour, cs) ← figures 2 0 23 cs
      let (minute, cs) ← figures 2 0 59 (← mark ':' cs)
      let sign := if (hour ++ minute).all (· = '0') then '+' else c
      return (sign :: hour ++ ':' :: minute, cs)
    else none

def timeOfDay (cs : List Char) : Option (List Char × List Char) := do
  match cs with
  | [] => none
  | c :: cs =>
    if ['T', 't', ' '].contains c then
      let (time, cs) ← time cs
      let (shift, cs) := (offset cs).getD ([], cs)
      return ('T' :: time ++ shift, cs)
    else none

def written (cs : List Char) : Option (List Char × List Char) :=
  match date cs with
  | none => time cs
  | some (day, cs) =>
    match timeOfDay cs with
    | none => some (day, cs)
    | some (time, cs) => some (day ++ time, cs)

def momentKey : String := "$__toml_private_datetime"

def moment (cs : List Char) : Option (Node × List Char) :=
  (written cs).map fun (s, cs) => (.dict [(.text momentKey, .text (String.ofList s))], cs)

end ActionGraph.Document.Toml
