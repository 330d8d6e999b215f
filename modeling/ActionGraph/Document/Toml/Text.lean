import ActionGraph.Document.Toml.Line
-- The four ways to write a text: double or single quotes, on one line or on several.
namespace ActionGraph.Document.Toml

def escape : Scan Char
  | '"' :: cs => some ('"', cs)
  | '\\' :: cs => some ('\\', cs)
  | 'b' :: cs => some ('\x08', cs)
  | 'f' :: cs => some ('\x0c', cs)
  | 'n' :: cs => some ('\n', cs)
  | 'r' :: cs => some ('\r', cs)
  | 't' :: cs => some ('\t', cs)
  | 'u' :: cs => do
    let (n, cs) ← Scan.hex 4 0 cs
    return (← Scan.charOf? n, cs)
  | 'U' :: cs => do
    let (n, cs) ← Scan.hex 8 0 cs
    return (← Scan.charOf? n, cs)
  | _ => none

def basic : Nat → Scan (List Char)
  | 0, _ => none
  | fuel + 1, cs =>
    match cs with
    | [] => none
    | '"' :: cs => some ([], cs)
    | '\\' :: cs => do
      let (c, cs) ← escape cs
      let (rest, cs) ← basic fuel cs
      return (c :: rest, cs)
    | c :: cs => do
      if isPrintable c then
        let (rest, cs) ← basic fuel cs
        return (c :: rest, cs)
      else none

def literal (cs : List Char) : Option (List Char × List Char) :=
  let body := cs.takeWhile fun c => isPrintable c && c ≠ '\''
  match cs.drop body.length with
  | '\'' :: cs => some (body, cs)
  | _ => none

def joined? (cs : List Char) : Option (List Char) := (break? (skip cs)).map skipLines

-- A text of several lines, behind its three quotes. One or two quotes may stand in it, and also
-- right before the closing three; line breaks are taken as single characters.
def multiline (quote : Char) (escapes : Bool) : Nat → Scan (List Char)
  | 0, _ => none
  | fuel + 1, cs => do
    let (c, cs) ← match cs with
      | [] => none
      | c :: rest =>
        if c = quote then
          let run := (cs.takeWhile (· = quote)).length
          if 3 ≤ run then return (List.replicate (min run 5 - 3) quote, cs.drop (min run 5))
          else some ([c], rest)
        else if c = '\\' ∧ escapes then
          match joined? rest with
          | some rest => some ([], rest)
          | none => (escape rest).map fun (c, rest) => ([c], rest)
        else match break? cs with
          | some rest => some (['\n'], rest)
          | none => if isPrintable c then some ([c], rest) else none
    let (rest, cs) ← multiline quote escapes fuel cs
    return (c ++ rest, cs)

def opened (cs : List Char) : List Char := (break? cs).getD cs

def oneLine (fuel : Nat) : Scan (List Char)
  | '"' :: cs => basic fuel cs
  | '\'' :: cs => literal cs
  | _ => none

def text (fuel : Nat) : Scan (List Char)
  | '"' :: '"' :: '"' :: cs => multiline '"' true fuel (opened cs)
  | '\'' :: '\'' :: '\'' :: cs => multiline '\'' false fuel (opened cs)
  | cs => oneLine fuel cs

end ActionGraph.Document.Toml
