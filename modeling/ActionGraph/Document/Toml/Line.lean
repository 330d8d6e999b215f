import ActionGraph.Document.Scan
namespace ActionGraph.Document.Toml

def isBlank (c : Char) : Bool := c = ' ' || c = '\t'

def isPrintable (c : Char) : Bool := c = '\t' || (' ' ≤ c && c ≠ '\x7f')

def skip (cs : List Char) : List Char := cs.dropWhile isBlank

def break? : List Char → Option (List Char)
  | '\n' :: cs => some cs
  | '\r' :: '\n' :: cs => some cs
  | _ => none

-- The rest behind what may close a line: blanks, a comment, and a break or the end of the text.
def lineEnd? (cs : List Char) : Option (List Char) :=
  let cs := match skip cs with
    | '#' :: cs => cs.dropWhile isPrintable
    | cs => cs
  if cs.isEmpty then some [] else break? cs

def skipLines : List Char → List Char
  | '\r' :: '\n' :: cs => skipLines cs
  | c :: cs => if isBlank c || c = '\n' then skipLines cs else c :: cs
  | [] => []

def gap (inComment : Bool) : List Char → List Char
  | '\r' :: '\n' :: cs => gap false cs
  | c :: cs =>
    if c = '\n' then gap false cs
    else if inComment then (if isPrintable c then gap true cs else c :: cs)
    else if isBlank c then gap false cs
    else if c = '#' then gap true cs
    else c :: cs
  | [] => []

end ActionGraph.Document.Toml
