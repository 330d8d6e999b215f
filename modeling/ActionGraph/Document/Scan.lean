-- Scanners take a part of a text and leave the rest; a text they cannot read gives nothing.
namespace ActionGraph.Document

abbrev Scan (α : Type) := List Char → Option (α × List Char)

namespace Scan

def isDigit (c : Char) : Bool := '0' ≤ c && c ≤ '9'

def hexValue? (c : Char) : Option Nat :=
  if isDigit c then some (c.toNat - '0'.toNat)
  else if 'a' ≤ c && c ≤ 'f' then some (c.toNat - 'a'.toNat + 10)
  else if 'A' ≤ c && c ≤ 'F' then some (c.toNat - 'A'.toNat + 10)
  else none

def after? : List Char → List Char → Option (List Char)
  | [], cs => some cs
  | w :: word, c :: cs => if w = c then after? word cs else none
  | _ :: _, [] => none

def hex : Nat → Nat → Scan Nat
  | 0, n, cs => some (n, cs)
  | _ + 1, _, [] => none
  | count + 1, n, c :: cs => do hex count (16 * n + (← hexValue? c)) cs

def charOf? (n : Nat) : Option Char :=
  if h : n.isValidChar then some (Char.ofNatAux n h) else none

def inBase? (base : Nat) : Nat → List Char → Option Nat
  | n, [] => some n
  | n, c :: cs => do
    let d ← hexValue? c
    if d < base then inBase? base (base * n + d) cs else none

end Scan
end ActionGraph.Document
