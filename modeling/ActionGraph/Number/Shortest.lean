import ActionGraph.Number.Rounding
-- The text of a floating-point number: the fewest decimal digits that read back to it, written
-- positionally, without an exponent.
namespace ActionGraph.Shortest

-- A positive finite value between the ends of the interval that reads back to it, all three over
-- one denominator. The lower gap is half the upper one where the significand has just carried.
structure Interval where
  low : Nat
  mid : Nat
  high : Nat
  den : Nat
  closed : Bool

def interval (x : Binary64) : Interval :=
  let m := x.significand
  let low := if m = Nat.pow 2 Binary64.fractionBits then 4 * m - 1 else 4 * m - 2
  let e := x.exponent - 2
  let up := Nat.pow 2 e.toNat
  ⟨low * up, 4 * m * up, (4 * m + 2) * up, Nat.pow 2 (-e).toNat, m % 2 = 0⟩

def Interval.holds (i : Interval) (digits : Nat) (e : Int) : Bool :=
  let d := digits * Nat.pow 10 e.toNat * i.den
  let s := Nat.pow 10 (-e).toNat
  if i.closed then i.low * s ≤ d && d ≤ i.high * s else i.low * s < d && d < i.high * s

def scaleFrom (i : Interval) : Nat → Int → Int
  | 0, k => k
  | fuel + 1, k =>
    if i.mid * Nat.pow 10 (-k).toNat < Nat.pow 10 k.toNat * i.den then k else scaleFrom i fuel (k + 1)

-- A binary digit is worth at least three tenths of a decimal one, so the guess is never too high.
def scale (i : Interval) : Int :=
  let size := (i.mid.log2 : Int) - i.den.log2
  scaleFrom i 400 ((if 0 ≤ size then size * 3 / 10 else size * 31 / 100) - 2)

-- The two neighbours of the value on the grid of multiples of `10 ^ e`; if both read back, the
-- nearer one is taken and a tie goes up.
def onGrid (i : Interval) (e : Int) : Option Nat :=
  let num := i.mid * Nat.pow 10 (-e).toNat
  let den := i.den * Nat.pow 10 e.toNat
  let below := num / den
  match i.holds below e, i.holds (below + 1) e with
  | true, true => some (if 2 * (num % den) < den then below else below + 1)
  | true, false => some below
  | false, true => some (below + 1)
  | false, false => none

-- Digits with the place of the last one, from the coarsest grid that has any; seventeen digits
-- always suffice, so the search stops there.
def search (i : Interval) (k : Int) : Nat → Nat → Nat × Int
  | 0, _ => (i.mid / i.den, 0)
  | fuel + 1, n =>
    match onGrid i (k - n) with
    | some digits => (digits, k - n)
    | none => search i k fuel (n + 1)

def digits (x : Binary64) : Nat × Int :=
  let i := interval x
  search i (scale i) 18 1

def positional (digits : Nat) (e : Int) : String :=
  let text := Nat.toDigits 10 digits
  if 0 ≤ e then String.ofList (text ++ List.replicate e.toNat '0')
  else
    let places := (-e).toNat
    let padded := List.replicate (places + 1 - text.length) '0' ++ text
    let cut := padded.length - places
    let fraction := (padded.drop cut).reverse.dropWhile (· = '0')
    if fraction.isEmpty then String.ofList (padded.take cut)
    else String.ofList (padded.take cut ++ '.' :: fraction.reverse)

def text (x : Binary64) : String :=
  let sign := if x.isNegative then "-" else ""
  if x.isNaN then "NaN"
  else if x.isInfinite then sign ++ "inf"
  else if x.magnitude = 0 then sign ++ "0"
  else
    let d := digits x
    sign ++ positional d.1 d.2

end ActionGraph.Shortest
