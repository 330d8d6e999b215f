import ActionGraph.Number.Binary64
-- Rounding to the nearest value of the binary format, ties to the even significand. Quotients of
-- naturals are rounded exactly, and every other entry here goes through them.
namespace ActionGraph.Binary64

-- The nearest integer to `num / den`, a half going to the even neighbour.
def roundDiv (num den : Nat) : Nat :=
  let q := num / den
  let r := num % den
  if 2 * r > den ∨ (2 * r = den ∧ q % 2 = 1) then q + 1 else q

def scaled (num den : Nat) (e : Int) : Nat × Nat :=
  if 0 ≤ e then (num, den * Nat.pow 2 e.toNat) else (num * Nat.pow 2 (-e).toNat, den)

def fitExponent (num den : Nat) : Int :=
  let guess := max ((num.log2 : Int) - den.log2 - 53) (-1074)
  let s := scaled num den guess
  if Nat.pow 2 53 ≤ s.1 / s.2 then guess + 1 else guess

-- A carry out of the significand lands in the next exponent by itself, since magnitudes are
-- consecutive; what lies beyond the largest finite value becomes infinite.
def nearest (negative : Bool) (num den : Nat) : Binary64 :=
  if num = 0 then zero negative
  else
    let e := fitExponent num den
    let s := scaled num den e
    let magnitude := (e + 1074).toNat * Nat.pow 2 fractionBits + roundDiv s.1 s.2
    ofMagnitude negative (min magnitude infiniteMagnitude)

def ofInt (n : Int) : Binary64 := nearest (n < 0) n.natAbs 1

-- `digits * 10 ^ exponent`. Exponents far outside the format's range are settled without
-- writing the power out.
def ofDecimal (negative : Bool) (digits : Nat) (exponent : Int) : Binary64 :=
  let size := (Nat.toDigits 10 digits).length
  if digits = 0 ∨ exponent + size < -400 then zero negative
  else if 400 < exponent + size then infinity negative
  else if 0 ≤ exponent then nearest negative (digits * Nat.pow 10 exponent.toNat) 1
  else nearest negative digits (Nat.pow 10 (-exponent).toNat)

def ratio (x : Binary64) : Nat × Nat :=
  if 0 ≤ x.exponent then (x.significand * Nat.pow 2 x.exponent.toNat, 1)
  else (x.significand, Nat.pow 2 (-x.exponent).toNat)

def times (x y : Binary64) : Binary64 :=
  nearest (x.isNegative != y.isNegative) (x.ratio.1 * y.ratio.1) (x.ratio.2 * y.ratio.2)

def dividedBy (x y : Binary64) : Binary64 :=
  nearest (x.isNegative != y.isNegative) (x.ratio.1 * y.ratio.2) (x.ratio.2 * y.ratio.1)

end ActionGraph.Binary64
