-- The 64-bit binary floating-point format, held as its bits: equality of values here is equality
-- of what is stored, and the numeric order is a separate relation.
namespace ActionGraph

structure Binary64 where
  bits : UInt64
  deriving DecidableEq, Inhabited

namespace Binary64

def fractionBits : Nat := 52
def signWeight : Nat := Nat.pow 2 63
def infiniteMagnitude : Nat := 0x7FF * Nat.pow 2 fractionBits

def magnitude (x : Binary64) : Nat := x.bits.toNat % signWeight
def isNegative (x : Binary64) : Bool := signWeight ≤ x.bits.toNat
def isNaN (x : Binary64) : Bool := infiniteMagnitude < x.magnitude
def isInfinite (x : Binary64) : Bool := x.magnitude == infiniteMagnitude

def ofMagnitude (negative : Bool) (magnitude : Nat) : Binary64 :=
  ⟨UInt64.ofNat (magnitude + if negative then signWeight else 0)⟩

def zero (negative : Bool) : Binary64 := ofMagnitude negative 0
def infinity (negative : Bool) : Binary64 := ofMagnitude negative infiniteMagnitude
def nan (negative : Bool) : Binary64 := ofMagnitude negative (infiniteMagnitude + Nat.pow 2 51)

-- A finite value is `significand * 2 ^ exponent`, up to its sign.
def significand (x : Binary64) : Nat :=
  let fraction := x.magnitude % Nat.pow 2 fractionBits
  if x.magnitude / Nat.pow 2 fractionBits = 0 then fraction else fraction + Nat.pow 2 fractionBits

def exponent (x : Binary64) : Int :=
  (max (x.magnitude / Nat.pow 2 fractionBits) 1 : Nat) - 1075

-- Magnitudes of finite and infinite values ascend with the values they stand for, so the order
-- of numbers is the order of signed magnitudes. Both zeros have rank 0; NaN has none.
def rank? (x : Binary64) : Option Int :=
  if x.isNaN then none
  else some (if x.isNegative then -(x.magnitude : Int) else x.magnitude)

def compare? (x y : Binary64) : Option Ordering :=
  match x.rank?, y.rank? with
  | some a, some b => some (compare a b)
  | _, _ => none

theorem compare?_self {x : Binary64} (number : x.isNaN = false) :
    compare? x x = some .eq := by
  simp [compare?, rank?, number]

end Binary64
end ActionGraph
