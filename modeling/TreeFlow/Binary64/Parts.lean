/-
The value of a binary64 number.

A finite number is `± mantissa · 2 ^ exponent`, with a mantissa below `2 ^ 53`.  Every exact rule on
numbers (rounding to a whole number, remainders, shortest digits) is stated on these parts, so
none of them depends on an approximate operation.
-/

namespace TreeFlow
namespace Binary64

structure Parts where
  negative : Bool
  mantissa : Nat
  exponent : Int
deriving DecidableEq, Repr

/-- The smallest exponent; subnormal numbers have it. -/
def minExponent : Int := -1074

/-- The smallest mantissa of a normal number, `2 ^ 52`; the bits of the exponent start there. -/
def leastNormal : Nat := 0x10000000000000

/-- The weight of the sign bit, `2 ^ 63`. -/
def signWeight : Nat := 0x8000000000000000

/-- The parts of a finite number; infinities and NaN have none. -/
def parts? (x : Float) : Option Parts :=
  let bits := x.toBits.toNat
  let negative := decide (signWeight ≤ bits)
  let biased : Nat := bits / leastNormal % 2048
  let fraction : Nat := bits % leastNormal
  if biased = 2047 then none
  else if biased = 0 then some ⟨negative, fraction, minExponent⟩
  else some ⟨negative, leastNormal + fraction, (biased : Int) - 1075⟩

/-- The number with the given parts, exact for a mantissa below `2 ^ 53` and an exponent from
`minExponent` up to the largest one that the mantissa allows. -/
def ofParts (p : Parts) : Float :=
  let shift := min (52 - p.mantissa.log2) (p.exponent - minExponent).toNat
  let mantissa := p.mantissa <<< shift
  let biased := (p.exponent - shift + 1075).toNat
  let magnitude :=
    if mantissa < leastNormal then mantissa
    else biased * leastNormal + (mantissa - leastNormal)
  let sign := if p.negative then signWeight else 0
  Float.ofBits (UInt64.ofNat (sign + magnitude))

def infinity : Float := Float.ofBits 0x7FF0000000000000
def nan : Float := Float.ofBits 0x7FF8000000000000

def pi : Float := 3.141592653589793

def isFinite (x : Float) : Bool := (parts? x).isSome

def isNaN (x : Float) : Bool := !(x == x)

/-- A whole number with a sign of its own, so that a negative zero stays one. -/
def signed (negative : Bool) (n : Nat) : Float :=
  if negative then -Float.ofNat n else Float.ofNat n

def ofInt64 (n : Int64) : Float := Float.ofInt n.toInt

end Binary64
end TreeFlow
