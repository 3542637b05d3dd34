import TreeFlow.Binary64.Shortest
/-
Written forms of numbers.

Both forms write the shortest digits.  The form of documents has a point always and turns to an
exponent outside of a middle range; the plain form, used for texts, never has an exponent, and no
point for a whole number.  A tie between two shortest decimals goes to the even digit in documents,
and away from zero in texts.
-/

namespace TreeFlow
namespace Binary64

/-- How the digits of a number are set: whether a whole number is given a point and a zero,
from which decimal exponents (of the first digit) on positional notation ends, and which of two
equally near decimals is written. -/
structure Layout where
  pointed : Bool
  positional : Option (Int × Int)
  tie : Tie
deriving DecidableEq, Repr

def documentLayout : Layout := ⟨true, some (-5, 15), .toEven⟩

def plainLayout : Layout := ⟨false, none, .awayFromZero⟩

def zeros (n : Nat) : List Char := List.replicate n '0'

/-- Digits times a power of ten in positional notation. -/
def Layout.positionalChars (layout : Layout) (digits : List Char) (exponent : Int) : List Char :=
  match exponent with
  | .ofNat e => digits ++ zeros e ++ if layout.pointed then ['.', '0'] else []
  | .negSucc e =>
    let places := e + 1
    if places < digits.length then
      digits.take (digits.length - places) ++ '.' :: digits.drop (digits.length - places)
    else '0' :: '.' :: zeros (places - digits.length) ++ digits

/-- Digits with a power of ten behind them. -/
def scientificChars (digits : List Char) (leading : Int) : List Char :=
  let mantissa := match digits with
    | [] => []
    | [d] => [d]
    | d :: more => d :: '.' :: more
  let sign := if leading < 0 then '-' else '+'
  mantissa ++ 'e' :: sign :: Nat.toDigits 10 leading.natAbs

def Layout.decimalChars (layout : Layout) (d : Decimal) : List Char :=
  let digits := Nat.toDigits 10 d.digits
  let leading := d.exponent + digits.length - 1
  match layout.positional with
  | none => layout.positionalChars digits d.exponent
  | some (first, last) =>
    if first ≤ leading && leading ≤ last then layout.positionalChars digits d.exponent
    else scientificChars digits leading

def Layout.partsChars (layout : Layout) (p : Parts) : List Char :=
  let magnitude :=
    if p.mantissa = 0 then layout.positionalChars ['0'] 0
    else layout.decimalChars (shortest layout.tie p.mantissa p.exponent)
  if p.negative then '-' :: magnitude else magnitude

def Layout.write (layout : Layout) (x : Float) : String :=
  match parts? x with
  | some p => String.ofList (layout.partsChars p)
  | none => if isNaN x then "NaN" else if x < 0 then "-inf" else "inf"

def documentText (x : Float) : String := documentLayout.write x

def plainText (x : Float) : String := plainLayout.write x

end Binary64
end TreeFlow
