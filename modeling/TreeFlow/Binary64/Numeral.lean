import TreeFlow.Text.Numeral
import TreeFlow.Binary64.Parts
/-
Numerals of binary64 numbers.

A numeral is an optional sign followed by digits with at most one point among them and at least
one digit, and then by an optional exponent; or by one of the words `inf`, `infinity` and `nan` in
any letter case.  The value is the nearest number to the decimal that is written.
-/

namespace TreeFlow
namespace Binary64

/-- The number nearest to `digits · 10 ^ exponent`.  The two guards only keep hopeless powers of
ten from being computed: past them the value is infinite, or rounds to zero. -/
def ofDecimal (digits : Nat) (exponent : Int) : Float :=
  if digits = 0 then 0
  else if 400 < exponent then infinity
  else if exponent + (digits.log2 / 3 + 2) < -400 then 0
  else
    match exponent with
    | .ofNat e => Float.ofScientific digits false e
    | .negSucc e => Float.ofScientific digits true (e + 1)

def splitDigits (cs : List Char) : List Char × List Char :=
  (cs.takeWhile Char.isDigit, cs.dropWhile Char.isDigit)

/-- The exponent of a numeral: nothing, or `e`, a sign and digits. -/
def exponent? : List Char → Option Int
  | [] => some 0
  | c :: rest => if c = 'e' || c = 'E' then Text.integer? rest else none

/-- The value of a numeral without a sign. -/
def decimal? (cs : List Char) : Option Float :=
  let (whole, rest) := splitDigits cs
  let (places, rest) := match rest with
    | '.' :: rest => splitDigits rest
    | _ => ([], rest)
  if whole.isEmpty && places.isEmpty then none
  else (exponent? rest).map fun e =>
    ofDecimal (Nat.ofDigitChars 10 (whole ++ places) 0) (e - places.length)

/-- The value of one of the words for numbers that are not finite. -/
def word? (cs : List Char) : Option Float :=
  let letters := String.ofList (cs.map Char.toLower)
  if letters = "inf" || letters = "infinity" then some infinity
  else if letters = "nan" then some nan
  else none

def unsigned? (cs : List Char) : Option Float := (word? cs).or (decimal? cs)

def numeral? : List Char → Option Float
  | '+' :: rest => unsigned? rest
  | '-' :: rest => (unsigned? rest).map fun x => -x
  | cs => unsigned? cs

end Binary64
end TreeFlow
