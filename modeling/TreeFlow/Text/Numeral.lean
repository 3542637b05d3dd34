/-
Decimal numerals of whole numbers.

A numeral is a run of ASCII digits, at least one, with an optional sign in front; leading zeros
are allowed.  A bounded reading refuses a numeral whose value does not fit, so that no reader ever
wraps.  `digits?_toDigits` says that what is written for a number reads as that number.
-/

namespace TreeFlow
namespace Text

/-- The value of a run of ASCII digits; no value for an empty run or any other character. -/
def digits? (cs : List Char) : Option Nat :=
  if !cs.isEmpty && cs.all Char.isDigit then some (Nat.ofDigitChars 10 cs 0) else none

/-- The value below `bound` of a numeral without a minus sign. -/
def naturalBelow? (bound : Nat) (cs : List Char) : Option Nat :=
  let magnitude := match cs with
    | '+' :: rest => digits? rest
    | _ => digits? cs
  magnitude.filter (· < bound)

def integer? : List Char → Option Int
  | '+' :: rest => (digits? rest).map Int.ofNat
  | '-' :: rest => (digits? rest).map (fun n => -Int.ofNat n)
  | cs => (digits? cs).map Int.ofNat

/-- The value of a numeral that fits into a signed word of 64 bits. -/
def int64? (cs : List Char) : Option Int64 :=
  ((integer? cs).filter fun n => Int64.minValue.toInt ≤ n && n ≤ Int64.maxValue.toInt).map
    Int64.ofInt

theorem digits?_toDigits (n : Nat) : digits? (Nat.toDigits 10 n) = some n := by
  have digit : ∀ c ∈ Nat.toDigits 10 n, c.isDigit = true := fun c h =>
    Nat.isDigit_of_mem_toDigits (by decide) (by decide) h
  simp only [digits?]
  rw [if_pos (by simpa [List.isEmpty_iff, Nat.toDigits_ne_nil] using digit),
    Nat.ofDigitChars_ten_toDigits]

end Text
end TreeFlow
