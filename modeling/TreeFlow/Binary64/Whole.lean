import TreeFlow.Binary64.Parts
/-
Whole numbers from binary64 numbers, and remainders.

All four ways of rounding look at the same two facts: the whole part of the magnitude, and what
is left of it.  The conversions to words saturate, so they never wrap.
-/

namespace TreeFlow
namespace Binary64

/-- Where a number between two whole numbers goes; `nearest` sends a half away from zero. -/
inductive Rounding where
  | down
  | up
  | towardZero
  | nearest
deriving DecidableEq, Repr

/-- Whether the magnitude goes up to the next whole number, `rest` of `unit` being left. -/
def Rounding.raises (mode : Rounding) (negative : Bool) (rest unit : Nat) : Bool :=
  match mode with
  | .down => negative && rest != 0
  | .up => !negative && rest != 0
  | .towardZero => false
  | .nearest => unit ≤ 2 * rest

/-- The magnitude of a value, rounded to a whole number. -/
def Parts.whole (p : Parts) (mode : Rounding) : Nat :=
  match p.exponent with
  | .ofNat e => p.mantissa <<< e
  | .negSucc e =>
    let unit := 1 <<< (e + 1)
    let rest := p.mantissa % unit
    p.mantissa / unit + if mode.raises p.negative rest unit then 1 else 0

/-- Whether nothing is left beside the whole part. -/
def Parts.isWhole (p : Parts) : Bool :=
  match p.exponent with
  | .ofNat _ => true
  | .negSucc e => p.mantissa % (1 <<< (e + 1)) == 0

/-- A number rounded to a whole number; infinities and NaN stay. -/
def round (mode : Rounding) (x : Float) : Float :=
  match parts? x with
  | none => x
  | some p => if 0 ≤ p.exponent then x else signed p.negative (p.whole mode)

def isWhole (x : Float) : Bool :=
  match parts? x with
  | none => false
  | some p => p.isWhole

/-- The value of a finite number, rounded to an integer; other numbers give zero. -/
def toInt (mode : Rounding) (x : Float) : Int :=
  match parts? x with
  | none => 0
  | some p => if p.negative then -(p.whole mode : Int) else p.whole mode

def saturate (n : Int) : Int64 :=
  Int64.ofInt (max Int64.minValue.toInt (min Int64.maxValue.toInt n))

def toInt64 (mode : Rounding) (x : Float) : Int64 := saturate (toInt mode x)

/-- The remainder of an exact division truncated toward zero; it has the sign of `x`. -/
def remainder (x y : Float) : Float :=
  match parts? x, parts? y with
  | none, _ => nan
  | some _, none => if isNaN y then nan else x
  | some p, some q =>
    if q.mantissa = 0 then nan
    else
      let e := min p.exponent q.exponent
      let a := p.mantissa <<< (p.exponent - e).toNat
      let b := q.mantissa <<< (q.exponent - e).toNat
      ofParts ⟨p.negative, a % b, e⟩

theorem saturate_of_le {n : Int} (low : Int64.minValue.toInt ≤ n) (high : n ≤ Int64.maxValue.toInt) :
    (saturate n).toInt = n := by
  rw [saturate, Int.min_eq_right high, Int.max_eq_right low]
  exact Int64.toInt_ofInt_of_le low (Int.lt_of_le_of_lt high (by decide))

end Binary64
end TreeFlow
