import TreeFlow.Binary64.Parts
/-
Shortest decimal digits.

The digits that are written for a number are the fewest that read back as it, and of those the
nearest to it.  A number with mantissa `m` and exponent `q` stands for the reals that round to it;
their interval reaches half a step to both sides, or a quarter step downward where the step
changes, and contains its ends exactly when `m` is even.  The coarsest decimal grid with a point
in the interval gives the digits: if a grid has such a point, one of the two neighbours of the
value on that grid is one.  Where both are, and equally near, a rule for ties chooses; between
`2 ^ 50` and `2 ^ 51` every number with an odd number of quarters is such a case.
-/

namespace TreeFlow
namespace Binary64

/-- A decimal `digits · 10 ^ exponent`. -/
structure Decimal where
  digits : Nat
  exponent : Int
deriving DecidableEq, Repr

/-- Which of two decimals at equal distance is chosen. -/
inductive Tie where
  | toEven
  | awayFromZero
deriving DecidableEq, Repr

/-- The choice between `n` and `n + 1` at equal distance. -/
def Tie.choose (tie : Tie) (n : Nat) : Nat :=
  match tie with
  | .toEven => if n % 2 = 0 then n else n + 1
  | .awayFromZero => n + 1

/-- Four times the value over a common denominator: `low`, `value` and `high` are the numerators
of the ends of the interval and of the value. -/
structure Interval where
  low : Nat
  value : Nat
  high : Nat
  denominator : Nat
  closed : Bool
deriving DecidableEq, Repr

/-- The interval of reals that round to `m · 2 ^ q`. -/
def interval (m : Nat) (q : Int) : Interval :=
  let below := if m = leastNormal && minExponent < q then 1 else 2
  let scale := 1 <<< q.toNat
  ⟨(4 * m - below) * scale, 4 * m * scale, (4 * m + 2) * scale, 4 <<< (-q).toNat, m % 2 == 0⟩

/-- Whether `numerator / denominator` rounds to the value. -/
def Interval.contains (i : Interval) (numerator : Nat) : Bool :=
  if i.closed then i.low ≤ numerator && numerator ≤ i.high
  else i.low < numerator && numerator < i.high

/-- The interval over a denominator that makes `10 ^ e` a whole number of units, and that number. -/
def Interval.onGrid (i : Interval) (e : Int) : Interval × Nat :=
  match e with
  | .ofNat e => (i, Nat.pow 10 e * i.denominator)
  | .negSucc e =>
    let s := Nat.pow 10 (e + 1)
    (⟨i.low * s, i.value * s, i.high * s, i.denominator, i.closed⟩, i.denominator)

/-- The point of the grid of `10 ^ e` that is chosen for the value: of its two neighbours the one
in the interval, of two such the nearer, and at equal distance the one that `tie` chooses. -/
def Interval.candidate? (tie : Tie) (i : Interval) (e : Int) : Option Nat :=
  let (j, unit) := i.onGrid e
  let n := j.value / unit
  let lower := n * unit
  let upper := (n + 1) * unit
  match j.contains lower, j.contains upper with
  | false, false => none
  | true, false => some n
  | false, true => some (n + 1)
  | true, true =>
    match compare (j.value - lower) (upper - j.value) with
    | .lt => some n
    | .gt => some (n + 1)
    | .eq => some (tie.choose n)

/-- The first grid with a point in the interval, from `10 ^ e` on downward. -/
def Interval.coarsest (tie : Tie) (i : Interval) (e : Int) : Nat → Decimal
  | 0 => ⟨(i.onGrid e).1.value / (i.onGrid e).2, e⟩
  | steps + 1 =>
    match i.candidate? tie e with
    | some n => ⟨n, e⟩
    | none => i.coarsest tie (e - 1) steps

/-- The shortest decimal that rounds to `m · 2 ^ q`, for `m > 0`.  The search starts above the
value, whose decimal exponent is estimated from its binary one, and seventeen digits always
suffice. -/
def shortest (tie : Tie) (m : Nat) (q : Int) : Decimal :=
  let estimate := (q + m.log2) * 30103 / 100000
  (interval m q).coarsest tie (estimate + 2) 22

end Binary64
end TreeFlow
