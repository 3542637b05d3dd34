import TreeFlow.Component.Call
import TreeFlow.Component.Signature
/-
Arithmetic on single items.

Two integers give an integer where the operation has one and it fits a word; every other
combination is computed on binary64 numbers.
-/

namespace TreeFlow
namespace Component

inductive Maths where
  | addition
  | subtraction
  | multiplication
  | division
  | modulus
  | power
  | negative
  | absolute
  | squareRoot
  | degrees
  | radians
deriving DecidableEq, Repr, Inhabited

def word? (n : Int) : Option Int64 :=
  if Int64.minValue.toInt ≤ n ∧ n ≤ Int64.maxValue.toInt then some (Int64.ofInt n) else none

theorem toInt_of_word? {n : Int} {w : Int64} (h : word? n = some w) : w.toInt = n := by
  unfold word? at h
  split at h
  next fits =>
    obtain rfl := Option.some.inj h
    exact Int64.toInt_ofInt_of_le fits.1 (Int.lt_of_le_of_lt fits.2 (by decide))
  next => cases h

namespace Maths

def all : List Maths :=
  [.addition, .subtraction, .multiplication, .division, .modulus, .power, .negative, .absolute,
    .squareRoot, .degrees, .radians]

def names : Maths → List String
  | .addition => ["Addition", "Add"]
  | .subtraction => ["Subtraction", "Sub"]
  | .multiplication => ["Multiplication", "Multiply", "Mul"]
  | .division => ["Division", "Divide", "Div"]
  | .modulus => ["Modulus", "Mod"]
  | .power => ["Power", "Pow"]
  | .negative => ["Negative", "Neg"]
  | .absolute => ["Absolute", "Abs"]
  | .squareRoot => ["Square Root", "Sqrt"]
  | .degrees => ["Degrees", "Deg"]
  | .radians => ["Radians", "Rad"]

def name (m : Maths) : String := m.names.headD ""

/-- Two operands with the same default. -/
def operands (a b : List String) (default : Int64) : List Input :=
  [(Input.item "A" a).withDefault (.integer default),
    (Input.item "B" b).withDefault (.integer default)]

def inputs : Maths → List Input
  | .addition | .subtraction => operands ["First"] ["Second"] 0
  | .multiplication | .division | .modulus => operands ["First"] ["Second"] 1
  | .power => operands ["Base"] ["Exponent"] 1
  | .negative | .absolute | .squareRoot => [Input.item "Value" ["x", "Input", "Number"]]
  | .degrees => [Input.item "Radians" ["R", "Angle"]]
  | .radians => [Input.item "Degrees" ["D", "Angle"]]

def output : Maths → Output
  | .degrees => ⟨"Degrees", ["D"]⟩
  | .radians => ⟨"Radians", ["R"]⟩
  | _ => ⟨"Result", ["R", "y", "Output"]⟩

def signature (m : Maths) : Signature := ⟨m.inputs, [m.output], .longest⟩

/-- The remainder that has the sign of the dividend.  The lowest word has none by `-1`, because its
quotient is no word. -/
def truncatedRemainder? (a b : Int64) : Option Int64 :=
  if b = 0 ∨ (a = Int64.minValue ∧ b = -1) then none else word? (a.toInt.tmod b.toInt)

/-- The remainder that has the sign of the divisor. -/
def flooredRemainder? (a b : Int64) : Option Int64 := do
  let r ← truncatedRemainder? a b
  if r ≠ 0 ∧ decide (r < 0) ≠ decide (b < 0) then word? (r.toInt + b.toInt) else some r

def flooredRemainder (a b : Float) : Float := a - b * Binary64.round .down (a / b)

/-- The result for two integers if `whole` has one, and else that of `rounded`. -/
def integralOr (args : List Value) (whole : Int64 → Int64 → Option Int64)
    (rounded : Float → Float → Float) : Except CallFault Item :=
  let exact := match argument args 0, argument args 1 with
    | .item (.integer a), .item (.integer b) => whole a b
    | _, _ => none
  match exact with
  | some n => .ok (.integer n)
  | none => do return .number (rounded (← numberAt args 0 "A") (← numberAt args 1 "B"))

/-- The result for an integer if it fits a word, and else that of `rounded`. -/
def unaryOr (args : List Value) (exact : Int → Int) (rounded : Float → Float) :
    Except CallFault Item :=
  match argument args 0 with
  | .item (.integer a) =>
    .ok ((word? (exact a.toInt)).elim (.number (rounded (Binary64.ofInt64 a))) .integer)
  | _ => do return .number (rounded (← numberAt args 0 "Value"))

def result (m : Maths) (args : List Value) : Except CallFault Item :=
  match m with
  | .addition => integralOr args (fun a b => word? (a.toInt + b.toInt)) (· + ·)
  | .subtraction => integralOr args (fun a b => word? (a.toInt - b.toInt)) (· - ·)
  | .multiplication => integralOr args (fun a b => word? (a.toInt * b.toInt)) (· * ·)
  | .division => do
    let a ← numberAt args 0 "A"
    let b ← numberAt args 1 "B"
    if b == 0 then .error .divisionByZero else return .number (a / b)
  | .modulus => do
    let b ← numberAt args 1 "B"
    if b == 0 then .error .modulusByZero
    else integralOr args flooredRemainder? flooredRemainder
  | .power => do return .number (Float.pow (← numberAt args 0 "A") (← numberAt args 1 "B"))
  | .negative => unaryOr args (fun a => -a) (fun x => -x)
  | .absolute => unaryOr args (fun a => a.natAbs) Float.abs
  | .squareRoot => do
    let x ← numberAt args 0 "Value"
    if x < 0 then .error (.negativeRoot x) else return .number x.sqrt
  | .degrees => do return .number ((← numberAt args 0 "Radians") * (180 / Binary64.pi))
  | .radians => do return .number ((← numberAt args 0 "Degrees") * (Binary64.pi / 180))

def call (m : Maths) (args : List Value) : CallResult := do
  return [.item (← m.result args)]

end Maths
end Component
end TreeFlow
