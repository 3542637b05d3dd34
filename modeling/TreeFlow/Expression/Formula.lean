import TreeFlow.Binary64.Whole
/-
Formulas in one variable.

A formula is what an expression means: a binary64 computation on the value of its variable.
-/

namespace TreeFlow

inductive Operator where
  | add
  | sub
  | mul
  | div
  | rem
  | pow
deriving DecidableEq, Repr, Inhabited

namespace Operator

def apply (op : Operator) (a b : Float) : Float :=
  match op with
  | .add => a + b
  | .sub => a - b
  | .mul => a * b
  | .div => a / b
  | .rem => Binary64.remainder a b
  | .pow => Float.pow a b

end Operator

/-- The functions that an expression can call; `log` is the decimal logarithm. -/
inductive Function where
  | abs
  | sqrt
  | sin
  | cos
  | tan
  | round
  | floor
  | ceil
  | ln
  | log
  | exp
deriving DecidableEq, Repr, Inhabited

namespace Function

def apply (f : Function) (x : Float) : Float :=
  match f with
  | .abs => x.abs
  | .sqrt => x.sqrt
  | .sin => x.sin
  | .cos => x.cos
  | .tan => x.tan
  | .round => Binary64.round .nearest x
  | .floor => Binary64.round .down x
  | .ceil => Binary64.round .up x
  | .ln => x.log
  | .log => x.log10
  | .exp => x.exp

def name : Function → String
  | .abs => "abs"
  | .sqrt => "sqrt"
  | .sin => "sin"
  | .cos => "cos"
  | .tan => "tan"
  | .round => "round"
  | .floor => "floor"
  | .ceil => "ceil"
  | .ln => "ln"
  | .log => "log"
  | .exp => "exp"

def all : List Function :=
  [.abs, .sqrt, .sin, .cos, .tan, .round, .floor, .ceil, .ln, .log, .exp]

def ofName? (name : String) : Option Function := all.find? fun f => f.name == name

@[simp] theorem ofName?_name (f : Function) : ofName? f.name = some f := by cases f <;> rfl

theorem ofName?_eq_some_iff {name : String} {f : Function} :
    ofName? name = some f ↔ name = f.name := by
  constructor
  · intro h
    have hname := List.find?_some h
    exact (beq_iff_eq.1 hname).symm
  · rintro rfl
    exact ofName?_name f

end Function

inductive Formula where
  | number (value : Float)
  | variable
  | negate (operand : Formula)
  | binary (op : Operator) (left right : Formula)
  | call (function : Function) (argument : Formula)
deriving DecidableEq, Inhabited

namespace Formula

def eval (x : Float) : Formula → Float
  | .number value => value
  | .variable => x
  | .negate operand => -operand.eval x
  | .binary op left right => op.apply (left.eval x) (right.eval x)
  | .call function argument => function.apply (argument.eval x)

/-- The number of operators, signs and calls on the longest way from the top to a leaf. -/
def height : Formula → Nat
  | .number _ => 0
  | .variable => 0
  | .negate operand => operand.height + 1
  | .binary _ left right => max left.height right.height + 1
  | .call _ argument => argument.height + 1

end Formula
end TreeFlow
