import TreeFlow.Expression.Parser
import TreeFlow.Tree
/-
Expressions: formulas that are applied to items.

An expression keeps the text that it was read from.  It changes numbers and integers only; an
integer stays one where the result is a whole number in the range of words.
-/

namespace TreeFlow

structure Expression where
  source : String
  formula : Formula
deriving DecidableEq, Inhabited

namespace Expression

def parse (source : String) : Except Fault Expression :=
  (parseFormula source.toList).map fun f => ⟨source, f⟩

def eval (e : Expression) (x : Float) : Float := Formula.eval x e.formula

/-- The result for an integer: an integer if it is a whole number of magnitude below `2 ^ 63`. -/
def integral (x : Float) : Item :=
  if Binary64.isWhole x && x.abs < 9223372036854775808 then
    .integer (Binary64.toInt64 .towardZero x)
  else .number x

def applyTo (e : Expression) : Item → Item
  | .integer value => integral (e.eval (Binary64.ofInt64 value))
  | .number value => .number (e.eval value)
  | item => item

def apply (e : Expression) (t : Tree) : Tree := t.mapItems e.applyTo

end Expression
end TreeFlow
