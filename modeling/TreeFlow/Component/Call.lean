import TreeFlow.Matching
/-
Calls: the arguments of a component's function, and why a call fails.

A call gets one value for each declared input.  The readers below take an argument in the form that
a function works on; each names the input in its fault.
-/

namespace TreeFlow
namespace Component

inductive Form where
  | number
  | integer
  | boolean
  | coordinates
deriving DecidableEq, Repr, Inhabited

def Form.phrase : Form → String
  | .number => "a number"
  | .integer => "an integer"
  | .boolean => "a boolean"
  | .coordinates => "a point or vector"

inductive CallFault where
  | noValue (input : String)
  | wrongForm (input : String) (form : Form) (got : Item)
  | noList (input : String)
  | noTree (input : String)
  | divisionByZero
  | modulusByZero
  | negativeRoot (x : Float)
  | negativeCount (count : Int64)
  | countAboveLimit (count : Int64) (limit : Nat)
  | indexOutOfRange (index : Int64) (length : Nat)
  | unconvertible (kind : String) (got : Item)
deriving DecidableEq, Inhabited

/-- An item with its form, as messages name it. -/
def described (item : Item) : String := item.formName ++ " '" ++ item.display ++ "'"

def CallFault.message : CallFault → String
  | .noValue input => s!"input '{input}' has no value"
  | .wrongForm input form got =>
    s!"input '{input}' expects {form.phrase}, got " ++ described got
  | .noList input => s!"input '{input}' expects a list"
  | .noTree input => s!"input '{input}' expects a tree"
  | .divisionByZero => "division by zero"
  | .modulusByZero => "modulus by zero"
  | .negativeRoot x => "square root of negative number " ++ Binary64.plainText x
  | .negativeCount count => s!"series count must not be negative, got {count.toInt}"
  | .countAboveLimit count limit => s!"series count {count.toInt} exceeds the limit of {limit}"
  | .indexOutOfRange index length =>
    s!"index {index.toInt} out of range for list of {length} items"
  | .unconvertible kind got => kind ++ " parameter cannot convert " ++ described got

/-- What a call gives: one value for each declared output. -/
abbrev CallResult := Except CallFault (List Value)

/-- The argument at a place; one that is not given is missing. -/
def argument (args : List Value) (i : Nat) : Value := args.getD i .missing

/-- The item at a place, in a form. -/
def formed {α : Type} (form : Form) (view : Item → Option α) (args : List Value) (i : Nat)
    (input : String) : Except CallFault α :=
  match argument args i with
  | .item item =>
    match view item with
    | some a => .ok a
    | none => .error (.wrongForm input form item)
  | _ => .error (.noValue input)

def numberAt (args : List Value) (i : Nat) (input : String) : Except CallFault Float :=
  formed .number Item.number? args i input

def integerAt (args : List Value) (i : Nat) (input : String) : Except CallFault Int64 :=
  formed .integer Item.integer? args i input

def booleanAt (args : List Value) (i : Nat) (input : String) : Except CallFault Bool :=
  formed .boolean Item.boolean? args i input

def coordinatesAt (args : List Value) (i : Nat) (input : String) :
    Except CallFault Coordinates :=
  formed .coordinates Item.coordinates? args i input

def listAt (args : List Value) (i : Nat) (input : String) : Except CallFault (List Item) :=
  match (argument args i).list? with
  | some items => .ok items
  | none => .error (.noList input)

def treeAt (args : List Value) (i : Nat) (input : String) : Except CallFault Tree :=
  match (argument args i).tree? with
  | some t => .ok t
  | none => .error (.noTree input)

end Component
end TreeFlow
