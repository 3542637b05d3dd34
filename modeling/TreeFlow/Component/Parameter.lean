import TreeFlow.Component.Call
import TreeFlow.Component.Signature
/-
Parameters: components that pass their tree on, each item brought into one form.

Null items stay as they are.  A parameter fails at the first item that has no such form.
-/

namespace TreeFlow
namespace Component

inductive Parameter where
  | data
  | number
  | integer
  | boolean
  | text
  | numberSlider
  | valueList
  | point
deriving DecidableEq, Repr, Inhabited

namespace Parameter

def all : List Parameter :=
  [.data, .number, .integer, .boolean, .text, .numberSlider, .valueList, .point]

def names : Parameter → List String
  | .data => ["Data", "Generic Data"]
  | .number => ["Number", "Num"]
  | .integer => ["Integer", "Int"]
  | .boolean => ["Boolean", "Bool", "Boolean Toggle"]
  | .text => ["Text", "Panel", "String"]
  | .numberSlider => ["Number Slider", "Slider"]
  | .valueList => ["Value List"]
  | .point => ["Point", "Pt"]

def name (p : Parameter) : String := p.names.headD ""

def signature (_ : Parameter) : Signature where
  inputs := [(Input.tree "Data" ["D", "Value", "Values", "Input"]).asOptional]
  outputs := [⟨"Data", ["D", "Value", "Values", "Output"]⟩]
  mode := .longest

def coerce? (p : Parameter) (item : Item) : Option Item :=
  if item.isNull then some .null
  else
    match p with
    | .data | .valueList => some item
    | .number | .numberSlider => item.number?.map .number
    | .integer => item.integer?.map .integer
    | .boolean => item.boolean?.map .boolean
    | .text => some (.text item.display)
    | .point => item.coordinates?.map .point

/-- The tree with every item in the form of a parameter. -/
def convert (p : Parameter) (t : Tree) : Except CallFault Tree :=
  match t.items.find? fun item => (p.coerce? item).isNone with
  | some item => .error (.unconvertible p.name item)
  | none => .ok (t.mapItems fun item => (p.coerce? item).getD .null)

def call (p : Parameter) (args : List Value) : CallResult := do
  let t ← treeAt args 0 "Data"
  return [.tree (← p.convert t)]

end Parameter
end Component
end TreeFlow
