import TreeFlow.Component.Call
import TreeFlow.Component.Signature
/-
Points and vectors.
-/

namespace TreeFlow
namespace Component

inductive Vectors where
  | constructPoint
  | deconstructPoint
  | unitX
  | unitY
  | unitZ
  | vectorXyz
  | vector2Pt
  | distance
deriving DecidableEq, Repr, Inhabited

namespace Vectors

def all : List Vectors :=
  [.constructPoint, .deconstructPoint, .unitX, .unitY, .unitZ, .vectorXyz, .vector2Pt, .distance]

def names : Vectors → List String
  | .constructPoint => ["Construct Point", "Pt XYZ"]
  | .deconstructPoint => ["Deconstruct Point", "Deconstruct", "pDecon"]
  | .unitX => ["Unit X"]
  | .unitY => ["Unit Y"]
  | .unitZ => ["Unit Z"]
  | .vectorXyz => ["Vector XYZ", "Vec"]
  | .vector2Pt => ["Vector 2Pt", "Vec2Pt"]
  | .distance => ["Distance", "Dist"]

def name (v : Vectors) : String := v.names.headD ""

def coordinateInputs : List Input :=
  [(Input.item "X component" ["X"]).withDefault (.number 0),
    (Input.item "Y component" ["Y"]).withDefault (.number 0),
    (Input.item "Z component" ["Z"]).withDefault (.number 0)]

def endInputs : List Input := [Input.item "Point A" ["A"], Input.item "Point B" ["B"]]

def vectorOutputs : List Output := [⟨"Vector", ["V"]⟩, ⟨"Length", ["L"]⟩]

def inputs : Vectors → List Input
  | .constructPoint | .vectorXyz => coordinateInputs
  | .deconstructPoint => [Input.item "Point" ["P", "Pt"]]
  | .unitX | .unitY | .unitZ => [(Input.item "Factor" ["F"]).withDefault (.number 1)]
  | .vector2Pt => endInputs ++ [(Input.item "Unitize" ["U"]).withDefault (.boolean false)]
  | .distance => endInputs

def outputs : Vectors → List Output
  | .constructPoint => [⟨"Point", ["Pt", "P"]⟩]
  | .deconstructPoint => [⟨"X component", ["X"]⟩, ⟨"Y component", ["Y"]⟩, ⟨"Z component", ["Z"]⟩]
  | .unitX | .unitY | .unitZ => [⟨"Unit vector", ["V", "Vector"]⟩]
  | .vectorXyz | .vector2Pt => vectorOutputs
  | .distance => [⟨"Distance", ["D"]⟩]

def signature (v : Vectors) : Signature := ⟨v.inputs, v.outputs, .longest⟩

def given (args : List Value) : Except CallFault Coordinates := do
  return ⟨← numberAt args 0 "X component", ← numberAt args 1 "Y component",
    ← numberAt args 2 "Z component"⟩

/-- The vector of a factor along one axis. -/
def along (args : List Value) (axis : Float → Coordinates) : CallResult := do
  return [.item (.vector (axis (← numberAt args 0 "Factor")))]

def between (args : List Value) : Except CallFault Coordinates := do
  let a ← coordinatesAt args 0 "Point A"
  let b ← coordinatesAt args 1 "Point B"
  return b.sub a

def call (v : Vectors) (args : List Value) : CallResult :=
  match v with
  | .constructPoint => do return [.item (.point (← given args))]
  | .deconstructPoint => do
    let p ← coordinatesAt args 0 "Point"
    return [.item (.number p.x), .item (.number p.y), .item (.number p.z)]
  | .unitX => along args fun f => ⟨f, 0, 0⟩
  | .unitY => along args fun f => ⟨0, f, 0⟩
  | .unitZ => along args fun f => ⟨0, 0, f⟩
  | .vectorXyz => do
    let a ← given args
    return [.item (.vector a), .item (.number a.length)]
  | .vector2Pt => do
    let a ← between args
    let unitize ← booleanAt args 2 "Unitize"
    let direction := if unitize && 0 < a.length then a.scale (1 / a.length) else a
    return [.item (.vector direction), .item (.number a.length)]
  | .distance => do return [.item (.number (← between args).length)]

end Vectors
end Component
end TreeFlow
