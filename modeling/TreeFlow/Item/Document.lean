import TreeFlow.Item
import TreeFlow.Json.Decode
/-
Items in documents.

The form of an item follows from its JSON value alone.  An integer that fits a signed word is an
integer, every other number a number.  A point or vector is an object with a kind and three
coordinates, or a list of the four; the kind is its name or its place in the list of kinds.
-/

namespace TreeFlow

open Json (Decoded)

/-! ## Points and vectors -/

/-- What a kind makes of coordinates. -/
def shape? : Json → Option (Coordinates → Item)
  | .text "point" => some .point
  | .text "vector" => some .vector
  | .integer 0 => some .point
  | .integer 1 => some .vector
  | _ => none

/-- The members of a point or vector, each given once. -/
structure ShapeDraft where
  shape : Option (Coordinates → Item)
  x : Option Float
  y : Option Float
  z : Option Float

def ShapeDraft.start : ShapeDraft := ⟨none, none, none, none⟩

def ShapeDraft.field (d : ShapeDraft) (name : String) (v : Json) : Decoded ShapeDraft :=
  match name with
  | "kind" => do return { d with shape := ← Json.once d.shape (Json.required (shape? v)) }
  | "x" => do return { d with x := ← Json.once d.x (Json.asFloat v) }
  | "y" => do return { d with y := ← Json.once d.y (Json.asFloat v) }
  | "z" => do return { d with z := ← Json.once d.z (Json.asFloat v) }
  | _ => .ok d

def ShapeDraft.finish (d : ShapeDraft) : Decoded Item := do
  let make ← Json.required d.shape
  return make ⟨← Json.required d.x, ← Json.required d.y, ← Json.required d.z⟩

def shapeOfJson : Json → Decoded Item :=
  Json.asRecord ["kind", "x", "y", "z"] .start ShapeDraft.field ShapeDraft.finish

/-! ## Items -/

namespace Item

/-- The item of a value that is known to be sound. -/
def ofSound? (v : Json) : Option Item :=
  match v with
  | .null => some .null
  | .boolean value => some (.boolean value)
  | .integer n =>
    some (if n ≤ Int64.maxValue.toInt then .integer (Int64.ofInt n) else .number (Float.ofInt n))
  | .real x => some (.number x)
  | .text s => some (.text s)
  | .list _ | .object _ => (shapeOfJson v).toOption
  | .illegible | .cut => none

/-- The item of a value at a place with `room` levels of nesting left.  All of the value has to be
sound, because its form is only known at its end. -/
def ofJson (room : Nat) (v : Json) : Decoded Item :=
  if v.sound room then (ofSound? v).elim (.error .mismatch) .ok else .error .malformed

def toJson : Item → Json
  | .null => .null
  | .boolean value => .boolean value
  | .integer value => .integer value.toInt
  | .number value => Json.ofFloat value
  | .text value => .text value
  | .point p => shapeToJson "point" p
  | .vector v => shapeToJson "vector" v
where
  shapeToJson (kind : String) (a : Coordinates) : Json :=
    .object [Json.member "kind" (.text kind), Json.member "x" (Json.ofFloat a.x),
      Json.member "y" (Json.ofFloat a.y), Json.member "z" (Json.ofFloat a.z)]

end Item

def itemsToJson (items : List Item) : Json := .list (items.map Item.toJson)

end TreeFlow
