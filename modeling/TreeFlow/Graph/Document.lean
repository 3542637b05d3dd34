import TreeFlow.Literal
import TreeFlow.Tree.Structure
/-
Graph documents and inputs documents.

A graph document lists components with their parameters; an inputs document gives literals for
parameters by key.  Writing leaves out what a reader assumes anyway, so reading what was written
gives the same document.
-/

namespace TreeFlow

open Json (Decoded)

structure Position where
  x : Float
  y : Float
deriving DecidableEq, Inhabited

namespace Position

def origin : Position := ⟨0, 0⟩

structure Draft where
  x : Option Float
  y : Option Float

def Draft.field (d : Draft) (name : String) (v : Json) : Decoded Draft :=
  match name with
  | "x" => do return { d with x := ← Json.once d.x (Json.asFloat v) }
  | "y" => do return { d with y := ← Json.once d.y (Json.asFloat v) }
  | _ => .ok d

def Draft.finish (d : Draft) : Decoded Position := do
  return ⟨← Json.required d.x, ← Json.required d.y⟩

def ofJson : Json → Decoded Position :=
  Json.asRecord ["x", "y"] ⟨none, none⟩ Draft.field Draft.finish

def toJson (p : Position) : Json :=
  .object [Json.member "x" (Json.ofFloat p.x), Json.member "y" (Json.ofFloat p.y)]

end Position

/-! ## Sources -/

/-- A wire as it is written: the producing component and the name of its output. -/
structure Source where
  component : String
  output : String
deriving DecidableEq, Repr, Inhabited

namespace Source

structure Draft where
  component : Option String
  output : Option String

def Draft.field (d : Draft) (name : String) (v : Json) : Decoded Draft :=
  match name with
  | "guid" => do return { d with component := ← Json.once d.component (Json.asText v) }
  | "name" => do return { d with output := ← Json.once d.output (Json.asText v) }
  | _ => .ok d

def Draft.finish (d : Draft) : Decoded Source := do
  return ⟨← Json.required d.component, ← Json.required d.output⟩

def ofJson : Json → Decoded Source :=
  Json.asRecord ["guid", "name"] ⟨none, none⟩ Draft.field Draft.finish

def toJson (s : Source) : Json :=
  .object [Json.member "guid" (.text s.component), Json.member "name" (.text s.output)]

end Source

/-! ## Parameters -/

inductive Direction where
  | input
  | output
deriving DecidableEq, Repr, Inhabited

namespace Direction

def name : Direction → String
  | .input => "input"
  | .output => "output"

def ofName? : String → Option Direction
  | "input" => some .input
  | "output" => some .output
  | _ => none

@[simp] theorem ofName?_name (d : Direction) : ofName? d.name = some d := by cases d <;> rfl

end Direction

structure ParamDocument where
  direction : Direction
  name : String
  guid : Option String
  valueType : Option String
  sources : List Source
  persistent : Option Literal
  mapping : Mapping
  reverse : Bool
  expression : Option String
deriving DecidableEq, Inhabited

namespace ParamDocument

structure Draft where
  direction : Option Direction
  name : Option String
  guid : Option (Option String)
  valueType : Option (Option String)
  sources : Option (List Source)
  persistent : Option (Option Literal)
  mapping : Option Mapping
  reverse : Option Bool
  expression : Option (Option String)

def Draft.start : Draft := ⟨none, none, none, none, none, none, none, none, none⟩

def fields : List String :=
  ["type", "name", "guid", "value_type", "sources", "persistent_data", "mapping", "reverse",
    "expression"]

/-- The levels of nesting that are left for the literal of a parameter, which stands inside of its
parameter, of the parameters of a component, and of the components of a graph. -/
def literalRoom : Nat := Json.maxNesting - 5

def Draft.field (d : Draft) (name : String) (v : Json) : Decoded Draft :=
  let optionalText := Json.asOptional Json.asText
  match name with
  | "type" => do
    return { d with direction := ← Json.once d.direction (Json.asWord Direction.ofName? v) }
  | "name" => do return { d with name := ← Json.once d.name (Json.asText v) }
  | "guid" => do return { d with guid := ← Json.once d.guid (optionalText v) }
  | "value_type" => do return { d with valueType := ← Json.once d.valueType (optionalText v) }
  | "sources" => do
    return { d with sources := ← Json.once d.sources (Json.asList Source.ofJson v) }
  | "persistent_data" => do
    let literal := Json.asOptional (Literal.ofJson literalRoom) v
    return { d with persistent := ← Json.once d.persistent literal }
  | "mapping" => do
    return { d with mapping := ← Json.once d.mapping (Json.asWord Mapping.ofName? v) }
  | "reverse" => do return { d with reverse := ← Json.once d.reverse (Json.asBoolean v) }
  | "expression" => do return { d with expression := ← Json.once d.expression (optionalText v) }
  | _ => .ok d

def Draft.finish (d : Draft) : Decoded ParamDocument := do
  return {
    direction := ← Json.required d.direction
    name := ← Json.required d.name
    guid := d.guid.join
    valueType := d.valueType.join
    sources := d.sources.getD []
    persistent := d.persistent.join
    mapping := d.mapping.getD .none
    reverse := d.reverse.getD false
    expression := d.expression.join }

def ofJson : Json → Decoded ParamDocument :=
  Json.asRecord fields .start Draft.field Draft.finish

/-- A member that is only written where it is given. -/
def memberIf (given : Bool) (name : String) (value : Json) : List (Json × Json) :=
  if given then [Json.member name value] else []

def optionalMember (name : String) (text : Option String) : List (Json × Json) :=
  memberIf text.isSome name (.text (text.getD ""))

def toJson (p : ParamDocument) : Json :=
  .object ([Json.member "type" (.text p.direction.name), Json.member "name" (.text p.name)]
    ++ optionalMember "guid" p.guid
    ++ optionalMember "value_type" p.valueType
    ++ memberIf (!p.sources.isEmpty) "sources" (.list (p.sources.map Source.toJson))
    ++ (p.persistent.map fun literal => Json.member "persistent_data" literal.toJson).toList
    ++ memberIf (p.mapping != .none) "mapping" (.text p.mapping.name)
    ++ memberIf p.reverse "reverse" (.boolean true)
    ++ optionalMember "expression" p.expression)

end ParamDocument

/-! ## Components -/

structure ComponentDocument where
  guid : String
  typeName : String
  nickname : String
  position : Position
  params : List ParamDocument
deriving DecidableEq, Inhabited

namespace ComponentDocument

structure Draft where
  guid : Option String
  typeName : Option String
  nickname : Option String
  position : Option Position
  params : Option (List ParamDocument)

def Draft.field (d : Draft) (name : String) (v : Json) : Decoded Draft :=
  match name with
  | "guid" => do return { d with guid := ← Json.once d.guid (Json.asText v) }
  | "type" => do return { d with typeName := ← Json.once d.typeName (Json.asText v) }
  | "nickname" => do return { d with nickname := ← Json.once d.nickname (Json.asText v) }
  | "position" => do return { d with position := ← Json.once d.position (Position.ofJson v) }
  | "params" => do
    return { d with params := ← Json.once d.params (Json.asList ParamDocument.ofJson v) }
  | _ => .ok d

def Draft.finish (d : Draft) : Decoded ComponentDocument := do
  return ⟨← Json.required d.guid, ← Json.required d.typeName, d.nickname.getD "",
    d.position.getD .origin, d.params.getD []⟩

def ofJson : Json → Decoded ComponentDocument :=
  Json.asRecord ["guid", "type", "nickname", "position", "params"] ⟨none, none, none, none, none⟩
    Draft.field Draft.finish

def toJson (c : ComponentDocument) : Json :=
  .object [Json.member "guid" (.text c.guid), Json.member "type" (.text c.typeName),
    Json.member "nickname" (.text c.nickname), Json.member "position" c.position.toJson,
    Json.member "params" (.list (c.params.map ParamDocument.toJson))]

/-- The parameters of one direction, in order. -/
def paramsOf (c : ComponentDocument) (direction : Direction) : List ParamDocument :=
  c.params.filter fun p => p.direction == direction

end ComponentDocument

/-! ## Graphs -/

structure GraphDocument where
  components : List ComponentDocument
deriving DecidableEq, Inhabited

namespace GraphDocument

def field (d : Option (List ComponentDocument)) (name : String) (v : Json) :
    Decoded (Option (List ComponentDocument)) :=
  match name with
  | "components" => Json.once d (Json.asList ComponentDocument.ofJson v)
  | _ => .ok d

def ofJson : Json → Decoded GraphDocument :=
  Json.asRecord ["components"] none field fun d => (Json.required d).map GraphDocument.mk

def toJson (g : GraphDocument) : Json :=
  .object [Json.member "components" (.list (g.components.map ComponentDocument.toJson))]

def read (units : List (Option Char)) : Decoded GraphDocument := Json.decode ofJson units

end GraphDocument

/-! ## Inputs -/

structure InputsDocument where
  entries : SortedMap String Literal
deriving DecidableEq, Inhabited

namespace InputsDocument

/-- The levels of nesting that are left for the literal of an entry. -/
def literalRoom : Nat := Json.maxNesting - 2

def field (d : Option Literal) (name : String) (v : Json) : Decoded (Option Literal) :=
  match name with
  | "data" => Json.once d (Literal.ofJson literalRoom v)
  | _ => .ok d

def entryOfJson : Json → Decoded Literal := Json.asRecord ["data"] none field Json.required

/-- The document of a value; of two entries of one key the later counts. -/
def ofJson (v : Json) : Decoded InputsDocument := do
  return ⟨.ofList (← Json.asMembers entryOfJson v)⟩

def toJson (d : InputsDocument) : Json :=
  .object (d.entries.entries.map fun (key, literal) =>
    Json.member key (.object [Json.member "data" literal.toJson]))

def read (units : List (Option Char)) : Decoded InputsDocument := Json.decode ofJson units

end InputsDocument
end TreeFlow
