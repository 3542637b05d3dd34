import TreeFlow.Component.Kind
import TreeFlow.Expression
import TreeFlow.Graph.Document
/-
Graphs: components with their wires.

Components are known by their places in the graph, and an index finds the place of a guid.  A wire
leads from an output parameter of its producer to an input parameter of its consumer.  Which
components feed which is noted beside the wires, in a list for each component and each direction.
-/

namespace TreeFlow

structure Wire where
  producer : Nat
  /-- The place of the output among the producer's output parameters. -/
  output : Nat
deriving DecidableEq, Repr, Inhabited

structure InputParam where
  name : String
  guid : Option String
  /-- The declared input that the parameter feeds, if any. -/
  slot : Option Nat
  sources : List Wire
  /-- What the parameter holds where nothing is wired or bound to it. -/
  persistent : Option Tree
  expression : Option Expression
  reverse : Bool
  mapping : Mapping
deriving DecidableEq, Inhabited

structure OutputParam where
  name : String
  guid : Option String
  /-- The declared output that the parameter carries, if any. -/
  slot : Option Nat
  mapping : Mapping
deriving DecidableEq, Repr, Inhabited

structure Node where
  guid : String
  kind : Component.Kind
  typeName : String
  nickname : String
  position : Position
  inputs : List InputParam
  outputs : List OutputParam
deriving DecidableEq, Inhabited

namespace Node

def signature (n : Node) : Component.Signature := n.kind.signature

/-- The producers of all wires that end at a component. -/
def producers (n : Node) : List Nat :=
  n.inputs.flatMap fun i => i.sources.map Wire.producer

/-- The place of the output parameter that a text means: the exact name comes first, then the name
in any letter case, then a name or alias of the declared output that the parameter carries. -/
def outputIndex? (n : Node) (asked : String) : Option Nat :=
  (n.outputs.findIdx? fun o => o.name == asked).or
    ((n.outputs.findIdx? fun o => Text.sameLetters o.name asked).or
      ((n.signature.outputIndex? asked).bind fun slot =>
        n.outputs.findIdx? fun o => o.slot == some slot))

end Node

structure Graph where
  nodes : List Node
  /-- The places of the components, by their guids. -/
  index : SortedMap String Nat
  /-- For each component, the components that feed it. -/
  predecessorLists : List (List Nat)
  /-- For each component, the components that it feeds. -/
  successorLists : List (List Nat)
deriving DecidableEq, Inhabited

namespace Graph

def size (g : Graph) : Nat := g.nodes.length
def isEmpty (g : Graph) : Bool := g.nodes.isEmpty

def indices (g : Graph) : List Nat := List.range g.size

def indexOf? (g : Graph) (guid : String) : Option Nat := g.index.get? guid

/-- The components that feed a component. -/
def predecessors (g : Graph) (i : Nat) : List Nat := (g.predecessorLists[i]?).getD []

/-- The components that a component feeds. -/
def successors (g : Graph) (i : Nat) : List Nat := (g.successorLists[i]?).getD []

/-! ## Sorting places -/

def insertAscending (i : Nat) : List Nat → List Nat
  | [] => [i]
  | j :: rest => if i ≤ j then i :: j :: rest else j :: insertAscending i rest

def ascending (l : List Nat) : List Nat := l.foldr insertAscending []

end Graph
end TreeFlow
