import TreeFlow.Failure
import TreeFlow.Graph.Basic
/-
Graphs from documents.

Loading first makes all components and an index of their guids, and then, every output being known,
the wires between them; at last it notes which components the wires connect.  It refuses a document
at its first defect in this order.  Sources, literals and expressions of output parameters are not
looked at.
-/

namespace TreeFlow

/-! ## Slots -/

/-- The slots that parameters name, each given to the first parameter that names it. -/
def claimSlots (taken : List Nat) : List (Option Nat) → List (Option Nat)
  | [] => []
  | none :: rest => none :: claimSlots taken rest
  | some slot :: rest =>
    if taken.contains slot then none :: claimSlots taken rest
    else some slot :: claimSlots (slot :: taken) rest

/-- Gives free slots to the parameters without one, in order. -/
def fillSlots (free : List Nat) : List (Option Nat) → List (Option Nat)
  | [] => []
  | some slot :: rest => some slot :: fillSlots free rest
  | none :: rest =>
    match free with
    | [] => none :: fillSlots [] rest
    | slot :: free => some slot :: fillSlots free rest

/-- The slot of every parameter, given the slots that they name: a parameter gets the slot that it
names first, and the others the slots below `count` that nobody names, in order. -/
def assignSlots (named : List (Option Nat)) (count : Nat) : List (Option Nat) :=
  let claimed := claimSlots [] named
  fillSlots ((List.range count).filter fun slot => !claimed.contains (some slot)) claimed

/-! ## Components -/

namespace InputParam

/-- The tree of a literal; a blank one counts as none. -/
def persistentOf (component : String) (p : ParamDocument) : Except Failure (Option Tree) :=
  match p.persistent with
  | none => .ok none
  | some literal =>
    if literal.isBlank then .ok none
    else
      match literal.toTree with
      | .ok t => .ok (some t)
      | .error cause => .error (.malformedGraph component (.invalidLiteral p.name cause))

/-- The expression of a text; a blank text counts as none. -/
def expressionOf (component : String) (p : ParamDocument) :
    Except Failure (Option Expression) :=
  let source := Text.trim (p.expression.getD "")
  if source.isEmpty then .ok none
  else
    match Expression.parse source with
    | .ok e => .ok (some e)
    | .error cause => .error (.malformedGraph component (.invalidExpression p.name cause))

/-- An input parameter, not wired yet. -/
def ofDocument (component : String) (p : ParamDocument) (slot : Option Nat) :
    Except Failure InputParam := do
  let persistent ← persistentOf component p
  let expression ← expressionOf component p
  return ⟨p.name, p.guid, slot, [], persistent, expression, p.reverse, p.mapping⟩

end InputParam

namespace Node

/-- The output parameters: those of the document, and behind them one for each declared output
that the document leaves out. -/
def outputsOf (documents : List ParamDocument) (s : Component.Signature) : List OutputParam :=
  let slots := assignSlots (documents.map fun p => s.outputIndex? p.name) s.outputs.length
  let written := (documents.zip slots).map fun (p, slot) =>
    (⟨p.name, p.guid, slot, p.mapping⟩ : OutputParam)
  let left := s.outputs.zipIdx.filter fun (_, slot) =>
    !written.any fun o => o.slot == some slot
  written ++ left.map fun (o, slot) => ⟨o.name, none, some slot, .none⟩

/-- A component, not wired yet. -/
def ofDocument (c : ComponentDocument) : Except Failure Node := do
  let kind ← match Component.Kind.ofTag? c.typeName with
    | some kind => .ok kind
    | none => .error (.malformedGraph c.guid (.unknownType c.typeName))
  let s := kind.signature
  let documents := c.paramsOf .input
  let slots := assignSlots (documents.map fun p => s.inputIndex? p.name) s.inputs.length
  let inputs ← (documents.zip slots).mapM fun (p, slot) => InputParam.ofDocument c.guid p slot
  return ⟨c.guid, kind, c.typeName, c.nickname, c.position, inputs,
    outputsOf (c.paramsOf .output) s⟩

end Node

/-! ## Graphs -/

namespace Graph

/-- The components of a document from a place on, and the index of all components.  None of them
has a guid that is in the index already. -/
def nodesOf (index : SortedMap String Nat) (place : Nat) :
    List ComponentDocument → Except Failure (List Node × SortedMap String Nat)
  | [] => .ok ([], index)
  | c :: rest =>
    if index.contains c.guid then .error (.malformedGraph c.guid .duplicateId)
    else do
      let node ← Node.ofDocument c
      let (nodes, index) ← nodesOf (index.insert c.guid place) (place + 1) rest
      return (node :: nodes, index)

def wireOf (index : SortedMap String Nat) (nodes : List Node) (component : String) (s : Source) :
    Except Failure Wire :=
  match index.get? s.component with
  | none => .error (.malformedGraph component (.missingProducer s.component))
  | some i =>
    match (nodes[i]?).bind fun producer => producer.outputIndex? s.output with
    | none => .error (.malformedGraph component (.missingOutput s.component s.output))
    | some output => .ok ⟨i, output⟩

/-- A component with the wires of its document. -/
def wired (index : SortedMap String Nat) (nodes : List Node) (c : ComponentDocument) (n : Node) :
    Except Failure Node := do
  let inputs ← ((c.paramsOf .input).zip n.inputs).mapM fun (p, i) => do
    return { i with sources := ← p.sources.mapM (wireOf index nodes c.guid) }
  return { n with inputs }

/-- Puts a place at the end of the list of a component. -/
def push (lists : List (List Nat)) (i place : Nat) : List (List Nat) :=
  lists.modify i (· ++ [place])

/-- Notes a wire at both of its ends. -/
def link (consumer : Nat) (lists : List (List Nat) × List (List Nat)) (producer : Nat) :
    List (List Nat) × List (List Nat) :=
  (push lists.1 consumer producer, push lists.2 producer consumer)

/-- For each component, the producers of the wires that end at it, and the consumers of the wires
that start at it, wire by wire. -/
def links (nodes : List Node) : List (List Nat) × List (List Nat) :=
  nodes.zipIdx.foldl (fun lists (n, consumer) => n.producers.foldl (link consumer) lists)
    (List.replicate nodes.length [], List.replicate nodes.length [])

/-- Several wires between two components count once. -/
def distinct (places : List Nat) : List Nat := (ascending places).eraseReps

def ofNodes (index : SortedMap String Nat) (nodes : List Node) : Graph :=
  let lists := links nodes
  ⟨nodes, index, lists.1.map distinct, lists.2.map distinct⟩

def load (d : GraphDocument) : Except Failure Graph := do
  let (nodes, index) ← nodesOf .empty 0 d.components
  return ofNodes index (← (d.components.zip nodes).mapM fun (c, n) => wired index nodes c n)

def read (units : List (Option Char)) : Except Failure Graph := do
  let d ← (GraphDocument.read units).mapError .json
  load d

end Graph
end TreeFlow
