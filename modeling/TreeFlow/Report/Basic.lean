import TreeFlow.Run.Evaluate
/-
Reports: what a run leaves behind.

A report has an entry for each component, by guid, with its output trees by name and the way it
ended.  Of two outputs of one name the later counts.
-/

namespace TreeFlow
namespace Report

structure Info where
  typeName : String
  nickname : String
  position : Position
deriving DecidableEq, Inhabited

structure Output where
  tree : Tree
  itemCount : Nat
  branchCount : Nat
deriving DecidableEq, Inhabited

def Output.ofTree (t : Tree) : Output := ⟨t, t.itemCount, t.branchCount⟩

structure Entry where
  info : Info
  outputs : SortedMap String Output
  status : Status
deriving DecidableEq, Inhabited

def Entry.ofOutcome (n : Node) (o : Outcome) : Entry where
  info := ⟨n.typeName, n.nickname, n.position⟩
  outputs := .ofList ((n.outputs.zip o.outputs).map fun (p, t) => (p.name, Output.ofTree t))
  status := o.status

end Report

structure Report where
  entries : SortedMap String Report.Entry
deriving DecidableEq, Inhabited

namespace Report

def size (r : Report) : Nat := r.entries.size
def isEmpty (r : Report) : Bool := r.entries.isEmpty

def unsuccessful (r : Report) : List (String × Entry) :=
  r.entries.entries.filter fun (_, e) => !e.status.isOk

def entryOf (s : Store) (place : Node × Nat) : Except Inconsistency (String × Entry) :=
  match s.get? place.2 with
  | some o => .ok (place.1.guid, .ofOutcome place.1 o)
  | none => .error (.notRecorded place.1.guid)

/-- The report of a store; every component of the graph has to have a result. -/
def ofStore (g : Graph) (s : Store) : Except Inconsistency Report := do
  return ⟨.ofList (← g.nodes.zipIdx.mapM (entryOf s))⟩

end Report

def Graph.run (g : Graph) (b : Bindings) (limit : Nat) (choices : Nat → Nat → Nat) :
    Except Failure Report := do
  let s ← g.evaluate b limit choices
  (Report.ofStore g s).mapError .internal

end TreeFlow
