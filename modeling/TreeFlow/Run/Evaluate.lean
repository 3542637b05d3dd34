import TreeFlow.Run.Limit
import TreeFlow.Run.Pool
import TreeFlow.Run.Schedule
import TreeFlow.Run.Store
/-
Evaluation of graphs.

Layers run one after the other, the components of a layer as tasks of one pool.  Their results are
recorded in the order of the graph when all of them have finished, so it does not matter which
finishes first.  A component that fails is recorded without outputs, and every component behind it
is skipped.
-/

namespace TreeFlow
namespace Graph

/-- The failed component because of which a component is not run, if any: the first predecessor
that failed, or the one that an earlier predecessor was skipped for. -/
def culprit? (g : Graph) (s : Store) (i : Nat) : Option String :=
  (g.predecessors i).findSome? fun p =>
    match (s.get? p).map Outcome.status with
    | some (.failed _) => (g.nodes[p]?).map Node.guid
    | some (.skipped culprit) => some culprit
    | _ => none

def node (g : Graph) (i : Nat) : Except Failure Node :=
  match g.nodes[i]? with
  | some n => .ok n
  | none => .error (.internal (.noComponent i))

end Graph

/-- The trees of the output parameters, given those of the declared outputs; a parameter that
carries none is empty. -/
def Node.mapOutputs (n : Node) (trees : List Tree) : List Tree :=
  n.outputs.map fun o =>
    ((o.slot.bind fun slot => trees[slot]?).map o.mapping.apply).getD .empty

def Node.outcome (n : Node) (result : Except Failure (List Tree)) : Except Failure Outcome :=
  match result with
  | .ok trees => .ok ⟨n.mapOutputs trees, .ok⟩
  | .error e =>
    if e.isLocal then .ok (.withoutItems n.outputs.length (.failed e.message)) else .error e

structure Task where
  index : Nat
  node : Node
  inputs : List Tree
deriving DecidableEq, Inhabited

def Task.result (t : Task) : Except Failure (List Tree) :=
  runComponent t.node.kind t.node.guid t.inputs

namespace Store

/-- Writes the result of a component, in a run. -/
def put (s : Store) (i : Nat) (o : Outcome) : Except Failure Store :=
  (s.record i o).mapError .internal

end Store

namespace Graph

/-- Makes the task of a component, or records that it is skipped. -/
def launch (g : Graph) (b : Bindings) (state : Store × List Task) (i : Nat) :
    Except Failure (Store × List Task) := do
  let (s, tasks) := state
  let n ← g.node i
  match g.culprit? s i with
  | some culprit =>
    return (← s.put i (.withoutItems n.outputs.length (.skipped culprit)), tasks)
  | none =>
    let inputs ← (s.inputsFor n b).mapError .internal
    return (s, tasks ++ [⟨i, n, inputs⟩])

def recordResult (s : Store) (finished : Nat × Node × Except Failure (List Tree)) :
    Except Failure Store := do
  let (i, n, result) := finished
  s.put i (← n.outcome result)

/-- Runs a layer: tasks are launched in order, finish in any order, and are recorded in order. -/
def evaluateLayer (g : Graph) (b : Bindings) (permits : Nat) (choices : Nat → Nat) (s : Store)
    (layer : List Nat) : Except Failure Store := do
  let (s, tasks) ← layer.foldlM (g.launch b) (s, [])
  let results := tasks.map fun t => (t.index, t.node, t.result)
  let finished := Pool.finishingOrder permits choices results
  (SortedMap.ofList finished).entries.foldlM recordResult s

/-- Runs a graph.  `limit` bounds how many components run at once, and `choices` gives, for each
layer, the choices of its pool. -/
def evaluate (g : Graph) (b : Bindings) (limit : Nat) (choices : Nat → Nat → Nat) :
    Except Failure Store := do
  let layers ← g.layers
  layers.zipIdx.foldlM
    (fun s (layer, depth) => g.evaluateLayer b (Limit.clamp limit) (choices depth) s layer)
    (Store.ofSize g.size)

end Graph
end TreeFlow
