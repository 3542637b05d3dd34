import TreeFlow.Component.Kind
/-
Running a component over its trees.

An input without items takes its default.  If a required input has neither items nor a default, the
component is not called, and all its outputs are empty.  Otherwise the trees are lined up into
calls, and the results of the calls of a branch are put into that branch of the outputs, in call
order.
-/

namespace TreeFlow
namespace Component

inductive Failure where
  | unmatched (cause : Matching.NoBranch)
  | call (cause : CallFault)
  /-- A call gives another number of values than there are outputs. -/
  | arity (kind : Kind) (values outputs : Nat)
deriving DecidableEq, Inhabited

/-- The tree of an input: the given one if it has items, or else the default, or else the given one
if the input is optional. -/
def inputTree? (i : Input) (given : Tree) : Option Tree :=
  if !given.hasNoItems then some given
  else
    match i.default with
    | some item => some (.ofItem item)
    | none => if i.optional then some given else none

/-- The trees of all inputs; missing ones are empty, and surplus ones are not looked at. -/
def inputTrees? (inputs : List Input) (given : List Tree) : Option (List Tree) :=
  inputs.zipIdx.mapM fun (i, n) => inputTree? i (given[n]?.getD .empty)

/-- The inputs of a kind with their trees, for matching. -/
def matchInputs (inputs : List Input) (trees : List Tree) : List Matching.Input :=
  (inputs.zip trees).map fun (i, t) => ⟨i.name, i.access, t⟩

/-- A call with the defaults in place of missing values. -/
def withDefaults (inputs : List Input) (args : List Value) : List Value :=
  args.zipIdx.map fun (arg, n) =>
    match arg, inputs[n]?.bind Input.default with
    | .missing, some item => .item item
    | arg, _ => arg

/-- The values of one call, one for each output. -/
def callValues (k : Kind) (args : List Value) : Except Failure (List Value) :=
  match k.call (withDefaults k.signature.inputs args) with
  | .error cause => .error (.call cause)
  | .ok values =>
    if values.length = k.signature.outputs.length then .ok values
    else .error (.arity k values.length k.signature.outputs.length)

/-- A branch of the outputs, with the values of each of its calls. -/
structure Row where
  path : Path
  values : List (List Value)
deriving DecidableEq, Inhabited

/-- The values of all calls of a branch, in call order. -/
def rowOf (k : Kind) (b : Matching.Branch) : Except Failure Row := do
  return ⟨b.path, ← b.calls.mapM (callValues k)⟩

/-- What a value puts into an output: its items into the branch of the call, or a whole tree. -/
def parts (p : Path) : Value → List (Path × List Item)
  | .missing => [(p, [.null])]
  | .item item => [(p, [item])]
  | .list items => [(p, items)]
  | .tree t => t.branches.entries

/-- What the calls of a branch put into output number `n`. -/
def Row.parts (r : Row) (n : Nat) : List (Path × List Item) :=
  if r.values.isEmpty then [(r.path, [])]
  else r.values.flatMap fun values => (values[n]?.map (Component.parts r.path)).getD []

def outputTree (rows : List Row) (n : Nat) : Tree :=
  .gather (rows.flatMap fun r => r.parts n)

/-- The output trees of a kind, one for each declared output. -/
def run (k : Kind) (given : List Tree) : Except Failure (List Tree) :=
  let signature := k.signature
  match inputTrees? signature.inputs given with
  | none => .ok (signature.outputs.map fun _ => .empty)
  | some trees =>
    match Matching.branches signature.mode (matchInputs signature.inputs trees) with
    | .error cause => .error (.unmatched cause)
    | .ok branches => do
      let rows ← branches.mapM (rowOf k)
      return (List.range signature.outputs.length).map (outputTree rows)

end Component
end TreeFlow
