import TreeFlow.Failure
import TreeFlow.Run.Bindings
/-
The results of a run while it goes on.

A store has one slot for each component, and each slot is written once.  Inputs of a component are
resolved from the outputs that are in the store already.
-/

namespace TreeFlow

inductive Status where
  | ok
  | failed (error : String)
  /-- It was not run, because the named component failed. -/
  | skipped (culprit : String)
deriving DecidableEq, Repr, Inhabited

def Status.isOk : Status → Bool
  | .ok => true
  | .failed _ | .skipped _ => false

/-- The result of one component: a tree for each output parameter. -/
structure Outcome where
  outputs : List Tree
  status : Status
deriving DecidableEq, Inhabited

/-- The result of a component without outputs to give. -/
def Outcome.withoutItems (outputs : Nat) (status : Status) : Outcome :=
  ⟨List.replicate outputs .empty, status⟩

structure Store where
  slots : List (Option Outcome)
deriving DecidableEq, Inhabited

/-- The steps that a parameter applies to what it is given: its expression, its reversal and its
mapping, in this order. -/
def InputParam.adapt (p : InputParam) (t : Tree) : Tree :=
  let computed := match p.expression with
    | some e => e.apply t
    | none => t
  p.mapping.apply (if p.reverse then computed.reverseBranches else computed)

namespace Store

def ofSize (n : Nat) : Store := ⟨List.replicate n none⟩

def get? (s : Store) (i : Nat) : Option Outcome := s.slots[i]?.join

def isRecorded (s : Store) (i : Nat) : Bool := (s.get? i).isSome

def record (s : Store) (i : Nat) (o : Outcome) : Except Inconsistency Store :=
  match s.slots[i]? with
  | none => .error (.noComponent i)
  | some (some _) => .error (.writtenTwice i)
  | some none => .ok ⟨s.slots.set i (some o)⟩

/-- The tree at the producing end of a wire. -/
def output? (s : Store) (w : Wire) : Option Tree :=
  (s.get? w.producer).bind fun o => o.outputs[w.output]?

/-- The trees of all wires of a parameter, merged in their order. -/
def mergedSources (s : Store) (component : String) (p : InputParam) :
    Except Inconsistency Tree :=
  p.sources.foldlM (fun merged w =>
    match s.output? w with
    | some t => .ok (merged.merge t)
    | none => .error (.readTooEarly p.name component)) .empty

/-- What a parameter is given: what is wired to it, or else what is bound to it, or else what it
holds itself. -/
def source (s : Store) (component : String) (p : InputParam) (b : Bindings) :
    Except Inconsistency Tree :=
  if p.sources.isEmpty then .ok (((b.lookup? component p).or p.persistent).getD .empty)
  else s.mergedSources component p

def resolve (s : Store) (component : String) (p : InputParam) (b : Bindings) :
    Except Inconsistency Tree := do
  return p.adapt (← s.source component p b)

/-- The trees of all declared inputs of a component; an input without a parameter is empty. -/
def inputsFor (s : Store) (n : Node) (b : Bindings) : Except Inconsistency (List Tree) :=
  n.inputs.foldlM (fun trees p =>
    match p.slot with
    | none => .ok trees
    | some slot => do return trees.set slot (← s.resolve n.guid p b))
    (n.signature.inputs.map fun _ => .empty)

end Store
end TreeFlow
