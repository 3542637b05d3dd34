import TreeFlow.Component.Call
import TreeFlow.Component.Signature
import TreeFlow.Tree.Structure
/-
Components for the structural steps on trees.  Each takes its whole tree in one call.
-/

namespace TreeFlow
namespace Component

inductive Restructure where
  | flatten
  | graft
  | simplify
deriving DecidableEq, Repr, Inhabited

namespace Restructure

def all : List Restructure := [.flatten, .graft, .simplify]

def names : Restructure → List String
  | .flatten => ["Flatten Tree", "Flatten"]
  | .graft => ["Graft Tree", "Graft"]
  | .simplify => ["Simplify Tree", "Simplify"]

def name (r : Restructure) : String := r.names.headD ""

def signature (_ : Restructure) : Signature where
  inputs := [Input.tree "Tree" ["T", "Data"]]
  outputs := [⟨"Tree", ["T", "Data"]⟩]
  mode := .longest

def apply (r : Restructure) (t : Tree) : Tree :=
  match r with
  | .flatten => t.flatten
  | .graft => t.graft
  | .simplify => t.simplify

def call (r : Restructure) (args : List Value) : CallResult := do
  return [.tree (r.apply (← treeAt args 0 "Tree"))]

end Restructure
end Component
end TreeFlow
