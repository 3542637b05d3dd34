import TreeFlow.Graph.Basic
/-
Bindings: trees from outside for parameters that are not wired.

A binding belongs to a parameter by the parameter's guid, or else by the guid of its component and
its own name.
-/

namespace TreeFlow

structure Bindings where
  trees : SortedMap String Tree
deriving DecidableEq, Inhabited

namespace Bindings

def empty : Bindings := ⟨.empty⟩

def size (b : Bindings) : Nat := b.trees.size
def isEmpty (b : Bindings) : Bool := b.trees.isEmpty

/-- Binds a tree under a key, in place of one that is bound there. -/
def bind (b : Bindings) (key : String) (t : Tree) : Bindings := ⟨b.trees.insert key t⟩

/-- The bindings of a document, its entries taken in the order of their keys. -/
def ofDocument (d : InputsDocument) : Except PathFault Bindings :=
  d.entries.entries.foldlM
    (fun b (key, literal) => do return b.bind key (← literal.toTree)) empty

/-- The key of a parameter without a guid. -/
def keyFor (component param : String) : String := component ++ ":" ++ param

def lookup? (b : Bindings) (component : String) (p : InputParam) : Option Tree :=
  (p.guid.bind b.trees.get?).or (b.trees.get? (keyFor component p.name))

end Bindings
end TreeFlow
