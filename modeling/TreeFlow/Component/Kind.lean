import TreeFlow.Component.Lists
import TreeFlow.Component.Maths
import TreeFlow.Component.Parameter
import TreeFlow.Component.Restructure
import TreeFlow.Component.Vectors
/-
Kinds: all components that can stand in a graph.

A kind belongs to one of five families.  A type tag means the first kind, in the order of the
families and of the kinds in each, one of whose names it is; letter case and blanks around it do
not count.
-/

namespace TreeFlow
namespace Component

inductive Kind where
  | params (kind : Parameter)
  | maths (kind : Maths)
  | sets (kind : Lists)
  | tree (kind : Restructure)
  | vector (kind : Vectors)
deriving DecidableEq, Repr, Inhabited

namespace Kind

def all : List Kind :=
  Parameter.all.map .params ++ Maths.all.map .maths ++ Lists.all.map .sets
    ++ Restructure.all.map .tree ++ Vectors.all.map .vector

def names : Kind → List String
  | .params k => k.names
  | .maths k => k.names
  | .sets k => k.names
  | .tree k => k.names
  | .vector k => k.names

def name (k : Kind) : String := k.names.headD ""

def family : Kind → String
  | .params _ => "params"
  | .maths _ => "maths"
  | .sets _ => "sets"
  | .tree _ => "tree"
  | .vector _ => "vector"

def ofTag? (tag : String) : Option Kind := all.find? fun k => answersTo k.names tag

def signature : Kind → Signature
  | .params k => k.signature
  | .maths k => k.signature
  | .sets k => k.signature
  | .tree k => k.signature
  | .vector k => k.signature

def call (k : Kind) (args : List Value) : CallResult :=
  match k with
  | .params k => k.call args
  | .maths k => k.call args
  | .sets k => k.call args
  | .tree k => k.call args
  | .vector k => k.call args

theorem mem_all (k : Kind) : k ∈ all := by
  cases k with
  | params p => cases p <;> decide
  | maths m => cases m <;> decide
  | sets l => cases l <;> decide
  | tree t => cases t <;> decide
  | vector v => cases v <;> decide

/-- What can be decided of one kind can be decided of all. -/
instance {P : Kind → Prop} [DecidablePred P] : Decidable (∀ k, P k) :=
  decidable_of_iff (∀ k ∈ all, P k) ⟨fun h k => h k k.mem_all, fun h k _ => h k⟩

end Kind
end Component
end TreeFlow
