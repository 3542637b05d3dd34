import TreeFlow.Matching
/-
Signatures: what a kind of component takes and gives.

An input or output answers to its name and to its aliases, in any letter case and with blanks
around.
-/

namespace TreeFlow
namespace Component

structure Input where
  name : String
  aliases : List String
  access : Access
  /-- Stands in where the input has nothing to offer. -/
  default : Option Item
  /-- Whether the kind is called even where the input has neither items nor a default. -/
  optional : Bool
deriving DecidableEq, Inhabited

namespace Input

def item (name : String) (aliases : List String) : Input := ⟨name, aliases, .item, none, false⟩
def list (name : String) (aliases : List String) : Input := ⟨name, aliases, .list, none, false⟩
def tree (name : String) (aliases : List String) : Input := ⟨name, aliases, .tree, none, false⟩

def withDefault (i : Input) (item : Item) : Input := { i with default := some item }
def asOptional (i : Input) : Input := { i with optional := true }

end Input

structure Output where
  name : String
  aliases : List String
deriving DecidableEq, Repr, Inhabited

/-- Whether one of some names is meant by a text. -/
def answersTo (names : List String) (asked : String) : Bool :=
  names.any fun name => Text.sameLetters name (Text.trim asked)

def Input.answersTo (i : Input) (asked : String) : Bool :=
  Component.answersTo (i.name :: i.aliases) asked

def Output.answersTo (o : Output) (asked : String) : Bool :=
  Component.answersTo (o.name :: o.aliases) asked

structure Signature where
  inputs : List Input
  outputs : List Output
  mode : Matching.Mode
deriving DecidableEq, Inhabited

namespace Signature

/-- The place of the first input that a text means. -/
def inputIndex? (s : Signature) (asked : String) : Option Nat :=
  s.inputs.findIdx? fun i => i.answersTo asked

/-- The place of the first output that a text means. -/
def outputIndex? (s : Signature) (asked : String) : Option Nat :=
  s.outputs.findIdx? fun o => o.answersTo asked

end Signature
end Component
end TreeFlow
