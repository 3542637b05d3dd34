import TreeFlow.Tree.Document
/-
Literal trees: trees as they are written in documents.

A literal is a list of items, a map of branches, or a single item, and keeps the form in which it
was written.  A list is never mistaken for a point, nor a map of branches for one: a list all of
whose elements are items is a list, and an object all of whose members are lists of items is a map.
-/

namespace TreeFlow

open Json (Decoded)

inductive Literal where
  | list (items : List Item)
  | branches (map : SortedMap String (List Item))
  | scalar (item : Item)
deriving DecidableEq, Inhabited

namespace Literal

/-- Whether nothing is written: no items and no branches. -/
def isBlank : Literal → Bool
  | .list items => items.isEmpty
  | .branches map => map.isEmpty
  | .scalar _ => false

def toTree : Literal → Except PathFault Tree
  | .list items => .ok (Tree.ofList items)
  | .branches map => Tree.ofKeyed map
  | .scalar item => .ok (Tree.ofItem item)

def ofTree (t : Tree) : Literal := .branches t.keyed

/-! ## In documents -/

/-- The items of a list all of whose elements are items. -/
def items? : Json → Option (List Item)
  | .list elements => elements.mapM Item.ofSound?
  | _ => none

/-- The branches of an object all of whose members are lists of items; of two members of one name
the later counts. -/
def branches? : Json → Option (SortedMap String (List Item))
  | .object members =>
    (members.mapM fun member : Json × Json =>
      match member with
      | (.text s, v) => (items? v).map fun items => (s, items)
      | _ => none).map .ofList
  | _ => none

/-- The literal of a value that is known to be sound. -/
def ofSound? (v : Json) : Option Literal :=
  ((items? v).map .list).or (((branches? v).map .branches).or ((Item.ofSound? v).map .scalar))

/-- The literal of a value at a place with `room` levels of nesting left. -/
def ofJson (room : Nat) (v : Json) : Decoded Literal :=
  if v.sound room then (ofSound? v).elim (.error .mismatch) .ok else .error .malformed

def toJson : Literal → Json
  | .list items => itemsToJson items
  | .branches map =>
    .object (map.entries.map fun (key, items) => Json.member key (itemsToJson items))
  | .scalar item => item.toJson

end Literal
end TreeFlow
