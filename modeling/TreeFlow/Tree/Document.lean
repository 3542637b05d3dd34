import TreeFlow.Item.Document
import TreeFlow.Tree
/-
Trees in documents.

A tree is written as an object of branches, each under the text of its path, in path order.  It is
read from branches under any texts that read as paths, no two of them as the same path; the texts
are taken in their own order, which decides which of two faults is reported.
-/

namespace TreeFlow

open Json (Decoded)

/-- Why texts do not name the branches of a tree. -/
inductive PathFault where
  | invalid (text : String)
  /-- A text is another writing of a path that is there already. -/
  | repeated (text : String)
deriving DecidableEq, Repr, Inhabited

def PathFault.message : PathFault → String
  | .invalid text => "invalid branch path '" ++ text ++ "'"
  | .repeated text => "branch path '" ++ text ++ "' is given more than once"

/-- The path of a text, or the text as the fault. -/
def Path.read (s : String) : Except PathFault Path :=
  match Path.parse? s with
  | none => .error (.invalid s)
  | some p => .ok p

theorem Path.read_eq_ok_iff {s : String} {p : Path} : read s = .ok p ↔ parse? s = some p := by
  unfold read
  cases parse? s <;> simp

theorem Path.read_eq_error_iff {s : String} {fault : PathFault} :
    read s = .error fault ↔ fault = .invalid s ∧ parse? s = none := by
  unfold read
  cases parse? s <;> simp [eq_comm]

namespace Tree

def addKeyed (t : Tree) (key : String) (items : List Item) : Except PathFault Tree := do
  let p ← Path.read key
  if t.hasPath p then .error (.repeated key) else .ok (t.setBranch p items)

/-- The tree of branches under texts. -/
def ofKeyed (branches : SortedMap String (List Item)) : Except PathFault Tree :=
  branches.entries.foldlM (fun t (key, items) => t.addKeyed key items) empty

/-- The branches of a tree under the texts of their paths. -/
def keyed (t : Tree) : SortedMap String (List Item) :=
  .ofList (t.branches.entries.map fun (p, items) => (p.text, items))

/-- A tree document at a place with `room` levels of nesting left. -/
def ofJson (room : Nat) (v : Json) : Decoded Tree := do
  let members ← Json.asMembers (Json.asList (Item.ofJson (room - 2))) v
  match ofKeyed (.ofList members) with
  | .ok t => .ok t
  | .error _ => .error .mismatch

def toJson (t : Tree) : Json :=
  .object (t.branches.entries.map fun (p, items) => Json.member p.text (itemsToJson items))

end Tree
end TreeFlow
