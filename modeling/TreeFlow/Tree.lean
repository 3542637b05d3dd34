import TreeFlow.Item
import TreeFlow.Path
import TreeFlow.SortedMap
/-
Trees: branches of items in path order.

A tree is a map from paths to lists of items.  A branch may be empty; it still counts as a branch.
A walk over a tree goes from branch to branch in path order and from item to item within each.
-/

namespace TreeFlow

structure Tree where
  branches : SortedMap Path (List Item)
deriving DecidableEq, Inhabited

namespace Tree

/-! ## Building -/

def empty : Tree := ⟨.empty⟩

instance : EmptyCollection Tree := ⟨empty⟩

/-- The tree of a list of branches; of two branches at one path the later counts. -/
def ofBranches (branches : List (Path × List Item)) : Tree := ⟨.ofList branches⟩

/-- The tree that holds, at each path, all items listed for it, in list order. -/
def gather (parts : List (Path × List Item)) : Tree := ⟨.gather parts⟩

def ofItem (item : Item) : Tree := ofBranches [(.default, [item])]

/-- All items in the default branch; an empty list has no branch. -/
def ofList (items : List Item) : Tree :=
  if items.isEmpty then empty else ofBranches [(.default, items)]

def setBranch (t : Tree) (p : Path) (items : List Item) : Tree := ⟨t.branches.insert p items⟩

/-- Adds items at the end of a branch, which is made if needed. -/
def extendBranch (t : Tree) (p : Path) (items : List Item) : Tree :=
  ⟨t.branches.alter p fun present => present.getD [] ++ items⟩

/-! ## Contents -/

def branch? (t : Tree) (p : Path) : Option (List Item) := t.branches.get? p
def hasPath (t : Tree) (p : Path) : Bool := t.branches.contains p
def paths (t : Tree) : List Path := t.branches.keys
def branchCount (t : Tree) : Nat := t.branches.size

def items (t : Tree) : List Item := t.branches.values.flatten

def itemCount (t : Tree) : Nat := t.items.length

def isEmpty (t : Tree) : Bool := t.branches.isEmpty

def hasNoItems (t : Tree) : Bool := t.branches.values.all List.isEmpty

/-! ## Branch by branch -/

def mapBranches (f : List Item → List Item) (t : Tree) : Tree := ⟨t.branches.map f⟩

def mapItems (f : Item → Item) (t : Tree) : Tree := t.mapBranches (List.map f)

def reverseBranches (t : Tree) : Tree := t.mapBranches List.reverse

/-- The branches of both trees; where both have a branch, the items of `u` follow those of `t`. -/
def merge (t u : Tree) : Tree := ⟨t.branches.unionWith (· ++ ·) u.branches⟩

end Tree
end TreeFlow
