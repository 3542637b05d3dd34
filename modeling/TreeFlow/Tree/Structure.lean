import TreeFlow.Tree
/-
Structural steps on trees.

Grafting gives every item a branch of its own, flattening puts all items into one branch, and
simplifying strips the segments that all paths share and numbers the others densely.  None of them
drops an item or changes the order of items.
-/

namespace TreeFlow

namespace Tree

/-! ## Nested paths -/

/-- Whether a path of a list is extended by the path right after it. -/
def hasNestedNeighbours : List Path → Bool
  | p :: q :: rest => p.extends? q || hasNestedNeighbours (q :: rest)
  | _ => false

/-- Whether some path extends another.  In path order an extended path stands right before one of
its extensions, so neighbours suffice. -/
def hasNestedPaths (t : Tree) : Bool := hasNestedNeighbours t.paths

/-! ## Graft and flatten -/

/-- Each item of a branch, in a branch of its own below `parent`. -/
def graftedItems (parent : Path) (items : List Item) : List (Path × List Item) :=
  items.zipIdx.map fun (item, i) => (parent.child (UInt32.ofNat i), [item])

/-- Moves every item into a branch of its own, below the path of its branch.  Where paths are
nested, an item of a branch could come to stand behind the branches below it; then the branches are
numbered first. -/
def graft (t : Tree) : Tree :=
  let nested := t.hasNestedPaths
  ofBranches (t.branches.entries.zipIdx.flatMap fun ((p, items), b) =>
    graftedItems (if nested then .ofIndex b else p) items)

/-- All items in the default branch; a tree without branches stays as it is. -/
def flatten (t : Tree) : Tree :=
  if t.isEmpty then empty else ofBranches [(.default, t.items)]

/-! ## Simplify -/

/-- The number of leading segments in which two paths agree. -/
def sharedLength : List UInt32 → List UInt32 → Nat
  | a :: p, b :: q => if a = b then sharedLength p q + 1 else 0
  | _, _ => 0

/-- The number of leading segments that all paths share, short of the whole of any path. -/
def strippedLength : List (List UInt32) → Nat
  | [] => 0
  | p :: rest =>
    let shared := rest.foldl (fun n q => min n (sharedLength p q)) p.length
    let shortest := rest.foldl (fun n q => min n q.length) p.length
    min shared (shortest - 1)

/-- The segments of a path with their numbers, given those of the path before it.  The segments in
which the paths agree keep their numbers, the first one that differs is the next of its siblings,
and below it numbering starts anew. -/
def numberSegments : List (UInt32 × UInt32) → List UInt32 → List (UInt32 × UInt32)
  | (a, n) :: before, b :: rest =>
    if a = b then (b, n) :: numberSegments before rest
    else (b, n + 1) :: rest.map fun c => (c, 0)
  | _, rest => rest.map fun c => (c, 0)

/-- Numbers the segments of paths in path order, given the path before them. -/
def numberPaths (before : List (UInt32 × UInt32)) : List (List UInt32) → List Path
  | [] => []
  | p :: rest =>
    let numbered := numberSegments before p
    ⟨numbered.map (·.2)⟩ :: numberPaths numbered rest

/-- Strips the leading segments that all paths share, at least one segment of each path staying,
and numbers the others from zero on, among the segments below the same path, in their order. -/
def simplify (t : Tree) : Tree :=
  let segments := t.paths.map Path.segments
  let stripped := segments.map (List.drop (strippedLength segments))
  ofBranches ((numberPaths [] stripped).zip t.branches.values)

end Tree

/-! ## Mappings -/

inductive Mapping where
  | none
  | graft
  | flatten
  | simplify
deriving DecidableEq, Repr, Inhabited

namespace Mapping

def apply (m : Mapping) (t : Tree) : Tree :=
  match m with
  | .none => t
  | .graft => t.graft
  | .flatten => t.flatten
  | .simplify => t.simplify

def name : Mapping → String
  | .none => "none"
  | .graft => "graft"
  | .flatten => "flatten"
  | .simplify => "simplify"

def ofName? : String → Option Mapping
  | "none" => some .none
  | "graft" => some .graft
  | "flatten" => some .flatten
  | "simplify" => some .simplify
  | _ => Option.none

@[simp] theorem ofName?_name (m : Mapping) : ofName? m.name = some m := by cases m <;> rfl

end Mapping
end TreeFlow
