import TreeFlow.Tree
/-
Matching: lining up the trees that a component receives into calls.

An input of item access contributes one item to a call, one of list access a whole branch, and one
of tree access the whole tree.  The first two kinds of input are iterated.  Calls are grouped by
the branch that their results go to, so that a branch without calls is still seen.
-/

namespace TreeFlow

/-! ## Values -/

/-- One argument of a call, or one result of it. -/
inductive Value where
  /-- No value: the input has nothing to offer. -/
  | missing
  | item (value : Item)
  | list (values : List Item)
  | tree (value : Tree)
deriving DecidableEq, Inhabited

namespace Value

/-- The items of a list; a single item counts as a list of one. -/
def list? : Value → Option (List Item)
  | .list values => some values
  | .item value => some [value]
  | .missing | .tree _ => none

def tree? : Value → Option Tree
  | .tree t => some t
  | _ => none

end Value

/-! ## Inputs -/

inductive Access where
  | item
  | list
  | tree
deriving DecidableEq, Repr, Inhabited

namespace Matching

inductive Mode where
  | longest
  | shortest
  | cross
deriving DecidableEq, Repr, Inhabited

structure Input where
  name : String
  access : Access
  tree : Tree
deriving DecidableEq, Inhabited

def Input.iterated (i : Input) : Bool := i.access != .tree

/-- All calls that write into one branch of the outputs; a call holds one value for each input. -/
structure Branch where
  path : Path
  calls : List (List Value)
deriving DecidableEq, Inhabited

/-- The named input offers no branch to combine. -/
structure NoBranch where
  input : String
deriving DecidableEq, Repr, Inhabited

def NoBranch.message (e : NoBranch) : String :=
  "cross reference needs at least one branch on input '" ++ e.input ++ "'"

/-! ## Offers -/

/-- What an input offers to the calls of one branch. -/
inductive Offer where
  | missing
  /-- An item to each call; the last one holds for further calls. -/
  | items (values : Array Item)
  /-- The same list to each call. -/
  | whole (values : List Item)
  /-- The same tree to each call. -/
  | tree (value : Tree)
deriving DecidableEq, Inhabited

namespace Offer

/-- What a branch is to an input. -/
def ofBranch (access : Access) (items : List Item) : Offer :=
  match access with
  | .list => .whole items
  | .item | .tree => .items items.toArray

/-- An offer of at most one item. -/
def ofItem? (item : Option Item) : Offer :=
  match item with
  | some item => .items #[item]
  | none => .missing

/-- The number of calls that the offer asks for by itself. -/
def count : Offer → Nat
  | .items values => values.size
  | .whole _ => 1
  | .missing | .tree _ => 0

def argument (i : Nat) : Offer → Value
  | .missing => .missing
  | .items values => (values[i]?.or values.back?).elim .missing .item
  | .whole values => .list values
  | .tree t => .tree t

/-- All values on offer, each once. -/
def choices : Offer → List Value
  | .missing => []
  | .items values => values.toList.map .item
  | .whole values => [.list values]
  | .tree t => [.tree t]

end Offer

/-! ## Paths -/

def unionPaths (inputs : List Input) : List Path :=
  let sets := (inputs.filter Input.iterated).map fun i => i.tree.branches.map fun _ => ()
  (sets.foldl (SortedMap.unionWith fun _ _ => ()) .empty).keys

/-- The paths of an ascending list that no other path of it extends.  The extensions of a path
stand right after it, so that its neighbour decides. -/
def leaves : List Path → List Path
  | p :: q :: rest => if p.extends? q then leaves (q :: rest) else p :: leaves (q :: rest)
  | ps => ps

/-- Whether some iterated input has exactly the given paths. -/
def keepsPaths (inputs : List Input) (paths : List Path) : Bool :=
  inputs.any fun i => i.iterated && i.tree.paths == paths

/-- The paths of the outputs: the given ones if some iterated input has exactly these, and else
their numbers. -/
def outputPaths (inputs : List Input) (paths : List Path) : List Path :=
  if keepsPaths inputs paths then paths
  else paths.zipIdx.map fun (_, n) => .ofIndex n

/-! ## Longest list -/

/-- The paths above a path, nearest first, each with the segment of the path that follows it. -/
def ancestors (p : Path) : List (Path × UInt32) :=
  (p.segments.zipIdx.map fun (segment, k) => (⟨p.segments.take k⟩, segment)).reverse

/-- The nearest branch above a path, with the segment that follows it. -/
def nearestAncestor? (t : Tree) (p : Path) : Option (List Item × UInt32) :=
  (ancestors p).findSome? fun (q, segment) => (t.branch? q).map fun items => (items, segment)

/-- The last branch before a path, or else the first branch. -/
def nearestBranch? (t : Tree) (p : Path) : Option (List Item) :=
  let earlier := t.branches.entries.takeWhile fun e => compare e.1 p == .lt
  (earlier.getLast?.or t.branches.entries.head?).map (·.2)

/-- What a tree offers for a path.  The branch at the path is offered as it is.  In place of a
branch that is not there stands the nearest branch above the path, or else the nearest one in path
order; of it, an input of item access takes a single item, for all calls. -/
def offerAt (access : Access) (t : Tree) (p : Path) : Offer :=
  match t.branch? p with
  | some items => .ofBranch access items
  | none =>
    match nearestAncestor? t p with
    | some (items, segment) =>
      match access with
      | .list => .whole items
      | .item | .tree => .ofItem? (items[segment.toNat]?.or items.getLast?)
    | none =>
      match nearestBranch? t p, access with
      | none, _ => .missing
      | some items, .list => .whole items
      | some items, _ => .ofItem? items.getLast?

def Input.offerAt (i : Input) (p : Path) : Offer :=
  match i.access with
  | .tree => .tree i.tree
  | access => Matching.offerAt access i.tree p

def callsOf (offers : List Offer) (count : Nat) : List (List Value) :=
  (List.range count).map fun c => offers.map (Offer.argument c)

/-- One branch for each path that no other extends, with as many calls as the input that asks for
most of them. -/
def longest (inputs : List Input) : List Branch :=
  let paths := leaves (unionPaths inputs)
  (paths.zip (outputPaths inputs paths)).map fun (p, output) =>
    let offers := inputs.map fun i => i.offerAt p
    ⟨output, callsOf offers ((offers.map Offer.count).foldl max 0)⟩

/-! ## Shortest list -/

def commonPaths (inputs : List Input) : List Path :=
  match inputs.filter Input.iterated with
  | [] => []
  | first :: others => first.tree.paths.filter fun p => others.all fun i => i.tree.hasPath p

def Input.offerOf (i : Input) (p : Path) : Offer :=
  match i.access with
  | .tree => .tree i.tree
  | access => ((i.tree.branch? p).map (Offer.ofBranch access)).getD .missing

/-- One branch for each common path, with as many calls as the iterated input that asks for
fewest. -/
def shortest (inputs : List Input) : List Branch :=
  let paths := commonPaths inputs
  (paths.zip (outputPaths inputs paths)).map fun (p, output) =>
    let counts := (inputs.filter Input.iterated).map fun i => (i.offerOf p).count
    ⟨output, callsOf (inputs.map fun i => i.offerOf p) (counts.min?.getD 0)⟩

/-! ## Cross reference -/

/-- All ways to choose one element of each list, the first list varying slowest. -/
def product {α : Type} : List (List α) → List (List α)
  | [] => [[]]
  | xs :: rest =>
    let tails := product rest
    xs.flatMap fun x => tails.map fun tail => x :: tail

def Input.offers (i : Input) : List Offer :=
  match i.access with
  | .tree => [.tree i.tree]
  | access => i.tree.branches.values.map (Offer.ofBranch access)

/-- One branch for each combination of branches, with a call for each combination of what these
offer. -/
def cross (inputs : List Input) : Except NoBranch (List Branch) :=
  match inputs.find? fun i => i.iterated && i.tree.isEmpty with
  | some i => .error ⟨i.name⟩
  | none =>
    .ok ((product (inputs.map Input.offers)).zipIdx.map fun (offers, n) =>
      ⟨.ofIndex n, product (offers.map Offer.choices)⟩)

/-! ## All modes -/

/-- The single call that is made where no input is iterated. -/
def wholeTrees (inputs : List Input) : Branch :=
  ⟨.default, [inputs.map fun i => .tree i.tree]⟩

def branches (mode : Mode) (inputs : List Input) : Except NoBranch (List Branch) :=
  if inputs.any Input.iterated then
    match mode with
    | .longest => .ok (longest inputs)
    | .shortest => .ok (shortest inputs)
    | .cross => cross inputs
  else .ok [wholeTrees inputs]

end Matching
end TreeFlow
