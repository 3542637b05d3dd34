import TreeFlow.Failure
import TreeFlow.Graph.Basic
/-
Schedules: in which order the components of a graph can run.

Both schedules count down, for each component, the predecessors that have not been placed yet.  A
component becomes ready when its count comes to zero.  One schedule places components one at a
time, always the ready one that comes first in the graph; the other places all ready components
together, as a layer.  The components that never become ready are those on a cycle and those behind
one.
-/

namespace TreeFlow
namespace Graph

def openCounts (g : Graph) : List Int :=
  g.indices.map fun i => ((g.predecessors i).length : Int)

def readyAt (counts : List Int) : List Nat :=
  (List.range counts.length).filter fun i => counts[i]? == some 0

/-- Counts down one component; it is added to `ready` if its count comes to zero. -/
def countDown : List Int × List Nat → Nat → List Int × List Nat
  | (counts, ready), i =>
    match counts[i]? with
    | none => (counts, ready)
    | some n => (counts.set i (n - 1), if n - 1 = 0 then ready ++ [i] else ready)

/-- Places a component: counts down its successors, and gives those that become ready. -/
def place (g : Graph) (state : List Int × List Nat) (i : Nat) : List Int × List Nat :=
  (g.successors i).foldl countDown state

/-- The components that stay unplaced, in the order of the graph. -/
def cycleFailure (g : Graph) (counts : List Int) : Failure :=
  .cyclicGraph (((g.nodes.zip counts).filter fun (_, n) => 0 < n).map fun (node, _) => node.guid)

/-! ## One at a time -/

/-- Places up to `steps` components, the first of the ready ones each time.  The result is the
components in the order of placing, and the counts that are left. -/
def placeSingly (g : Graph) (counts : List Int) (ready : List Nat) :
    Nat → List Nat × List Int
  | 0 => ([], counts)
  | steps + 1 =>
    match ready with
    | [] => ([], counts)
    | i :: rest =>
      let (counts, fresh) := g.place (counts, []) i
      let (order, left) := g.placeSingly counts (fresh.foldr insertAscending rest) steps
      (i :: order, left)

/-- An order in which every component comes behind those that feed it; of several ready components
the first in the graph comes first. -/
def topologicalOrder (g : Graph) : Except Failure (List Nat) :=
  let (order, left) := g.placeSingly g.openCounts (readyAt g.openCounts) g.size
  if order.length < g.size then .error (g.cycleFailure left) else .ok order

/-! ## In layers -/

/-- Places up to `steps` layers, each of all components that are ready. -/
def placeLayers (g : Graph) (counts : List Int) (ready : List Nat) :
    Nat → List (List Nat) × List Int
  | 0 => ([], counts)
  | steps + 1 =>
    match ready with
    | [] => ([], counts)
    | _ :: _ =>
      let (counts, fresh) := ready.foldl g.place (counts, [])
      let (layers, left) := g.placeLayers counts (ascending fresh) steps
      (ready :: layers, left)

/-- Layers of components: each holds, in the order of the graph, the components all of whose
predecessors are in layers before it. -/
def layers (g : Graph) : Except Failure (List (List Nat)) :=
  let (layers, left) := g.placeLayers g.openCounts (readyAt g.openCounts) g.size
  if layers.flatten.length < g.size then .error (g.cycleFailure left) else .ok layers

end Graph
end TreeFlow
