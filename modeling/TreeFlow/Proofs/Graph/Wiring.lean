import Mathlib.Data.Fintype.Card
import Mathlib.Data.Fintype.Fin
import Mathlib.Logic.Relation
import TreeFlow.Proofs.Graph.Neighbours
/-
Wiring: which components feed which, and the orders that respect it.

A component is upstream of another if a chain of wires leads from it to the other, and a graph is
acyclic if no component is upstream of itself.  Away from the cycles and from what lies behind them
the wires are well-founded (`acc_of_not_trapped`), those of an acyclic graph everywhere
(`Acyclic.wellFounded`), so a statement about a component can be shown from what holds of the
components that feed it.
-/

namespace TreeFlow
namespace Graph

variable {g : Graph}

def feeds (g : Graph) (producer consumer : Nat) : Bool :=
  match g.nodes[consumer]? with
  | some n => n.producers.contains producer
  | none => false

/-- A wire leads from one component to another. -/
def Feeds (g : Graph) (p c : Nat) : Prop := g.feeds p c = true

instance (p c : Nat) : Decidable (g.Feeds p c) := inferInstanceAs (Decidable (g.feeds p c = true))

/-- A chain of wires leads from one component to another. -/
def Upstream (g : Graph) : Nat → Nat → Prop := Relation.TransGen g.Feeds

/-- No chain of wires leads from a component back to itself. -/
def Acyclic (g : Graph) : Prop := ∀ i, ¬ g.Upstream i i

/-- The component lies on a cycle of wires, or behind one. -/
def Trapped (g : Graph) (c : Nat) : Prop := ∃ z, g.Upstream z z ∧ (z = c ∨ g.Upstream z c)

/-- What loading makes sure of: guids are distinct and lead to their components, every wire starts at
an output, and all wires are noted. -/
structure WellFormed (g : Graph) : Prop where
  guids : (g.nodes.map Node.guid).Nodup
  wires : ∀ n ∈ g.nodes, ∀ p ∈ n.inputs, ∀ w ∈ p.sources,
    ∃ m, g.nodes[w.producer]? = some m ∧ w.output < m.outputs.length
  indexed : ∀ guid i, g.indexOf? guid = some i ↔ ∃ n, g.nodes[i]? = some n ∧ n.guid = guid
  noted : g = .ofNodes g.index g.nodes

/-- An order of all components in which each stands behind everything that feeds it. -/
structure Linearization (g : Graph) (order : List Nat) : Prop where
  perm : order.Perm g.indices
  behind : ∀ before c after, order = before ++ c :: after → ∀ p, g.Feeds p c → p ∈ before

/-! ## Wires -/

@[simp] theorem mem_indices {i : Nat} : i ∈ g.indices ↔ i < g.size := List.mem_range

theorem feeds_iff_mem_producers {p c : Nat} :
    g.Feeds p c ↔ ∃ n, g.nodes[c]? = some n ∧ p ∈ n.producers := by
  unfold Feeds feeds
  cases g.nodes[c]? <;> simp

theorem feeds_iff {p c : Nat} :
    g.Feeds p c ↔ ∃ n, g.nodes[c]? = some n ∧ ∃ i ∈ n.inputs, ∃ w ∈ i.sources, w.producer = p := by
  simp only [feeds_iff_mem_producers, Node.producers, List.mem_flatMap, List.mem_map]

theorem Feeds.consumer_lt {p c : Nat} (h : g.Feeds p c) : c < g.size := by
  obtain ⟨n, hn, -⟩ := feeds_iff.1 h
  exact (List.getElem?_eq_some_iff.1 hn).1

theorem WellFormed.producer_lt (hg : g.WellFormed) {p c : Nat} (h : g.Feeds p c) :
    p < g.size := by
  obtain ⟨n, hn, i, hi, w, hw, rfl⟩ := feeds_iff.1 h
  obtain ⟨m, hm, -⟩ := hg.wires n (List.mem_of_getElem? hn) i hi w hw
  exact (List.getElem?_eq_some_iff.1 hm).1

/-! ## Neighbours -/

namespace WellFormed

theorem mem_predecessors (hg : g.WellFormed) {p c : Nat} :
    p ∈ g.predecessors c ↔ g.Feeds p c := by
  rw [feeds_iff_mem_producers, hg.noted]
  exact mem_predecessors_ofNodes

theorem mem_successors (hg : g.WellFormed) {p c : Nat} :
    c ∈ g.successors p ↔ g.Feeds p c := by
  have hlt : g.Feeds p c → p < g.size := hg.producer_lt
  rw [← and_iff_right_of_imp hlt, feeds_iff_mem_producers, hg.noted]
  exact mem_successors_ofNodes

theorem pairwise_predecessors (hg : g.WellFormed) (i : Nat) :
    (g.predecessors i).Pairwise (· < ·) := by
  rw [hg.noted]
  exact (pairwise_ofNodes _ _ i).1

theorem pairwise_successors (hg : g.WellFormed) (i : Nat) :
    (g.successors i).Pairwise (· < ·) := by
  rw [hg.noted]
  exact (pairwise_ofNodes _ _ i).2

theorem nodup_predecessors (hg : g.WellFormed) (i : Nat) : (g.predecessors i).Nodup :=
  (hg.pairwise_predecessors i).imp Nat.ne_of_lt

theorem nodup_successors (hg : g.WellFormed) (i : Nat) : (g.successors i).Nodup :=
  (hg.pairwise_successors i).imp Nat.ne_of_lt

/-- What is noted of a component follows from the wires alone. -/
theorem predecessors_eq (hg : g.WellFormed) (i : Nat) :
    g.predecessors i = g.indices.filter fun p => g.feeds p i := by
  refine (hg.pairwise_predecessors i).eq_of_mem_iff (List.pairwise_lt_range.filter _) fun p => ?_
  rw [hg.mem_predecessors, List.mem_filter, mem_indices]
  exact (and_iff_right_of_imp hg.producer_lt).symm

theorem successors_eq (hg : g.WellFormed) (i : Nat) :
    g.successors i = g.indices.filter fun c => g.feeds i c := by
  refine (hg.pairwise_successors i).eq_of_mem_iff (List.pairwise_lt_range.filter _) fun c => ?_
  rw [hg.mem_successors, List.mem_filter, mem_indices]
  exact (and_iff_right_of_imp Feeds.consumer_lt).symm

end WellFormed

/-! ## Cycles -/

theorem Upstream.consumer_lt {p c : Nat} (h : g.Upstream p c) : c < g.size := by
  obtain ⟨b, -, hbc⟩ := Relation.TransGen.tail'_iff.1 h
  exact hbc.consumer_lt

theorem Trapped.of_feeds {p c : Nat} (h : g.Trapped p) (hp : g.Feeds p c) : g.Trapped c := by
  obtain ⟨z, hz, hzp⟩ := h
  rcases hzp with rfl | hzp
  · exact ⟨z, hz, .inr (.single hp)⟩
  · exact ⟨z, hz, .inr (hzp.tail hp)⟩

/-- Going back along the wires from a component that is not trapped comes to an end. -/
theorem acc_of_not_trapped {c : Nat} (h : ¬ g.Trapped c) : Acc g.Feeds c := by
  have outside : ∀ i, g.size ≤ i → Acc g.Feeds i := by
    intro i hi
    refine ⟨i, fun p hp => ?_⟩
    have := hp.consumer_lt
    omega
  have chains : WellFounded fun a b : { i : Fin g.size // ¬ g.Trapped i } =>
      g.Upstream a.1 b.1 := by
    have trans : IsTrans { i : Fin g.size // ¬ g.Trapped i } fun a b => g.Upstream a.1 b.1 :=
      ⟨fun _ _ _ => Relation.TransGen.trans⟩
    have irrefl : Std.Irrefl fun a b : { i : Fin g.size // ¬ g.Trapped i } =>
        g.Upstream a.1 b.1 := ⟨fun a ha => a.2 ⟨_, ha, .inl rfl⟩⟩
    exact Finite.wellFounded_of_trans_of_irrefl _
  have inside : ∀ i : { i : Fin g.size // ¬ g.Trapped i }, Acc g.Feeds i.1 := by
    intro i
    induction i using chains.induction with
    | h c ih =>
      refine Acc.intro _ fun p hp => ?_
      rcases Nat.lt_or_ge p g.size with hlt | hge
      · have hfree : ¬ g.Trapped p := fun htrapped => c.2 (htrapped.of_feeds hp)
        exact ih ⟨⟨p, hlt⟩, hfree⟩ (.single hp)
      · exact outside p hge
  rcases Nat.lt_or_ge c g.size with hlt | hge
  · exact inside ⟨⟨c, hlt⟩, h⟩
  · exact outside c hge

theorem Acyclic.not_trapped (h : g.Acyclic) (c : Nat) : ¬ g.Trapped c :=
  fun ⟨z, hz, _⟩ => h z hz

theorem Acyclic.wellFounded (h : g.Acyclic) : WellFounded g.Feeds :=
  ⟨fun c => acc_of_not_trapped (h.not_trapped c)⟩

/-- Where all wires lead forward, so do the chains of wires. -/
theorem WellFormed.upstream_lt (hg : g.WellFormed)
    (h : ∀ c < g.size, ∀ p ∈ g.predecessors c, p < c) {p c : Nat} (hpc : g.Upstream p c) :
    p < c := by
  have step : ∀ p c, g.Feeds p c → p < c := fun p c hpc =>
    h c hpc.consumer_lt p (hg.mem_predecessors.2 hpc)
  induction hpc with
  | single hs => exact step _ _ hs
  | tail _ hs ih => exact Nat.lt_trans ih (step _ _ hs)

/-- Wires that all lead forward make no cycle. -/
theorem WellFormed.acyclic (hg : g.WellFormed)
    (h : ∀ c < g.size, ∀ p ∈ g.predecessors c, p < c) : g.Acyclic := fun i hi =>
  Nat.lt_irrefl i (hg.upstream_lt h hi)

end Graph
end TreeFlow
