import TreeFlow.Proofs.Graph.Loaded
/-
What the modules behind loading rely on.

They look components up by guid, follow wires to outputs, walk from a component to those it feeds or
that feed it, and put trees into slots, all without a check of their own.  `load_consistent` says
that none of these can go astray in a graph that was loaded.
-/

namespace TreeFlow

/-- The parameters of a component fit the declared inputs and outputs of its kind. -/
structure Node.Slotted (n : Node) : Prop where
  inputs_lt : ∀ p ∈ n.inputs, ∀ slot, p.slot = some slot → slot < n.signature.inputs.length
  /-- No two input parameters feed one declared input. -/
  inputs_nodup : (n.inputs.filterMap InputParam.slot).Nodup
  /-- Exactly one output parameter carries each declared output. -/
  outputs : ∀ slot < n.signature.outputs.length,
    ∃! k : Nat, ∃ o : OutputParam, n.outputs[k]? = some o ∧ o.slot = some slot

namespace Graph

variable {g : Graph}

/-- A wire leads from one component to an input parameter of another. -/
def Wired (g : Graph) (p c : Nat) : Prop :=
  ∃ n, g.nodes[c]? = some n ∧ ∃ i ∈ n.inputs, ∃ w ∈ i.sources, w.producer = p

structure Consistent (g : Graph) : Prop where
  guids : (g.nodes.map Node.guid).Nodup
  indexOf? : ∀ guid i, g.indexOf? guid = some i ↔ ∃ n, g.nodes[i]? = some n ∧ n.guid = guid
  /-- Every wire starts at an output of a component. -/
  wires : ∀ n ∈ g.nodes, ∀ i ∈ n.inputs, ∀ w ∈ i.sources,
    ∃ m, g.nodes[w.producer]? = some m ∧ w.output < m.outputs.length
  /-- Every component has its lists of neighbours. -/
  listed : g.predecessorLists.length = g.size ∧ g.successorLists.length = g.size
  predecessors : ∀ p c, p ∈ g.predecessors c ↔ g.Wired p c
  successors : ∀ p c, c ∈ g.successors p ↔ g.Wired p c
  ascending : ∀ i, (g.predecessors i).Pairwise (· < ·) ∧ (g.successors i).Pairwise (· < ·)
  slotted : ∀ n ∈ g.nodes, n.Slotted

end Graph

/-! ## Slots -/

/-- Where the places of one list are told apart by an optional key, a key has one place. -/
theorem existsUnique_of_nodup {α : Type} {key : α → Option Nat} {l : List α}
    (h : (l.filterMap key).Nodup) {slot : Nat} (hslot : slot ∈ l.filterMap key) :
    ∃! k : Nat, ∃ a : α, l[k]? = some a ∧ key a = some slot := by
  have hapart := List.pairwise_iff_getElem.1 (List.pairwise_filterMap.1 h)
  have hlt : ∀ i j : Nat, ∀ a b, l[i]? = some a → key a = some slot → l[j]? = some b →
      key b = some slot → ¬ i < j := by
    intro i j a b ha hkey hb hkey' hij
    obtain ⟨hi, rfl⟩ := List.getElem?_eq_some_iff.1 ha
    obtain ⟨hj, rfl⟩ := List.getElem?_eq_some_iff.1 hb
    exact hapart i j hi hj hij slot hkey slot hkey' rfl
  obtain ⟨a, ha, hkey⟩ := List.mem_filterMap.1 hslot
  obtain ⟨k, hk⟩ := List.mem_iff_getElem?.1 ha
  refine ⟨k, ⟨a, hk, hkey⟩, ?_⟩
  rintro j ⟨b, hj, hkey'⟩
  have hnot := hlt k j a b hk hkey hj hkey'
  have hnot' := hlt j k b a hj hkey' hk hkey
  omega

theorem Node.Loaded.slotted {g : Graph} {c : ComponentDocument} {n : Node} (h : n.Loaded g c) :
    n.Slotted := by
  have hslots : n.inputs.map InputParam.slot = (c.placedInputs n.signature).map Prod.snd := by
    rw [eq_comm, ← List.forall₂_eq_eq_eq, List.forall₂_map_left_iff, List.forall₂_map_right_iff]
    exact h.inputs.imp fun place i hi => hi.slot.symm
  have hassigned : n.inputs.filterMap InputParam.slot = (assignSlots
      ((c.paramsOf .input).map fun p => n.signature.inputIndex? p.name)
      n.signature.inputs.length).reduceOption := by
    rw [← c.snd_placedInputs n.signature, ← hslots, List.reduceOption, List.filterMap_map]
    rfl
  have hnamed : ∀ slot, some slot ∈ (c.paramsOf .input).map
      (fun p => n.signature.inputIndex? p.name) → slot < n.signature.inputs.length := by
    intro slot hslot
    obtain ⟨p, -, hp⟩ := List.mem_map.1 hslot
    exact Component.Signature.inputIndex?_lt hp
  obtain ⟨hnodup, hlt⟩ := assignSlots_spec hnamed
  constructor
  · intro p hp slot hslot
    exact hlt slot (hassigned ▸ List.mem_filterMap.2 ⟨p, hp, hslot⟩)
  · exact hassigned ▸ hnodup
  · intro slot hslot
    have hperm := slots_outputsOf_perm (c.paramsOf .output) n.signature
    rw [← h.outputs] at hperm
    exact existsUnique_of_nodup (hperm.nodup_iff.2 List.nodup_range)
      (hperm.mem_iff.2 (List.mem_range.2 hslot))

namespace Graph

variable {g : Graph}

theorem load_consistent {d : GraphDocument} (h : load d = .ok g) : g.Consistent := by
  have hg := load_wellFormed h
  constructor
  · exact hg.guids
  · exact hg.indexed
  · exact hg.wires
  · exact hg.noted ▸ length_ofNodes g.index g.nodes
  · intro p c
    rw [hg.mem_predecessors, feeds_iff]
    rfl
  · intro p c
    rw [hg.mem_successors, feeds_iff]
    rfl
  · intro i
    exact ⟨hg.pairwise_predecessors i, hg.pairwise_successors i⟩
  · intro n hn
    obtain ⟨c, -, hc⟩ := exists_loaded_of_mem h hn
    exact hc.slotted

theorem load_consistent_sample :
    load Sample.document = .ok Sample.graph ∧ Sample.graph.Consistent :=
  ⟨Sample.load_document, load_consistent Sample.load_document⟩

end Graph
end TreeFlow
