import Mathlib.Order.Bounds.Basic
import TreeFlow.Proofs.Run.Order
/-
Layers are the depths of components.

The depth of a component is the number of wires in the longest chain of wires that ends at it.  When
so many layers are placed, the components placed are those of smaller depth (`Shallow`), and then
the available ones are those of just this depth (`Shallow.available_iff`); so the layers hold the
components by depth (`Layered.isGreatest`).  In any other layering a chain needs a layer for each of
its components, so there are never fewer layers (`Layering.length_le`).
-/

namespace TreeFlow
namespace Graph

variable {g : Graph}

/-- A chain of so many wires, each starting where the one before it ends, ends at the component. -/
inductive Chain (g : Graph) : Nat → Nat → Prop
  | start {c : Nat} : c < g.size → g.Chain 0 c
  | snoc {n p c : Nat} : g.Chain n p → g.Feeds p c → g.Chain (n + 1) c

/-- The component is in the layer of this number. -/
def InLayer (layers : List (List Nat)) (k c : Nat) : Prop :=
  ∃ layer, layers[k]? = some layer ∧ c ∈ layer

/-- Layers that hold every component once, and each behind the layers of its producers. -/
structure Layering (g : Graph) (layers : List (List Nat)) : Prop where
  perm : layers.flatten.Perm g.indices
  earlier : ∀ p c, g.Feeds p c → ∀ i j, InLayer layers i p → InLayer layers j c → i < j

/-- What is placed are the components with short chains only. -/
def Shallow (g : Graph) (depth : Nat) (placed : List Nat) : Prop :=
  ∀ c, c ∈ placed ↔ c < g.size ∧ ∀ n, g.Chain n c → n < depth

/-! ## Layers -/

theorem inLayer_zero {layer : List Nat} {rest : List (List Nat)} {c : Nat} :
    InLayer (layer :: rest) 0 c ↔ c ∈ layer := by
  simp [InLayer]

theorem inLayer_succ {layer : List Nat} {rest : List (List Nat)} {k c : Nat} :
    InLayer (layer :: rest) (k + 1) c ↔ InLayer rest k c := by
  simp [InLayer]

theorem mem_flatten_iff_inLayer {layers : List (List Nat)} {c : Nat} :
    c ∈ layers.flatten ↔ ∃ k, InLayer layers k c := by
  rw [List.mem_flatten]
  constructor
  · intro h
    obtain ⟨layer, hlayer, hc⟩ := h
    obtain ⟨k, hk⟩ := List.mem_iff_getElem?.1 hlayer
    exact ⟨k, layer, hk, hc⟩
  · intro h
    obtain ⟨k, layer, hk, hc⟩ := h
    exact ⟨layer, List.mem_of_getElem? hk, hc⟩

theorem Layering.exists_inLayer {layers : List (List Nat)} (h : g.Layering layers) {c : Nat}
    (hc : c < g.size) : ∃ k, InLayer layers k c :=
  mem_flatten_iff_inLayer.1 (h.perm.mem_iff.2 (mem_indices.2 hc))

/-! ## Chains and depths -/

theorem Chain.lt_size {n c : Nat} (h : g.Chain n c) : c < g.size := by
  cases h with
  | start hc => exact hc
  | snoc _ hp => exact hp.consumer_lt

/-- A chain has a layer before that of its end for each of its wires. -/
theorem Layering.le_of_chain {layers : List (List Nat)} (h : g.Layering layers) {n c : Nat}
    (hn : g.Chain n c) {k : Nat} (hk : InLayer layers k c) : n ≤ k := by
  induction hn generalizing k with
  | start => exact Nat.zero_le k
  | snoc hn hp ih =>
    obtain ⟨i, hi⟩ := h.exists_inLayer hn.lt_size
    exact Nat.lt_of_le_of_lt (ih hi) (h.earlier _ _ hp i k hi hk)

theorem Shallow.start (g : Graph) : g.Shallow 0 [] := by
  intro c
  refine iff_of_false List.not_mem_nil fun h => ?_
  exact Nat.not_lt_zero 0 (h.2 0 (.start h.1))

/-- With all components of smaller depth placed, those of this depth are available. -/
theorem Shallow.available_iff (hg : g.WellFormed) {depth : Nat} {placed : List Nat}
    (h : g.Shallow depth placed) {c : Nat} :
    g.Available placed c ↔ IsGreatest {n | g.Chain n c} depth := by
  constructor
  · intro hc
    have hbound : ∀ n, g.Chain n c → n ≤ depth := by
      intro n hn
      cases hn with
      | start => exact Nat.zero_le depth
      | snoc hn hp => exact ((h _).1 (hc.2.2 _ hp)).2 _ hn
    have hdeep : ∃ n, g.Chain n c ∧ depth ≤ n := by
      by_contra hnone
      refine hc.2.1 ((h c).2 ⟨hc.1, fun n hn => ?_⟩)
      by_contra hle
      exact hnone ⟨n, hn, Nat.le_of_not_lt hle⟩
    obtain ⟨n, hn, hle⟩ := hdeep
    obtain rfl : n = depth := Nat.le_antisymm (hbound n hn) hle
    exact ⟨hn, hbound⟩
  · intro hc
    refine ⟨hc.1.lt_size, fun hplaced => ?_, fun p hp => ?_⟩
    · exact Nat.lt_irrefl depth (((h c).1 hplaced).2 depth hc.1)
    · exact (h p).2 ⟨hg.producer_lt hp, fun n hn => hc.2 (hn.snoc hp)⟩

theorem Shallow.append {depth : Nat} {placed layer : List Nat} (h : g.Shallow depth placed)
    (hlayer : ∀ c, c ∈ layer ↔ IsGreatest {n | g.Chain n c} depth) :
    g.Shallow (depth + 1) (placed ++ layer) := by
  intro c
  rw [List.mem_append, h c, hlayer c]
  constructor
  · intro hc
    rcases hc with hc | hc
    · exact ⟨hc.1, fun n hn => Nat.lt_succ_of_lt (hc.2 n hn)⟩
    · exact ⟨hc.1.lt_size, fun n hn => Nat.lt_succ_of_le (hc.2 hn)⟩
  · intro hc
    by_cases hdepth : g.Chain depth c
    · exact .inr ⟨hdepth, fun n hn => Nat.le_of_lt_succ (hc.2 n hn)⟩
    · refine .inl ⟨hc.1, fun n hn => Nat.lt_of_le_of_ne (Nat.le_of_lt_succ (hc.2 n hn)) ?_⟩
      exact fun heq => hdepth (heq ▸ hn)

/-- Layers of available components hold them by depth. -/
theorem Layered.isGreatest (hg : g.WellFormed) {layers : List (List Nat)} {placed : List Nat}
    (h : g.Layered placed layers) {depth : Nat} (hplaced : g.Shallow depth placed) {k c : Nat}
    (hc : InLayer layers k c) : IsGreatest {n | g.Chain n c} (depth + k) := by
  induction layers generalizing placed depth k with
  | nil =>
    obtain ⟨layer, hk, -⟩ := hc
    cases hk
  | cons layer rest ih =>
    obtain ⟨-, havailable, hrest⟩ := h
    have hlayer : ∀ c, c ∈ layer ↔ IsGreatest {n | g.Chain n c} depth := fun c =>
      (havailable c).trans (hplaced.available_iff hg)
    cases k with
    | zero => exact (hlayer c).1 (inLayer_zero.1 hc)
    | succ k =>
      have hnext := ih hrest (hplaced.append hlayer) (inLayer_succ.1 hc)
      rwa [Nat.add_right_comm] at hnext

/-! ## Ascending layers -/

theorem Layered.nodup {layers : List (List Nat)} {placed : List Nat}
    (h : g.Layered placed layers) : ∀ layer ∈ layers, layer.Nodup := by
  induction layers generalizing placed with
  | nil => exact fun _ h => absurd h List.not_mem_nil
  | cons layer rest ih => exact List.forall_mem_cons.2 ⟨h.1, ih h.2.2⟩

/-- No layer is empty, and each is put in the order of the graph. -/
theorem placeLayers_ascending (g : Graph) (steps : Nat) {counts : List Int} {ready : List Nat}
    (hready : ready.Pairwise (· ≤ ·)) :
    ∀ layer ∈ (g.placeLayers counts ready steps).1, layer ≠ [] ∧ layer.Pairwise (· ≤ ·) := by
  induction steps generalizing counts ready with
  | zero => exact fun _ h => absurd h List.not_mem_nil
  | succ steps ih =>
    cases ready with
    | nil => exact fun _ h => absurd h List.not_mem_nil
    | cons i rest =>
      refine List.forall_mem_cons.2 ⟨⟨List.cons_ne_nil i rest, hready⟩, ?_⟩
      exact ih (pairwise_ascending _)

theorem eq_placeLayers {layers : List (List Nat)} (h : g.layers = .ok layers) :
    layers = (g.placeLayers g.openCounts (readyAt g.openCounts) g.size).1 := by
  simp only [Graph.layers] at h
  split at h
  · cases h
  · exact (Except.ok.inj h).symm

/-! ## Few layers -/

/-- Where the last layer has a component that ends a chain through all layers before it, no layering
has fewer layers. -/
theorem Layering.length_le {layers other : List (List Nat)} (hother : g.Layering other)
    (hne : ∀ layer ∈ layers, layer ≠ [])
    (hchain : ∀ k c, InLayer layers k c → g.Chain k c) : layers.length ≤ other.length := by
  rcases List.eq_nil_or_concat layers with hnil | ⟨before, last, hlast⟩
  · rw [hnil]
    exact Nat.zero_le _
  · rw [List.concat_eq_append] at hlast
    subst hlast
    obtain ⟨c, hc⟩ := List.exists_mem_of_ne_nil last (hne last (by simp))
    have hin : InLayer (before ++ [last]) before.length c := ⟨last, by simp, hc⟩
    have hdeep := hchain _ c hin
    obtain ⟨k, hk⟩ := hother.exists_inLayer hdeep.lt_size
    have hle := hother.le_of_chain hdeep hk
    obtain ⟨layer, hlayer, -⟩ := hk
    have hlt := (List.getElem?_eq_some_iff.1 hlayer).1
    rw [List.length_append, List.length_singleton]
    omega

/-- Of a graph that was loaded and has no cycle, the layers hold every component once, in the order
of the graph and by its depth, and no layering has fewer layers. -/
theorem layers_depth {d : GraphDocument} (hload : load d = .ok g) (ha : g.Acyclic) :
    ∃ layers, g.layers = .ok layers ∧ g.Layering layers ∧
      (∀ layer ∈ layers, layer ≠ [] ∧ layer.Pairwise (· < ·)) ∧
      (∀ k c, InLayer layers k c ↔ IsGreatest {n | g.Chain n c} k) ∧
      ∀ other, g.Layering other → layers.length ≤ other.length := by
  have hg := load_wellFormed hload
  obtain ⟨layers, hlayers, hlayered, hlinear⟩ := layers_eq_ok hg ha
  have hdepth : ∀ k c, InLayer layers k c → IsGreatest {n | g.Chain n c} k := by
    intro k c hc
    have hgreatest := hlayered.isGreatest hg (Shallow.start g) hc
    rwa [Nat.zero_add] at hgreatest
  have hascending : ∀ layer ∈ layers, layer ≠ [] ∧ layer.Pairwise (· ≤ ·) := by
    rw [eq_placeLayers hlayers]
    exact placeLayers_ascending g g.size (pairwise_readyAt g.openCounts)
  refine ⟨layers, hlayers, ⟨hlinear.perm, ?_⟩, ?_, ?_, ?_⟩
  · intro p c hp i j hi hj
    exact (hdepth j c hj).2 ((hdepth i p hi).1.snoc hp)
  · intro layer hlayer
    obtain ⟨hne, hle⟩ := hascending layer hlayer
    refine ⟨hne, (hle.and (hlayered.nodup layer hlayer)).imp fun h => ?_⟩
    exact Nat.lt_of_le_of_ne h.1 h.2
  · intro k c
    refine ⟨hdepth k c, fun hk => ?_⟩
    obtain ⟨k', hk'⟩ := mem_flatten_iff_inLayer.1
      (hlinear.perm.mem_iff.2 (mem_indices.2 hk.1.lt_size))
    rwa [hk.unique (hdepth k' c hk')]
  · intro other hother
    exact hother.length_le (fun layer h => (hascending layer h).1) fun k c h => (hdepth k c h).1

/-- The component that is not wired is placed at once, together with the first of the others. -/
theorem layers_depth_sample :
    load Sample.backward = .ok Sample.backwardGraph ∧ Sample.backwardGraph.Acyclic ∧
      Sample.backwardGraph.layers = .ok [[1, 3], [2], [0]] ∧
      IsGreatest {n | Sample.backwardGraph.Chain n 0} 2 ∧
      ∀ other, Sample.backwardGraph.Layering other → 3 ≤ other.length := by
  have hplaced : Sample.backwardGraph.layers = .ok [[1, 3], [2], [0]] := by decide +kernel
  obtain ⟨layers, hlayers, -, -, hdepth, hfew⟩ :=
    layers_depth Sample.load_backward Sample.backwardGraph_acyclic
  rw [hplaced] at hlayers
  obtain rfl := Except.ok.inj hlayers
  have hlast : InLayer [[1, 3], [2], [0]] 2 0 := ⟨[0], rfl, List.mem_singleton_self 0⟩
  exact ⟨Sample.load_backward, Sample.backwardGraph_acyclic, hplaced, (hdepth 2 0).1 hlast, hfew⟩

end Graph
end TreeFlow
