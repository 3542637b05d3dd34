import Mathlib.Data.List.Perm.Basic
import TreeFlow.Proofs.Graph.Sound
/-
Documents in another order.

Components are known by their places, and places change when the components of a document are
written in another order.  The components themselves do not change but for the places that their
wires start at, since sources name components by guid.  So of two graphs that are loaded from one
document in two orders each is the other one renumbered: `renumbers_of_perm`.
-/

namespace TreeFlow

/-- Two lists along a third one, where each element of the second gives that of the first. -/
theorem eq_map_of_forall₂ {α β γ : Type} {R : α → β → Prop} {S : α → γ → Prop} {f : β → γ}
    {as : List α} {bs : List β} {cs : List γ} (hf : ∀ a b c, R a b → S a c → c = f b)
    (h : List.Forall₂ R as bs) (h' : List.Forall₂ S as cs) : cs = bs.map f := by
  induction h generalizing cs with
  | nil =>
    cases h'
    rfl
  | cons hab _ ih =>
    cases h' with
    | cons hac hrest => rw [List.map_cons, hf _ _ _ hab hac, ih hrest]

namespace Node.Loaded

variable {g g' : Graph} {c : ComponentDocument} {n n' : Node}

theorem kind_eq (h : n.Loaded g c) (h' : n'.Loaded g' c) : n'.kind = n.kind :=
  Option.some.inj (h'.kind.symm.trans h.kind)

theorem outputs_eq (h : n.Loaded g c) (h' : n'.Loaded g' c) : n'.outputs = n.outputs := by
  rw [h'.outputs, h.outputs, Node.signature, Node.signature, h.kind_eq h']

end Node.Loaded

/-! ## Renumbering -/

def Wire.renumber (f : Nat → Nat) (w : Wire) : Wire := { w with producer := f w.producer }

def InputParam.renumber (f : Nat → Nat) (p : InputParam) : InputParam :=
  { p with sources := p.sources.map (Wire.renumber f) }

def Node.renumber (f : Nat → Nat) (n : Node) : Node :=
  { n with inputs := n.inputs.map (InputParam.renumber f) }

namespace Graph

variable {g g' : Graph} {f : Nat → Nat}

/-- Each component of a graph stands at its new place in another one. -/
def Renumbers (f : Nat → Nat) (g g' : Graph) : Prop :=
  ∀ i n, g.nodes[i]? = some n → g'.nodes[f i]? = some (n.renumber f)

/-- What feeds a component in the other graph is what fed it, at its new place. -/
theorem Renumbers.feeds_iff (h : Renumbers f g g') {c : Nat} (hc : c < g.size) {q : Nat} :
    g'.Feeds q (f c) ↔ ∃ p, g.Feeds p c ∧ f p = q := by
  have hn : g.nodes[c]? = some g.nodes[c] := List.getElem?_eq_getElem hc
  have hn' := h c _ hn
  rw [Graph.feeds_iff]
  constructor
  · rintro ⟨n', hfound, i', hi', w', hw', rfl⟩
    obtain rfl := Option.some.inj (hn'.symm.trans hfound)
    obtain ⟨i, hi, rfl⟩ := List.mem_map.1 hi'
    obtain ⟨w, hw, rfl⟩ := List.mem_map.1 hw'
    exact ⟨w.producer, Graph.feeds_iff.2 ⟨_, hn, i, hi, w, hw, rfl⟩, rfl⟩
  · rintro ⟨p, hp, rfl⟩
    obtain ⟨n, hfound, i, hi, w, hw, rfl⟩ := Graph.feeds_iff.1 hp
    obtain rfl := Option.some.inj (hn.symm.trans hfound)
    exact ⟨_, hn', _, List.mem_map_of_mem hi, _, List.mem_map_of_mem hw, rfl⟩

/-- A cycle stays one in the other graph. -/
theorem Renumbers.acyclic (h : Renumbers f g g') (ha : g'.Acyclic) : g.Acyclic := by
  intro i hi
  have hstep : ∀ p c, g.Feeds p c → g'.Feeds (f p) (f c) := fun p c hpc =>
    (h.feeds_iff hpc.consumer_lt).2 ⟨p, hpc, rfl⟩
  exact ha (f i) (Relation.TransGen.lift f hstep i i hi)

/-! ## One document in two orders -/

/-- The place in another graph of the component with the same guid. -/
def placeIn (g' g : Graph) (i : Nat) : Nat :=
  ((g.nodes[i]?).bind fun n => g'.indexOf? n.guid).getD 0

variable {d d' : GraphDocument}

/-- A component has a counterpart in the other graph, which is loaded from the same part of the
document. -/
theorem exists_counterpart (hperm : d.components.Perm d'.components) (h : load d = .ok g)
    (h' : load d' = .ok g') {i : Nat} {n : Node} (hn : g.nodes[i]? = some n) :
    ∃ c n', n.Loaded g c ∧ n'.Loaded g' c ∧ g'.nodes[g'.placeIn g i]? = some n' := by
  have hg' := load_wellFormed h'
  obtain ⟨c, hc, hloaded⟩ := exists_loaded_of_mem h (List.mem_of_getElem? hn)
  obtain ⟨n', hn', hloaded'⟩ := exists_node_of_mem h' (hperm.mem_iff.1 hc)
  obtain ⟨j, hj⟩ := List.mem_iff_getElem?.1 hn'
  have hsame : n'.guid = n.guid := hloaded'.header.1.trans hloaded.header.1.symm
  have hplace : g'.placeIn g i = j := by
    rw [placeIn, hn, Option.bind_some, (hg'.indexed _ _).2 ⟨n', hj, hsame⟩,
      Option.getD_some]
  exact ⟨c, n', hloaded, hloaded', hplace.symm ▸ hj⟩

/-- A source means the same output of the same component in both graphs. -/
theorem wire?_placeIn (hperm : d.components.Perm d'.components) (h : load d = .ok g)
    (h' : load d' = .ok g') {s : Source} {w : Wire} (hw : g.wire? s = some w) :
    g'.wire? s = some (w.renumber (g'.placeIn g)) := by
  have hg := load_wellFormed h
  have hg' := load_wellFormed h'
  obtain ⟨hindex, n, hn, hout⟩ := wire?_eq_some_iff.1 hw
  obtain ⟨n₁, hn₁, hguid⟩ := (hg.indexed _ _).1 hindex
  obtain rfl : n = n₁ := Option.some.inj (hn.symm.trans hn₁)
  obtain ⟨c, n', hloaded, hloaded', hplace⟩ := exists_counterpart hperm h h' hn
  have hguid' : n'.guid = s.component :=
    (hloaded'.header.1.trans hloaded.header.1.symm).trans hguid
  refine wire?_eq_some_iff.2 ⟨(hg'.indexed _ _).2 ⟨n', hplace, hguid'⟩,
    n', hplace, ?_⟩
  rw [Node.outputIndex?_congr (hloaded.kind_eq hloaded') (hloaded.outputs_eq hloaded')]
  exact hout

theorem input_placeIn (hperm : d.components.Perm d'.components) (h : load d = .ok g)
    (h' : load d' = .ok g') {component : String} {place : ParamDocument × Option Nat}
    {i i' : InputParam} (hi : i.Loaded g component place) (hi' : i'.Loaded g' component place) :
    i' = i.renumber (g'.placeIn g) := by
  have hsources : i'.sources = i.sources.map (Wire.renumber (g'.placeIn g)) := by
    refine eq_map_of_forall₂ (fun s w w' hw hw' => ?_) hi.sources hi'.sources
    exact Option.some.inj (hw'.symm.trans (wire?_placeIn hperm h h' hw))
  have hsame : { i' with sources := [] } = { i with sources := [] } :=
    Except.ok.inj (hi'.document.symm.trans hi.document)
  calc i' = { { i' with sources := [] } with sources := i'.sources } := rfl
    _ = i.renumber (g'.placeIn g) := by rw [hsame, hsources]; rfl

/-- Of graphs that are loaded from one document in two orders each is the other renumbered. -/
theorem renumbers_of_perm (hperm : d.components.Perm d'.components) (h : load d = .ok g)
    (h' : load d' = .ok g') : Renumbers (g'.placeIn g) g g' := by
  intro i n hn
  obtain ⟨c, n', hloaded, hloaded', hplace⟩ := exists_counterpart hperm h h' hn
  rw [hplace]
  have hkind := hloaded.kind_eq hloaded'
  have hinputs : n'.inputs = n.inputs.map (InputParam.renumber (g'.placeIn g)) := by
    have hplaced := hloaded'.inputs
    rw [Node.signature, hkind] at hplaced
    refine eq_map_of_forall₂ (fun place i i' hi hi' => ?_) hloaded.inputs hplaced
    exact input_placeIn hperm h h' hi hi'
  obtain ⟨hguid, htype, hnickname, hposition⟩ := hloaded.header
  obtain ⟨hguid', htype', hnickname', hposition'⟩ := hloaded'.header
  -- Field by field; only the inputs hold wires.
  refine congrArg some ?_
  show (⟨n'.guid, n'.kind, n'.typeName, n'.nickname, n'.position, n'.inputs, n'.outputs⟩ : Node)
    = ⟨n.guid, n.kind, n.typeName, n.nickname, n.position, _, n.outputs⟩
  rw [hguid', hguid, hkind, htype', htype, hnickname', hnickname, hposition', hposition, hinputs,
    hloaded.outputs_eq hloaded']

end Graph

/-- Conditions on documents do not speak of the order of components. -/
theorem GraphDocument.Sound.perm {d d' : GraphDocument} (hperm : d.components.Perm d'.components)
    (h : d.Sound) : d'.Sound := by
  constructor
  · exact (hperm.map ComponentDocument.guid).nodup_iff.1 h.guids
  · exact fun c hc => h.types c (hperm.mem_iff.2 hc)
  · exact fun c hc => h.literals c (hperm.mem_iff.2 hc)
  · exact fun c hc => h.expressions c (hperm.mem_iff.2 hc)
  · intro c hc p hp s hs
    obtain ⟨producer, hproducer, hfound⟩ := h.sources c (hperm.mem_iff.2 hc) p hp s hs
    exact ⟨producer, hperm.mem_iff.1 hproducer, hfound⟩

/-- A document that loads does so in any order. -/
theorem Graph.exists_load_of_perm {d d' : GraphDocument}
    (hperm : d.components.Perm d'.components) (h : ∃ g, load d = .ok g) :
    ∃ g', load d' = .ok g' := by
  obtain ⟨g, hg⟩ := h
  exact exists_load_of_sound ((sound_of_load hg).perm hperm)

end TreeFlow
