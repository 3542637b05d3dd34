import TreeFlow.Proofs.Graph.Load
import TreeFlow.Proofs.Graph.Slots
/-
What a loaded graph is made of.

Loading is two walks over a document, and a wire is looked up among the components as the first
walk leaves them.  Since the second walk only adds wires, the look-up would give the same on the
finished graph (`wire?_congr`), so that a component of a loaded graph can be described by its own
part of the document and the graph itself: `load_loaded`.
-/

namespace TreeFlow

/-! ## Lists side by side -/

/-- A second walk over a list, along the results of a first one. -/
theorem forall₂_of_zip {α β γ : Type} {R : α → β → Prop} {S : α × β → γ → Prop} {as : List α}
    {bs : List β} {cs : List γ} (h : List.Forall₂ R as bs) (h' : List.Forall₂ S (as.zip bs) cs) :
    List.Forall₂ (fun a c => ∃ b, R a b ∧ S (a, b) c) as cs := by
  induction h generalizing cs with
  | nil =>
    cases h'
    exact .nil
  | cons hab _ ih =>
    cases h' with
    | cons hac hrest => exact .cons ⟨_, hab, hac⟩ (ih hrest)

theorem exists_left_of_mem {α β : Type} {R : α → β → Prop} {as : List α} {bs : List β}
    (h : List.Forall₂ R as bs) {b : β} (hb : b ∈ bs) : ∃ a ∈ as, R a b := by
  induction h with
  | nil => cases hb
  | cons hab _ ih =>
    rcases List.mem_cons.1 hb with rfl | hb
    · exact ⟨_, List.mem_cons_self, hab⟩
    · obtain ⟨a, ha, hab⟩ := ih hb
      exact ⟨a, List.mem_cons_of_mem _ ha, hab⟩

theorem exists_right_of_mem {α β : Type} {R : α → β → Prop} {as : List α} {bs : List β}
    (h : List.Forall₂ R as bs) {a : α} (ha : a ∈ as) : ∃ b ∈ bs, R a b :=
  exists_left_of_mem h.flip ha

/-! ## Sources -/

theorem Node.outputIndex?_congr {n m : Node} (hkind : n.kind = m.kind)
    (houtputs : n.outputs = m.outputs) (asked : String) :
    n.outputIndex? asked = m.outputIndex? asked := by
  unfold Node.outputIndex? Node.signature
  rw [hkind, houtputs]

namespace Graph

variable {g : Graph}

/-- The wire that a source means: the component of its guid, and there the output of its name. -/
def wire? (g : Graph) (s : Source) : Option Wire := do
  let i ← g.indexOf? s.component
  let n ← g.nodes[i]?
  let k ← n.outputIndex? s.output
  return ⟨i, k⟩

theorem wire?_eq_some_iff {s : Source} {w : Wire} :
    g.wire? s = some w ↔ g.indexOf? s.component = some w.producer ∧
      ∃ n, g.nodes[w.producer]? = some n ∧ n.outputIndex? s.output = some w.output := by
  simp only [wire?, Option.bind_eq_bind, Option.bind_eq_some_iff]
  constructor
  · rintro ⟨i, hi, n, hn, k, hk, hw⟩
    obtain rfl : (⟨i, k⟩ : Wire) = w := Option.some.inj hw
    exact ⟨hi, n, hn, hk⟩
  · rintro ⟨hi, n, hn, hk⟩
    exact ⟨_, hi, n, hn, _, hk, rfl⟩

/-- Graphs with one index whose components agree up to their inputs read sources alike. -/
theorem wire?_congr {g' : Graph} (hindex : g.index = g'.index)
    (h : List.Forall₂ (fun n m => n.kind = m.kind ∧ n.outputs = m.outputs) g.nodes g'.nodes)
    (s : Source) : g.wire? s = g'.wire? s := by
  obtain ⟨hlength, hplace⟩ := List.forall₂_iff_get.1 h
  refine Option.ext fun w => ?_
  rw [wire?_eq_some_iff, wire?_eq_some_iff, indexOf?, indexOf?, hindex]
  refine and_congr_right fun _ => ?_
  rcases Nat.lt_or_ge w.producer g.nodes.length with hlt | hge
  · obtain ⟨hkind, houtputs⟩ := hplace w.producer hlt (by omega)
    have hout := Node.outputIndex?_congr hkind houtputs s.output
    simp only [List.get_eq_getElem] at hout
    simp [List.getElem?_eq_getElem hlt, List.getElem?_eq_getElem (hlength ▸ hlt), hout]
  · rw [List.getElem?_eq_none hge, List.getElem?_eq_none (by omega)]

end Graph

/-! ## What is loaded -/

/-- An input parameter as loading leaves it: everything but its wires comes from its own part of
the document, and its wires are what its sources mean in the graph. -/
structure InputParam.Loaded (g : Graph) (component : String) (place : ParamDocument × Option Nat)
    (i : InputParam) : Prop where
  document : InputParam.ofDocument component place.1 place.2 = .ok { i with sources := [] }
  sources : List.Forall₂ (fun s w => g.wire? s = some w) place.1.sources i.sources

/-- The input parameters of a document with the slots that they are given. -/
def ComponentDocument.placedInputs (c : ComponentDocument) (s : Component.Signature) :
    List (ParamDocument × Option Nat) :=
  (c.paramsOf .input).zip
    (assignSlots ((c.paramsOf .input).map fun p => s.inputIndex? p.name) s.inputs.length)

/-- A component as loading leaves it in a graph. -/
structure Node.Loaded (g : Graph) (c : ComponentDocument) (n : Node) : Prop where
  kind : Component.Kind.ofTag? c.typeName = some n.kind
  header : n.guid = c.guid ∧ n.typeName = c.typeName ∧ n.nickname = c.nickname ∧
    n.position = c.position
  inputs : List.Forall₂ (InputParam.Loaded g c.guid) (c.placedInputs n.signature) n.inputs
  outputs : n.outputs = outputsOf (c.paramsOf .output) n.signature

theorem ComponentDocument.fst_placedInputs (c : ComponentDocument) (s : Component.Signature) :
    (c.placedInputs s).map Prod.fst = c.paramsOf .input :=
  List.map_fst_zip (by simp)

theorem ComponentDocument.snd_placedInputs (c : ComponentDocument) (s : Component.Signature) :
    (c.placedInputs s).map Prod.snd =
      assignSlots ((c.paramsOf .input).map fun p => s.inputIndex? p.name) s.inputs.length :=
  List.map_snd_zip (by simp)

theorem Node.Loaded.congr {g g' : Graph} {c : ComponentDocument} {n : Node}
    (h : n.Loaded g c) (hread : ∀ s, g.wire? s = g'.wire? s) : n.Loaded g' c where
  kind := h.kind
  header := h.header
  inputs := h.inputs.imp fun _ _ hi =>
    ⟨hi.document, hi.sources.imp fun s _ hw => (hread s).symm.trans hw⟩
  outputs := h.outputs

theorem InputParam.ofDocument_eq_ok_iff {component : String} {p : ParamDocument}
    {slot : Option Nat} {i : InputParam} :
    InputParam.ofDocument component p slot = .ok i ↔
      ∃ persistent expression, persistentOf component p = .ok persistent ∧
        expressionOf component p = .ok expression ∧
        i = ⟨p.name, p.guid, slot, [], persistent, expression, p.reverse, p.mapping⟩ := by
  unfold InputParam.ofDocument
  simp only [Except.bind_eq_ok_iff]
  constructor
  · rintro ⟨persistent, hp, expression, he, h⟩
    exact ⟨persistent, expression, hp, he, (Except.ok.inj h).symm⟩
  · rintro ⟨persistent, expression, hp, he, rfl⟩
    exact ⟨persistent, hp, expression, he, rfl⟩

theorem InputParam.Loaded.slot {g : Graph} {component : String}
    {place : ParamDocument × Option Nat} {i : InputParam} (h : i.Loaded g component place) :
    i.slot = place.2 := by
  obtain ⟨persistent, expression, -, -, hi⟩ := ofDocument_eq_ok_iff.1 h.document
  exact congrArg InputParam.slot hi

/-- A component of a known kind takes its input parameters one by one. -/
theorem Node.ofDocument_of_kind {c : ComponentDocument} {kind : Component.Kind}
    (h : Component.Kind.ofTag? c.typeName = some kind) : Node.ofDocument c
      = (c.placedInputs kind.signature).mapM
          (fun place => InputParam.ofDocument c.guid place.1 place.2) >>= fun inputs =>
        .ok ⟨c.guid, kind, c.typeName, c.nickname, c.position, inputs,
          outputsOf (c.paramsOf .output) kind.signature⟩ := by
  unfold Node.ofDocument
  rw [h]
  rfl

theorem Node.ofDocument_spec {c : ComponentDocument} {n : Node} (h : Node.ofDocument c = .ok n) :
    Component.Kind.ofTag? c.typeName = some n.kind ∧
      (n.guid = c.guid ∧ n.typeName = c.typeName ∧ n.nickname = c.nickname ∧
        n.position = c.position) ∧
      List.Forall₂ (fun place i => InputParam.ofDocument c.guid place.1 place.2 = .ok i)
        (c.placedInputs n.signature) n.inputs ∧
      n.outputs = outputsOf (c.paramsOf .output) n.signature := by
  cases hkind : Component.Kind.ofTag? c.typeName with
  | none => simp [Node.ofDocument, hkind, bind, Except.bind] at h
  | some kind =>
    rw [Node.ofDocument_of_kind hkind] at h
    obtain ⟨inputs, hinputs, h⟩ := Except.bind_eq_ok_iff.1 h
    obtain rfl := Except.ok.inj h
    exact ⟨rfl, ⟨rfl, rfl, rfl, rfl⟩, Except.mapM_eq_ok_iff.1 hinputs, rfl⟩

namespace Graph

variable {g : Graph} {index index' : SortedMap String Nat} {nodes : List Node}

theorem nodesOf_forall₂ {place : Nat} {cs : List ComponentDocument}
    (h : nodesOf index place cs = .ok (nodes, index')) :
    List.Forall₂ (fun c n => Node.ofDocument c = .ok n) cs nodes := by
  induction cs generalizing index place nodes with
  | nil =>
    obtain ⟨rfl, rfl⟩ := Prod.mk.inj (Except.ok.inj h)
    exact .nil
  | cons c cs ih =>
    obtain ⟨-, n, rest, hn, -, hrest, rfl⟩ := exists_of_nodesOf_cons h
    exact .cons hn (ih hrest)

/-- Wiring gives each input the wires that its sources mean. -/
theorem wired_loaded {c : ComponentDocument} {n n' : Node} (hn : Node.ofDocument c = .ok n)
    (h : wired index nodes c n = .ok n') : n'.Loaded (ofNodes index nodes) c := by
  obtain ⟨hkind, hheader, hplaced, houtputs⟩ := Node.ofDocument_spec hn
  unfold wired at h
  obtain ⟨inputs, hinputs, h⟩ := Except.bind_eq_ok_iff.1 h
  obtain rfl := Except.ok.inj h
  refine ⟨hkind, hheader, ?_, houtputs⟩
  have hwired := Except.mapM_eq_ok_iff.1 hinputs
  rw [← c.fst_placedInputs n.signature, List.zip_map_left, List.forall₂_map_left_iff] at hwired
  refine (forall₂_of_zip hplaced hwired).imp fun place i' ⟨i, hi, hsources⟩ => ?_
  obtain ⟨wires, hwires, h⟩ := Except.bind_eq_ok_iff.1 hsources
  obtain rfl := Except.ok.inj h
  obtain ⟨persistent, expression, -, -, rfl⟩ := InputParam.ofDocument_eq_ok_iff.1 hi
  exact ⟨hi, (Except.mapM_eq_ok_iff.1 hwires).imp fun s w hw =>
    wire?_eq_some_iff.2 (wireOf_eq_ok_iff.1 hw)⟩

theorem wired_keeps {c : ComponentDocument} {n n' : Node}
    (h : wired index nodes c n = .ok n') : n.kind = n'.kind ∧ n.outputs = n'.outputs := by
  unfold wired at h
  obtain ⟨inputs, -, h⟩ := Except.bind_eq_ok_iff.1 h
  obtain rfl := Except.ok.inj h
  exact ⟨rfl, rfl⟩

/-- Each component of a loaded graph is what its part of the document says. -/
theorem load_loaded {d : GraphDocument} (h : load d = .ok g) :
    List.Forall₂ (fun c n => Node.Loaded g c n) d.components g.nodes := by
  obtain ⟨nodes, index, hnodes, hkept, -⟩ := load_spec h
  unfold load at h
  rw [hnodes, Except.ok_bind] at h
  obtain ⟨all, hall, h⟩ := Except.bind_eq_ok_iff.1 h
  obtain rfl := Except.ok.inj h
  -- sources were read among the components of the first pass, which agree with the final ones
  have hread : ∀ s, (ofNodes index nodes).wire? s = (ofNodes index all).wire? s :=
    wire?_congr rfl (hkept.imp fun _ _ ⟨_, hc⟩ => wired_keeps hc)
  have hboth := forall₂_of_zip (nodesOf_forall₂ hnodes) (Except.mapM_eq_ok_iff.1 hall)
  exact hboth.imp fun c n' ⟨n, hn, hn'⟩ => (wired_loaded hn hn').congr hread

theorem exists_loaded_of_mem {d : GraphDocument} (h : load d = .ok g) {n : Node}
    (hn : n ∈ g.nodes) : ∃ c ∈ d.components, n.Loaded g c :=
  exists_left_of_mem (load_loaded h) hn

theorem exists_node_of_mem {d : GraphDocument} (h : load d = .ok g) {c : ComponentDocument}
    (hc : c ∈ d.components) : ∃ n ∈ g.nodes, n.Loaded g c :=
  exists_right_of_mem (load_loaded h) hc

theorem guids_of_load {d : GraphDocument} (h : load d = .ok g) :
    g.nodes.map Node.guid = d.components.map ComponentDocument.guid := by
  rw [← List.forall₂_eq_eq_eq, List.forall₂_map_left_iff, List.forall₂_map_right_iff]
  exact (load_loaded h).flip.imp fun n c hn => hn.header.1

end Graph
end TreeFlow
