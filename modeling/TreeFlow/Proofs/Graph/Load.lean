import TreeFlow.Graph.Load
import TreeFlow.Proofs.Except
import TreeFlow.Proofs.Graph.Wiring
import TreeFlow.Proofs.SortedMap
/-
What loading establishes.

The first pass makes components with distinct guids and an index that leads to them; the second adds
wires, each of which it finds among the outputs of the first pass, and changes nothing else.  Hence
`load_wellFormed`.
-/

namespace TreeFlow

theorem Node.guid_of_ofDocument {c : ComponentDocument} {n : Node}
    (h : Node.ofDocument c = .ok n) : n.guid = c.guid := by
  simp only [Node.ofDocument] at h
  split at h
  · rw [Except.ok_bind] at h
    obtain ⟨inputs, -, h⟩ := Except.bind_eq_ok_iff.1 h
    obtain rfl := Except.ok.inj h
    rfl
  · obtain ⟨kind, hk, -⟩ := Except.bind_eq_ok_iff.1 h
    cases hk

theorem Node.outputIndex?_lt {n : Node} {asked : String} {k : Nat}
    (h : n.outputIndex? asked = some k) : k < n.outputs.length := by
  unfold Node.outputIndex? at h
  simp only [Option.or_eq_some_iff, Option.bind_eq_some_iff] at h
  rcases h with h | ⟨-, h | ⟨-, slot, -, h⟩⟩
  · exact (List.findIdx?_eq_some_iff_getElem.1 h).1
  · exact (List.findIdx?_eq_some_iff_getElem.1 h).1
  · exact (List.findIdx?_eq_some_iff_getElem.1 h).1

namespace Graph

variable {index index' : SortedMap String Nat} {nodes : List Node}

/-- One step of the first pass. -/
theorem exists_of_nodesOf_cons {place : Nat} {c : ComponentDocument} {cs : List ComponentDocument}
    (h : nodesOf index place (c :: cs) = .ok (nodes, index')) :
    index.get? c.guid = none ∧ ∃ n rest, Node.ofDocument c = .ok n ∧ n.guid = c.guid ∧
      nodesOf (index.insert c.guid place) (place + 1) cs = .ok (rest, index') ∧
      nodes = n :: rest := by
  rw [nodesOf] at h
  split at h
  · cases h
  · rename_i hfresh
    obtain ⟨n, hn, h⟩ := Except.bind_eq_ok_iff.1 h
    obtain ⟨⟨rest, last⟩, hrest, h⟩ := Except.bind_eq_ok_iff.1 h
    obtain ⟨rfl, rfl⟩ := Prod.mk.inj (Except.ok.inj h)
    have hnone : index.get? c.guid = none := by simpa [SortedMap.contains] using hfresh
    exact ⟨hnone, n, rest, hn, Node.guid_of_ofDocument hn, hrest, rfl⟩

theorem nodesOf_guids {place : Nat} {cs : List ComponentDocument}
    (h : nodesOf index place cs = .ok (nodes, index')) :
    nodes.map Node.guid = cs.map ComponentDocument.guid ∧ (nodes.map Node.guid).Nodup ∧
      ∀ n ∈ nodes, index.get? n.guid = none := by
  induction cs generalizing index place nodes with
  | nil =>
    obtain ⟨rfl, rfl⟩ := Prod.mk.inj (Except.ok.inj h)
    simp
  | cons c cs ih =>
    obtain ⟨hnone, n, rest, -, hguid, hrest, rfl⟩ := exists_of_nodesOf_cons h
    obtain ⟨hguids, hnodup, hnew⟩ := ih hrest
    have hbehind : ∀ m ∈ rest, m.guid ≠ c.guid := by
      intro m hm heq
      have hnot := hnew m hm
      rw [heq, SortedMap.get?_insert_self] at hnot
      cases hnot
    refine ⟨by simp [hguid, hguids], ?_, ?_⟩
    · rw [List.map_cons, List.nodup_cons]
      refine ⟨fun hmem => ?_, hnodup⟩
      obtain ⟨m, hm, hsame⟩ := List.mem_map.1 hmem
      exact hbehind m hm (hsame.trans hguid)
    · intro m hm
      rcases List.mem_cons.1 hm with rfl | hm
      · rwa [hguid]
      · rw [← hnew m hm, SortedMap.get?_insert_of_ne _ (hbehind m hm)]

/-- The index leads to the components that it held before and to the new ones. -/
theorem get?_of_nodesOf {place : Nat} {cs : List ComponentDocument}
    (h : nodesOf index place cs = .ok (nodes, index')) {guid : String} {i : Nat} :
    index'.get? guid = some i ↔
      index.get? guid = some i ∨ ∃ n, (n, i) ∈ nodes.zipIdx place ∧ n.guid = guid := by
  induction cs generalizing index place nodes with
  | nil =>
    obtain ⟨rfl, rfl⟩ := Prod.mk.inj (Except.ok.inj h)
    simp
  | cons c cs ih =>
    obtain ⟨hnone, n, rest, -, hguid, hrest, rfl⟩ := exists_of_nodesOf_cons h
    have hinsert : (index.insert c.guid place).get? guid = some i ↔
        index.get? guid = some i ∨ ∃ m, (m, i) = (n, place) ∧ m.guid = guid := by
      by_cases heq : guid = c.guid
      · subst heq
        simp [SortedMap.get?_insert_self, hnone, hguid, eq_comm]
      · simp [SortedMap.get?_insert_of_ne _ heq, hguid, Ne.symm heq]
    rw [ih hrest, hinsert, List.zipIdx_cons, or_assoc]
    simp only [List.mem_cons, or_and_right, exists_or]

/-- The index of a document leads from each guid to the place of its component. -/
theorem get?_of_nodesOf_empty {cs : List ComponentDocument}
    (h : nodesOf .empty 0 cs = .ok (nodes, index)) {guid : String} {i : Nat} :
    index.get? guid = some i ↔ (nodes.map Node.guid)[i]? = some guid := by
  rw [get?_of_nodesOf h, SortedMap.get?_empty, List.getElem?_map, Option.map_eq_some_iff]
  simp only [List.mem_zipIdx_iff_getElem?, reduceCtorEq, false_or]

theorem wireOf_eq_ok_iff {component : String} {s : Source} {w : Wire} :
    wireOf index nodes component s = .ok w ↔ index.get? s.component = some w.producer ∧
      ∃ m, nodes[w.producer]? = some m ∧ m.outputIndex? s.output = some w.output := by
  obtain ⟨producer, output⟩ := w
  unfold wireOf
  cases hindex : index.get? s.component with
  | none => simp
  | some i =>
    dsimp only
    rw [Option.some_inj, ← Option.bind_eq_some_iff]
    cases houtput : (nodes[i]?).bind fun m => m.outputIndex? s.output with
    | none =>
      refine iff_of_false nofun fun h => ?_
      rw [← h.1, houtput] at h
      cases h.2
    | some k =>
      rw [Except.ok.injEq, Wire.mk.injEq]
      refine and_congr_right fun hi => ?_
      rw [← hi, houtput, Option.some_inj]

/-- Wiring changes the sources of inputs and nothing else. -/
theorem wired_spec {c : ComponentDocument} {n n' : Node}
    (h : wired index nodes c n = .ok n') :
    n'.guid = n.guid ∧ n'.outputs = n.outputs ∧
      ∀ p ∈ n'.inputs, ∀ w ∈ p.sources,
        ∃ m, nodes[w.producer]? = some m ∧ w.output < m.outputs.length := by
  unfold wired at h
  obtain ⟨inputs, hinputs, h⟩ := Except.bind_eq_ok_iff.1 h
  obtain rfl := Except.ok.inj h
  refine ⟨rfl, rfl, fun p hp w hw => ?_⟩
  obtain ⟨⟨pd, i⟩, -, hpi⟩ := Except.exists_of_mem_mapM hinputs hp
  obtain ⟨sources, hsources, hpi⟩ := Except.bind_eq_ok_iff.1 hpi
  obtain rfl := Except.ok.inj hpi
  obtain ⟨source, -, hsource⟩ := Except.exists_of_mem_mapM hsources hw
  obtain ⟨-, m, hm, houtput⟩ := wireOf_eq_ok_iff.1 hsource
  exact ⟨m, hm, Node.outputIndex?_lt houtput⟩

/-- Loading keeps the components of the first pass in their places, and notes their wires. -/
theorem load_spec {d : GraphDocument} {g : Graph} (h : load d = .ok g) :
    ∃ nodes index, nodesOf .empty 0 d.components = .ok (nodes, index) ∧
      List.Forall₂ (fun n n' => ∃ c, wired index nodes c n = .ok n') nodes g.nodes ∧
      g = .ofNodes index g.nodes := by
  unfold load at h
  obtain ⟨⟨nodes, index⟩, hnodes, h⟩ := Except.bind_eq_ok_iff.1 h
  obtain ⟨all, hall, h⟩ := Except.bind_eq_ok_iff.1 h
  obtain rfl := Except.ok.inj h
  refine ⟨nodes, index, hnodes, ?_, rfl⟩
  have hlength : nodes.length ≤ d.components.length := by
    have := congrArg List.length (nodesOf_guids hnodes).1
    simp only [List.length_map] at this
    omega
  have hpairs : List.Forall₂ (fun n n' => ∃ c, wired index nodes c n = .ok n')
      ((d.components.zip nodes).map Prod.snd) all := by
    rw [List.forall₂_map_left_iff]
    exact (Except.mapM_eq_ok_iff.1 hall).imp fun ⟨c, _⟩ _ hc => ⟨c, hc⟩
  rwa [List.map_snd_zip hlength] at hpairs

theorem load_wellFormed {d : GraphDocument} {g : Graph} (h : load d = .ok g) :
    g.WellFormed := by
  obtain ⟨nodes, index, hnodes, hall, hnoted⟩ := load_spec h
  obtain ⟨hlength, hplace⟩ := List.forall₂_iff_get.1 hall
  have hsame : nodes.map Node.guid = g.nodes.map Node.guid := by
    rw [← List.forall₂_eq_eq_eq, List.forall₂_map_left_iff, List.forall₂_map_right_iff]
    exact hall.imp fun _ _ ⟨_, hc⟩ => (wired_spec hc).1.symm
  have hindex : g.index = index := congrArg Graph.index hnoted
  constructor
  · rw [← hsame]
    exact (nodesOf_guids hnodes).2.1
  · intro n' hn' p hp w hw
    obtain ⟨i, hi, rfl⟩ := List.mem_iff_getElem.1 hn'
    obtain ⟨c, hc⟩ := hplace i (by omega) hi
    obtain ⟨m, hm, hout⟩ := (wired_spec hc).2.2 p hp w hw
    obtain ⟨hlt, rfl⟩ := List.getElem?_eq_some_iff.1 hm
    obtain ⟨c', hc'⟩ := hplace w.producer hlt (by omega)
    refine ⟨_, List.getElem?_eq_getElem (by omega), ?_⟩
    exact (wired_spec hc').2.1 ▸ hout
  · intro guid i
    rw [indexOf?, hindex, get?_of_nodesOf_empty hnodes, hsame, List.getElem?_map,
      Option.map_eq_some_iff]
  · rw [hindex]
    exact hnoted

end Graph

/-! ## A small document

A point whose coordinates cannot be read fails; what it feeds is skipped, at one remove or two; the
other components run. -/

namespace Sample

def input (name : String) (sources : List Source) (persistent : Option Literal) : ParamDocument :=
  ⟨.input, name, none, none, sources, persistent, .none, false, none⟩

def output (name : String) : ParamDocument :=
  ⟨.output, name, none, none, [], none, .none, false, none⟩

def document : GraphDocument :=
  ⟨[⟨"point", "Point", "", .origin, [input "Data" [] (some (.list [.integer 1]))]⟩,
    ⟨"copy", "Data", "", .origin, [input "Data" [⟨"point", "Data"⟩] none]⟩,
    ⟨"five", "Data", "", .origin, [input "Data" [] (some (.list [.integer 5]))]⟩,
    ⟨"both", "Data", "", .origin, [input "Data" [⟨"five", "Data"⟩, ⟨"copy", "Data"⟩] none]⟩,
    ⟨"sum", "Addition", "", .origin, [input "A" [⟨"five", "Data"⟩] none]⟩]⟩

def graph : Graph :=
  match Graph.load document with
  | .ok g => g
  | .error _ => default

theorem load_document : Graph.load document = .ok graph := rfl

theorem graph_acyclic : graph.Acyclic :=
  (Graph.load_wellFormed load_document).acyclic (by decide +kernel)

end Sample
end TreeFlow
