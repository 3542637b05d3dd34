import TreeFlow.Proofs.Run.Evaluate
import TreeFlow.Report.Basic
/-
Runs go through.

Evaluation of a graph without cycles leaves a result for every component, as many trees as it has
output parameters; so its report can be made, and since guids are distinct no entry takes the place
of another (`run_ok`).
-/

namespace TreeFlow

namespace Report

/-- An entry has the outputs of its component. -/
theorem Entry.mem_keys_outputs {n : Node} {o : Outcome} (h : o.outputs.length = n.outputs.length)
    {name : String} :
    name ∈ (Entry.ofOutcome n o).outputs.keys ↔ name ∈ n.outputs.map OutputParam.name := by
  rw [Entry.ofOutcome, SortedMap.mem_keys_ofList, List.map_map]
  conv_rhs => rw [← List.map_fst_zip h.ge, List.map_map]
  rfl

/-- The entry of the component at a place with a result. -/
def entryAt (s : Store) (place : Node × Nat) : String × Entry :=
  (place.1.guid, .ofOutcome place.1 ((s.get? place.2).getD default))

/-- A report of a full store has an entry for each component. -/
theorem ofStore_ok {g : Graph} {s : Store} (hg : g.WellFormed)
    (hfull : ∀ i < g.size, (s.get? i).isSome) :
    ∃ r, ofStore g s = .ok r ∧ r.entries.keys.Perm (g.nodes.map Node.guid) ∧
      ∀ i n o, g.nodes[i]? = some n → s.get? i = some o →
        r.entries.get? n.guid = some (.ofOutcome n o) := by
  have hentries : g.nodes.zipIdx.mapM (entryOf s) = .ok (g.nodes.zipIdx.map (entryAt s)) := by
    refine Except.mapM_eq_ok_map fun ⟨n, i⟩ hplace => ?_
    have hi : i < g.size := (List.mem_zipIdx' hplace).1
    obtain ⟨o, ho⟩ := Option.isSome_iff_exists.1 (hfull i hi)
    simp [entryOf, entryAt, ho]
  have hguids : (g.nodes.zipIdx.map (entryAt s)).map Prod.fst = g.nodes.map Node.guid := by
    conv_rhs => rw [← List.zipIdx_map_fst 0 g.nodes, List.map_map]
    rw [List.map_map]
    rfl
  have hnodup : ((g.nodes.zipIdx.map (entryAt s)).map Prod.fst).Nodup := hguids ▸ hg.guids
  refine ⟨⟨.ofList (g.nodes.zipIdx.map (entryAt s))⟩, ?_, ?_, fun i n o hn ho => ?_⟩
  · rw [ofStore, hentries]
    rfl
  · rw [← hguids]
    exact (SortedMap.entries_ofList_perm hnodup).map Prod.fst
  · rw [SortedMap.get?_ofList hnodup, List.mem_map]
    refine ⟨(n, i), List.mk_mem_zipIdx_iff_getElem?.2 hn, ?_⟩
    simp [entryAt, ho]

end Report

namespace Graph

/-- A run of a graph without cycles reports what is recorded in its store. -/
theorem run_visited {g : Graph} (hg : g.WellFormed) (ha : g.Acyclic) (b : Bindings) (limit : Nat)
    (choices : Nat → Nat → Nat) :
    ∃ s order r, g.evaluate b limit choices = .ok s ∧ g.run b limit choices = .ok r ∧
      g.Linearization order ∧ g.Visited b order s ∧
      r.entries.keys.Perm (g.nodes.map Node.guid) ∧
      ∀ i n, g.nodes[i]? = some n → ∃ o, s.get? i = some o ∧
        r.entries.get? n.guid = some (.ofOutcome n o) := by
  obtain ⟨s, order, hs, hlinear, hvisited⟩ := evaluate_ok hg ha b limit choices
  have hfull := hvisited.full hlinear
  obtain ⟨r, hr, hkeys, hentries⟩ := Report.ofStore_ok hg hfull
  refine ⟨s, order, r, hs, ?_, hlinear, hvisited, hkeys, fun i n hn => ?_⟩
  · rw [Graph.run, hs, Except.ok_bind, hr]
    rfl
  · obtain ⟨o, ho⟩ := Option.isSome_iff_exists.1 (hfull i (List.getElem?_eq_some_iff.1 hn).1)
    exact ⟨o, ho, hentries i n o hn ho⟩

/-- A run of a graph without cycles does not fail, and reports on each component once: what is
recorded for it, with a tree for each of its output parameters. -/
theorem run_ok {d : GraphDocument} {g : Graph} (hload : load d = .ok g) (ha : g.Acyclic)
    (b : Bindings) (limit : Nat) (choices : Nat → Nat → Nat) :
    ∃ s r, g.evaluate b limit choices = .ok s ∧ g.run b limit choices = .ok r ∧
      r.entries.keys.Perm (g.nodes.map Node.guid) ∧
      ∀ i n, g.nodes[i]? = some n → ∃ o, s.get? i = some o ∧
        o.outputs.length = n.outputs.length ∧
        r.entries.get? n.guid = some (.ofOutcome n o) ∧
        ∀ name, name ∈ (Report.Entry.ofOutcome n o).outputs.keys ↔
          name ∈ n.outputs.map OutputParam.name := by
  have hg := load_wellFormed hload
  obtain ⟨s, order, hs, hlinear, hvisited⟩ := evaluate_ok hg ha b limit choices
  have hfull := hvisited.full hlinear
  obtain ⟨r, hr, hkeys, hentries⟩ := Report.ofStore_ok hg hfull
  refine ⟨s, r, hs, ?_, hkeys, fun i n hn => ?_⟩
  · rw [Graph.run, hs, Except.ok_bind, hr]
    rfl
  · obtain ⟨o, ho⟩ := Option.isSome_iff_exists.1 (hfull i (List.getElem?_eq_some_iff.1 hn).1)
    have hlength := length_of_settle hg (hvisited.result i o ho) hn
    exact ⟨o, ho, hlength, hentries i n o hn ho, fun _ => Report.Entry.mem_keys_outputs hlength⟩

theorem run_ok_sample :
    load Sample.document = .ok Sample.graph ∧ Sample.graph.Acyclic ∧
      ∃ s r, Sample.graph.evaluate .empty 0 Pool.inTurn = .ok s ∧
        Sample.graph.run .empty 0 Pool.inTurn = .ok r ∧
        r.entries.keys.Perm (Sample.graph.nodes.map Node.guid) ∧
        ∀ i n, Sample.graph.nodes[i]? = some n → ∃ o, s.get? i = some o ∧
          o.outputs.length = n.outputs.length ∧
          r.entries.get? n.guid = some (.ofOutcome n o) ∧
          ∀ name, name ∈ (Report.Entry.ofOutcome n o).outputs.keys ↔
            name ∈ n.outputs.map OutputParam.name :=
  ⟨Sample.load_document, Sample.graph_acyclic,
    run_ok Sample.load_document Sample.graph_acyclic .empty 0 Pool.inTurn⟩

end Graph
end TreeFlow
