import Mathlib.Data.List.Duplicate
import Mathlib.Order.Bounds.Basic
import TreeFlow.Proofs.Graph.Offers
import TreeFlow.Proofs.Report
/-
Outputs that are reported and outputs that are read.

A source finds the first output parameter that bears its name, while a report keeps the tree of the
last one.  So the tree that is reported under a name is the one that consumers read exactly if these
two parameters hold the same tree (`reported_iff_read`).  A document that gives a name to one output
parameter at most is safe: parameters that loading adds do not share their names with others
(`count_names_outputsOf`).
-/

namespace TreeFlow

/-! ## Names of output parameters -/

namespace Node

variable (documents : List ParamDocument) (k : Component.Kind)

theorem outputIndex?_of_mem_leftOutputs {place : Component.Output × Nat}
    (h : place ∈ leftOutputs documents k.signature) :
    k.signature.outputIndex? place.1.name = some place.2 :=
  (k.names_of_outputs place (List.mem_filter.1 h).1).2

theorem nodup_names_leftOutputs :
    ((leftOutputs documents k.signature).map fun place => place.1.name).Nodup := by
  have hslots : ((leftOutputs documents k.signature).map fun place => place.1.name).map
      k.signature.outputIndex? = ((leftOutputs documents k.signature).map Prod.snd).map some := by
    rw [List.map_map, List.map_map]
    exact List.map_congr_left fun place h => outputIndex?_of_mem_leftOutputs documents k h
  refine .of_map k.signature.outputIndex? ?_
  rw [hslots, slots_leftOutputs]
  exact (List.nodup_range.filter _).map (Option.some_injective _)

/-- An output that a document leaves out has a name that the document does not write: a parameter
of this name would have claimed its slot. -/
theorem not_mem_names_of_mem_leftOutputs {place : Component.Output × Nat}
    (h : place ∈ leftOutputs documents k.signature) :
    place.1.name ∉ documents.map ParamDocument.name := by
  intro hname
  obtain ⟨p, hp, hsame⟩ := List.mem_map.1 hname
  have hslot := outputIndex?_of_mem_leftOutputs documents k h
  have hnamed : some place.2 ∈ documents.map fun p => k.signature.outputIndex? p.name :=
    List.mem_map.2 ⟨p, hp, by rw [hsame, hslot]⟩
  have hcarried : place.2 ∈ (writtenOutputs documents k.signature).filterMap OutputParam.slot := by
    rw [slots_writtenOutputs]
    exact mem_assignSlots hnamed
  have hleft := List.mem_map_of_mem (f := Prod.snd) h
  rw [slots_leftOutputs, List.mem_filter] at hleft
  simp [hcarried] at hleft

/-- A name that a document writes once at most is borne by one output parameter at most. -/
theorem count_names_outputsOf {name : String}
    (h : (documents.map ParamDocument.name).count name ≤ 1) :
    ((outputsOf documents k.signature).map OutputParam.name).count name ≤ 1 := by
  have hnames : (outputsOf documents k.signature).map OutputParam.name
      = documents.map ParamDocument.name ++
        (leftOutputs documents k.signature).map fun place => place.1.name := by
    rw [outputsOf_eq, List.map_append, names_writtenOutputs, List.map_map]
    rfl
  rw [hnames, List.count_append]
  by_cases hleft : name ∈ (leftOutputs documents k.signature).map fun place => place.1.name
  · have hone := List.nodup_iff_count_le_one.1 (nodup_names_leftOutputs documents k) name
    obtain ⟨place, hplace, rfl⟩ := List.mem_map.1 hleft
    have hnone := List.count_eq_zero.2 (not_mem_names_of_mem_leftOutputs documents k hplace)
    omega
  · rw [List.count_eq_zero.2 hleft]
    omega

/-! ## First and last -/

/-- The places of the output parameters of a name. -/
def outputsNamed (n : Node) (name : String) : Set Nat :=
  {k | ∃ o, n.outputs[k]? = some o ∧ o.name = name}

variable {n : Node} {name : String}

/-- A name means the first output parameter that bears it. -/
theorem exists_isLeast_outputsNamed {k : Nat} (hk : k ∈ n.outputsNamed name) :
    ∃ first, IsLeast (n.outputsNamed name) first ∧ n.outputIndex? name = some first := by
  have hsome : (n.outputs.findIdx? fun o => o.name == name).isSome = true := by
    obtain ⟨o, ho, hname⟩ := hk
    rw [List.findIdx?_isSome, List.any_eq_true]
    exact ⟨o, List.mem_of_getElem? ho, by simpa using hname⟩
  obtain ⟨first, hfirst⟩ := Option.isSome_iff_exists.1 hsome
  obtain ⟨hlt, hname, hbefore⟩ := List.findIdx?_eq_some_iff_getElem.1 hfirst
  refine ⟨first, ⟨⟨_, List.getElem?_eq_getElem hlt, by simpa using hname⟩, ?_⟩, ?_⟩
  · intro j hj
    obtain ⟨o, ho, hname'⟩ := hj
    obtain ⟨hj, rfl⟩ := List.getElem?_eq_some_iff.1 ho
    by_contra hnot
    exact hbefore j (by omega) (by simpa using hname')
  · rw [outputIndex?, hfirst]
    rfl

theorem eq_of_mem_outputsNamed (hone : (n.outputs.map OutputParam.name).count name ≤ 1) {i j : Nat}
    (hi : i ∈ n.outputsNamed name) (hj : j ∈ n.outputsNamed name) : i = j := by
  have hnot : ∀ i j, i ∈ n.outputsNamed name → j ∈ n.outputsNamed name → ¬ i < j := by
    intro i j hi hj hlt
    obtain ⟨o, ho, hname⟩ := hi
    obtain ⟨o', ho', hname'⟩ := hj
    obtain ⟨hi, rfl⟩ := List.getElem?_eq_some_iff.1 ho
    obtain ⟨hj, rfl⟩ := List.getElem?_eq_some_iff.1 ho'
    have hduplicate : (n.outputs.map OutputParam.name).Duplicate name := by
      rw [List.duplicate_iff_exists_distinct_get]
      exact ⟨⟨i, by simpa using hi⟩, ⟨j, by simpa using hj⟩, hlt, by simpa using hname.symm,
        by simpa using hname'.symm⟩
    have htwo := List.duplicate_iff_two_le_count.1 hduplicate
    omega
  have hij := hnot i j hi hj
  have hji := hnot j i hj hi
  omega

end Node

/-- A report keeps the tree of the last output parameter of a name. -/
theorem Report.Entry.exists_isGreatest {n : Node} {o : Outcome} {name : String}
    {reported : Report.Output} (hlength : o.outputs.length = n.outputs.length)
    (h : (Entry.ofOutcome n o).outputs.get? name = some reported) :
    ∃ last, IsGreatest (n.outputsNamed name) last ∧ o.outputs[last]? = some reported.tree := by
  obtain ⟨before, after, hsplit, hafter⟩ := SortedMap.exists_split_of_get?_ofList h
  have hplace : ∀ (k : Nat) p t, n.outputs[k]? = some p → o.outputs[k]? = some t →
      (before ++ (name, reported) :: after)[k]? = some (p.name, Output.ofTree t) := by
    intro k p t hp ht
    have hpair : (n.outputs.zip o.outputs)[k]? = some (p, t) :=
      List.getElem?_zip_eq_some.2 ⟨hp, ht⟩
    rw [← hsplit, List.getElem?_map, hpair]
    rfl
  have hlast : before.length < n.outputs.length := by
    have := congrArg List.length hsplit
    simp at this
    omega
  have hp := List.getElem?_eq_getElem hlast
  have ht := List.getElem?_eq_getElem (hlength.symm ▸ hlast)
  have hentry := hplace before.length _ _ hp ht
  rw [List.getElem?_append_right (by omega), Nat.sub_self, List.getElem?_cons_zero] at hentry
  obtain ⟨hname, htree⟩ := Prod.mk.inj (Option.some.inj hentry)
  refine ⟨before.length, ⟨⟨_, hp, hname.symm⟩, fun k hk => ?_⟩, by rw [ht, htree]; rfl⟩
  -- A parameter of the name behind this one would stand among the entries that follow.
  by_contra hbehind
  obtain ⟨p, hp, rfl⟩ := hk
  have hk := (List.getElem?_eq_some_iff.1 hp).1
  have hentry := hplace k _ _ hp (List.getElem?_eq_getElem (hlength.symm ▸ hk))
  rw [List.getElem?_append_right (by omega), List.getElem?_cons,
    if_neg (by omega)] at hentry
  exact hafter (List.mem_map_of_mem (f := Prod.fst) (List.mem_of_getElem? hentry))

/-- An input with one source is given the tree at its other end. -/
theorem Store.source_of_single {s : Store} {p : InputParam} {w : Wire} {t : Tree}
    (hp : p.sources = [w]) (ht : s.output? w = some t) (component : String) (b : Bindings) :
    s.source component p b = .ok t := by
  unfold source mergedSources
  rw [hp, List.foldlM_cons, ht]
  rfl

/-! ## Reports and readers -/

namespace Graph

variable {d : GraphDocument} {g : Graph}

/-- The source that names a component by its guid leads to this component. -/
theorem wire?_of_outputIndex? (hg : g.WellFormed) {i k : Nat} {n : Node}
    (hn : g.nodes[i]? = some n) {name : String} (hk : n.outputIndex? name = some k) :
    g.wire? ⟨n.guid, name⟩ = some ⟨i, k⟩ :=
  wire?_eq_some_iff.2 ⟨(hg.indexed _ _).2 ⟨n, hn, rfl⟩, n, hn, hk⟩

/-- A document that writes a name once for a component has one output parameter of it there. -/
theorem eq_of_written_once (hload : load d = .ok g) {n : Node} (hn : n ∈ g.nodes)
    {c : ComponentDocument} (hc : c ∈ d.components) (hguid : c.guid = n.guid) {name : String}
    (hone : ((c.paramsOf .output).map ParamDocument.name).count name ≤ 1) {i j : Nat}
    (hi : i ∈ n.outputsNamed name) (hj : j ∈ n.outputsNamed name) : i = j := by
  obtain ⟨m, hm, hloaded⟩ := exists_node_of_mem hload hc
  have hsame : m = n := List.inj_on_of_nodup_map (load_wellFormed hload).guids hm hn
    (hloaded.header.1.trans hguid)
  subst hsame
  refine Node.eq_of_mem_outputsNamed ?_ hi hj
  rw [hloaded.outputs]
  exact Node.count_names_outputsOf _ m.kind hone

/-- Under a name of which a component has several output parameters, inputs are given the tree of
the first and the report holds the tree of the last; in a document that names no two output
parameters of a component alike, these are one parameter. -/
theorem reported_iff_read (hload : load d = .ok g) (ha : g.Acyclic) (b : Bindings) (limit : Nat)
    (choices : Nat → Nat → Nat) :
    ∃ s r, g.evaluate b limit choices = .ok s ∧ g.run b limit choices = .ok r ∧
      ∀ i n e name reported, g.nodes[i]? = some n → r.entries.get? n.guid = some e →
        e.outputs.get? name = some reported →
        ∃ first last, IsLeast (n.outputsNamed name) first ∧
          IsGreatest (n.outputsNamed name) last ∧
          g.wire? ⟨n.guid, name⟩ = some ⟨i, first⟩ ∧ s.output? ⟨i, last⟩ = some reported.tree ∧
          (∀ consumer p, p.sources = [⟨i, first⟩] →
            (s.source consumer p b = .ok reported.tree ↔
              s.output? ⟨i, first⟩ = s.output? ⟨i, last⟩)) ∧
          ∀ c ∈ d.components, c.guid = n.guid →
            ((c.paramsOf .output).map ParamDocument.name).count name ≤ 1 → first = last := by
  have hg := load_wellFormed hload
  obtain ⟨s, order, r, hs, hr, -, hvisited, -, hentries⟩ := run_visited hg ha b limit choices
  refine ⟨s, r, hs, hr, fun i n e name reported hn he hreported => ?_⟩
  obtain ⟨o, ho, hentry⟩ := hentries i n hn
  obtain rfl := Option.some.inj (he.symm.trans hentry)
  have hlength := length_of_settle hg (hvisited.result i o ho) hn
  obtain ⟨last, hlast, htree⟩ := Report.Entry.exists_isGreatest hlength hreported
  obtain ⟨first, hfirst, hindex⟩ := Node.exists_isLeast_outputsNamed hlast.1
  have hwire := wire?_of_outputIndex? hg hn hindex
  have hreport : s.output? ⟨i, last⟩ = some reported.tree := by simp [Store.output?, ho, htree]
  have hlt : first < o.outputs.length := by
    rw [hlength]
    exact Node.outputIndex?_lt hindex
  have hread : s.output? ⟨i, first⟩ = some o.outputs[first] := by
    simp [Store.output?, ho, List.getElem?_eq_getElem hlt]
  refine ⟨first, last, hfirst, hlast, hwire, hreport, fun consumer p hp => ?_, ?_⟩
  · rw [Store.source_of_single hp hread, hread, hreport, Except.ok.injEq, Option.some.injEq]
  · exact fun c hc hguid hone =>
      eq_of_written_once hload (List.mem_of_getElem? hn) hc hguid hone hfirst.1 hlast.1

end Graph

/-! ## An output parameter that is written twice -/

namespace Sample

def twice : GraphDocument :=
  ⟨[⟨"five", "Data", "", .origin,
      [input "Data" [] (some (.list [.integer 5])), output "Data", output "Data"]⟩,
    ⟨"copy", "Data", "", .origin, [input "Data" [⟨"five", "Data"⟩] none]⟩]⟩

def twiceGraph : Graph :=
  match Graph.load twice with
  | .ok g => g
  | .error _ => default

theorem load_twice : Graph.load twice = .ok twiceGraph := rfl

theorem twiceGraph_acyclic : twiceGraph.Acyclic :=
  (Graph.load_wellFormed load_twice).acyclic (by decide +kernel)

end Sample

namespace Graph

theorem reported_iff_read_sample :
    load Sample.twice = .ok Sample.twiceGraph ∧ Sample.twiceGraph.Acyclic ∧
      ∃ s r, Sample.twiceGraph.evaluate .empty 0 Pool.inTurn = .ok s ∧
        Sample.twiceGraph.run .empty 0 Pool.inTurn = .ok r ∧
        ∀ i n e name reported, Sample.twiceGraph.nodes[i]? = some n →
          r.entries.get? n.guid = some e → e.outputs.get? name = some reported →
          ∃ first last, IsLeast (n.outputsNamed name) first ∧
            IsGreatest (n.outputsNamed name) last ∧
            Sample.twiceGraph.wire? ⟨n.guid, name⟩ = some ⟨i, first⟩ ∧
            s.output? ⟨i, last⟩ = some reported.tree ∧
            (∀ consumer p, p.sources = [⟨i, first⟩] →
              (s.source consumer p .empty = .ok reported.tree ↔
                s.output? ⟨i, first⟩ = s.output? ⟨i, last⟩)) ∧
            ∀ c ∈ Sample.twice.components, c.guid = n.guid →
              ((c.paramsOf .output).map ParamDocument.name).count name ≤ 1 → first = last :=
  ⟨Sample.load_twice, Sample.twiceGraph_acyclic,
    reported_iff_read Sample.load_twice Sample.twiceGraph_acyclic .empty 0 Pool.inTurn⟩

/-- The component "five" is reported without items, while the component "copy" reads its item. -/
theorem reported_ne_read : load Sample.twice = .ok Sample.twiceGraph ∧ Sample.twiceGraph.Acyclic ∧
    ∃ s r e reported, Sample.twiceGraph.evaluate .empty 0 Pool.inTurn = .ok s ∧
      Sample.twiceGraph.run .empty 0 Pool.inTurn = .ok r ∧
      r.entries.get? "five" = some e ∧ e.outputs.get? "Data" = some reported ∧
      reported.tree = .empty ∧
      (Sample.twiceGraph.wire? ⟨"five", "Data"⟩).bind s.output? = some (.ofItem (.integer 5)) :=
  ⟨Sample.load_twice, Sample.twiceGraph_acyclic, _, _, _, _, rfl, rfl, rfl, rfl, rfl, rfl⟩

end Graph
end TreeFlow
