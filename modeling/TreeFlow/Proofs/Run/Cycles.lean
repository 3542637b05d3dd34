import TreeFlow.Proofs.Graph.Load
import TreeFlow.Proofs.Run.Schedule
/-
Schedules find the cycles of a graph.

Whichever ready components are placed first, the same ones stay unplaced: those on a cycle of wires
and those behind one, for these are never ready.  So both schedules fail on the same graphs, and
with the same report (`schedules_agree`).

The counts are kept as integers.  They could as well be kept as natural numbers: a component is
counted down only when one of its producers is placed, which happens once for each of them, so that
no count goes below zero.  This is stated of the two loops with a guard at every count, which stops
them where there is nothing left to take away (`topologicalOrder?`, `layers?`).
-/

namespace TreeFlow
namespace Graph

variable {g : Graph}

/-- The guids of the trapped components, in the order of the graph. -/
structure TrappedGuids (g : Graph) (guids : List String) : Prop where
  declared : guids.Sublist (g.nodes.map Node.guid)
  nodup : guids.Nodup
  mem_iff : ∀ i n, g.nodes[i]? = some n → (n.guid ∈ guids ↔ g.Trapped i)

/-! ## Guarded counts -/

/-- Counts down one component whose count is above zero. -/
def countDown? (state : List Int × List Nat) (i : Nat) : Option (List Int × List Nat) :=
  match state.1[i]? with
  | some n => if 0 < n then some (countDown state i) else none
  | none => none

def place? (g : Graph) (state : List Int × List Nat) (i : Nat) :
    Option (List Int × List Nat) :=
  (g.successors i).foldlM countDown? state

/-- As `placeSingly`, with guarded counts. -/
def placeSingly? (g : Graph) (counts : List Int) (ready : List Nat) :
    Nat → Option (List Nat × List Int)
  | 0 => some ([], counts)
  | steps + 1 =>
    match ready with
    | [] => some ([], counts)
    | i :: rest => do
      let (counts, fresh) ← g.place? (counts, []) i
      let (order, left) ← g.placeSingly? counts (fresh.foldr insertAscending rest) steps
      return (i :: order, left)

/-- As `placeLayers`, with guarded counts. -/
def placeLayers? (g : Graph) (counts : List Int) (ready : List Nat) :
    Nat → Option (List (List Nat) × List Int)
  | 0 => some ([], counts)
  | steps + 1 =>
    match ready with
    | [] => some ([], counts)
    | _ :: _ => do
      let (counts, fresh) ← ready.foldlM g.place? (counts, [])
      let (layers, left) ← g.placeLayers? counts (ascending fresh) steps
      return (ready :: layers, left)

/-- As `topologicalOrder`; no result if a count would go below zero. -/
def topologicalOrder? (g : Graph) : Option (Except Failure (List Nat)) := do
  let (order, left) ← g.placeSingly? g.openCounts (readyAt g.openCounts) g.size
  return if order.length < g.size then .error (g.cycleFailure left) else .ok order

/-- As `layers`; no result if a count would go below zero. -/
def layers? (g : Graph) : Option (Except Failure (List (List Nat))) := do
  let (layers, left) ← g.placeLayers? g.openCounts (readyAt g.openCounts) g.size
  return if layers.flatten.length < g.size then .error (g.cycleFailure left) else .ok layers

/-- Distinct components with counts above zero can be counted down one after another. -/
theorem foldlM_countDown? {l : List Nat} (hl : l.Nodup) {counts : List Int} (ready : List Nat)
    (hpos : ∀ c ∈ l, ∃ n, counts[c]? = some n ∧ 0 < n) :
    l.foldlM countDown? (counts, ready) = some (l.foldl countDown (counts, ready)) := by
  induction l generalizing counts ready with
  | nil => rfl
  | cons i l ih =>
    obtain ⟨hi, hl⟩ := List.nodup_cons.1 hl
    obtain ⟨n, hn, hnpos⟩ := hpos i List.mem_cons_self
    have hstep : countDown? (counts, ready) i = some (countDown (counts, ready) i) := by
      simp only [countDown?, hn, if_pos hnpos]
    have hdown : countDown (counts, ready) i
        = (counts.set i (n - 1), if n - 1 = 0 then ready ++ [i] else ready) := by
      simp only [countDown, hn]
    have hpos' : ∀ c ∈ l, ∃ m, (counts.set i (n - 1))[c]? = some m ∧ 0 < m := by
      intro c hc
      have hne : i ≠ c := fun h => hi (h ▸ hc)
      rw [List.getElem?_set_ne hne]
      exact hpos c (List.mem_cons_of_mem _ hc)
    rw [List.foldlM_cons, List.foldl_cons, hstep, hdown]
    exact ih hl _ hpos'

/-- When a ready component is placed, it is still missing to everything that it feeds. -/
theorem Tally.place?_eq (hg : g.WellFormed) {placed : List Nat} {counts : List Int} {i : Nat}
    {rest : List Nat} (h : g.Tally placed counts (i :: rest)) (acc : List Nat) :
    g.place? (counts, acc) i = some (g.place (counts, acc) i) := by
  have hi := (h.ready i).1 List.mem_cons_self
  refine foldlM_countDown? (hg.nodup_successors i) acc fun c hc => ?_
  have hfeeds : g.Feeds i c := hg.mem_successors.1 hc
  have hmissing : i ∈ g.missing placed c := by
    rw [missing, List.mem_filter, hg.mem_predecessors]
    simp [hfeeds, hi.2.1]
  have hpos := List.length_pos_of_mem hmissing
  exact ⟨_, h.counts c hfeeds.consumer_lt, by omega⟩

theorem Tally.placeAll?_eq (hg : g.WellFormed) {placed : List Nat} {counts : List Int}
    {ready acc : List Nat} (h : g.Tally placed counts (ready ++ acc)) :
    ready.foldlM g.place? (counts, acc) = some (ready.foldl g.place (counts, acc)) := by
  induction ready generalizing placed counts acc with
  | nil => rfl
  | cons i rest ih =>
    rw [List.cons_append] at h
    obtain ⟨counts', fresh, hplace, htally⟩ := Tally.place hg h
    rw [List.append_assoc] at htally
    rw [List.foldlM_cons, List.foldl_cons, h.place?_eq hg, hplace]
    exact ih htally

theorem Tally.placeSingly?_eq (hg : g.WellFormed) (steps : Nat) {placed : List Nat}
    {counts : List Int} {ready : List Nat} (h : g.Tally placed counts ready) :
    g.placeSingly? counts ready steps = some (g.placeSingly counts ready steps) := by
  induction steps generalizing placed counts ready with
  | zero => rfl
  | succ steps ih =>
    cases ready with
    | nil => rfl
    | cons i rest =>
      obtain ⟨counts', fresh, hplace, htally⟩ := Tally.place hg h
      have hnext := ih (htally.perm (perm_foldr_insertAscending fresh rest).symm)
      simp only [placeSingly?, placeSingly, h.place?_eq hg, hplace, List.nil_append,
        Option.bind_eq_bind, Option.bind_some, hnext]
      rfl

theorem Tally.placeLayers?_eq (hg : g.WellFormed) (steps : Nat) {placed : List Nat}
    {counts : List Int} {ready : List Nat} (h : g.Tally placed counts ready) :
    g.placeLayers? counts ready steps = some (g.placeLayers counts ready steps) := by
  induction steps generalizing placed counts ready with
  | zero => rfl
  | succ steps ih =>
    cases ready with
    | nil => rfl
    | cons i rest =>
      have hall : g.Tally placed counts ((i :: rest) ++ []) := by rwa [List.append_nil]
      obtain ⟨counts', fresh, hfold, htally⟩ := Tally.placeAll hg hall
      have hnext := ih (htally.perm (perm_ascending fresh).symm)
      simp only [placeLayers?, placeLayers, hall.placeAll?_eq hg, hfold, Option.bind_eq_bind,
        Option.bind_some, hnext]
      rfl

/-! ## What is left -/

/-- Where nothing is ready, the components that are left are those with counts above zero. -/
theorem Tally.count_pos_iff (hg : g.WellFormed) {placed : List Nat} {counts : List Int}
    (h : g.Tally placed counts []) {c : Nat} (hc : c < g.size) {n : Int}
    (hn : counts[c]? = some n) : 0 < n ↔ g.Trapped c := by
  obtain rfl : n = ((g.missing placed c).length : Int) :=
    Option.some.inj (hn.symm.trans (h.counts c hc))
  rw [← not_iff_not, ← h.mem_placed_iff hg hc]
  constructor
  · intro hzero
    have hnil : g.missing placed c = [] := List.length_eq_zero_iff.1 (by omega)
    by_contra hnot
    refine absurd ((h.ready c).2 ⟨hc, hnot, fun p hp => ?_⟩) List.not_mem_nil
    by_contra hp'
    have hmem : p ∈ g.missing placed c := by
      rw [missing, List.mem_filter, hg.mem_predecessors]
      simp [hp, hp']
    rw [hnil] at hmem
    exact absurd hmem List.not_mem_nil
  · intro hmem
    have hnil : g.missing placed c = [] := by
      rw [missing, List.filter_eq_nil_iff]
      intro p hp
      simp [h.sequence.mem_of_feeds hmem (hg.mem_predecessors.1 hp)]
    simp [hnil]

/-- The report on what is left names the trapped components. -/
theorem Tally.cycleFailure_eq (hg : g.WellFormed) {placed : List Nat} {counts : List Int}
    (h : g.Tally placed counts []) :
    ∃ guids, g.cycleFailure counts = .cyclicGraph guids ∧ g.TrappedGuids guids := by
  have hsub : (((g.nodes.zip counts).filter fun e => 0 < e.2).map fun e => e.1.guid).Sublist
      (g.nodes.map Node.guid) := by
    have hzip : (g.nodes.zip counts).map Prod.fst = g.nodes := List.map_fst_zip h.size.ge
    conv_rhs => rw [← hzip, List.map_map]
    exact List.filter_sublist.map _
  refine ⟨_, rfl, hsub, hg.guids.sublist hsub, fun i n hn => ?_⟩
  have hi : i < g.size := (List.getElem?_eq_some_iff.1 hn).1
  have hcount : counts[i]? = some ((g.missing placed i).length : Int) := h.counts i hi
  rw [← h.count_pos_iff hg hi hcount, List.mem_map]
  constructor
  · rintro ⟨⟨m, k⟩, hmk, hguid⟩
    obtain ⟨hmem, hpos⟩ := List.mem_filter.1 hmk
    obtain ⟨j, hj⟩ := List.mem_iff_getElem?.1 hmem
    obtain ⟨hm, hk⟩ := List.getElem?_zip_eq_some.1 hj
    -- Distinct guids: the entry is the one of the component itself.
    have hsame : (g.nodes.map Node.guid)[j]? = (g.nodes.map Node.guid)[i]? := by
      rw [List.getElem?_map, List.getElem?_map, hm, hn]
      exact congrArg some hguid
    have hj' : j < (g.nodes.map Node.guid).length := by
      rw [List.length_map]
      exact (List.getElem?_eq_some_iff.1 hm).1
    obtain rfl : j = i := (List.getElem?_inj hj' hg.guids).1 hsame
    obtain rfl : k = _ := Option.some.inj (hk.symm.trans hcount)
    simpa using hpos
  · intro hpos
    have hmem : (n, ((g.missing placed i).length : Int)) ∈ g.nodes.zip counts :=
      List.mem_of_getElem? (List.getElem?_zip_eq_some.2 ⟨hn, hcount⟩)
    exact ⟨_, List.mem_filter.2 ⟨hmem, by simpa using hpos⟩, rfl⟩

/-- Something is left exactly if the graph has a cycle. -/
theorem Tally.length_lt_iff (hg : g.WellFormed) {placed : List Nat} {counts : List Int}
    (h : g.Tally placed counts []) : placed.length < g.size ↔ ¬ g.Acyclic := by
  constructor
  · intro hlt hacyclic
    have hlinear := h.sequence.linearization fun c hc =>
      (h.mem_placed_iff hg hc).2 (hacyclic.not_trapped c)
    have hlength := hlinear.perm.length_eq
    rw [indices, List.length_range] at hlength
    omega
  · intro hcyclic
    by_contra hfull
    refine hcyclic fun z hz => ?_
    have hmem := h.sequence.mem_of_length (by omega) (Upstream.consumer_lt hz)
    exact h.sequence.not_trapped hmem ⟨z, hz, .inl rfl⟩

/-- Whatever was placed first, the same counts are left. -/
theorem Tally.counts_eq (hg : g.WellFormed) {placed placed' : List Nat}
    {counts counts' : List Int} (h : g.Tally placed counts [])
    (h' : g.Tally placed' counts' []) : counts = counts' := by
  refine List.ext_getElem? fun c => ?_
  by_cases hc : c < g.size
  · have hsame : g.missing placed c = g.missing placed' c := by
      refine List.filter_congr fun p hp => ?_
      have hlt := hg.producer_lt (hg.mem_predecessors.1 hp)
      have hiff := (h.mem_placed_iff hg hlt).trans (h'.mem_placed_iff hg hlt).symm
      simp [hiff]
    rw [h.counts c hc, h'.counts c hc, hsame]
  · rw [List.getElem?_eq_none (by rw [h.size]; omega),
      List.getElem?_eq_none (by rw [h'.size]; omega)]

/-! ## Both schedules -/

theorem topologicalOrder?_eq (hg : g.WellFormed) :
    g.topologicalOrder? = some g.topologicalOrder := by
  rw [topologicalOrder?, (Tally.start hg).placeSingly?_eq hg]
  rfl

theorem layers?_eq (hg : g.WellFormed) : g.layers? = some g.layers := by
  rw [layers?, (Tally.start hg).placeLayers?_eq hg]
  rfl

theorem layers_eq_error (hg : g.WellFormed) (hcyclic : ¬ g.Acyclic) :
    ∃ guids, g.TrappedGuids guids ∧ g.layers = .error (.cyclicGraph guids) := by
  obtain ⟨-, hlayers⟩ := placeLayers_spec hg g.size (Tally.start hg) (by simp)
  rw [List.nil_append] at hlayers
  obtain ⟨guids, hfailure, hguids⟩ := hlayers.cycleFailure_eq hg
  refine ⟨guids, hguids, ?_⟩
  simp only [layers]
  rw [if_pos ((hlayers.length_lt_iff hg).2 hcyclic), hfailure]

/-- Of a graph that was loaded both schedules exist exactly if it has no cycle; if it has one, both
fail, and name the components on cycles and behind them.  No count goes below zero on the way. -/
theorem schedules_agree {d : GraphDocument} (hload : load d = .ok g) :
    ((g.Acyclic ∧ (∃ order, g.topologicalOrder = .ok order) ∧ ∃ layers, g.layers = .ok layers) ∨
      (¬ g.Acyclic ∧ ∃ guids, g.TrappedGuids guids ∧
        g.topologicalOrder = .error (.cyclicGraph guids) ∧
        g.layers = .error (.cyclicGraph guids))) ∧
    g.topologicalOrder? = some g.topologicalOrder ∧ g.layers? = some g.layers := by
  have hg := load_wellFormed hload
  refine ⟨?_, topologicalOrder?_eq hg, layers?_eq hg⟩
  by_cases hacyclic : g.Acyclic
  · obtain ⟨order, horder, -⟩ := topologicalOrder_eq_ok hg hacyclic
    obtain ⟨layers, hlayers, -⟩ := layers_eq_ok hg hacyclic
    exact .inl ⟨hacyclic, ⟨order, horder⟩, layers, hlayers⟩
  · have hsingly := placeSingly_spec hg g.size (Tally.start hg) (by simp)
    obtain ⟨-, hlayers⟩ := placeLayers_spec hg g.size (Tally.start hg) (by simp)
    rw [List.nil_append] at hsingly hlayers
    obtain ⟨guids, hfailure, hguids⟩ := hsingly.cycleFailure_eq hg
    refine .inr ⟨hacyclic, guids, hguids, ?_, ?_⟩
    · simp only [topologicalOrder]
      rw [if_pos ((hsingly.length_lt_iff hg).2 hacyclic), hfailure]
    · simp only [layers]
      rw [if_pos ((hlayers.length_lt_iff hg).2 hacyclic), ← hsingly.counts_eq hg hlayers, hfailure]

end Graph

/-! ## A small document with a cycle

One component feeds itself, twice over, and the next one; the others are not concerned. -/

namespace Sample

def loop : GraphDocument :=
  ⟨[⟨"behind", "Data", "", .origin, [input "Data" [⟨"loop", "Data"⟩] none]⟩,
    ⟨"free", "Data", "", .origin, [input "Data" [] (some (.list [.integer 1]))]⟩,
    ⟨"loop", "Data", "", .origin,
      [input "Data" [⟨"loop", "Data"⟩, ⟨"free", "Data"⟩, ⟨"loop", "Data"⟩] none]⟩]⟩

def loopGraph : Graph :=
  match Graph.load loop with
  | .ok g => g
  | .error _ => default

end Sample

namespace Graph

theorem schedules_agree_sample :
    load Sample.loop = .ok Sample.loopGraph ∧ ¬ Sample.loopGraph.Acyclic ∧
      Sample.loopGraph.TrappedGuids ["behind", "loop"] ∧
      Sample.loopGraph.topologicalOrder = .error (.cyclicGraph ["behind", "loop"]) ∧
      Sample.loopGraph.layers = .error (.cyclicGraph ["behind", "loop"]) ∧
      Sample.loopGraph.topologicalOrder? = some (.error (.cyclicGraph ["behind", "loop"])) := by
  have hload : load Sample.loop = .ok Sample.loopGraph := rfl
  have hfails : Sample.loopGraph.topologicalOrder = .error (.cyclicGraph ["behind", "loop"]) := by
    decide +kernel
  obtain ⟨hends, hguarded, -⟩ := schedules_agree hload
  rcases hends with ⟨-, ⟨order, horder⟩, -⟩ | ⟨hcyclic, guids, hguids, horder, hlayers⟩
  · rw [hfails] at horder
    cases horder
  · rw [hfails] at horder hguarded
    cases horder
    exact ⟨hload, hcyclic, hguids, hfails, hlayers, hguarded⟩

end Graph
end TreeFlow
