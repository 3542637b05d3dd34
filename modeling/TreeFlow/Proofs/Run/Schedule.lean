import Mathlib.Data.List.Perm.Basic
import Mathlib.Data.List.Nodup
import Mathlib.Data.List.Sort
import TreeFlow.Proofs.Graph.Wiring
import TreeFlow.Run.Schedule
/-
Schedules place every component of an acyclic graph.

Both schedules go through the same states.  In each, the count of a component is the number of its
producers that are not placed, the ready components are exactly the available ones, and what is
placed is the start of a linearization (`Tally`).  Placing a ready component keeps this
(`Tally.place`), whichever ready component it is, so it holds along both schedules.  When nothing
is ready, everything is placed but the components on cycles and behind them
(`Tally.mem_placed_iff`).
-/

namespace TreeFlow
namespace Graph

variable {g : Graph}

/-- The start of a linearization. -/
structure Sequence (g : Graph) (placed : List Nat) : Prop where
  nodup : placed.Nodup
  lt : ∀ c ∈ placed, c < g.size
  behind : ∀ before c after, placed = before ++ c :: after → ∀ p, g.Feeds p c → p ∈ before

/-- A component that is not placed while everything that feeds it is. -/
def Available (g : Graph) (placed : List Nat) (c : Nat) : Prop :=
  c < g.size ∧ c ∉ placed ∧ ∀ p, g.Feeds p c → p ∈ placed

/-- The producers of a component that are not placed. -/
def missing (g : Graph) (placed : List Nat) (c : Nat) : List Nat :=
  (g.predecessors c).filter fun p => p ∉ placed

/-- A state between two placements. -/
structure Tally (g : Graph) (placed : List Nat) (counts : List Int) (ready : List Nat) : Prop where
  sequence : g.Sequence placed
  size : counts.length = g.size
  counts : ∀ c, c < g.size → counts[c]? = some ((g.missing placed c).length : Int)
  nodup : ready.Nodup
  ready : ∀ c, c ∈ ready ↔ g.Available placed c

/-- Layers, each of all components that are available behind the layers before it. -/
def Layered (g : Graph) : List Nat → List (List Nat) → Prop
  | _, [] => True
  | placed, layer :: rest =>
    layer.Nodup ∧ (∀ c, c ∈ layer ↔ g.Available placed c) ∧ g.Layered (placed ++ layer) rest

/-! ## Sequences -/

theorem Sequence.mem_of_feeds {placed : List Nat} (h : g.Sequence placed) {p c : Nat}
    (hc : c ∈ placed) (hp : g.Feeds p c) : p ∈ placed := by
  obtain ⟨before, after, rfl⟩ := List.append_of_mem hc
  exact List.mem_append_left _ (h.behind before c after rfl p hp)

theorem Sequence.snoc {placed : List Nat} (h : g.Sequence placed) {c : Nat}
    (hc : g.Available placed c) : g.Sequence (placed ++ [c]) := by
  obtain ⟨hlt, hfresh, hfed⟩ := hc
  constructor
  · rw [List.nodup_append]
    refine ⟨h.nodup, List.nodup_singleton c, ?_⟩
    intro a ha b hb hab
    rw [List.mem_singleton] at hb
    exact hfresh (hb ▸ hab ▸ ha)
  · intro d hd
    rcases List.mem_append.1 hd with hd | hd
    · exact h.lt d hd
    · rw [List.mem_singleton] at hd
      exact hd ▸ hlt
  · intro before d after hsplit p hp
    rcases List.eq_nil_or_concat after with rfl | ⟨after, last, rfl⟩
    · obtain ⟨rfl, hd⟩ := List.append_inj' hsplit rfl
      obtain rfl : c = d := by simpa using hd
      exact hfed p hp
    · have hsplit' : placed ++ [c] = (before ++ d :: after) ++ [last] := by simp [hsplit]
      obtain ⟨hplaced, -⟩ := List.append_inj' hsplit' rfl
      exact h.behind before d after hplaced p hp

theorem Sequence.length_le {placed : List Nat} (h : g.Sequence placed) :
    placed.length ≤ g.size := by
  have hsub : placed ⊆ g.indices := fun c hc => mem_indices.2 (h.lt c hc)
  have := (List.subperm_of_subset h.nodup hsub).length_le
  rwa [indices, List.length_range] at this

theorem Sequence.mem_of_length {placed : List Nat} (h : g.Sequence placed)
    (hlength : g.size ≤ placed.length) {c : Nat} (hc : c < g.size) : c ∈ placed := by
  have hsub : placed ⊆ g.indices := fun c hc => mem_indices.2 (h.lt c hc)
  have hperm := (List.subperm_of_subset h.nodup hsub).perm_of_length_le
    (by rwa [indices, List.length_range])
  exact hperm.mem_iff.2 (mem_indices.2 hc)

/-- A sequence holds all that is upstream of its components, further to the front. -/
theorem Sequence.idxOf_lt {placed : List Nat} (h : g.Sequence placed) {p c : Nat}
    (hp : g.Upstream p c) (hc : c ∈ placed) : p ∈ placed ∧ placed.idxOf p < placed.idxOf c := by
  have step : ∀ {b c : Nat}, g.Feeds b c → c ∈ placed →
      b ∈ placed ∧ placed.idxOf b < placed.idxOf c := by
    intro b c hbc hc
    refine ⟨h.mem_of_feeds hc hbc, ?_⟩
    obtain ⟨before, after, hsplit, hfresh⟩ := List.eq_append_cons_of_mem hc
    have hb := h.behind before c after hsplit b hbc
    rw [hsplit, List.idxOf_append_of_mem hb, List.idxOf_append_of_notMem hfresh]
    have := List.idxOf_lt_length_of_mem hb
    omega
  induction hp with
  | single hpc => exact step hpc hc
  | tail _ hbc ih =>
    obtain ⟨hb, hlt⟩ := step hbc hc
    obtain ⟨hp, hlt'⟩ := ih hb
    exact ⟨hp, Nat.lt_trans hlt' hlt⟩

/-- No component of a sequence is on a cycle, or behind one. -/
theorem Sequence.not_trapped {placed : List Nat} (h : g.Sequence placed) {c : Nat}
    (hc : c ∈ placed) : ¬ g.Trapped c := by
  rintro ⟨z, hz, hzc⟩
  have hmem : z ∈ placed := by
    rcases hzc with rfl | hzc
    · exact hc
    · exact (h.idxOf_lt hzc hc).1
  exact Nat.lt_irrefl _ (h.idxOf_lt hz hmem).2

theorem Sequence.linearization {order : List Nat} (h : g.Sequence order)
    (all : ∀ c < g.size, c ∈ order) : g.Linearization order where
  perm := (List.perm_ext_iff_of_nodup h.nodup List.nodup_range).2 fun c =>
    ⟨fun hc => mem_indices.2 (h.lt c hc), fun hc => all c (mem_indices.1 hc)⟩
  behind := h.behind

/-! ## One placement -/

theorem foldl_countDown {l : List Nat} (hl : l.Nodup) {counts : List Int} (ready : List Nat)
    (hlt : ∀ c ∈ l, c < counts.length) :
    ∃ counts', l.foldl countDown (counts, ready)
        = (counts', ready ++ l.filter fun c => counts[c]? == some 1) ∧
      counts'.length = counts.length ∧
      ∀ c, counts'[c]? = if c ∈ l then counts[c]?.map (· - 1) else counts[c]? := by
  induction l generalizing counts ready with
  | nil => exact ⟨counts, by simp, rfl, by simp⟩
  | cons i l ih =>
    obtain ⟨hi, hl⟩ := List.nodup_cons.1 hl
    have hilt : i < counts.length := hlt i List.mem_cons_self
    have hother : ∀ c, c ≠ i → (counts.set i (counts[i] - 1))[c]? = counts[c]? := by
      intro c hc
      rw [List.getElem?_set_ne (Ne.symm hc)]
    have hlt' : ∀ c ∈ l, c < (counts.set i (counts[i] - 1)).length := by
      intro c hc
      rw [List.length_set]
      exact hlt c (List.mem_cons_of_mem _ hc)
    obtain ⟨counts', hfold, hlength, hget⟩ :=
      ih hl (if counts[i] - 1 = 0 then ready ++ [i] else ready) hlt'
    refine ⟨counts', ?_, by rw [hlength, List.length_set], ?_⟩
    · have hsame : (l.filter fun c => (counts.set i (counts[i] - 1))[c]? == some 1)
          = l.filter fun c => counts[c]? == some 1 := by
        refine List.filter_congr fun c hc => ?_
        rw [hother c fun h => hi (h ▸ hc)]
      rw [List.foldl_cons, countDown, List.getElem?_eq_getElem hilt, hfold, hsame]
      by_cases h1 : counts[i] = 1
      · simp [h1, List.getElem?_eq_getElem hilt]
      · have h0 : ¬counts[i] - 1 = 0 := by omega
        simp [h0, h1, List.getElem?_eq_getElem hilt]
    · intro c
      rw [hget c]
      by_cases hc : c = i
      · subst hc
        simp [hi, hilt]
      · simp only [List.mem_cons, hc, false_or, hother c hc]

theorem missing_snoc (hg : g.WellFormed) {placed : List Nat} {i c : Nat} (hi : i ∉ placed) :
    ((g.missing (placed ++ [i]) c).length : Int)
      = (g.missing placed c).length - if g.Feeds i c then 1 else 0 := by
  have hnodup : (g.missing placed c).Nodup := (hg.nodup_predecessors c).filter _
  have herase : g.missing (placed ++ [i]) c = (g.missing placed c).erase i := by
    rw [hnodup.erase_eq_filter, missing, missing, List.filter_filter]
    refine List.filter_congr fun p _ => ?_
    by_cases hp : p = i <;> simp [hp]
  have hmem : i ∈ g.missing placed c ↔ g.Feeds i c := by
    rw [missing, List.mem_filter, hg.mem_predecessors]
    simp [hi]
  rw [herase, List.length_erase]
  by_cases h : g.Feeds i c
  · have hpos := List.length_pos_of_mem (hmem.2 h)
    rw [if_pos (hmem.2 h), if_pos h]
    omega
  · rw [if_neg (fun hm => h (hmem.1 hm)), if_neg h]
    simp

/-- The successors whose last missing producer is `i` are those that become available with it. -/
theorem available_snoc_iff (hg : g.WellFormed) {placed : List Nat} {counts : List Int}
    {i : Nat} {rest : List Nat} (h : g.Tally placed counts (i :: rest)) {c : Nat} :
    g.Available (placed ++ [i]) c ↔
      c ∈ rest ∨ (g.Feeds i c ∧ counts[c]? = some 1) := by
  obtain ⟨hirest, -⟩ := List.nodup_cons.1 h.nodup
  obtain ⟨hilt, hifresh, hifed⟩ := (h.ready i).1 List.mem_cons_self
  constructor
  · rintro ⟨hlt, hfresh, hfed⟩
    obtain ⟨hcplaced, hci⟩ : c ∉ placed ∧ c ≠ i := by simpa using hfresh
    by_cases hfeeds : g.Feeds i c
    · refine .inr ⟨hfeeds, ?_⟩
      have hmissing : g.missing (placed ++ [i]) c = [] := by
        rw [missing, List.filter_eq_nil_iff]
        intro p hp
        simp [hfed p (hg.mem_predecessors.1 hp)]
      have hcount := missing_snoc hg (c := c) hifresh
      rw [hmissing, if_pos hfeeds] at hcount
      rw [h.counts c hlt]
      congr 1
      simp only [List.length_nil] at hcount
      omega
    · refine .inl (List.mem_of_ne_of_mem hci ((h.ready c).2 ⟨hlt, hcplaced, fun p hp => ?_⟩))
      have hpi : p ≠ i := fun hpi => hfeeds (hpi ▸ hp)
      simpa [hpi] using hfed p hp
  · rintro (hc | ⟨hfeeds, hcount⟩)
    · obtain ⟨hlt, hfresh, hfed⟩ := (h.ready c).1 (List.mem_cons_of_mem _ hc)
      have hci : c ≠ i := fun hci => hirest (hci ▸ hc)
      refine ⟨hlt, by simp [hfresh, hci], fun p hp => List.mem_append_left _ (hfed p hp)⟩
    · have hlt := hfeeds.consumer_lt
      have hfresh : c ∉ placed := fun hc => hifresh (h.sequence.mem_of_feeds hc hfeeds)
      have hci : c ≠ i := fun hci => hifresh (hifed i (hci ▸ hfeeds))
      refine ⟨hlt, by simp [hfresh, hci], fun p hp => ?_⟩
      have hone : (g.missing placed c).length = 1 := by
        have := (h.counts c hlt).symm.trans hcount
        have := Option.some.inj this
        omega
      have himissing : i ∈ g.missing placed c := by
        rw [missing, List.mem_filter, hg.mem_predecessors]
        simp [hfeeds, hifresh]
      obtain ⟨a, ha⟩ := List.length_eq_one_iff.1 hone
      obtain rfl : i = a := by simpa [ha] using himissing
      by_contra hnot
      have hpmissing : p ∈ g.missing placed c := by
        rw [missing, List.mem_filter, hg.mem_predecessors]
        simp only [List.mem_append, not_or] at hnot
        simp [hp, hnot.1]
      have hpi : p = i := by simpa [ha] using hpmissing
      simp [hpi] at hnot

/-- Placing a ready component takes a state to a state; the components that become ready stand
behind what is given as `acc`. -/
theorem Tally.place (hg : g.WellFormed) {placed : List Nat} {counts : List Int} {i : Nat}
    {rest : List Nat} (h : g.Tally placed counts (i :: rest)) :
    ∃ counts' fresh, (∀ acc, g.place (counts, acc) i = (counts', acc ++ fresh)) ∧
      g.Tally (placed ++ [i]) counts' (rest ++ fresh) := by
  obtain ⟨hirest, hrest⟩ := List.nodup_cons.1 h.nodup
  have hi := (h.ready i).1 List.mem_cons_self
  have hsucc : (g.successors i).Nodup := hg.nodup_successors i
  have hlt : ∀ c ∈ g.successors i, c < counts.length := fun c hc => by
    rw [h.size]
    exact (hg.mem_successors.1 hc).consumer_lt
  obtain ⟨counts', -, hsize, hget⟩ := foldl_countDown hsucc [] hlt
  have hmem : ∀ c, c ∈ (g.successors i).filter (fun c => counts[c]? == some 1) ↔
      g.Feeds i c ∧ counts[c]? = some 1 := by
    intro c
    rw [List.mem_filter, hg.mem_successors, beq_iff_eq]
  refine ⟨counts', (g.successors i).filter fun c => counts[c]? == some 1, fun acc => ?_, ?_⟩
  · obtain ⟨counts'', hfold, hsize', hget'⟩ := foldl_countDown hsucc acc hlt
    have hsame : counts'' = counts' := List.ext_getElem? fun c => by rw [hget', hget]
    rw [Graph.place, hfold, hsame]
  · constructor
    · exact h.sequence.snoc hi
    · rw [hsize, h.size]
    · intro c hc
      rw [hget c, h.counts c hc, missing_snoc hg hi.2.1]
      by_cases hfeeds : g.Feeds i c
      · simp [hg.mem_successors, hfeeds]
      · simp [hg.mem_successors, hfeeds]
    · rw [List.nodup_append]
      refine ⟨hrest, hsucc.filter _, ?_⟩
      rintro a ha b hb rfl
      have hfed := ((h.ready a).1 (List.mem_cons_of_mem _ ha)).2.2
      exact hi.2.1 (hfed i ((hmem a).1 hb).1)
    · intro c
      rw [List.mem_append, hmem, available_snoc_iff hg h]

theorem Tally.perm {placed : List Nat} {counts : List Int} {ready ready' : List Nat}
    (h : g.Tally placed counts ready) (hp : ready.Perm ready') :
    g.Tally placed counts ready' :=
  { h with
    nodup := hp.nodup_iff.1 h.nodup
    ready := fun c => by rw [← hp.mem_iff, h.ready c] }

theorem Tally.placeAll (hg : g.WellFormed) {placed : List Nat} {counts : List Int}
    {ready acc : List Nat} (h : g.Tally placed counts (ready ++ acc)) :
    ∃ counts' fresh, ready.foldl g.place (counts, acc) = (counts', fresh) ∧
      g.Tally (placed ++ ready) counts' fresh := by
  induction ready generalizing placed counts acc with
  | nil => exact ⟨counts, acc, rfl, by simpa using h⟩
  | cons i rest ih =>
    rw [List.cons_append] at h
    obtain ⟨counts₁, fresh₁, hplace, htally⟩ := Tally.place hg h
    rw [List.append_assoc] at htally
    obtain ⟨counts₂, fresh₂, hfold, htally⟩ := ih htally
    refine ⟨counts₂, fresh₂, ?_, by simpa using htally⟩
    rw [List.foldl_cons, hplace, hfold]

/-- At the start nothing is placed, and the components without producers are ready. -/
theorem Tally.start (hg : g.WellFormed) :
    g.Tally [] g.openCounts (readyAt g.openCounts) := by
  have hget : ∀ c, c < g.size → g.openCounts[c]? = some ((g.missing [] c).length : Int) := by
    intro c hc
    simp [openCounts, indices, missing, hc]
  have hsize : g.openCounts.length = g.size := by simp [openCounts, indices]
  constructor
  · exact ⟨List.nodup_nil, by simp, by simp⟩
  · exact hsize
  · exact hget
  · exact List.nodup_range.filter _
  · intro c
    rw [readyAt, List.mem_filter, List.mem_range, hsize, Available]
    constructor
    · rintro ⟨hc, hcount⟩
      rw [hget c hc, beq_iff_eq, Option.some.injEq] at hcount
      refine ⟨hc, by simp, fun p hp => ?_⟩
      have hnil : g.missing [] c = [] := List.length_eq_zero_iff.1 (by omega)
      have hmem : p ∈ g.missing [] c := by
        rw [missing, List.mem_filter, hg.mem_predecessors]
        simp [hp]
      rw [hnil] at hmem
      exact hmem
    · rintro ⟨hc, -, hfed⟩
      refine ⟨hc, ?_⟩
      have hnil : g.missing [] c = [] := by
        rw [missing, List.filter_eq_nil_iff]
        intro p hp
        exact absurd (hfed p (hg.mem_predecessors.1 hp)) List.not_mem_nil
      rw [hget c hc, hnil]
      rfl

theorem Tally.ready_eq_nil {placed : List Nat} {counts : List Int} {ready : List Nat}
    (h : g.Tally placed counts ready) (hlength : g.size ≤ placed.length) : ready = [] := by
  refine List.eq_nil_iff_forall_not_mem.2 fun c hc => ?_
  obtain ⟨hlt, hfresh, -⟩ := (h.ready c).1 hc
  exact hfresh (h.sequence.mem_of_length hlength hlt)

/-- Where nothing is ready, what is left are the trapped components. -/
theorem Tally.mem_placed_iff (hg : g.WellFormed) {placed : List Nat} {counts : List Int}
    (h : g.Tally placed counts []) {c : Nat} (hc : c < g.size) :
    c ∈ placed ↔ ¬ g.Trapped c := by
  refine ⟨h.sequence.not_trapped, fun hfree => ?_⟩
  induction acc_of_not_trapped hfree with
  | intro c _ ih =>
    by_contra hnot
    have hfed : ∀ p, g.Feeds p c → p ∈ placed := fun p hp =>
      ih p hp (hg.producer_lt hp) fun htrapped => hfree (htrapped.of_feeds hp)
    exact absurd ((h.ready c).2 ⟨hc, hnot, hfed⟩) List.not_mem_nil

/-! ## Whole schedules -/

theorem pairwise_readyAt (counts : List Int) : (readyAt counts).Pairwise (· ≤ ·) :=
  (List.pairwise_le_range.filter _)

/-- With a step for each component that is not placed, placing goes on until nothing is ready. -/
theorem placeSingly_spec (hg : g.WellFormed) (steps : Nat) {placed : List Nat}
    {counts : List Int} {ready : List Nat} (h : g.Tally placed counts ready)
    (hsteps : g.size ≤ placed.length + steps) :
    g.Tally (placed ++ (g.placeSingly counts ready steps).1)
      (g.placeSingly counts ready steps).2 [] := by
  induction steps generalizing placed counts ready with
  | zero =>
    obtain rfl := h.ready_eq_nil hsteps
    simpa [placeSingly] using h
  | succ steps ih =>
    cases ready with
    | nil => simpa [placeSingly] using h
    | cons i rest =>
      obtain ⟨counts', fresh, hplace, htally⟩ := Tally.place hg h
      have hnext := ih (htally.perm (perm_foldr_insertAscending fresh rest).symm)
        (by rw [List.length_append, List.length_singleton]; omega)
      simpa [placeSingly, hplace []] using hnext

theorem placeLayers_spec (hg : g.WellFormed) (steps : Nat) {placed : List Nat}
    {counts : List Int} {ready : List Nat} (h : g.Tally placed counts ready)
    (hsteps : g.size ≤ placed.length + steps) :
    g.Layered placed (g.placeLayers counts ready steps).1 ∧
      g.Tally (placed ++ (g.placeLayers counts ready steps).1.flatten)
        (g.placeLayers counts ready steps).2 [] := by
  induction steps generalizing placed counts ready with
  | zero =>
    obtain rfl := h.ready_eq_nil hsteps
    exact ⟨trivial, by simpa [placeLayers] using h⟩
  | succ steps ih =>
    cases ready with
    | nil => exact ⟨trivial, by simpa [placeLayers] using h⟩
    | cons i rest =>
      have hall : g.Tally placed counts ((i :: rest) ++ []) := by rwa [List.append_nil]
      obtain ⟨counts', fresh, hfold, htally⟩ := Tally.placeAll hg hall
      obtain ⟨hlayers, hleft⟩ := ih (htally.perm (perm_ascending fresh).symm)
        (by rw [List.length_append, List.length_cons]; omega)
      rw [placeLayers, hfold]
      refine ⟨⟨h.nodup, h.ready, hlayers⟩, ?_⟩
      rwa [List.flatten_cons, ← List.append_assoc]

/-- One at a time, the components of an acyclic graph are placed in a linearization. -/
theorem topologicalOrder_eq_ok (hg : g.WellFormed) (ha : g.Acyclic) :
    ∃ order, g.topologicalOrder = .ok order ∧ g.Linearization order := by
  have htally := placeSingly_spec hg g.size (Tally.start hg) (by simp)
  rw [List.nil_append] at htally
  have horder := htally.sequence.linearization fun c hc =>
    (htally.mem_placed_iff hg hc).2 (ha.not_trapped c)
  refine ⟨_, ?_, horder⟩
  have hlength := horder.perm.length_eq
  rw [indices, List.length_range] at hlength
  simp [topologicalOrder, hlength]

/-- In layers, all components of an acyclic graph are placed. -/
theorem layers_eq_ok (hg : g.WellFormed) (ha : g.Acyclic) :
    ∃ layers, g.layers = .ok layers ∧ g.Layered [] layers ∧ g.Linearization layers.flatten := by
  obtain ⟨hlayered, htally⟩ := placeLayers_spec hg g.size (Tally.start hg) (by simp)
  rw [List.nil_append] at htally
  have horder := htally.sequence.linearization fun c hc =>
    (htally.mem_placed_iff hg hc).2 (ha.not_trapped c)
  refine ⟨_, ?_, hlayered, horder⟩
  have hlength := horder.perm.length_eq
  rw [indices, List.length_range] at hlength
  simp [Graph.layers, hlength]

end Graph
end TreeFlow
