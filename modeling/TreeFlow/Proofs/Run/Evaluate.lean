import TreeFlow.Proofs.Component.Arity
import TreeFlow.Proofs.Graph.Load
import TreeFlow.Proofs.Run.Pool
import TreeFlow.Proofs.Run.Visit
import TreeFlow.Proofs.SortedMap
/-
Evaluation in layers does what a visit of one component after the other does.

A layer is launched and then recorded.  Launching writes the components that are skipped and makes
a task of every other one; a task carries what its component settles to (`Prepared`), in this store
and in every later one.  So recording may take the tasks in any order, and a layer ends in a
visited store whatever the limit and whichever task finishes first (`evaluateLayer_ok`).

The orders of finishing are the choices of a pool.  No order is left out: if the tasks of each layer
are to finish in given orders, then some choices make them (`exists_evaluate_eq`).
-/

namespace TreeFlow
namespace Graph

variable {g : Graph} {b : Bindings} {s t : Store} {placed : List Nat}

/-- A task whose result is what its component settles to, in every store with its producers. -/
structure Prepared (g : Graph) (b : Bindings) (placed : List Nat) (t : Task) : Prop where
  available : g.Available placed t.index
  settles : ∀ done s, placed ⊆ done → g.Visited b done s →
    g.settle b s t.index = .ok (t.node.attempt t.result)

/-! ## Launching -/

/-- Launching a component writes it or makes a task of it. -/
theorem launch_ok (hg : g.WellFormed) (ha : g.Acyclic) {done : List Nat}
    (hs : g.Visited b done s) (hsub : placed ⊆ done) {i : Nat} (hi : g.Available placed i)
    (hfresh : i ∉ done) (tasks : List Task) :
    (∃ s', g.launch b (s, tasks) i = .ok (s', tasks) ∧ g.Visited b (done ++ [i]) s') ∨
      ∃ t, g.launch b (s, tasks) i = .ok (s, tasks ++ [t]) ∧ t.index = i ∧
        g.Prepared b placed t := by
  have hfed := hs.fed_of_available hsub hi
  obtain ⟨o, ho⟩ := hs.settle_ok hg hi.1 hfed
  obtain ⟨n, hn, hcase⟩ := (settle_eq_ok_iff hg).1 ho
  have hnode := node_eq_ok_iff.2 hn
  rcases hcase with ⟨culprit, hc, rfl⟩ | ⟨hc, inputs, hinputs, rfl⟩
  · left
    obtain ⟨hput, hvisited⟩ := hs.write hg hi.1 hfresh hfed ho
    refine ⟨_, ?_, hvisited⟩
    simp only [launch, hnode, Except.ok_bind, hc, hput]
    rfl
  · right
    refine ⟨⟨i, n, inputs⟩, ?_, rfl, hi, fun done' s' hsub' hs' => ?_⟩
    · simp only [launch, hnode, Except.ok_bind, hc, hinputs]
      rfl
    · rw [← hs.toSettled.settle_eq hs'.toSettled hg ha hfed (hs'.fed_of_available hsub' hi)]
      exact ho

/-- A layer between two launches: what is launched of it is written or has a task. -/
structure Launched (g : Graph) (b : Bindings) (placed before : List Nat)
    (state : Store × List Task) : Prop where
  store : ∃ skipped, (skipped ++ state.2.map Task.index).Perm before ∧
    g.Visited b (placed ++ skipped) state.1
  prepared : ∀ t ∈ state.2, g.Prepared b placed t

theorem Launched.step (hg : g.WellFormed) (ha : g.Acyclic) {before : List Nat}
    {state : Store × List Task} (h : g.Launched b placed before state) {i : Nat}
    (hi : g.Available placed i) (hbefore : i ∉ before) :
    ∃ state', g.launch b state i = .ok state' ∧ g.Launched b placed (before ++ [i]) state' := by
  obtain ⟨s, tasks⟩ := state
  obtain ⟨⟨skipped, hperm, hs⟩, hprepared⟩ := h
  have hfresh : i ∉ placed ++ skipped := by
    rw [List.mem_append]
    rintro (hmem | hmem)
    · exact hi.2.1 hmem
    · exact hbefore (hperm.mem_iff.1 (List.mem_append_left _ hmem))
  rcases launch_ok hg ha hs (List.subset_append_left _ _) hi hfresh tasks with
    ⟨s', hlaunch, hs'⟩ | ⟨t, hlaunch, rfl, ht⟩
  · have hperm' : ((skipped ++ [i]) ++ tasks.map Task.index).Perm (before ++ [i]) := by
      rw [List.append_assoc]
      exact (List.perm_middle.trans (hperm.cons i)).trans (List.perm_append_singleton i _).symm
    exact ⟨_, hlaunch, ⟨skipped ++ [i], hperm', by rwa [← List.append_assoc]⟩, hprepared⟩
  · have hperm' : (skipped ++ (tasks ++ [t]).map Task.index).Perm (before ++ [t.index]) := by
      rw [List.map_append, ← List.append_assoc]
      exact hperm.append_right _
    refine ⟨_, hlaunch, ⟨skipped, hperm', hs⟩, fun t' ht' => ?_⟩
    rcases List.mem_append.1 ht' with ht' | ht'
    · exact hprepared t' ht'
    · exact List.mem_singleton.1 ht' ▸ ht

/-- Launching a layer leaves a task for each component that it does not write. -/
theorem launchAll_ok (hg : g.WellFormed) (ha : g.Acyclic) (hs : g.Visited b placed s)
    {layer : List Nat} (hnodup : layer.Nodup) (hlayer : ∀ i ∈ layer, g.Available placed i) :
    ∃ state, layer.foldlM (g.launch b) (s, []) = .ok state ∧
      g.Launched b placed layer state := by
  have hstart : g.Launched b placed [] (s, []) := ⟨⟨[], .refl _, by simpa using hs⟩, by simp⟩
  refine Except.foldlM_ok (g.Launched b placed) hstart fun before i after state hsplit h => ?_
  have hbefore : i ∉ before := fun hmem =>
    List.disjoint_of_nodup_append (hsplit ▸ hnodup) hmem List.mem_cons_self
  exact h.step hg ha (hlayer i (by simp [hsplit])) hbefore

/-! ## Recording -/

theorem Visited.congr {done done' : List Nat} (hs : g.Visited b done s)
    (h : ∀ i, i ∈ done ↔ i ∈ done') : g.Visited b done' s :=
  { hs with recorded := fun i => (hs.recorded i).trans (h i) }

/-- The failure of a component is recorded; it does not end the run. -/
theorem outcome_eq (t : Task) : t.node.outcome t.result = .ok (t.node.attempt t.result) := by
  unfold Node.outcome Node.attempt
  cases h : t.result with
  | ok trees => simp only [Node.mapOutputs_eq]
  | error e => simp [isLocal_of_runComponent h]

/-- What a task hands over when it finishes. -/
abbrev Finished : Type := Nat × Node × Except Failure (List Tree)

def report (t : Task) : Finished := (t.index, t.node, t.result)

theorem recordResult_ok (hg : g.WellFormed) {done : List Nat} (hs : g.Visited b done s)
    (hsub : placed ⊆ done) {t : Task} (ht : g.Prepared b placed t) (hfresh : t.index ∉ done) :
    ∃ s', recordResult s (report t) = .ok s' ∧ g.Visited b (done ++ [t.index]) s' := by
  have hfed := hs.fed_of_available hsub ht.available
  obtain ⟨hput, hvisited⟩ :=
    hs.write hg ht.available.1 hfresh hfed (ht.settles done s hsub hs)
  refine ⟨_, ?_, hvisited⟩
  simp only [recordResult, report, outcome_eq, Except.ok_bind, hput]

/-- Tasks can be recorded in any order. -/
theorem recordAll_ok (hg : g.WellFormed) {done : List Nat} (hs : g.Visited b done s)
    (hsub : placed ⊆ done) {tasks : List Task} (htasks : ∀ t ∈ tasks, g.Prepared b placed t)
    (hfresh : (tasks.map Task.index).Nodup ∧ ∀ t ∈ tasks, t.index ∉ done)
    {finished : List Finished} (hfinished : finished.Perm (tasks.map report)) :
    ∃ s', finished.foldlM recordResult s = .ok s' ∧
      g.Visited b (done ++ finished.map Prod.fst) s' := by
  have hindices : (finished.map Prod.fst).Perm (tasks.map Task.index) := by
    have := hfinished.map Prod.fst
    rwa [List.map_map] at this
  refine Except.foldlM_ok (fun before s => g.Visited b (done ++ before.map Prod.fst) s)
    (by simpa using hs) fun before e after s₁ hsplit hs₁ => ?_
  have hmem : e ∈ tasks.map report := hfinished.mem_iff.1 (by simp [hsplit])
  obtain ⟨t, ht, rfl⟩ := List.mem_map.1 hmem
  have hnew : t.index ∉ done ++ before.map Prod.fst := by
    rw [List.mem_append]
    rintro (hold | hold)
    · exact hfresh.2 t ht hold
    · have hnodup := hindices.nodup_iff.2 hfresh.1
      rw [hsplit, List.map_append] at hnodup
      exact List.disjoint_of_nodup_append hnodup hold List.mem_cons_self
  obtain ⟨s₂, hrecord, hs₂⟩ := recordResult_ok hg hs₁
    (fun p hp => List.mem_append_left _ (hsub hp)) (htasks t ht) hnew
  refine ⟨s₂, hrecord, ?_⟩
  rw [List.map_append, ← List.append_assoc]
  exact hs₂

/-! ## Layers -/

/-- A layer goes through and is visited, whatever the choices of its pool. -/
theorem evaluateLayer_ok (hg : g.WellFormed) (ha : g.Acyclic) (hs : g.Visited b placed s)
    {layer : List Nat} (hnodup : layer.Nodup) (hlayer : ∀ i ∈ layer, g.Available placed i)
    {permits : Nat} (hpermits : 0 < permits) (choices : Nat → Nat) :
    ∃ s', g.evaluateLayer b permits choices s layer = .ok s' ∧
      g.Visited b (placed ++ layer) s' := by
  obtain ⟨⟨s₁, tasks⟩, hlaunch, ⟨skipped, hperm, hs₁⟩, htasks⟩ :=
    launchAll_ok hg ha hs hnodup hlayer
  have hparts := hperm.nodup_iff.2 hnodup
  rw [List.nodup_append] at hparts
  have hfresh : ∀ t ∈ tasks, t.index ∉ placed ++ skipped := by
    intro t ht
    rw [List.mem_append]
    rintro (hold | hold)
    · exact (htasks t ht).available.2.1 hold
    · exact hparts.2.2 _ hold _ (List.mem_map_of_mem ht) rfl
  have hfinished := Pool.finishingOrder_perm hpermits choices (tasks.map report)
  have hkeys : ((tasks.map report).map Prod.fst).Nodup := by
    rw [List.map_map]
    exact hparts.2.1
  have hentries := SortedMap.entries_ofList_perm ((hfinished.map Prod.fst).nodup_iff.2 hkeys)
  obtain ⟨s₂, hrecord, hs₂⟩ := recordAll_ok hg hs₁ (List.subset_append_left _ _) htasks
    ⟨hparts.2.1, hfresh⟩ (hentries.trans hfinished)
  refine ⟨s₂, ?_, hs₂.congr fun i => ?_⟩
  · simp only [evaluateLayer, hlaunch, Except.ok_bind]
    exact hrecord
  · have hdone := ((hentries.trans hfinished).map Prod.fst).mem_iff (a := i)
    rw [List.map_map] at hdone
    rw [List.append_assoc, List.mem_append, List.mem_append, List.mem_append, hdone,
      ← List.mem_append]
    exact or_congr_right hperm.mem_iff

theorem evaluateLayers_ok (hg : g.WellFormed) (ha : g.Acyclic) {permits : Nat}
    (hpermits : 0 < permits) (choices : Nat → Nat → Nat) {layers : List (List Nat)}
    (hlayers : g.Layered placed layers) (hs : g.Visited b placed s) (depth : Nat) :
    ∃ s', (layers.zipIdx depth).foldlM
        (fun s (layer, depth) => g.evaluateLayer b permits (choices depth) s layer) s = .ok s' ∧
      g.Visited b (placed ++ layers.flatten) s' := by
  induction layers generalizing placed s depth with
  | nil => exact ⟨s, rfl, by simpa using hs⟩
  | cons layer rest ih =>
    obtain ⟨hnodup, hlayer, hrest⟩ := hlayers
    obtain ⟨s₁, h₁, hs₁⟩ := evaluateLayer_ok hg ha hs hnodup (fun i hi => (hlayer i).1 hi)
      hpermits (choices depth)
    obtain ⟨s₂, h₂, hs₂⟩ := ih hrest hs₁ (depth + 1)
    refine ⟨s₂, ?_, by rwa [List.flatten_cons, ← List.append_assoc]⟩
    simp only [List.zipIdx_cons, List.foldlM_cons, h₁, Except.ok_bind]
    exact h₂

/-- Evaluation goes through and leaves a visited store. -/
theorem evaluate_ok (hg : g.WellFormed) (ha : g.Acyclic) (b : Bindings) (limit : Nat)
    (choices : Nat → Nat → Nat) :
    ∃ s order, g.evaluate b limit choices = .ok s ∧ g.Linearization order ∧
      g.Visited b order s := by
  obtain ⟨layers, hlayers, hlayered, horder⟩ := layers_eq_ok hg ha
  obtain ⟨s, hs, hvisited⟩ := evaluateLayers_ok hg ha (Limit.clamp_pos limit) choices hlayered
    (Visited.start g b) 0
  refine ⟨s, layers.flatten, ?_, horder, hvisited⟩
  simp only [evaluate, hlayers, Except.ok_bind]
  exact hs

/-! ## Every order of finishing -/

/-- Runs a layer whose tasks finish in a given order. -/
def evaluateLayerIn (g : Graph) (b : Bindings) (order : List Finished → List Finished) (s : Store)
    (layer : List Nat) : Except Failure Store := do
  let (s, tasks) ← layer.foldlM (g.launch b) (s, [])
  (SortedMap.ofList (order (tasks.map report))).entries.foldlM recordResult s

/-- Runs a graph, the tasks of each layer finishing in the order given for it. -/
def evaluateIn (g : Graph) (b : Bindings) (orders : Nat → List Finished → List Finished) :
    Except Failure Store := do
  let layers ← g.layers
  layers.zipIdx.foldlM (fun s (layer, depth) => g.evaluateLayerIn b (orders depth) s layer)
    (Store.ofSize g.size)

/-- Every order of its tasks is one in which the pool of a layer can finish them. -/
theorem exists_evaluateLayer_eq {permits : Nat} (hpermits : 0 < permits)
    {order : List Finished → List Finished} (horder : ∀ tasks, (order tasks).Perm tasks)
    (s : Store) (layer : List Nat) :
    ∃ choices, g.evaluateLayer b permits choices s layer = g.evaluateLayerIn b order s layer := by
  unfold evaluateLayer evaluateLayerIn
  cases layer.foldlM (g.launch b) (s, []) with
  | error e => exact ⟨Pool.inTurn 0, rfl⟩
  | ok launched =>
    obtain ⟨s', tasks⟩ := launched
    obtain ⟨choices, hchoices⟩ :=
      Pool.exists_finishingOrder_eq hpermits (horder (tasks.map report))
    refine ⟨choices, ?_⟩
    simp only [Except.ok_bind, ← hchoices]
    rfl

/-- The choices of the layers are independent of each other: those of one layer do not matter to
the layers behind it. -/
theorem exists_evaluateLayers_eq {permits : Nat} (hpermits : 0 < permits)
    {orders : Nat → List Finished → List Finished}
    (horders : ∀ depth tasks, (orders depth tasks).Perm tasks) (layers : List (List Nat))
    (s : Store) (depth : Nat) :
    ∃ choices : Nat → Nat → Nat,
      (layers.zipIdx depth).foldlM
          (fun s (layer, depth) => g.evaluateLayer b permits (choices depth) s layer) s
        = (layers.zipIdx depth).foldlM
          (fun s (layer, depth) => g.evaluateLayerIn b (orders depth) s layer) s := by
  induction layers generalizing s depth with
  | nil => exact ⟨Pool.inTurn, rfl⟩
  | cons layer rest ih =>
    obtain ⟨first, hfirst⟩ := exists_evaluateLayer_eq (g := g) (b := b) hpermits (horders depth) s
      layer
    simp only [List.zipIdx_cons, List.foldlM_cons]
    cases hlayer : g.evaluateLayerIn b (orders depth) s layer with
    | error e =>
      refine ⟨fun _ => first, ?_⟩
      rw [hfirst, hlayer]
      rfl
    | ok s' =>
      obtain ⟨later, hlater⟩ := ih s' (depth + 1)
      refine ⟨fun k => if k = depth then first else later k, ?_⟩
      simp only [if_true, hfirst, hlayer, Except.ok_bind]
      refine Eq.trans ?_ hlater
      refine Except.foldlM_congr (fun e he s => ?_) s'
      have hbehind : depth + 1 ≤ e.2 := List.le_snd_of_mem_zipIdx he
      rw [if_neg (by omega)]

/-- Whatever order the tasks of every layer are to finish in, under any limit there are choices
that make them. -/
theorem exists_evaluate_eq (g : Graph) (b : Bindings) (limit : Nat)
    {orders : Nat → List Finished → List Finished}
    (horders : ∀ depth tasks, (orders depth tasks).Perm tasks) :
    ∃ choices, g.evaluate b limit choices = g.evaluateIn b orders := by
  unfold evaluate evaluateIn
  cases g.layers with
  | error e => exact ⟨Pool.inTurn, rfl⟩
  | ok layers =>
    exact exists_evaluateLayers_eq (Limit.clamp_pos limit) horders layers (Store.ofSize g.size) 0

/-- All evaluations of a graph without cycles, under any limit and with the tasks of every layer
finishing in any order, and all visits along a linearization end in one store. -/
theorem evaluate_eq_visit {d : GraphDocument} (hload : load d = .ok g) (ha : g.Acyclic)
    (b : Bindings) :
    ∃ s, (∀ limit choices, g.evaluate b limit choices = .ok s) ∧
      (∀ orders : Nat → List Finished → List Finished,
        (∀ depth tasks, (orders depth tasks).Perm tasks) → g.evaluateIn b orders = .ok s) ∧
      (∀ order, g.Linearization order → g.visit b order = .ok s) ∧
      ∃ order, g.topologicalOrder = .ok order ∧ g.Linearization order := by
  have hg := load_wellFormed hload
  obtain ⟨order, horder, hlinear⟩ := topologicalOrder_eq_ok hg ha
  obtain ⟨s, hs, hvisited⟩ := visit_ok (b := b) hg hlinear
  have hevaluate : ∀ limit choices, g.evaluate b limit choices = .ok s := by
    intro limit choices
    obtain ⟨t, order', ht, hlinear', hvisited'⟩ := evaluate_ok hg ha b limit choices
    rw [ht, hvisited.unique hvisited' hg ha hlinear hlinear']
  refine ⟨s, hevaluate, fun orders horders => ?_, fun order' hlinear' => ?_, order, horder,
    hlinear⟩
  · obtain ⟨choices, hchoices⟩ := exists_evaluate_eq g b 1 horders
    rw [← hchoices]
    exact hevaluate 1 choices
  · obtain ⟨t, ht, hvisited'⟩ := visit_ok (b := b) hg hlinear'
    rw [ht, hvisited.unique hvisited' hg ha hlinear hlinear']

theorem evaluate_eq_visit_sample :
    load Sample.document = .ok Sample.graph ∧ Sample.graph.Acyclic ∧
      ∃ s, (∀ limit choices, Sample.graph.evaluate .empty limit choices = .ok s) ∧
        (∀ orders : Nat → List Finished → List Finished,
          (∀ depth tasks, (orders depth tasks).Perm tasks) →
            Sample.graph.evaluateIn .empty orders = .ok s) ∧
        (∀ order, Sample.graph.Linearization order → Sample.graph.visit .empty order = .ok s) ∧
        ∃ order, Sample.graph.topologicalOrder = .ok order ∧ Sample.graph.Linearization order :=
  ⟨Sample.load_document, Sample.graph_acyclic,
    evaluate_eq_visit Sample.load_document Sample.graph_acyclic .empty⟩

end Graph
end TreeFlow
