import TreeFlow.Proofs.Graph.Cut
import TreeFlow.Proofs.Run.Keys
/-
Wires and bindings.

What reaches a parameter over its wires may as well be bound to it: if all its producers end well,
the parameter can be cut and the merged trees of its wires be bound under a key that no other
parameter is looked up by, and the run leaves the same for every component (`evaluate_cut`).  The
store of the run with the wires is settled for the graph without them as well (`Settled.cut`), and
an acyclic graph has one settled store only.
-/

namespace TreeFlow

/-! ## What the wires carry -/

namespace Store

variable {s : Store}

/-- The trees of the wires of a parameter, where all have one. -/
theorem exists_carried {p : InputParam} (h : ∀ w ∈ p.sources, (s.output? w).isSome) :
    ∃ trees : List Tree, p.sources.map s.output? = trees.map some := by
  refine ⟨p.sources.map fun w => (s.output? w).getD .empty, ?_⟩
  rw [List.map_map]
  refine List.map_congr_left fun w hw => ?_
  obtain ⟨t, ht⟩ := Option.isSome_iff_exists.1 (h w hw)
  rw [Function.comp_apply, ht, Option.getD_some]

/-- A cut parameter is given by a binding what its wires carried. -/
theorem resolve_cut {component key : String} {p : InputParam} {b : Bindings} {t : Tree}
    (hwired : p.sources ≠ []) (hkey : b.Consults component p key)
    (ht : s.mergedSources component p = .ok t) :
    s.resolve component p.cut (b.bind key t) = s.resolve component p b := by
  have hbound : (b.bind key t).lookup? component p.cut = some t :=
    Bindings.lookup?_bind_of_consults (p := p.cut) hkey t
  refine resolve_eq_of_source rfl ?_
  rw [source_of_wired hwired, ht, source_of_unwired rfl, hbound]
  rfl

/-- A binding makes no difference to a parameter that is wired or does not ask for its key. -/
theorem resolve_bind {component key : String} {p : InputParam} {b : Bindings}
    (h : p.sources = [] → ¬ b.Consults component p key) (t : Tree) :
    s.resolve component p (b.bind key t) = s.resolve component p b := by
  refine resolve_eq_of_source rfl ?_
  by_cases hwired : p.sources = []
  · rw [source_of_unwired hwired, source_of_unwired hwired,
      Bindings.lookup?_bind_of_not_consults (h hwired)]
  · rw [source_of_wired hwired, source_of_wired hwired]

end Store

/-! ## Cut graphs -/

namespace Graph

variable {g : Graph} {b : Bindings} {s : Store} {i j : Nat} {n : Node} {q : InputParam}

theorem parallel_cut (g : Graph) (i j : Nat) : g.Parallel (g.cut i j) :=
  forall₂_modify_self (fun _ _ _ _ => rfl) fun _ _ => rfl

/-- The components of a cut graph are those of the graph, but for the parameter that is cut. -/
theorem inputs_cut (hn : g.nodes[i]? = some n) (hq : n.inputs[j]? = some q) {c : Nat} {m m' : Node}
    (hm : g.nodes[c]? = some m) (hm' : (g.cut i j).nodes[c]? = some m') :
    List.Forall₂ (fun p p' => p' = p ∨ m = n ∧ p = q ∧ p' = q.cut) m.inputs m'.inputs := by
  have hplace : (g.nodes.modify i (Node.cut j))[c]? = some m' := hm'
  rw [List.getElem?_modify, hm] at hplace
  by_cases hc : i = c
  · obtain rfl : m = n := Option.some.inj (hm.symm.trans (hc ▸ hn))
    obtain rfl : m.cut j = m' := by simpa [hc] using hplace
    refine forall₂_modify_self (fun _ _ _ _ => .inl rfl) fun p hp => ?_
    obtain rfl : p = q := Option.some.inj (hp.symm.trans hq)
    exact .inr ⟨rfl, rfl, rfl⟩
  · obtain rfl : m = m' := by simpa [hc] using hplace
    exact List.forall₂_same.2 fun _ _ => .inl rfl

/-- Cutting adds no wire. -/
theorem feeds_of_cut (hn : g.nodes[i]? = some n) (hq : n.inputs[j]? = some q) {p c : Nat}
    (h : (g.cut i j).Feeds p c) : g.Feeds p c := by
  obtain ⟨m', hm', p', hp', w, hw, hproducer⟩ := feeds_iff.1 h
  have hc : c < g.size := (parallel_cut g i j).size_eq ▸ h.consumer_lt
  have hm : g.nodes[c]? = some g.nodes[c] := List.getElem?_eq_getElem hc
  obtain ⟨p₀, hp₀, hcases⟩ := exists_left_of_mem (inputs_cut hn hq hm hm') hp'
  cases hcases with
  | inl hsame => exact feeds_iff.2 ⟨_, hm, p₀, hp₀, w, hsame ▸ hw, hproducer⟩
  | inr hcut =>
    rw [hcut.2.2] at hw
    cases hw

/-- Cutting takes no wires away but those of the parameter that is cut. -/
theorem feeds_cut_or (hn : g.nodes[i]? = some n) (hq : n.inputs[j]? = some q) {p c : Nat}
    (h : g.Feeds p c) : (g.cut i j).Feeds p c ∨ ∃ w ∈ q.sources, w.producer = p := by
  obtain ⟨m, hm, p₀, hp₀, w, hw, hproducer⟩ := feeds_iff.1 h
  obtain ⟨inputs, hm'⟩ := (parallel_cut g i j).exists_node hm
  obtain ⟨p', hp', hcases⟩ := exists_right_of_mem (inputs_cut hn hq hm hm') hp₀
  cases hcases with
  | inl hsame => exact .inl (feeds_iff.2 ⟨_, hm', p', hp', w, hsame ▸ hw, hproducer⟩)
  | inr hcut => exact .inr ⟨w, hcut.2.1 ▸ hw, hproducer⟩

theorem Acyclic.cut (ha : g.Acyclic) (hn : g.nodes[i]? = some n) (hq : n.inputs[j]? = some q) :
    (g.cut i j).Acyclic := fun c hc =>
  ha c (Relation.TransGen.mono (fun _ _ h => feeds_of_cut hn hq h) c c hc)

/-- With what its wires carried bound to a cut parameter, every component settles as before. -/
theorem settle_cut (hg : g.WellFormed) (hgcut : (g.cut i j).WellFormed)
    (hn : g.nodes[i]? = some n) (hq : n.inputs[j]? = some q) {key : String}
    (hkey : b.Consults n.guid q key) (hother : ∀ m ∈ g.nodes, ¬ m.Hears b key) {t : Tree}
    (ht : s.mergedSources n.guid q = .ok t)
    (hok : ∀ w ∈ q.sources, ∃ o, s.get? w.producer = some o ∧ o.status = .ok) (c : Nat)
    (hc : c < g.size) : (g.cut i j).settle (b.bind key t) s c = g.settle b s c := by
  have hparallel := parallel_cut g i j
  have hm : g.nodes[c]? = some g.nodes[c] := List.getElem?_eq_getElem hc
  obtain ⟨inputs, hm'⟩ := hparallel.exists_node hm
  have hdropped : ∀ p, g.Feeds p c → ¬ (g.cut i j).Feeds p c → g.blame s p = none := by
    intro p hp hcut
    obtain ⟨w, hw, rfl⟩ := (feeds_cut_or hn hq hp).resolve_left hcut
    obtain ⟨o, ho, hstatus⟩ := hok w hw
    exact blame_of_ok ho hstatus
  have hwired : q.sources ≠ [] := fun hunwired =>
    hother n (List.mem_of_getElem? hn) ⟨q, List.mem_of_getElem? hq, hunwired, hkey⟩
  have hculprit : (g.cut i j).culprit? s c = g.culprit? s c :=
    hparallel.culprit?_eq hg hgcut (fun p => feeds_of_cut hn hq) (fun _ _ => rfl) hdropped
  refine hparallel.settle_eq hg hgcut hm hm' hculprit (Store.inputsFor_eq_of_forall₂ rfl ?_)
  have hdeaf : ∀ p ∈ (g.nodes[c]).inputs, p.sources = [] → ¬ b.Consults (g.nodes[c]).guid p key :=
    fun p hp hunwired hhears => hother _ (List.mem_of_getElem? hm) ⟨p, hp, hunwired, hhears⟩
  refine ((List.forall₂_and_left _ _).2 ⟨hdeaf, inputs_cut hn hq hm hm'⟩).imp ?_
  intro p p' hp
  cases hp.2 with
  | inl hsame =>
    rw [hsame]
    exact ⟨rfl, Store.resolve_bind hp.1 t⟩
  | inr hcut =>
    obtain ⟨hself, rfl, rfl⟩ := hcut
    rw [hself]
    exact ⟨rfl, Store.resolve_cut hwired hkey ht⟩

/-- What is settled with the wires of a parameter is settled with a binding in their place. -/
theorem Settled.cut (hs : g.Settled b s) (hg : g.WellFormed) (hgcut : (g.cut i j).WellFormed)
    (hn : g.nodes[i]? = some n) (hq : n.inputs[j]? = some q)
    {key : String} (hkey : b.Consults n.guid q key) (hother : ∀ m ∈ g.nodes, ¬ m.Hears b key)
    {t : Tree} (ht : s.mergedSources n.guid q = .ok t)
    (hok : ∀ w ∈ q.sources, ∃ o, s.get? w.producer = some o ∧ o.status = .ok) :
    (g.cut i j).Settled (b.bind key t) s where
  size := hs.size.trans (parallel_cut g i j).size_eq.symm
  fed := fun c o ho p hp => hs.fed c o ho p (feeds_of_cut hn hq hp)
  result := by
    intro c o ho
    have hresult := hs.result c o ho
    obtain ⟨m, hm, -⟩ := (settle_eq_ok_iff hg).1 hresult
    rw [settle_cut hg hgcut hn hq hkey hother ht hok c (List.getElem?_eq_some_iff.1 hm).1]
    exact hresult

/-- Cutting a parameter and binding what its wires carried cannot be told from the run: the records
of all components stay as they are, and so does the report. -/
theorem evaluate_cut {d : GraphDocument} (hload : load d = .ok g) (ha : g.Acyclic) (b : Bindings)
    (hn : g.nodes[i]? = some n) (hq : n.inputs[j]? = some q) {key : String}
    (hkey : b.Consults n.guid q key) (hother : ∀ m ∈ g.nodes, ¬ m.Hears b key)
    (limit limit' : Nat) (choices choices' : Nat → Nat → Nat) :
    load (d.cut i j) = .ok (g.cut i j) ∧
    ∃ s r, g.evaluate b limit choices = .ok s ∧ g.run b limit choices = .ok r ∧
      ((∀ w ∈ q.sources, ∃ o, s.get? w.producer = some o ∧ o.status = .ok) →
        ∃ trees : List Tree, q.sources.map s.output? = trees.map some ∧
          (g.cut i j).evaluate (b.bind key (trees.foldl Tree.merge .empty)) limit' choices'
            = .ok s ∧
          (g.cut i j).run (b.bind key (trees.foldl Tree.merge .empty)) limit' choices'
            = .ok r) := by
  have hg := load_wellFormed hload
  have hcut := load_cut hload i j
  have hgcut := load_wellFormed hcut
  have hacut := ha.cut hn hq
  obtain ⟨s, order, r, hs, hr, hlinear, hvisited, -, -⟩ := run_visited hg ha b limit choices
  refine ⟨hcut, s, r, hs, hr, fun hok => ?_⟩
  have hcarried : ∀ w ∈ q.sources, (s.output? w).isSome := by
    intro w hw
    obtain ⟨o, ho, -⟩ := hok w hw
    exact hvisited.toSettled.isSome_output? hg (List.mem_of_getElem? hn) (List.mem_of_getElem? hq)
      hw (ho ▸ rfl)
  obtain ⟨trees, htrees⟩ := Store.exists_carried hcarried
  refine ⟨trees, htrees, ?_⟩
  obtain ⟨s', order', hs', hlinear', hvisited'⟩ :=
    evaluate_ok hgcut hacut (b.bind key (trees.foldl Tree.merge .empty)) limit' choices'
  have hfull : ∀ c < (g.cut i j).size, (s.get? c).isSome := fun c hc =>
    hvisited.full hlinear c ((parallel_cut g i j).size_eq ▸ hc)
  have hsettled := hvisited.toSettled.cut hg hgcut hn hq hkey hother
    (Store.mergedSources_eq n.guid htrees) hok
  obtain rfl : s' = s := hvisited'.toSettled.eq_of_full hsettled hgcut hacut
    (hvisited'.full hlinear') hfull
  refine ⟨hs', ?_⟩
  unfold run at hr ⊢
  rw [hs, Except.ok_bind] at hr
  rw [hs', Except.ok_bind, (parallel_cut g i j).ofStore_eq]
  exact hr

end Graph

/-! ## A sum of what is wired to it

Two wires end at one parameter of the sum.  Beside it a component fails, and another one behind that
is skipped. -/

namespace Sample

def wiredSum : GraphDocument :=
  ⟨[⟨"five", "Data", "", .origin, [input "Data" [] (some (.list [.integer 5]))]⟩,
    ⟨"six", "Data", "", .origin, [input "Data" [] (some (.list [.integer 6]))]⟩,
    ⟨"sum", "Addition", "", .origin,
      [input "A" [⟨"six", "Data"⟩, ⟨"five", "Data"⟩] none, input "B" [⟨"five", "Data"⟩] none]⟩,
    ⟨"beside", "Point", "", .origin, [input "Data" [⟨"five", "Data"⟩] none]⟩,
    ⟨"behind", "Addition", "", .origin,
      [input "A" [⟨"sum", "Result"⟩] none, input "B" [⟨"beside", "Data"⟩] none]⟩]⟩

def wiredSumGraph : Graph :=
  match Graph.load wiredSum with
  | .ok g => g
  | .error _ => default

/-- The first parameter of the sum. -/
def summand : InputParam :=
  ⟨"A", none, some 0, [⟨1, 0⟩, ⟨0, 0⟩], none, none, false, .none⟩

end Sample

theorem Graph.evaluate_cut_sample : load Sample.wiredSum = .ok Sample.wiredSumGraph ∧
    Sample.wiredSumGraph.Acyclic ∧
    ∃ n, Sample.wiredSumGraph.nodes[2]? = some n ∧ n.inputs[0]? = some Sample.summand ∧
      Bindings.empty.Consults n.guid Sample.summand "sum:A" ∧
      (∀ m ∈ Sample.wiredSumGraph.nodes, ¬ m.Hears .empty "sum:A") ∧
      ∃ s r, Sample.wiredSumGraph.evaluate .empty 2 Pool.inTurn = .ok s ∧
        Sample.wiredSumGraph.run .empty 2 Pool.inTurn = .ok r ∧
        (∀ w ∈ Sample.summand.sources, ∃ o, s.get? w.producer = some o ∧ o.status = .ok) ∧
        ∃ trees : List Tree, Sample.summand.sources.map s.output? = trees.map some ∧
          (Sample.wiredSumGraph.cut 2 0).evaluate
            (Bindings.empty.bind "sum:A" (trees.foldl Tree.merge .empty)) 0 Pool.inTurn = .ok s ∧
          (Sample.wiredSumGraph.cut 2 0).run
            (Bindings.empty.bind "sum:A" (trees.foldl Tree.merge .empty)) 0 Pool.inTurn
              = .ok r := by
  have hload : load Sample.wiredSum = .ok Sample.wiredSumGraph := rfl
  have ha : Sample.wiredSumGraph.Acyclic :=
    (load_wellFormed hload).acyclic (by decide +kernel)
  obtain ⟨n, hn, hq, hkey⟩ : ∃ n, Sample.wiredSumGraph.nodes[2]? = some n ∧
      n.inputs[0]? = some Sample.summand ∧
      Bindings.empty.Consults n.guid Sample.summand "sum:A" :=
    ⟨_, rfl, by decide +kernel, by decide +kernel⟩
  have hother : ∀ m ∈ Sample.wiredSumGraph.nodes, ¬ m.Hears .empty "sum:A" := by decide +kernel
  obtain ⟨-, s, r, hs, hr, hcut⟩ :=
    evaluate_cut hload ha .empty hn hq hkey hother 2 0 Pool.inTurn Pool.inTurn
  have hstatus : (Sample.wiredSumGraph.evaluate .empty 2 Pool.inTurn).map
      (fun s => Sample.summand.sources.map fun w => (s.get? w.producer).map Outcome.status)
        = .ok [some .ok, some .ok] := by decide +kernel
  rw [hs] at hstatus
  have hended : Sample.summand.sources.map (fun w => (s.get? w.producer).map Outcome.status)
      = [some .ok, some .ok] := Except.ok.inj hstatus
  have hok : ∀ w ∈ Sample.summand.sources, ∃ o, s.get? w.producer = some o ∧ o.status = .ok := by
    intro w hw
    have hmem := List.mem_map_of_mem (f := fun w => (s.get? w.producer).map Outcome.status) hw
    rw [hended] at hmem
    exact Option.map_eq_some_iff.1 (by simpa using hmem)
  exact ⟨hload, ha, n, hn, hq, hkey, hother, s, r, hs, hr, hok, hcut hok⟩

end TreeFlow
