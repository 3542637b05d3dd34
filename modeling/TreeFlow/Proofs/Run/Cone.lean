import TreeFlow.Proofs.Run.Compare
/-
The result of a component depends on what is upstream of it, and on nothing else.

Two runs are compared, of a graph and of a variant of it that holds other trees where something is
wired or bound to a parameter.  A component ends alike in both if the bindings give the same to the
unwired parameters of the component and of everything upstream of it, whatever becomes of the other
components: `evaluate_cone`.  The induction is along the wires; skips are no exception, since the
culprit of a component is upstream of it as well.
-/

namespace TreeFlow

/-! ## What may differ -/

/-- The same parameter, which may hold another tree if that one does not count: something is wired
to it, or bound to it in one of the runs. -/
structure InputParam.Variant (b b' : Bindings) (component : String) (p p' : InputParam) : Prop where
  rest : p' = { p with persistent := p'.persistent }
  held : p'.persistent = p.persistent ∨ p.sources ≠ [] ∨ (b.lookup? component p).isSome ∨
    (b'.lookup? component p).isSome

instance (b b' : Bindings) (component : String) (p p' : InputParam) :
    Decidable (p.Variant b b' component p') :=
  decidable_of_iff (p' = { p with persistent := p'.persistent } ∧
      (p'.persistent = p.persistent ∨ p.sources ≠ [] ∨ (b.lookup? component p).isSome ∨
        (b'.lookup? component p).isSome))
    ⟨fun h => ⟨h.1, h.2⟩, fun h => ⟨h.rest, h.held⟩⟩

/-- The bindings give the same to the unwired parameters of a component. -/
def Node.BoundAlike (n : Node) (b b' : Bindings) : Prop :=
  ∀ p ∈ n.inputs, p.sources = [] → b'.lookup? n.guid p = b.lookup? n.guid p

instance (n : Node) (b b' : Bindings) : Decidable (n.BoundAlike b b') :=
  inferInstanceAs (Decidable (∀ p ∈ n.inputs, _ → _))

namespace Graph

/-- The same graph, up to the trees that input parameters hold to no effect. -/
def Variant (b b' : Bindings) (g g' : Graph) : Prop :=
  List.Forall₂ (fun n n' : Node => n' = { n with inputs := n'.inputs } ∧
    List.Forall₂ (InputParam.Variant b b' n.guid) n.inputs n'.inputs) g.nodes g'.nodes

instance (b b' : Bindings) (g g' : Graph) : Decidable (Variant b b' g g') :=
  inferInstanceAs (Decidable (List.Forall₂ _ _ _))

/-- The bindings give the same to a component and to all that is upstream of it. -/
def ConeAlike (g : Graph) (b b' : Bindings) (c : Nat) : Prop :=
  ∀ i n, (i = c ∨ g.Upstream i c) → g.nodes[i]? = some n → n.BoundAlike b b'

end Graph

/-! ## Parameters -/

/-- Two stores hold the same results for the producers of a parameter. -/
def Store.AgreesOn (s' s : Store) (p : InputParam) : Prop :=
  ∀ w ∈ p.sources, s'.get? w.producer = s.get? w.producer

namespace InputParam.Variant

variable {b b' : Bindings} {component : String} {p p' : InputParam} {s s' : Store}

theorem refl (b b' : Bindings) (component : String) (p : InputParam) :
    p.Variant b b' component p := ⟨rfl, .inl rfl⟩

theorem sources_eq (h : p.Variant b b' component p') : p'.sources = p.sources := by rw [h.rest]

theorem slot_eq (h : p.Variant b b' component p') : p'.slot = p.slot := by rw [h.rest]

theorem adapt_eq (h : p.Variant b b' component p') : p'.adapt = p.adapt := by
  rw [h.rest]
  rfl

theorem lookup?_eq (h : p.Variant b b' component p') (b₀ : Bindings) :
    b₀.lookup? component p' = b₀.lookup? component p := by
  rw [h.rest]
  rfl

/-- A wired parameter is given the same where its producers left the same. -/
theorem source_eq_of_wired (h : p.Variant b b' component p') (hwired : p.sources ≠ [])
    (hsame : s'.AgreesOn s p) :
    s'.source component p' b' = s.source component p b := by
  have hmerged : s'.mergedSources component p' = s'.mergedSources component p := by
    rw [h.rest]
    rfl
  rw [Store.source_of_wired hwired, Store.source_of_wired (h.sources_eq ▸ hwired), hmerged]
  exact Store.mergedSources_congr hsame

/-- An unwired parameter is given the same where the same is bound to it. -/
theorem source_eq_of_unwired (h : p.Variant b b' component p') (hunwired : p.sources = [])
    (hbound : b'.lookup? component p = b.lookup? component p) :
    s'.source component p' b' = s.source component p b := by
  rw [Store.source_of_unwired hunwired, Store.source_of_unwired (h.sources_eq.trans hunwired),
    h.lookup?_eq, hbound]
  cases hlookup : b.lookup? component p with
  | some t => rfl
  | none =>
    have hlookup' : b'.lookup? component p = none := hbound.trans hlookup
    have hheld : p'.persistent = p.persistent := by
      have := h.held
      rw [hlookup, hlookup'] at this
      simpa [hunwired] using this
    rw [hheld]

theorem resolve_eq (h : p.Variant b b' component p')
    (hsame : s'.AgreesOn s p)
    (hbound : p.sources = [] → b'.lookup? component p = b.lookup? component p) :
    s'.resolve component p' b' = s.resolve component p b := by
  refine Store.resolve_eq_of_source h.adapt_eq ?_
  by_cases hunwired : p.sources = []
  · exact h.source_eq_of_unwired hunwired (hbound hunwired)
  · exact h.source_eq_of_wired hunwired hsame

end InputParam.Variant

/-! ## Components -/

namespace Graph

variable {g g' : Graph} {b b' : Bindings} {s s' : Store}

theorem ConeAlike.of_feeds {p c : Nat} (h : g.ConeAlike b b' c) (hp : g.Feeds p c) :
    g.ConeAlike b b' p := by
  intro i n hi hn
  have hup : g.Upstream i c := by
    cases hi with
    | inl heq => exact heq ▸ .single hp
    | inr hip => exact hip.tail hp
  exact h i n (.inr hup) hn

namespace Variant

theorem refl (b b' : Bindings) (g : Graph) : g.Variant b b' g :=
  List.forall₂_same.2 fun n _ => ⟨rfl, List.forall₂_same.2 fun p _ => .refl b b' n.guid p⟩

theorem parallel (h : Variant b b' g g') : g.Parallel g' := h.imp fun _ _ hn => hn.1

theorem inputs (h : Variant b b' g g') {i : Nat} {n n' : Node} (hn : g.nodes[i]? = some n)
    (hn' : g'.nodes[i]? = some n') :
    List.Forall₂ (InputParam.Variant b b' n.guid) n.inputs n'.inputs := by
  obtain ⟨hi, rfl⟩ := List.getElem?_eq_some_iff.1 hn
  obtain ⟨hi', rfl⟩ := List.getElem?_eq_some_iff.1 hn'
  exact (List.Forall₂.get h hi hi').2

theorem param (h : Variant b b' g g') {i j : Nat} {n n' : Node} {p p' : InputParam}
    (hn : g.nodes[i]? = some n) (hn' : g'.nodes[i]? = some n') (hp : n.inputs[j]? = some p)
    (hp' : n'.inputs[j]? = some p') : p.Variant b b' n.guid p' := by
  obtain ⟨hj, rfl⟩ := List.getElem?_eq_some_iff.1 hp
  obtain ⟨hj', rfl⟩ := List.getElem?_eq_some_iff.1 hp'
  exact List.Forall₂.get (h.inputs hn hn') hj hj'

theorem feeds_iff (h : Variant b b' g g') {p c : Nat} : g'.Feeds p c ↔ g.Feeds p c := by
  have hproducers : (g'.nodes[c]?).map Node.producers = (g.nodes[c]?).map Node.producers := by
    cases hn : g.nodes[c]? with
    | none =>
      have hsize : g'.nodes.length = g.nodes.length := h.parallel.size_eq
      rw [List.getElem?_eq_none_iff] at hn
      rw [List.getElem?_eq_none (by omega)]
    | some n =>
      obtain ⟨inputs, hn'⟩ := h.parallel.exists_node hn
      have hsources : inputs.map InputParam.sources = n.inputs.map InputParam.sources := by
        rw [eq_comm, ← List.forall₂_eq_eq_eq, List.forall₂_map_left_iff,
          List.forall₂_map_right_iff]
        exact (h.inputs hn hn').imp fun _ _ hp => hp.sources_eq.symm
      have hflat : ∀ l : List InputParam, l.flatMap (fun i => i.sources.map Wire.producer)
          = (l.map InputParam.sources).flatMap fun ws => ws.map Wire.producer := fun l => by
        rw [List.flatMap_map]
      rw [hn', Option.map_some, Option.map_some]
      refine congrArg some ?_
      show inputs.flatMap _ = n.inputs.flatMap _
      rw [hflat, hflat, hsources]
  have hfeeds : ∀ g₀ : Graph, g₀.feeds p c
      = ((g₀.nodes[c]?).map Node.producers).elim false (·.contains p) := by
    intro g₀
    unfold feeds
    cases g₀.nodes[c]? <;> rfl
  unfold Feeds
  rw [hfeeds g', hfeeds g, hproducers]

theorem acyclic (h : Variant b b' g g') (ha : g.Acyclic) : g'.Acyclic := fun i hi =>
  ha i (Relation.TransGen.mono (fun _ _ hpc => h.feeds_iff.1 hpc) i i hi)

/-- A component settles alike in both runs if its feeders have. -/
theorem settle_eq (h : Variant b b' g g') (hg : g.WellFormed) (hg' : g'.WellFormed) {c : Nat}
    {n : Node} (hn : g.nodes[c]? = some n)
    (hsame : ∀ p, g.Feeds p c → s'.get? p = s.get? p) (hbound : n.BoundAlike b b') :
    g'.settle b' s' c = g.settle b s c := by
  obtain ⟨inputs, hn'⟩ := h.parallel.exists_node hn
  have hculprit : g'.culprit? s' c = g.culprit? s c :=
    h.parallel.culprit?_eq hg hg' (fun p hp => h.feeds_iff.1 hp) hsame
      fun p hp hnot => absurd (h.feeds_iff.2 hp) hnot
  refine h.parallel.settle_eq hg hg' hn hn' hculprit (Store.inputsFor_eq_of_forall₂ rfl ?_)
  have hgiven : ∀ p ∈ n.inputs, s'.AgreesOn s p ∧ (p.sources = [] →
      b'.lookup? n.guid p = b.lookup? n.guid p) := fun p hp =>
    ⟨fun w hw => hsame _ (Graph.feeds_iff.2 ⟨n, hn, p, hp, w, hw, rfl⟩), hbound p hp⟩
  exact ((List.forall₂_and_left _ _).2 ⟨hgiven, h.inputs hn hn'⟩).imp fun p p' hp =>
    ⟨hp.2.slot_eq, hp.2.resolve_eq hp.1.1 hp.1.2⟩

/-- A component ends alike in both runs if the same is bound in its cone. -/
theorem get?_eq (h : Variant b b' g g') (hg : g.WellFormed) (hg' : g'.WellFormed)
    (ha : g.Acyclic) (hs : g.Settled b s) (hs' : g'.Settled b' s')
    (hfull : ∀ i < g.size, (s.get? i).isSome) (hfull' : ∀ i < g.size, (s'.get? i).isSome) (c : Nat)
    (hc : c < g.size) (halike : g.ConeAlike b b' c) : s'.get? c = s.get? c := by
  induction c using ha.wellFounded.induction with
  | h c ih =>
    have hn : g.nodes[c]? = some g.nodes[c] := List.getElem?_eq_getElem hc
    have hfeeders : ∀ p, g.Feeds p c → s'.get? p = s.get? p := fun p hp =>
      ih p hp (hg.producer_lt hp) (halike.of_feeds hp)
    obtain ⟨o, ho⟩ := Option.isSome_iff_exists.1 (hfull c hc)
    obtain ⟨o', ho'⟩ := Option.isSome_iff_exists.1 (hfull' c hc)
    have hsettle := h.settle_eq (b := b) hg hg' hn hfeeders (halike c _ (.inl rfl) hn)
    rw [hs.result c o ho, hs'.result c o' ho'] at hsettle
    rw [ho, ho', Except.ok.inj hsettle]

/-- Both runs go through, and leave the same for every component in whose cone the same is bound. -/
theorem evaluate_ok (h : Variant b b' g g') (hg : g.WellFormed) (hg' : g'.WellFormed)
    (ha : g.Acyclic) (limit limit' : Nat) (choices choices' : Nat → Nat → Nat) :
    ∃ s s', g.evaluate b limit choices = .ok s ∧ g'.evaluate b' limit' choices' = .ok s' ∧
      g.Settled b s ∧ (∀ i < g.size, (s.get? i).isSome) ∧
      ∀ c < g.size, g.ConeAlike b b' c → s'.get? c = s.get? c := by
  obtain ⟨s, order, hs, hlinear, hvisited⟩ := Graph.evaluate_ok hg ha b limit choices
  obtain ⟨s', order', hs', hlinear', hvisited'⟩ :=
    Graph.evaluate_ok hg' (h.acyclic ha) b' limit' choices'
  have hfull := hvisited.full hlinear
  have hfull' : ∀ i < g.size, (s'.get? i).isSome := fun i hi =>
    hvisited'.full hlinear' i (h.parallel.size_eq.symm ▸ hi)
  exact ⟨s, s', hs, hs', hvisited.toSettled, hfull,
    h.get?_eq hg hg' ha hvisited.toSettled hvisited'.toSettled hfull hfull'⟩

end Variant

/-- The outputs and the status of a component follow from its cone: they are the same in every run
of every variant of the graph under bindings that give the same there.  A wired parameter resolves
to what its producers leave, whatever it holds and whatever is bound to it; and where something is
bound to an unwired one, it makes no difference what it holds. -/
theorem evaluate_cone {d d' : GraphDocument} (hload : load d = .ok g) (hload' : load d' = .ok g')
    (ha : g.Acyclic) (hvariant : Variant b b' g g') (limit limit' : Nat)
    (choices choices' : Nat → Nat → Nat) :
    ∃ s s', g.evaluate b limit choices = .ok s ∧ g'.evaluate b' limit' choices' = .ok s' ∧
      (∀ c < g.size, g.ConeAlike b b' c → ∃ o, s.get? c = some o ∧ s'.get? c = some o) ∧
      ∀ (c j : Nat) (n n' : Node) (p p' : InputParam), g.nodes[c]? = some n →
        g'.nodes[c]? = some n' → n.inputs[j]? = some p → n'.inputs[j]? = some p' →
        (p.sources ≠ [] → (∀ w ∈ p.sources, g.ConeAlike b b' w.producer) →
          ∃ t, s.resolve n.guid p b = .ok t ∧ s'.resolve n'.guid p' b' = .ok t) ∧
        (p.sources = [] → ∀ t, b.lookup? n.guid p = some t → b'.lookup? n.guid p = some t →
          s.resolve n.guid p b = .ok (p.adapt t) ∧
            s'.resolve n'.guid p' b' = .ok (p.adapt t)) := by
  have hg := load_wellFormed hload
  obtain ⟨s, s', hs, hs', hsettled, hfull, hsame⟩ :=
    hvariant.evaluate_ok hg (load_wellFormed hload') ha limit limit' choices choices'
  refine ⟨s, s', hs, hs', fun c hc halike => ?_, fun c j n n' p p' hn hn' hp hp' => ⟨?_, ?_⟩⟩
  · obtain ⟨o, ho⟩ := Option.isSome_iff_exists.1 (hfull c hc)
    exact ⟨o, ho, (hsame c hc halike).trans ho⟩
  · intro hwired halike
    have hmem := List.mem_of_getElem? hn
    have hpmem := List.mem_of_getElem? hp
    have hproducer : ∀ w ∈ p.sources, w.producer < g.size := fun w hw =>
      hg.producer_lt (feeds_iff.2 ⟨n, hn, p, hpmem, w, hw, rfl⟩)
    obtain ⟨t, ht⟩ := Store.resolve_ok n.guid b fun w hw =>
      hsettled.isSome_output? hg hmem hpmem hw (hfull _ (hproducer w hw))
    have hparam := hvariant.param hn hn' hp hp'
    have hguid : n'.guid = n.guid := by rw [hvariant.parallel.rest_eq hn hn']
    refine ⟨t, ht, ?_⟩
    rw [hguid, ← ht]
    exact hparam.resolve_eq (fun w hw => hsame _ (hproducer w hw) (halike w hw))
      fun hunwired => absurd hunwired hwired
  · intro hunwired t ht ht'
    have hparam := hvariant.param hn hn' hp hp'
    have hguid : n'.guid = n.guid := by rw [hvariant.parallel.rest_eq hn hn']
    have hresolve : s.resolve n.guid p b = .ok (p.adapt t) := by
      unfold Store.resolve
      rw [Store.source_of_unwired hunwired, ht]
      rfl
    refine ⟨hresolve, ?_⟩
    rw [hguid, ← hresolve]
    refine hparam.resolve_eq (fun w hw => ?_) fun _ => ht'.trans ht.symm
    rw [hunwired] at hw
    cases hw

end Graph

/-! ## Two runs that differ elsewhere

The sum has a wired parameter and a bound one, both of which hold something to no effect.  The
component beside it fails in one of the runs. -/

namespace Sample

def twoRuns (held : Int64) : GraphDocument :=
  ⟨[⟨"five", "Data", "", .origin, [input "Data" [] (some (.list [.integer 5]))]⟩,
    ⟨"sum", "Addition", "", .origin,
      [input "A" [⟨"five", "Data"⟩] (some (.list [.integer held])),
        input "B" [] (some (.list [.integer held]))]⟩,
    ⟨"beside", "Point", "", .origin, [input "Data" [] none]⟩]⟩

def twoRunsGraph (held : Int64) : Graph :=
  match Graph.load (twoRuns held) with
  | .ok g => g
  | .error _ => default

def quiet : Bindings := Bindings.empty.bind "sum:B" (.ofItem (.integer 2))

/-- The same bindings and two more: one for the wired parameter, one for the component beside. -/
def loud : Bindings :=
  (quiet.bind "sum:A" (.ofItem (.integer 7))).bind "beside:Data" (.ofItem (.integer 1))

end Sample

theorem Graph.evaluate_cone_sample :
    load (Sample.twoRuns 3) = .ok (Sample.twoRunsGraph 3) ∧
      load (Sample.twoRuns 4) = .ok (Sample.twoRunsGraph 4) ∧ (Sample.twoRunsGraph 3).Acyclic ∧
      Variant Sample.quiet Sample.loud (Sample.twoRunsGraph 3) (Sample.twoRunsGraph 4) ∧
      (Sample.twoRunsGraph 3).ConeAlike Sample.quiet Sample.loud 1 ∧
      ∃ s s', (Sample.twoRunsGraph 3).evaluate Sample.quiet 2 Pool.inTurn = .ok s ∧
        (Sample.twoRunsGraph 4).evaluate Sample.loud 0 Pool.inTurn = .ok s' ∧
        (∃ o, s.get? 1 = some o ∧ s'.get? 1 = some o) ∧ s.get? 2 ≠ s'.get? 2 := by
  have hload : load (Sample.twoRuns 3) = .ok (Sample.twoRunsGraph 3) := rfl
  have hload' : load (Sample.twoRuns 4) = .ok (Sample.twoRunsGraph 4) := rfl
  have hforward : ∀ c < (Sample.twoRunsGraph 3).size,
      ∀ p ∈ (Sample.twoRunsGraph 3).predecessors c, p < c := by decide +kernel
  have hvariant : Variant Sample.quiet Sample.loud (Sample.twoRunsGraph 3)
      (Sample.twoRunsGraph 4) := by decide +kernel
  have hbound : ∀ n ∈ (Sample.twoRunsGraph 3).nodes.take 2,
      n.BoundAlike Sample.quiet Sample.loud := by decide +kernel
  have hg := load_wellFormed hload
  have hcone : (Sample.twoRunsGraph 3).ConeAlike Sample.quiet Sample.loud 1 := by
    intro i n hi hn
    have hlt : i < 2 := by
      cases hi with
      | inl heq => omega
      | inr hup => exact Nat.lt_succ_of_lt (hg.upstream_lt hforward hup)
    exact hbound n (List.mem_of_getElem? ((List.getElem?_take_of_lt hlt).trans hn))
  have ha := hg.acyclic hforward
  obtain ⟨s, s', hs, hs', hsame, -⟩ :=
    evaluate_cone hload hload' ha hvariant 2 0 Pool.inTurn Pool.inTurn
  refine ⟨hload, hload', ha, hvariant, hcone, s, s', hs, hs', hsame 1 (by decide) hcone, ?_⟩
  have hdiffer : ((Sample.twoRunsGraph 3).evaluate Sample.quiet 2 Pool.inTurn).map (·.get? 2)
      ≠ ((Sample.twoRunsGraph 4).evaluate Sample.loud 0 Pool.inTurn).map (·.get? 2) := by
    decide +kernel
  rw [hs, hs'] at hdiffer
  exact fun heq => hdiffer (congrArg Except.ok heq)

end TreeFlow
