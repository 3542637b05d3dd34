import TreeFlow.Proofs.Graph.Reorder
import TreeFlow.Proofs.Report
import TreeFlow.Proofs.Run.Cycles
/-
Runs do not depend on the order of components.

A graph and the same graph renumbered settle alike: by induction along the wires, a component is
given the same inputs in both, and is skipped in both or in neither.  The one thing that does
depend on the order is which of several failed components a skipped one is skipped for, as this is
the first of them.  Since a document in another order loads as the same graph renumbered, its run
ends with the same report up to the culprits that it names: `run_perm`.
-/

namespace TreeFlow

/-! ## Agreement -/

/-- Components end alike if they end in the same state, failed ones with the same text. -/
inductive Status.Agrees : Status → Status → Prop
  | ok : Agrees .ok .ok
  | failed (error : String) : Agrees (.failed error) (.failed error)
  | skipped (culprit culprit' : String) : Agrees (.skipped culprit) (.skipped culprit')

structure Outcome.Agrees (o o' : Outcome) : Prop where
  outputs : o.outputs = o'.outputs
  status : o.status.Agrees o'.status

structure Report.Entry.Agrees (e e' : Report.Entry) : Prop where
  info : e.info = e'.info
  outputs : e.outputs = e'.outputs
  status : e.status.Agrees e'.status

structure Report.Agrees (r r' : Report) : Prop where
  guids : r.entries.keys = r'.entries.keys
  entries : ∀ guid e e', r.entries.get? guid = some e → r'.entries.get? guid = some e' →
    e.Agrees e'

theorem Status.Agrees.isOk_eq {t t' : Status} (h : t.Agrees t') : t.isOk = t'.isOk := by
  cases h <;> rfl

theorem Status.Agrees.refl (t : Status) : t.Agrees t := by
  cases t with
  | ok => exact .ok
  | failed error => exact .failed error
  | skipped culprit => exact .skipped culprit culprit

/-! ## Inputs -/

namespace Store

variable {s s' : Store} {f : Nat → Nat}

theorem resolve_renumber {component : String} {p : InputParam} (b : Bindings)
    (h : ∀ w ∈ p.sources, s'.output? (w.renumber f) = s.output? w) :
    s'.resolve component (p.renumber f) b = s.resolve component p b := by
  have hmerged : s'.mergedSources component (p.renumber f) = s.mergedSources component p := by
    unfold mergedSources InputParam.renumber
    rw [List.foldlM_map]
    exact Except.foldlM_congr (fun w hw merged => by rw [h w hw]) _
  have hempty : (p.renumber f).sources.isEmpty = p.sources.isEmpty := by
    simp [InputParam.renumber]
  unfold resolve source
  rw [hmerged, hempty]
  rfl

/-- Inputs are the same where their wires lead to the same trees. -/
theorem inputsFor_renumber {n : Node} (b : Bindings)
    (h : ∀ p ∈ n.inputs, ∀ w ∈ p.sources, s'.output? (w.renumber f) = s.output? w) :
    s'.inputsFor (n.renumber f) b = s.inputsFor n b := by
  have hinputs : (n.renumber f).inputs = n.inputs.map (InputParam.renumber f) := rfl
  unfold inputsFor
  rw [hinputs, List.foldlM_map]
  refine Except.foldlM_congr (fun p hp trees => ?_) _
  have hslot : (p.renumber f).slot = p.slot := rfl
  have hsame : s'.resolve (n.renumber f).guid (p.renumber f) b = s.resolve n.guid p b :=
    resolve_renumber b (h p hp)
  rw [hslot, hsame]

end Store

namespace Graph

variable {g g' : Graph} {b : Bindings} {s s' : Store} {f : Nat → Nat}

theorem blocked_iff (hg : g.WellFormed) {i : Nat} :
    g.blocked s i = true ↔ ∃ p o, g.Feeds p i ∧ s.get? p = some o ∧ o.status.isOk = false := by
  unfold blocked
  rw [List.any_eq_true]
  refine exists_congr fun p => ?_
  rw [hg.mem_predecessors, Option.any_eq_true]
  simp

/-- What feeds a component has agreeing results in both stores. -/
def AgreeBehind (f : Nat → Nat) (g : Graph) (s s' : Store) (i : Nat) : Prop :=
  ∀ p, g.Feeds p i → ∃ o o', s.get? p = some o ∧ s'.get? (f p) = some o' ∧ o.Agrees o'

theorem Renumbers.blocked_eq (h : Renumbers f g g') (hg : g.WellFormed) (hg' : g'.WellFormed)
    {i : Nat} (hi : i < g.size) (hbehind : AgreeBehind f g s s' i) :
    g'.blocked s' (f i) = g.blocked s i := by
  rw [Bool.eq_iff_iff, blocked_iff hg, blocked_iff hg']
  constructor
  · rintro ⟨q, o', hq, ho', hbad⟩
    obtain ⟨p, hp, rfl⟩ := (h.feeds_iff hi).1 hq
    obtain ⟨o, o₁, ho, ho₁, hagrees⟩ := hbehind p hp
    obtain rfl := Option.some.inj (ho'.symm.trans ho₁)
    exact ⟨p, o, hp, ho, hagrees.status.isOk_eq.trans hbad⟩
  · rintro ⟨p, o, hp, ho, hbad⟩
    obtain ⟨o₁, o', ho₁, ho', hagrees⟩ := hbehind p hp
    obtain rfl := Option.some.inj (ho.symm.trans ho₁)
    exact ⟨f p, o', (h.feeds_iff hi).2 ⟨p, hp, rfl⟩, ho', hagrees.status.isOk_eq.symm.trans hbad⟩

theorem inputsFor_eq_of_agreeBehind {i : Nat} {n : Node} (hn : g.nodes[i]? = some n)
    (hbehind : AgreeBehind f g s s' i) :
    s'.inputsFor (n.renumber f) b = s.inputsFor n b := by
  refine Store.inputsFor_renumber b fun p hp w hw => ?_
  obtain ⟨o, o', ho, ho', hagrees⟩ :=
    hbehind w.producer (Graph.feeds_iff.2 ⟨n, hn, p, hp, w, hw, rfl⟩)
  show (s'.get? (f w.producer)).bind _ = (s.get? w.producer).bind _
  rw [ho, ho', Option.bind_some, Option.bind_some, hagrees.outputs]
  rfl

/-- A component and its counterpart settle alike if what feeds them has. -/
theorem Renumbers.settle_agrees (h : Renumbers f g g') (hg : g.WellFormed) (hg' : g'.WellFormed)
    {i : Nat} (hi : i < g.size) (hbehind : AgreeBehind f g s s' i) {o o' : Outcome}
    (ho : g.settle b s i = .ok o) (ho' : g'.settle b s' (f i) = .ok o') : o.Agrees o' := by
  have hblocked := h.blocked_eq hg hg' hi hbehind
  rw [← isSome_culprit? hg, ← isSome_culprit? hg'] at hblocked
  obtain ⟨n, hn, hends⟩ := (settle_eq_ok_iff hg).1 ho
  obtain ⟨n', hn', hends'⟩ := (settle_eq_ok_iff hg').1 ho'
  obtain rfl := Option.some.inj ((h i n hn).symm.trans hn')
  have hinputs : s'.inputsFor (n.renumber f) b = s.inputsFor n b :=
    inputsFor_eq_of_agreeBehind hn hbehind
  rcases hends with ⟨culprit, hc, rfl⟩ | ⟨hc, inputs, hin, rfl⟩
  · rcases hends' with ⟨culprit', hc', rfl⟩ | ⟨hc', -⟩
    · exact ⟨rfl, .skipped culprit culprit'⟩
    · rw [hc, hc'] at hblocked
      cases hblocked
  · rcases hends' with ⟨culprit', hc', -⟩ | ⟨hc', inputs', hin', rfl⟩
    · rw [hc, hc'] at hblocked
      cases hblocked
    · rw [hinputs, hin] at hin'
      obtain rfl := Except.ok.inj hin'
      exact ⟨rfl, .refl _⟩

/-- Settled stores of a graph and of the same graph renumbered agree on what both hold. -/
theorem Renumbers.agrees_of_settled (h : Renumbers f g g') (hg : g.WellFormed)
    (hg' : g'.WellFormed) (ha : g.Acyclic) (hs : g.Settled b s) (hs' : g'.Settled b s') (i : Nat)
    {o o' : Outcome} (ho : s.get? i = some o) (ho' : s'.get? (f i) = some o') : o.Agrees o' := by
  -- Along the wires: the results that a component follows from are in both stores.
  induction i using ha.wellFounded.induction generalizing o o' with
  | h i ih =>
    have hsettle := hs.result i o ho
    obtain ⟨n, hn, -⟩ := (settle_eq_ok_iff hg).1 hsettle
    have hi : i < g.size := (List.getElem?_eq_some_iff.1 hn).1
    refine h.settle_agrees hg hg' hi (fun p hp => ?_) hsettle (hs'.result (f i) o' ho')
    have hp' : g'.Feeds (f p) (f i) := (h.feeds_iff hi).2 ⟨p, hp, rfl⟩
    obtain ⟨q, hq⟩ := Option.isSome_iff_exists.1 (hs.fed i o ho p hp)
    obtain ⟨q', hq'⟩ := Option.isSome_iff_exists.1 (hs'.fed (f i) o' ho' (f p) hp')
    exact ⟨q, q', hq, hq', ih p hp hq hq'⟩

/-! ## Reports -/

theorem run_eq_error (hg : g.WellFormed) (hcyclic : ¬ g.Acyclic) (b : Bindings) (limit : Nat)
    (choices : Nat → Nat → Nat) :
    ∃ guids, g.run b limit choices = .error (.cyclicGraph guids) := by
  obtain ⟨guids, -, hlayers⟩ := layers_eq_error hg hcyclic
  refine ⟨guids, ?_⟩
  unfold run evaluate
  rw [hlayers]
  rfl

/-- Without cycles a graph and the same graph renumbered are reported alike. -/
theorem Renumbers.run_agrees (h : Renumbers f g g') (hg : g.WellFormed) (hg' : g'.WellFormed)
    (hguids : (g.nodes.map Node.guid).Perm (g'.nodes.map Node.guid)) (ha : g.Acyclic)
    (ha' : g'.Acyclic) (b : Bindings) (limit limit' : Nat) (choices choices' : Nat → Nat → Nat) :
    ∃ r r', g.run b limit choices = .ok r ∧ g'.run b limit' choices' = .ok r' ∧ r.Agrees r' := by
  obtain ⟨s, order, r, -, hr, -, hs, hkeys, hentries⟩ := run_visited hg ha b limit choices
  obtain ⟨s', order', r', -, hr', -, hs', hkeys', hentries'⟩ :=
    run_visited hg' ha' b limit' choices'
  refine ⟨r, r', hr, hr', ?_, fun guid e e' he he' => ?_⟩
  · refine SortedMap.eq_of_ascending r.entries.keys_ascending r'.entries.keys_ascending fun k => ?_
    exact ((hkeys.trans hguids).trans hkeys'.symm).mem_iff
  · have hguid : guid ∈ g.nodes.map Node.guid := by
      rw [← hkeys.mem_iff, SortedMap.mem_keys_iff_isSome, he]
      rfl
    obtain ⟨n, hn, rfl⟩ := List.mem_map.1 hguid
    obtain ⟨i, hi⟩ := List.mem_iff_getElem?.1 hn
    obtain ⟨o, ho, hentry⟩ := hentries i n hi
    obtain ⟨o', ho', hentry'⟩ := hentries' (f i) (n.renumber f) (h i n hi)
    obtain rfl := Option.some.inj (he.symm.trans hentry)
    obtain rfl := Option.some.inj (he'.symm.trans hentry')
    have hagrees := h.agrees_of_settled hg hg' ha hs.toSettled hs'.toSettled i ho ho'
    refine ⟨rfl, ?_, hagrees.status⟩
    unfold Report.Entry.ofOutcome
    rw [hagrees.outputs]
    rfl

/-- A document loads in every order of its components or in none, and its runs fail because of a
cycle in every order or in none; otherwise they report the same up to the culprits named. -/
theorem run_perm {d d' : GraphDocument} (hperm : d.components.Perm d'.components) (b : Bindings)
    (limit limit' : Nat) (choices choices' : Nat → Nat → Nat) :
    ((∃ g, load d = .ok g) ↔ ∃ g', load d' = .ok g') ∧
      ∀ g g', load d = .ok g → load d' = .ok g' →
        ((∃ guids, g.run b limit choices = .error (.cyclicGraph guids)) ∧
          ∃ guids, g'.run b limit' choices' = .error (.cyclicGraph guids)) ∨
        ∃ r r', g.run b limit choices = .ok r ∧ g'.run b limit' choices' = .ok r' ∧
          r.Agrees r' := by
  refine ⟨⟨exists_load_of_perm hperm, exists_load_of_perm hperm.symm⟩, fun g g' h h' => ?_⟩
  have hg := load_wellFormed h
  have hg' := load_wellFormed h'
  have hforth := renumbers_of_perm hperm h h'
  have hback := renumbers_of_perm hperm.symm h' h
  by_cases ha : g.Acyclic
  · right
    have hguids : (g.nodes.map Node.guid).Perm (g'.nodes.map Node.guid) := by
      rw [guids_of_load h, guids_of_load h']
      exact hperm.map _
    exact hforth.run_agrees hg hg' hguids ha (hback.acyclic ha) b limit limit' choices choices'
  · left
    have ha' : ¬ g'.Acyclic := fun ha' => ha (hforth.acyclic ha')
    exact ⟨run_eq_error hg ha b limit choices, run_eq_error hg' ha' b limit' choices'⟩

end Graph

/-- Two components that fail, and one behind both of them. -/
def Sample.rivals : GraphDocument :=
  ⟨[⟨"left", "Point", "", .origin, [input "Data" [] (some (.list [.integer 1]))]⟩,
    ⟨"right", "Point", "", .origin, [input "Data" [] (some (.list [.integer 1]))]⟩,
    ⟨"both", "Data", "", .origin,
      [input "Data" [⟨"left", "Data"⟩, ⟨"right", "Data"⟩] none]⟩]⟩

/-- The culprit that is named does depend on the order. -/
theorem Graph.run_perm_sample :
    Sample.rivals.components.Perm Sample.rivals.components.reverse ∧
      ∃ g g' r r', load Sample.rivals = .ok g ∧ load ⟨Sample.rivals.components.reverse⟩ = .ok g' ∧
        g.run .empty 0 Pool.inTurn = .ok r ∧ g'.run .empty 0 Pool.inTurn = .ok r' ∧
        (r.entries.get? "both").map Report.Entry.status = some (.skipped "left") ∧
        (r'.entries.get? "both").map Report.Entry.status = some (.skipped "right") ∧
        r.Agrees r' := by
  have hperm := (List.reverse_perm Sample.rivals.components).symm
  obtain ⟨g, r, hg, hr, hleft⟩ : ∃ g r, load Sample.rivals = .ok g ∧
      g.run .empty 0 Pool.inTurn = .ok r ∧
      (r.entries.get? "both").map Report.Entry.status = some (.skipped "left") :=
    ⟨_, _, rfl, rfl, rfl⟩
  obtain ⟨g', r', hg', hr', hright⟩ : ∃ g' r',
      load ⟨Sample.rivals.components.reverse⟩ = .ok g' ∧ g'.run .empty 0 Pool.inTurn = .ok r' ∧
      (r'.entries.get? "both").map Report.Entry.status = some (.skipped "right") :=
    ⟨_, _, rfl, rfl, rfl⟩
  obtain ⟨-, hends⟩ := run_perm hperm .empty 0 0 Pool.inTurn Pool.inTurn
  refine ⟨hperm, g, g', r, r', hg, hg', hr, hr', hleft, hright, ?_⟩
  rcases hends g g' hg hg' with ⟨⟨guids, hfails⟩, -⟩ | ⟨t, t', ht, ht', hagrees⟩
  · rw [hr] at hfails
    cases hfails
  · obtain rfl := Except.ok.inj (hr.symm.trans ht)
    obtain rfl := Except.ok.inj (hr'.symm.trans ht')
    exact hagrees

end TreeFlow
