import TreeFlow.Proofs.Run.Evaluate
/-
Failures reach exactly what is behind them.

A component that is skipped names a culprit.  The name is handed on along chains of skipped
components, each of which took it from its first producer that is not ok; at the other end of the
chain stands a component that failed itself (`Settled.culprit_failed`).  The other way round,
everything behind a failed component is skipped (`Settled.skipped_of_upstream`).
-/

namespace TreeFlow

/-- The run of a component failed. -/
def Store.Failed (s : Store) (i : Nat) : Prop :=
  ∃ o message, s.get? i = some o ∧ o.status = .failed message

namespace Graph

variable {g : Graph} {b : Bindings} {s : Store}

/-- Some component upstream of this one failed. -/
def Doomed (g : Graph) (s : Store) (i : Nat) : Prop := ∃ p, g.Upstream p i ∧ s.Failed p

/-- What becomes of a component: its result, given the store that a run ends with. -/
structure Ends (g : Graph) (b : Bindings) (s : Store) (i : Nat) (n : Node) (o : Outcome) :
    Prop where
  /-- It is skipped exactly if something upstream of it failed. -/
  skipped_iff : (∃ culprit, o.status = .skipped culprit) ↔ g.Doomed s i
  /-- The culprit is upstream, and failed itself. -/
  culprit : ∀ culprit, o.status = .skipped culprit →
    ∃ p m, g.Upstream p i ∧ s.Failed p ∧ g.nodes[p]? = some m ∧ m.guid = culprit
  /-- It fails only by its own run. -/
  failed : ∀ message, o.status = .failed message →
    ∃ inputs e, s.inputsFor n b = .ok inputs ∧ runComponent n.kind n.guid inputs = .error e ∧
      e.message = message
  /-- Unless it is ok, it has nothing to give. -/
  withoutItems : o.status ≠ .ok → o.outputs = List.replicate n.outputs.length .empty
  /-- With nothing failed upstream it is run. -/
  attempted : ¬ g.Doomed s i →
    ∃ inputs, s.inputsFor n b = .ok inputs ∧ o = n.attempt (runComponent n.kind n.guid inputs)

theorem attempt_status_ne_skipped {n : Node} {result : Except Failure (List Tree)}
    {culprit : String} : (n.attempt result).status ≠ .skipped culprit := by
  unfold Node.attempt
  cases result <;> simp [Outcome.withoutItems]

/-- A culprit comes from a producer that failed or was itself skipped for it. -/
theorem exists_of_culprit? {i : Nat} {culprit : String} (hg : g.WellFormed)
    (h : g.culprit? s i = some culprit) :
    ∃ p o, g.Feeds p i ∧ s.get? p = some o ∧
      ((∃ message, o.status = .failed message ∧ ∃ m, g.nodes[p]? = some m ∧ m.guid = culprit) ∨
        o.status = .skipped culprit) := by
  obtain ⟨p, hp, hstatus⟩ := List.exists_of_findSome?_eq_some h
  have hfeeds := hg.mem_predecessors.1 hp
  cases ho : s.get? p with
  | none => simp [ho] at hstatus
  | some o =>
    refine ⟨p, o, hfeeds, ho, ?_⟩
    cases hend : o.status with
    | ok => simp [ho, hend] at hstatus
    | failed message => simp_all
    | skipped culprit' => simp_all

/-- At the end of every chain of skips stands a component that failed. -/
theorem Settled.culprit_failed (hs : g.Settled b s) (hg : g.WellFormed) (ha : g.Acyclic) (i : Nat)
    {o : Outcome} {culprit : String} (ho : s.get? i = some o)
    (hskipped : o.status = .skipped culprit) :
    ∃ p m, g.Upstream p i ∧ s.Failed p ∧ g.nodes[p]? = some m ∧ m.guid = culprit := by
  induction i using ha.wellFounded.induction generalizing o with
  | h i ih =>
    obtain ⟨n, -, hcase⟩ := (settle_eq_ok_iff hg).1 (hs.result i o ho)
    rcases hcase with ⟨culprit', hc, rfl⟩ | ⟨-, inputs, -, rfl⟩
    · obtain rfl : culprit' = culprit := by simpa [Outcome.withoutItems] using hskipped
      obtain ⟨p, o', hp, ho', hend⟩ := exists_of_culprit? hg hc
      rcases hend with ⟨message, hfailed, m, hm, hguid⟩ | hskipped'
      · exact ⟨p, m, .single hp, ⟨o', message, ho', hfailed⟩, hm, hguid⟩
      · obtain ⟨q, m, hq, hfailed, hm, hguid⟩ := ih p hp ho' hskipped'
        exact ⟨q, m, hq.tail hp, hfailed, hm, hguid⟩
    · exact absurd hskipped attempt_status_ne_skipped

/-- A component behind one that is not ok is skipped. -/
theorem Settled.skipped_of_feeds (hs : g.Settled b s) (hg : g.WellFormed) {p i : Nat}
    {o o' : Outcome} (hp : g.Feeds p i) (ho' : s.get? p = some o') (hbad : o'.status ≠ .ok)
    (ho : s.get? i = some o) : ∃ culprit, o.status = .skipped culprit := by
  have hblocked : g.blocked s i = true := by
    refine List.any_eq_true.2 ⟨p, hg.mem_predecessors.2 hp, ?_⟩
    cases hend : o'.status <;> simp_all [Status.isOk]
  obtain ⟨n, -, hcase⟩ := (settle_eq_ok_iff hg).1 (hs.result i o ho)
  rcases hcase with ⟨culprit, -, rfl⟩ | ⟨hnone, -⟩
  · exact ⟨culprit, rfl⟩
  · rw [← isSome_culprit? hg, hnone] at hblocked
    cases hblocked

/-- Everything behind a failed component is skipped, however far behind. -/
theorem Settled.skipped_of_upstream (hs : g.Settled b s) (hg : g.WellFormed) {p i : Nat}
    (hp : g.Upstream p i) (hfailed : s.Failed p) {o : Outcome} (ho : s.get? i = some o) :
    ∃ culprit, o.status = .skipped culprit := by
  induction hp generalizing o with
  | single hpi =>
    obtain ⟨o', message, ho', hend⟩ := hfailed
    exact hs.skipped_of_feeds hg hpi ho' (by simp [hend]) ho
  | tail hpq hqi ih =>
    obtain ⟨o', ho'⟩ := Option.isSome_iff_exists.1 (hs.fed _ o ho _ hqi)
    obtain ⟨culprit, hend⟩ := ih ho'
    exact hs.skipped_of_feeds hg hqi ho' (by simp [hend]) ho

theorem Settled.ends (hs : g.Settled b s) (hg : g.WellFormed) (ha : g.Acyclic) {i : Nat} {n : Node}
    (hn : g.nodes[i]? = some n) {o : Outcome} (ho : s.get? i = some o) : g.Ends b s i n o := by
  have hculprit : ∀ culprit, o.status = .skipped culprit →
      ∃ p m, g.Upstream p i ∧ s.Failed p ∧ g.nodes[p]? = some m ∧ m.guid = culprit :=
    fun _ => hs.culprit_failed hg ha i ho
  have hskipped : (∃ culprit, o.status = .skipped culprit) ↔ g.Doomed s i := by
    constructor
    · rintro ⟨culprit, hend⟩
      obtain ⟨p, -, hp, hfailed, -⟩ := hculprit culprit hend
      exact ⟨p, hp, hfailed⟩
    · rintro ⟨p, hp, hfailed⟩
      exact hs.skipped_of_upstream hg hp hfailed ho
  obtain ⟨n', hn', hcase⟩ := (settle_eq_ok_iff hg).1 (hs.result i o ho)
  obtain rfl : n = n' := Option.some.inj (hn.symm.trans hn')
  rcases hcase with ⟨culprit, -, rfl⟩ | ⟨-, inputs, hinputs, rfl⟩
  · exact ⟨hskipped, hculprit, nofun, fun _ => rfl, fun h => absurd (hskipped.1 ⟨_, rfl⟩) h⟩
  · refine ⟨hskipped, hculprit, ?_, ?_, fun _ => ⟨inputs, hinputs, rfl⟩⟩
    · intro message hend
      cases hrun : runComponent n.kind n.guid inputs with
      | ok trees => simp [Node.attempt, hrun] at hend
      | error e =>
        refine ⟨inputs, e, hinputs, hrun, ?_⟩
        simpa [Node.attempt, hrun, Outcome.withoutItems] using hend
    · intro hbad
      cases hrun : runComponent n.kind n.guid inputs with
      | ok trees => simp [Node.attempt, hrun] at hbad
      | error e => rfl

/-- In every run of a graph without cycles each component ends as `Ends` says. -/
theorem evaluate_ends {d : GraphDocument} (hload : load d = .ok g) (ha : g.Acyclic) (b : Bindings)
    (limit : Nat) (choices : Nat → Nat → Nat) :
    ∃ s, g.evaluate b limit choices = .ok s ∧
      ∀ i n, g.nodes[i]? = some n → ∃ o, s.get? i = some o ∧ g.Ends b s i n o := by
  have hg := load_wellFormed hload
  obtain ⟨s, order, hs, hlinear, hvisited⟩ := evaluate_ok hg ha b limit choices
  refine ⟨s, hs, fun i n hn => ?_⟩
  have hi : i < g.size := (List.getElem?_eq_some_iff.1 hn).1
  obtain ⟨o, ho⟩ := Option.isSome_iff_exists.1 (hvisited.full hlinear i hi)
  exact ⟨o, ho, hvisited.ends hg ha hn ho⟩

theorem evaluate_ends_sample :
    load Sample.document = .ok Sample.graph ∧ Sample.graph.Acyclic ∧
      ∃ s, Sample.graph.evaluate .empty 2 Pool.inTurn = .ok s ∧
        ∀ i n, Sample.graph.nodes[i]? = some n →
          ∃ o, s.get? i = some o ∧ Sample.graph.Ends .empty s i n o :=
  ⟨Sample.load_document, Sample.graph_acyclic,
    evaluate_ends Sample.load_document Sample.graph_acyclic .empty 2 Pool.inTurn⟩

end Graph
end TreeFlow
