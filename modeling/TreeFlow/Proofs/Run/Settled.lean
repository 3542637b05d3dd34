import TreeFlow.Proofs.Graph.Wiring
import TreeFlow.Proofs.Run.Store
/-
What every result in a store should be.

The result of a component follows from the results of the components that feed it (`settle`), and
a store is settled if each result in it follows from the others in this way.  Settled stores are
made by writing results that follow from what is there (`Settled.write`), in whatever order; and in
an acyclic graph two settled stores agree wherever both hold a result (`Settled.unique`).  So for a
run it is enough to show that its store is settled and full.
-/

namespace TreeFlow

/-- The tree of an output parameter, given those of the declared outputs: the one that it carries,
with its mapping applied. -/
def OutputParam.carried (o : OutputParam) (trees : List Tree) : Tree :=
  match o.slot with
  | none => .empty
  | some slot =>
    match trees[slot]? with
    | some t => o.mapping.apply t
    | none => .empty

/-- The result of a component whose run ended in `result`. -/
def Node.attempt (n : Node) (result : Except Failure (List Tree)) : Outcome :=
  match result with
  | .ok trees => ⟨n.outputs.map fun o => o.carried trees, .ok⟩
  | .error e => .withoutItems n.outputs.length (.failed e.message)

theorem Node.mapOutputs_eq (n : Node) (trees : List Tree) :
    n.mapOutputs trees = n.outputs.map fun o => o.carried trees := by
  refine List.map_congr_left fun o _ => ?_
  unfold OutputParam.carried
  cases o.slot with
  | none => rfl
  | some slot =>
    dsimp only [Option.bind_some]
    cases trees[slot]? <;> rfl

namespace Graph

variable {g : Graph} {b : Bindings} {s t : Store}

/-- Whether some component that feeds this one is recorded as not ok. -/
def blocked (g : Graph) (s : Store) (i : Nat) : Bool :=
  (g.predecessors i).any fun p => (s.get? p).any fun o => !o.status.isOk

/-- The result of a component, given a store with the results of all that feed it: a blocked
component is skipped, and any other is run on its inputs. -/
def settle (g : Graph) (b : Bindings) (s : Store) (i : Nat) : Except Failure Outcome := do
  let n ← g.node i
  if g.blocked s i then
    return .withoutItems n.outputs.length (.skipped ((g.culprit? s i).getD ""))
  else
    let inputs ← (s.inputsFor n b).mapError .internal
    return n.attempt (runComponent n.kind n.guid inputs)

/-- A store each result of which follows from the results of what feeds it. -/
structure Settled (g : Graph) (b : Bindings) (s : Store) : Prop where
  size : s.slots.length = g.size
  fed : ∀ i o, s.get? i = some o → ∀ p, g.Feeds p i → (s.get? p).isSome
  result : ∀ i o, s.get? i = some o → g.settle b s i = .ok o

/-! ## One component -/

theorem node_eq_ok_iff {i : Nat} {n : Node} : g.node i = .ok n ↔ g.nodes[i]? = some n := by
  unfold node
  cases g.nodes[i]? <;> simp

/-- A culprit is named exactly for blocked components. -/
theorem isSome_culprit? (hg : g.WellFormed) (s : Store) (i : Nat) :
    (g.culprit? s i).isSome = g.blocked s i := by
  rw [Bool.eq_iff_iff, culprit?, blocked, List.findSome?_isSome_iff, List.any_eq_true]
  refine exists_congr fun p => and_congr_right fun hp => ?_
  have hlt : p < g.nodes.length := hg.producer_lt (hg.mem_predecessors.1 hp)
  cases hget : s.get? p with
  | none => simp
  | some o => cases hstatus : o.status <;> simp [hstatus, Status.isOk, hlt]

theorem culprit?_congr {i : Nat} (h : ∀ p ∈ g.predecessors i, s.get? p = t.get? p) :
    g.culprit? s i = g.culprit? t i := by
  unfold culprit?
  rw [← List.head?_filterMap, ← List.head?_filterMap]
  refine congrArg List.head? (List.filterMap_congr fun p hp => ?_)
  rw [h p hp]

theorem Feeds.of_mem_producers {i p : Nat} {n : Node} (hn : g.nodes[i]? = some n)
    (hp : p ∈ n.producers) : g.Feeds p i := by
  unfold Feeds feeds
  simpa [hn] using hp

/-- The result of a component follows from the results of what feeds it. -/
theorem settle_congr (hg : g.WellFormed) {i : Nat}
    (h : ∀ p, g.Feeds p i → s.get? p = t.get? p) : g.settle b s i = g.settle b t i := by
  have hpred : ∀ p ∈ g.predecessors i, s.get? p = t.get? p := fun p hp =>
    h p (hg.mem_predecessors.1 hp)
  have hculprit : g.culprit? s i = g.culprit? t i := culprit?_congr hpred
  have hblocked : g.blocked s i = g.blocked t i := by
    rw [← isSome_culprit? hg, ← isSome_culprit? hg, hculprit]
  unfold settle
  cases hn : g.node i with
  | error e => rfl
  | ok n =>
    have hinputs : s.inputsFor n b = t.inputsFor n b :=
      Store.inputsFor_congr b fun p hp => h p (.of_mem_producers (node_eq_ok_iff.1 hn) hp)
    simp only [Except.ok_bind, hblocked, hculprit, hinputs]

/-- What a settled component is: skipped behind a component that is not ok, or else run. -/
theorem settle_eq_ok_iff (hg : g.WellFormed) {i : Nat} {o : Outcome} :
    g.settle b s i = .ok o ↔ ∃ n, g.nodes[i]? = some n ∧
      ((∃ culprit, g.culprit? s i = some culprit ∧
          o = .withoutItems n.outputs.length (.skipped culprit)) ∨
        (g.culprit? s i = none ∧ ∃ inputs, s.inputsFor n b = .ok inputs ∧
          o = n.attempt (runComponent n.kind n.guid inputs))) := by
  unfold settle
  rw [Except.bind_eq_ok_iff]
  refine exists_congr fun n => ?_
  rw [node_eq_ok_iff, ← isSome_culprit? hg]
  refine and_congr_right fun _ => ?_
  cases hc : g.culprit? s i with
  | some culprit =>
    simp only [Option.isSome_some, if_true, Option.getD_some]
    show Except.ok _ = Except.ok o ↔ _
    simp [eq_comm]
  | none =>
    simp only [Option.isSome_none, Bool.false_eq_true, if_false, Except.bind_eq_ok_iff,
      Except.mapError_eq_ok_iff]
    simp [pure, Except.pure, eq_comm]

theorem length_of_settle (hg : g.WellFormed) {i : Nat} {o : Outcome} {n : Node}
    (h : g.settle b s i = .ok o) (hn : g.nodes[i]? = some n) :
    o.outputs.length = n.outputs.length := by
  obtain ⟨n', hn', h⟩ := (settle_eq_ok_iff hg).1 h
  obtain rfl : n = n' := Option.some.inj (hn.symm.trans hn')
  rcases h with ⟨culprit, -, rfl⟩ | ⟨-, inputs, -, rfl⟩
  · simp [Outcome.withoutItems]
  · unfold Node.attempt
    cases runComponent n.kind n.guid inputs with
    | ok trees => simp
    | error e => simp [Outcome.withoutItems]

/-! ## Settled stores -/

theorem Settled.start (g : Graph) (b : Bindings) : g.Settled b (Store.ofSize g.size) where
  size := List.length_replicate
  fed := by simp
  result := by simp

/-- A wire that starts at a recorded component reads a tree. -/
theorem Settled.isSome_output? (hs : g.Settled b s) (hg : g.WellFormed) {n : Node}
    (hn : n ∈ g.nodes) {p : InputParam} (hp : p ∈ n.inputs) {w : Wire} (hw : w ∈ p.sources)
    (hrecorded : (s.get? w.producer).isSome) : (s.output? w).isSome := by
  obtain ⟨o, ho⟩ := Option.isSome_iff_exists.1 hrecorded
  obtain ⟨m, hm, hlt⟩ := hg.wires n hn p hp w hw
  have hlength := length_of_settle hg (hs.result _ o ho) hm
  simp [Store.output?, ho, hlength, hlt]

/-- Behind recorded components a component settles. -/
theorem Settled.settle_ok (hs : g.Settled b s) (hg : g.WellFormed) {i : Nat} (hi : i < g.size)
    (hfed : ∀ p, g.Feeds p i → (s.get? p).isSome) : ∃ o, g.settle b s i = .ok o := by
  have hn : g.nodes[i]? = some g.nodes[i] := List.getElem?_eq_getElem hi
  have houtputs : ∀ p ∈ g.nodes[i].inputs, ∀ w ∈ p.sources, (s.output? w).isSome := by
    intro p hp w hw
    have hfeeds : g.Feeds w.producer i := feeds_iff.2 ⟨_, hn, p, hp, w, hw, rfl⟩
    exact hs.isSome_output? hg (List.getElem_mem hi) hp hw (hfed _ hfeeds)
  cases hc : g.culprit? s i with
  | some culprit => exact ⟨_, (settle_eq_ok_iff hg).2 ⟨_, hn, .inl ⟨culprit, hc, rfl⟩⟩⟩
  | none =>
    obtain ⟨inputs, hinputs⟩ := Store.inputsFor_ok b houtputs
    exact ⟨_, (settle_eq_ok_iff hg).2 ⟨_, hn, .inr ⟨hc, inputs, hinputs, rfl⟩⟩⟩

/-- A result that is recorded stays when an empty slot is written. -/
theorem get?_write_of_isSome {i : Nat} (hi : i < s.slots.length) (hempty : s.get? i = none)
    (o : Outcome) {p : Nat} (hp : (s.get? p).isSome) : (s.write i o).get? p = s.get? p := by
  have hne : p ≠ i := by
    rintro rfl
    rw [hempty] at hp
    cases hp
  rw [Store.get?_write hi, if_neg hne]

/-- Writing a result that follows from the store keeps it settled. -/
theorem Settled.write (hs : g.Settled b s) (hg : g.WellFormed) {i : Nat} (hi : i < g.size)
    (hempty : s.get? i = none) (hfed : ∀ p, g.Feeds p i → (s.get? p).isSome) {o : Outcome}
    (ho : g.settle b s i = .ok o) : g.Settled b (s.write i o) := by
  have hslot : i < s.slots.length := hs.size ▸ hi
  have hkeep : ∀ p, (s.get? p).isSome → (s.write i o).get? p = s.get? p := fun p =>
    get?_write_of_isSome hslot hempty o
  have hcases : ∀ j o', (s.write i o).get? j = some o' →
      g.settle b s j = .ok o' ∧ ∀ p, g.Feeds p j → (s.get? p).isSome := by
    intro j o' hj
    rw [Store.get?_write hslot] at hj
    by_cases hji : j = i
    · rw [if_pos hji] at hj
      obtain rfl := Option.some.inj hj
      exact hji ▸ ⟨ho, hfed⟩
    · rw [if_neg hji] at hj
      exact ⟨hs.result j o' hj, hs.fed j o' hj⟩
  constructor
  · rw [Store.size_write, hs.size]
  · intro j o' hj p hp
    have hrecorded := (hcases j o' hj).2 p hp
    rw [hkeep p hrecorded]
    exact hrecorded
  · intro j o' hj
    obtain ⟨hsettle, hrecorded⟩ := hcases j o' hj
    rw [← hsettle]
    exact settle_congr hg fun p hp => hkeep p (hrecorded p hp)

/-- Settled stores agree on what both hold. -/
theorem Settled.unique (hs : g.Settled b s) (ht : g.Settled b t) (hg : g.WellFormed)
    (ha : g.Acyclic) (i : Nat) {o o' : Outcome} (ho : s.get? i = some o)
    (ho' : t.get? i = some o') : o = o' := by
  induction i using ha.wellFounded.induction generalizing o o' with
  | h i ih =>
    have hfeeders : ∀ p, g.Feeds p i → s.get? p = t.get? p := by
      intro p hp
      obtain ⟨q, hq⟩ := Option.isSome_iff_exists.1 (hs.fed i o ho p hp)
      obtain ⟨q', hq'⟩ := Option.isSome_iff_exists.1 (ht.fed i o' ho' p hp)
      rw [hq, hq', ih p hp hq hq']
    have hsame := settle_congr (b := b) hg hfeeders
    rw [hs.result i o ho, ht.result i o' ho'] at hsame
    exact Except.ok.inj hsame

theorem Settled.eq_of_full (hs : g.Settled b s) (ht : g.Settled b t) (hg : g.WellFormed)
    (ha : g.Acyclic) (hsfull : ∀ i < g.size, (s.get? i).isSome)
    (htfull : ∀ i < g.size, (t.get? i).isSome) : s = t := by
  refine Store.ext_get? (hs.size.trans ht.size.symm) fun i => ?_
  rcases Nat.lt_or_ge i g.size with hi | hi
  · obtain ⟨o, ho⟩ := Option.isSome_iff_exists.1 (hsfull i hi)
    obtain ⟨o', ho'⟩ := Option.isSome_iff_exists.1 (htfull i hi)
    rw [ho, ho', hs.unique ht hg ha i ho ho']
  · have outside : ∀ u : Store, u.slots.length = g.size → u.get? i = none := by
      intro u hu
      simp [Store.get?, List.getElem?_eq_none (hu.le.trans hi)]
    rw [outside s hs.size, outside t ht.size]

end Graph
end TreeFlow
