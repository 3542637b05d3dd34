import TreeFlow.Proofs.Report
/-
Runs of two graphs side by side.

Two graphs are parallel if their components differ in their input parameters only.  Of these a run
sees two things: which components feed which, and the trees that the inputs of a component resolve
to.  Where a component is given the same trees in both graphs, and those feeders that it has in one
of them only do not keep it from running, it settles to the same result in both
(`Parallel.settle_eq`).
-/

namespace TreeFlow

/-! ## Inputs -/

namespace Store

variable {s s' : Store} {b b' : Bindings}

/-- Inputs that resolve to the same trees one by one are the same trees together. -/
theorem inputsFor_eq_of_forall₂ {n n' : Node} (hkind : n'.kind = n.kind)
    (h : List.Forall₂ (fun p p' => p'.slot = p.slot ∧
      s'.resolve n'.guid p' b' = s.resolve n.guid p b) n.inputs n'.inputs) :
    s'.inputsFor n' b' = s.inputsFor n b := by
  have hempty : n'.signature.inputs.map (fun _ => Tree.empty)
      = n.signature.inputs.map fun _ => Tree.empty := by rw [Node.signature, Node.signature, hkind]
  unfold inputsFor
  rw [hempty]
  refine Except.foldlM_eq_of_forall₂ (h.imp fun p p' hp trees => ?_) _
  rw [hp.1, hp.2]

/-- What is wired to a parameter is all that counts for it, whatever is bound to it. -/
theorem source_of_wired {component : String} {p : InputParam} (h : p.sources ≠ [])
    (b : Bindings) : s.source component p b = s.mergedSources component p := by
  unfold source
  rw [if_neg (by simpa using h)]

theorem source_of_unwired {component : String} {p : InputParam} (h : p.sources = [])
    (b : Bindings) :
    s.source component p b = .ok (((b.lookup? component p).or p.persistent).getD .empty) := by
  unfold source
  rw [if_pos (by simpa using h)]

theorem resolve_eq_of_source {component : String} {p p' : InputParam} (hadapt : p'.adapt = p.adapt)
    (h : s'.source component p' b' = s.source component p b) :
    s'.resolve component p' b' = s.resolve component p b := by
  unfold resolve
  rw [h, hadapt]

end Store

namespace Graph

variable {g g' : Graph} {b b' : Bindings} {s s' : Store}

/-! ## Culprits -/

/-- The culprit that the record of a component hands on to what it feeds. -/
def blame (g : Graph) (s : Store) (p : Nat) : Option String :=
  match (s.get? p).map Outcome.status with
  | some (.failed _) => (g.nodes[p]?).map Node.guid
  | some (.skipped culprit) => some culprit
  | _ => none

theorem culprit?_eq_findSome? (g : Graph) (s : Store) (i : Nat) :
    g.culprit? s i = (g.predecessors i).findSome? (g.blame s) := rfl

/-- A component that ended well is nobody's culprit. -/
theorem blame_of_ok {p : Nat} {o : Outcome} (ho : s.get? p = some o) (hok : o.status = .ok) :
    g.blame s p = none := by
  unfold blame
  rw [ho, Option.map_some, hok]

/-! ## Parallel graphs -/

/-- Graphs whose components differ in their input parameters only. -/
def Parallel (g g' : Graph) : Prop :=
  List.Forall₂ (fun n n' : Node => n' = { n with inputs := n'.inputs }) g.nodes g'.nodes

namespace Parallel

theorem refl (g : Graph) : g.Parallel g := List.forall₂_same.2 fun _ _ => rfl

theorem size_eq (h : g.Parallel g') : g'.size = g.size := (List.Forall₂.length_eq h).symm

/-- A component has a counterpart at its place, with inputs of its own. -/
theorem exists_node (h : g.Parallel g') {i : Nat} {n : Node} (hn : g.nodes[i]? = some n) :
    ∃ inputs, g'.nodes[i]? = some { n with inputs } := by
  obtain ⟨hlength, hplace⟩ := List.forall₂_iff_get.1 h
  obtain ⟨hi, rfl⟩ := List.getElem?_eq_some_iff.1 hn
  have hi' : i < g'.nodes.length := hlength ▸ hi
  refine ⟨g'.nodes[i].inputs, ?_⟩
  rw [List.getElem?_eq_getElem hi']
  exact congrArg some (hplace i hi hi')

theorem rest_eq (h : g.Parallel g') {i : Nat} {n n' : Node} (hn : g.nodes[i]? = some n)
    (hn' : g'.nodes[i]? = some n') : n' = { n with inputs := n'.inputs } := by
  obtain ⟨inputs, hinputs⟩ := h.exists_node hn
  obtain rfl := Option.some.inj (hn'.symm.trans hinputs)
  rfl

theorem guid_eq (h : g.Parallel g') (p : Nat) :
    (g'.nodes[p]?).map Node.guid = (g.nodes[p]?).map Node.guid := by
  cases hn : g.nodes[p]? with
  | none =>
    have hsize : g'.nodes.length = g.nodes.length := h.size_eq
    rw [List.getElem?_eq_none_iff] at hn
    rw [List.getElem?_eq_none (by omega)]
  | some n =>
    obtain ⟨inputs, hn'⟩ := h.exists_node hn
    rw [hn']
    rfl

theorem blame_eq (h : g.Parallel g') {p : Nat} (hp : s'.get? p = s.get? p) :
    g'.blame s' p = g.blame s p := by
  unfold blame
  rw [hp, h.guid_eq p]

/-- A component has the same culprit in both graphs if the wires that only one of them has come
from components that are nobody's culprits. -/
theorem culprit?_eq (h : g.Parallel g') (hg : g.WellFormed) (hg' : g'.WellFormed) {i : Nat}
    (hfewer : ∀ p, g'.Feeds p i → g.Feeds p i)
    (hsame : ∀ p, g.Feeds p i → s'.get? p = s.get? p)
    (hdropped : ∀ p, g.Feeds p i → ¬ g'.Feeds p i → g.blame s p = none) :
    g'.culprit? s' i = g.culprit? s i := by
  have hindices : g'.indices = g.indices := congrArg List.range h.size_eq
  rw [culprit?_eq_findSome?, culprit?_eq_findSome?, ← List.head?_filterMap,
    ← List.head?_filterMap, hg.predecessors_eq, hg'.predecessors_eq, List.filterMap_filter,
    List.filterMap_filter, hindices]
  refine congrArg List.head? (List.filterMap_congr fun p _ => ?_)
  show (if g'.Feeds p i then g'.blame s' p else none) = if g.Feeds p i then g.blame s p else none
  by_cases hp : g.Feeds p i
  · rw [if_pos hp]
    by_cases hp' : g'.Feeds p i
    · rw [if_pos hp', h.blame_eq (hsame p hp)]
    · rw [if_neg hp', hdropped p hp hp']
  · have hp' : ¬ g'.Feeds p i := fun hfeeds => hp (hfewer p hfeeds)
    rw [if_neg hp, if_neg hp']

/-- A component settles alike in both graphs if it has the same culprit, or none, and is given the
same trees. -/
theorem settle_eq (h : g.Parallel g') (hg : g.WellFormed) (hg' : g'.WellFormed) {i : Nat}
    {n n' : Node} (hn : g.nodes[i]? = some n) (hn' : g'.nodes[i]? = some n')
    (hculprit : g'.culprit? s' i = g.culprit? s i)
    (hinputs : s'.inputsFor n' b' = s.inputsFor n b) : g'.settle b' s' i = g.settle b s i := by
  have hblocked : g'.blocked s' i = g.blocked s i := by
    rw [← isSome_culprit? hg', ← isSome_culprit? hg, hculprit]
  have hrest := h.rest_eq hn hn'
  unfold settle
  rw [node_eq_ok_iff.2 hn, node_eq_ok_iff.2 hn', Except.ok_bind, Except.ok_bind, hblocked,
    hculprit, hinputs, hrest]
  rfl

/-- Reports show nothing of input parameters. -/
theorem ofStore_eq (h : g.Parallel g') (s : Store) : Report.ofStore g' s = Report.ofStore g s := by
  have hplaces : List.Forall₂ (fun place place' => Report.entryOf s place' = Report.entryOf s place)
      g.nodes.zipIdx g'.nodes.zipIdx := by
    refine List.forall₂_iff_get.2 ⟨by simpa using List.Forall₂.length_eq h, fun i hi hi' => ?_⟩
    have hrest := List.Forall₂.get h (by simpa using hi) (by simpa using hi')
    simp only [List.get_eq_getElem, List.getElem_zipIdx] at hrest ⊢
    rw [hrest]
    rfl
  unfold Report.ofStore
  rw [Except.mapM_eq_of_forall₂ hplaces]

end Parallel
end Graph
end TreeFlow
