import TreeFlow.Proofs.Component.Defaults
import TreeFlow.Proofs.Component.Valued
import TreeFlow.Proofs.Matching.Serves
/-
Runs that call a kind without a value that it needs.

An item input without a default that is not optional should never be called without a value, and a
component is not called at all where the whole tree of such an input has no items.  But what counts
for a call is the branch that serves its path.  Where that branch is empty, and another input asks
for calls there, the kind is called with nothing, and the run fails as a whole (`lacks_iff_gap`).
This takes two inputs that are iterated, so only two kinds are open to it.
-/

namespace TreeFlow
namespace Component

open Matching (Leaf Serves longest)

variable {k : Kind} {inputs : List Input} {given : List Tree} {args : List Value} {n : Nat}
  {i : Input}

/-! ## The calls that matching lines up -/

/-- An input that needs a value is served with an empty branch, at a path where another one has
items. -/
def Gap (k : Kind) (given : List Tree) : Prop :=
  Supplied k.signature.inputs given ∧
    ∃ p, Leaf (inputsWith filledTree k.signature.inputs given) p ∧
      (∃ (n : Nat) (i : Input), k.signature.inputs[n]? = some i ∧ i.Required ∧
        Serves (givenAt given n) p []) ∧
      ∃ (n : Nat) (i : Input) (items : List Item), k.signature.inputs[n]? = some i ∧
        Serves (filledTree i (givenAt given n)) p items ∧ items ≠ []

theorem supplied_of_inputTrees? {trees : List Tree} (hoptional : ∀ i ∈ inputs, i.optional = false)
    (h : inputTrees? inputs given = some trees) : Supplied inputs given := by
  intro e he hdefault
  obtain ⟨t, -, ht⟩ := (Option.mapM_eq_some_iff.1 h).exists_right he
  have ht : inputTree? e.1 (givenAt given e.2) = some t := ht
  have hrequired := hoptional e.1 (List.fst_mem_of_mem_zipIdx he)
  cases hitems : (givenAt given e.2).hasNoItems with
  | false => rfl
  | true => simp [inputTree?, hitems, hdefault, hrequired] at ht

/-- The calls of a kind that iterates over items. -/
theorem mem_calls_iff (hcross : k ≠ .sets .crossReference)
    (hitem : ∃ i ∈ k.signature.inputs, i.access = .item) :
    args ∈ calls k given ↔ Supplied k.signature.inputs given ∧
      ∃ call ∈ (longest (inputsWith filledTree k.signature.inputs given)).flatMap
          Matching.Branch.calls,
        args = withDefaults k.signature.inputs call := by
  obtain ⟨hmode, hall⟩ := k.of_item hcross hitem
  have haccess : ∀ i ∈ k.signature.inputs, i.access ≠ .tree := fun i hi => (hall i hi).1
  have hinputs : k.signature.inputs ≠ [] := by
    obtain ⟨i, hi, -⟩ := hitem
    exact List.ne_nil_of_mem hi
  by_cases hsupplied : Supplied k.signature.inputs given
  · simp only [calls, inputTrees?_eq_some hsupplied]
    rw [matchInputs_eq, hmode, branches_inputsWith haccess hinputs]
    simp only [hsupplied, true_and, ← List.map_flatMap, List.mem_map, eq_comm]
  · have hnone : inputTrees? k.signature.inputs given = none := by
      rw [Option.eq_none_iff_forall_ne_some]
      intro trees htrees
      exact hsupplied (supplied_of_inputTrees? (fun i hi => (hall i hi).2) htrees)
    simp [calls, hnone, hsupplied]

/-- What an input hands to a call of matching. -/
theorem getElem?_call {tree : Input → Tree → Tree} {p : Path} {c : Nat} (hi : inputs[n]? = some i) :
    ((inputsWith tree inputs given).map fun x => (x.offerAt p).argument c)[n]?
      = some ((Matching.Input.offerAt ⟨i.name, i.access, tree i (givenAt given n)⟩ p).argument
        c) := by
  simp [inputsWith, hi]

theorem lacks_withDefaults_iff {call : List Value} :
    Lacks inputs (withDefaults inputs call) ↔
      ∃ (n : Nat) (i : Input), inputs[n]? = some i ∧ i.Required ∧ call[n]? = some .missing := by
  refine exists₂_congr fun n i => and_congr_right fun hi => and_congr_right fun hrequired => ?_
  rw [getElem?_withDefaults_of_none hi hrequired.2.1]

/-- A call that lacks a value is made at a leaf path, whose serving branch is empty for one input and
not for the input that asks for the call. -/
theorem gap_of_lacks (hargs : args ∈ calls k given) (hlacks : Lacks k.signature.inputs args) :
    Gap k given := by
  have hsome : ∃ i ∈ k.signature.inputs, i.Required := by
    obtain ⟨n, i, hi, hrequired, -⟩ := hlacks
    exact ⟨i, List.mem_of_getElem? hi, hrequired⟩
  obtain ⟨hcross, hitem, -⟩ := k.of_required hsome
  have haccess : ∃ i ∈ k.signature.inputs, i.access = .item :=
    hsome.imp fun i h => ⟨h.1, hitem i h.1⟩
  obtain ⟨hsupplied, call, hcall, rfl⟩ := (mem_calls_iff hcross haccess).1 hargs
  obtain ⟨p, hp, c, ⟨x, hx, hc⟩, rfl⟩ := Matching.mem_longest_calls_iff.1 hcall
  obtain ⟨n, i, hi, hrequired, hmissing⟩ := lacks_withDefaults_iff.1 hlacks
  refine ⟨hsupplied, p, hp, ⟨n, i, hi, hrequired, ?_⟩, ?_⟩
  · have hitems := hsupplied.items hi hrequired.2.1
    rw [getElem?_call hi, filledTree_of_items hitems] at hmissing
    obtain ⟨items, hserves⟩ := Matching.exists_serves (paths_ne_nil_of_items hitems) p
    obtain rfl := (Matching.argument_eq_missing_iff hrequired.1 hserves c).1
      (Option.some.inj hmissing)
    exact hserves
  · obtain ⟨m, j, hj, rfl⟩ := mem_inputsWith.1 hx
    have hpos := Nat.lt_of_le_of_lt (Nat.zero_le c) hc
    obtain ⟨items, hserves, hne⟩ :=
      (Matching.count_pos_iff (hitem j (List.mem_of_getElem? hj))).1 hpos
    exact ⟨m, j, items, hj, hserves, hne⟩

/-- The first call at the path of a gap lacks a value. -/
theorem Gap.exists_lacks (h : Gap k given) :
    ∃ args ∈ calls k given, Lacks k.signature.inputs args := by
  obtain ⟨hsupplied, p, hp, ⟨n, i, hi, hrequired, hempty⟩, m, j, items, hj, hserves, hne⟩ := h
  have hmem := List.mem_of_getElem? hi
  obtain ⟨hcross, hitem, -⟩ := k.of_required ⟨i, hmem, hrequired⟩
  have hpos := (Matching.count_pos_iff (hitem j (List.mem_of_getElem? hj))
    (x := ⟨j.name, j.access, filledTree j (givenAt given m)⟩)).2 ⟨items, hserves, hne⟩
  have hcall := Matching.mem_longest_calls_iff.2
    ⟨p, hp, 0, ⟨_, mem_inputsWith.2 ⟨m, j, hj, rfl⟩, hpos⟩, rfl⟩
  refine ⟨_, (mem_calls_iff hcross ⟨i, hmem, hrequired.1⟩).2 ⟨hsupplied, _, hcall, rfl⟩, ?_⟩
  refine lacks_withDefaults_iff.2 ⟨n, i, hi, hrequired, ?_⟩
  rw [getElem?_call hi, filledTree_of_items (hsupplied.items hi hrequired.2.1)]
  exact congrArg some ((Matching.argument_eq_missing_iff hrequired.1 hempty 0).2 rfl)

/-- A call that lacks nothing has items for all item inputs. -/
theorem itemwise_of_not_lacks (hcross : k ≠ .sets .crossReference) (hargs : args ∈ calls k given)
    (h : ¬ Lacks k.signature.inputs args) : Itemwise k.signature.inputs args := by
  intro n i hi haccess
  have hitem : ∃ i ∈ k.signature.inputs, i.access = .item := ⟨i, List.mem_of_getElem? hi, haccess⟩
  obtain ⟨-, hall⟩ := k.of_item hcross hitem
  obtain ⟨-, call, hcall, rfl⟩ := (mem_calls_iff hcross hitem).1 hargs
  obtain ⟨p, -, c, -, rfl⟩ := Matching.mem_longest_calls_iff.1 hcall
  generalize hargs : withDefaults k.signature.inputs _ = args at h ⊢
  have harg := congrArg (fun args => args[n]?) hargs
  simp only [getElem?_withDefaults hi, getElem?_call hi, Option.map_some] at harg
  cases Matching.argument_of_item
    (x := ⟨i.name, i.access, filledTree i (givenAt given n)⟩) haccess p c with
  | inr hv =>
    obtain ⟨item, hv⟩ := hv
    rw [hv] at harg
    exact ⟨item, argument_eq harg.symm⟩
  | inl hv =>
    rw [hv] at harg
    cases hdefault : i.default with
    | some item =>
      rw [hdefault] at harg
      exact ⟨item, argument_eq harg.symm⟩
    | none =>
      rw [hdefault] at harg
      have hrequired : i.Required := ⟨haccess, hdefault, (hall i (List.mem_of_getElem? hi)).2⟩
      exact (h ⟨n, i, hi, hrequired, harg.symm⟩).elim

/-- With a single input there is no other one to have items. -/
theorem Gap.kind (h : Gap k given) : k = .vector .vector2Pt ∨ k = .vector .distance := by
  obtain ⟨hsupplied, p, -, ⟨n, i, hi, hrequired, hempty⟩, m, j, items, hj, hserves, hne⟩ := h
  refine (k.of_required ⟨i, List.mem_of_getElem? hi, hrequired⟩).2.2.resolve_left fun hlength => ?_
  have hn := (List.getElem?_eq_some_iff.1 hi).1
  have hm := (List.getElem?_eq_some_iff.1 hj).1
  obtain rfl : m = n := by omega
  obtain rfl : j = i := Option.some.inj (hj.symm.trans hi)
  rw [filledTree_of_items (hsupplied.items hj hrequired.2.1)] at hserves
  have hmissing := (Matching.argument_eq_missing_iff (x := ⟨j.name, j.access, givenAt given m⟩)
    hrequired.1 hempty 0).2 rfl
  exact hne ((Matching.argument_eq_missing_iff hrequired.1 hserves 0).1 hmissing)

/-- An input that needs a value is called without one exactly where the branch that serves it is
empty while another input has items.  The run fails then, and it fails for want of a value only
then; all kinds but two are safe from it. -/
theorem lacks_iff_gap (k : Kind) (given : List Tree) :
    ((∃ args ∈ calls k given, Lacks k.signature.inputs args) ↔ Gap k given) ∧
      (Gap k given → ∃ cause, run k given = .error (.call cause)) ∧
      (∀ input, run k given = .error (.call (.noValue input)) → Gap k given) ∧
      (Gap k given → k = .vector .vector2Pt ∨ k = .vector .distance) := by
  refine ⟨⟨fun h => ?_, Gap.exists_lacks⟩, fun hgap => ?_, fun input hrun => ?_, Gap.kind⟩
  · obtain ⟨args, hargs, hlacks⟩ := h
    exact gap_of_lacks hargs hlacks
  · obtain ⟨args, hargs, hlacks⟩ := hgap.exists_lacks
    obtain ⟨cause, hcause⟩ := k.call_of_lacks hlacks
    exact exists_run_eq_call_error hargs hcause
  · obtain ⟨before, args, behind, hcalls, -, hcall⟩ := run_eq_call_error_iff.1 hrun
    have hargs : args ∈ calls k given := by simp [hcalls]
    have hcross : k ≠ .sets .crossReference := by
      intro hk
      rw [hk] at hcall
      cases hcall
    refine gap_of_lacks hargs ?_
    by_contra hlacks
    exact k.call_valued (itemwise_of_not_lacks hcross hargs hlacks) input hcall

namespace Sample

def origin : Item := .point ⟨0, 0, 0⟩

/-- An empty branch, and one with a point. -/
def gapped : Tree := .ofBranches [(.ofIndex 0, []), (.ofIndex 1, [origin])]

/-- A point in each of the same branches. -/
def whole : Tree := .ofBranches [(.ofIndex 0, [origin]), (.ofIndex 1, [origin])]

end Sample

/-- A distance is asked for where one end has no point, and fails for all branches. -/
theorem distance_without_point :
    calls (.vector .distance) [Sample.gapped, Sample.whole]
        = [[.missing, .item Sample.origin], [.item Sample.origin, .item Sample.origin]] ∧
      Lacks (Kind.vector .distance).signature.inputs [.missing, .item Sample.origin] ∧
      run (.vector .distance) [Sample.gapped, Sample.whole]
        = .error (.call (.noValue "Point A")) := by
  refine ⟨rfl, ⟨0, _, rfl, by decide, rfl⟩, rfl⟩

theorem lacks_iff_gap_sample : Gap (.vector .distance) [Sample.gapped, Sample.whole] :=
  (lacks_iff_gap _ _).2.2.1 "Point A" rfl

end Component
end TreeFlow
