import TreeFlow.Proofs.Component.Defaults
import TreeFlow.Proofs.Component.Faults
import TreeFlow.Proofs.Matching.Fits
/-
The shapes of the arguments of a call.

Matching hands on trees, lists and items as the access of an input asks for, or nothing at all.  The
inputs of a kind leave little room for that: one of list access that has no items stops the run
before any call, and a missing item is made up for by the default.  So only item inputs without a
default are open to an argument of another shape (`calls_shaped`), and no call of a run is refused
for want of a list or of a tree.
-/

namespace TreeFlow
namespace Component

variable {k : Kind} {inputs : List Input} {given : List Tree} {args : List Value} {n : Nat}
  {i : Input}

/-- The arguments of a call have the shapes that the inputs ask for. -/
structure Shaped (inputs : List Input) (given : List Tree) (args : List Value) : Prop where
  length : args.length = inputs.length
  tree : ∀ n i, inputs[n]? = some i → i.access = .tree →
    argument args n = .tree (givenAt given n)
  list : ∀ n i, inputs[n]? = some i → i.access = .list → ∃ items, argument args n = .list items
  default : ∀ n i, inputs[n]? = some i → i.access = .item → i.default ≠ none →
    ∃ item, argument args n = .item item
  iterated : ∀ n i, inputs[n]? = some i → i.access ≠ .tree → (argument args n).tree? = none

/-- Only item inputs have defaults, and no list input is optional. -/
theorem Kind.of_not_item (k : Kind) :
    ∀ i ∈ k.signature.inputs, (i.access ≠ .item → i.default = none) ∧
      (i.access = .list → i.optional = false) := by
  revert k
  decide

theorem eq_of_inputTree? {t t' : Tree} (hdefault : i.default = none)
    (h : inputTree? i t = some t') : t' = t ∧ (i.optional = false → t.hasNoItems = false) := by
  rw [inputTree?, hdefault] at h
  cases hitems : t.hasNoItems with
  | false =>
    rw [hitems, Bool.not_false, if_pos rfl] at h
    exact ⟨(Option.some.inj h).symm, fun _ => rfl⟩
  | true =>
    rw [hitems, Bool.not_true, if_neg Bool.false_ne_true] at h
    cases hoptional : i.optional with
    | true =>
      simp only [hoptional, if_true] at h
      exact ⟨(Option.some.inj h).symm, fun hfalse => absurd hfalse.symm Bool.false_ne_true⟩
    | false => simp [hoptional] at h

/-- Behind the arguments of a call stand values that matching hands on, one for the tree of each
input. -/
theorem exists_fits_of_mem_calls (hargs : args ∈ calls k given) :
    ∃ call, args = withDefaults k.signature.inputs call ∧
      call.length = k.signature.inputs.length ∧
      ∀ n i, k.signature.inputs[n]? = some i → ∃ t v, inputTree? i (givenAt given n) = some t ∧
        call[n]? = some v ∧ Matching.Input.Fits ⟨i.name, i.access, t⟩ v := by
  rw [calls] at hargs
  cases htrees : inputTrees? k.signature.inputs given with
  | none =>
    rw [htrees] at hargs
    cases hargs
  | some trees =>
    cases hbranches : Matching.branches k.signature.mode
        (matchInputs k.signature.inputs trees) with
    | error e =>
      simp only [htrees, hbranches] at hargs
      cases hargs
    | ok branches =>
      simp only [htrees, hbranches] at hargs
      obtain ⟨branch, hbranch, hargs⟩ := List.mem_flatMap.1 hargs
      obtain ⟨call, hcall, rfl⟩ := List.mem_map.1 hargs
      have hfits := Matching.fits_of_branches hbranches hbranch hcall
      have htrees := Option.mapM_eq_some_iff.1 htrees
      have hlength := htrees.length_eq
      rw [List.length_zipIdx] at hlength
      refine ⟨call, rfl, ?_, fun n i hi => ?_⟩
      · rw [← hfits.length_eq, matchInputs, List.length_map, List.length_zip, ← hlength,
          Nat.min_self]
      · have hplace : k.signature.inputs.zipIdx[n]? = some (i, n) := by
          rw [List.getElem?_zipIdx, hi, Nat.zero_add, Option.map_some]
        obtain ⟨t, ht, htree⟩ := htrees.exists_getElem? hplace
        have hmatched : (matchInputs k.signature.inputs trees)[n]?
            = some ⟨i.name, i.access, t⟩ := by
          rw [matchInputs, List.getElem?_map,
            List.getElem?_zip_eq_some (z := (i, t)) |>.2 ⟨hi, ht⟩, Option.map_some]
        obtain ⟨v, hv, hfit⟩ := hfits.exists_getElem? hmatched
        exact ⟨t, v, htree, hv, hfit⟩

/-- An input of other access than item has no default, so what matching hands on is the argument. -/
theorem argument_fits (hargs : args ∈ calls k given) (hi : k.signature.inputs[n]? = some i)
    (haccess : i.access ≠ .item) :
    Matching.Input.Fits ⟨i.name, i.access, givenAt given n⟩ (argument args n) ∧
      (i.optional = false → (givenAt given n).hasNoItems = false) := by
  obtain ⟨call, rfl, -, hcall⟩ := exists_fits_of_mem_calls hargs
  obtain ⟨t, v, htree, hv, hfit⟩ := hcall n i hi
  have hdefault := (k.of_not_item i (List.mem_of_getElem? hi)).1 haccess
  obtain ⟨rfl, hitems⟩ := eq_of_inputTree? hdefault htree
  rw [argument_eq ((getElem?_withDefaults_of_none hi hdefault).trans hv)]
  exact ⟨hfit, hitems⟩

/-- An input of item access hands on nothing, and takes its default then, or an item. -/
theorem argument_of_item (hargs : args ∈ calls k given) (hi : k.signature.inputs[n]? = some i)
    (haccess : i.access = .item) :
    argument args n = (i.default.elim .missing .item) ∨ ∃ item, argument args n = .item item := by
  obtain ⟨call, rfl, -, hcall⟩ := exists_fits_of_mem_calls hargs
  obtain ⟨t, v, -, hv, hfit⟩ := hcall n i hi
  have harg : (withDefaults k.signature.inputs call)[n]? = _ := getElem?_withDefaults hi
  rw [hv, Option.map_some] at harg
  rw [argument_eq harg]
  cases hfit.missing_or_item haccess with
  | inl h =>
    subst h
    left
    cases i.default <;> rfl
  | inr h =>
    obtain ⟨item, rfl⟩ := h
    exact .inr ⟨item, rfl⟩

theorem shaped_of_mem_calls (hargs : args ∈ calls k given) :
    Shaped k.signature.inputs given args where
  length := by
    obtain ⟨call, rfl, hlength, -⟩ := exists_fits_of_mem_calls hargs
    simp [withDefaults, hlength]
  tree n i hi haccess := (argument_fits hargs hi (by simp [haccess])).1.eq_tree haccess
  list n i hi haccess := by
    obtain ⟨hfit, hitems⟩ := argument_fits hargs hi (by simp [haccess])
    have hrequired := (k.of_not_item i (List.mem_of_getElem? hi)).2 haccess
    obtain ⟨items, -, hlist⟩ :=
      hfit.exists_list haccess (paths_ne_nil_of_items (hitems hrequired))
    exact ⟨items, hlist⟩
  default n i hi haccess hdefault := by
    obtain ⟨default, hdefault⟩ := Option.ne_none_iff_exists'.1 hdefault
    refine (argument_of_item hargs hi haccess).elim (fun harg => ⟨default, ?_⟩) id
    rw [harg, hdefault, Option.elim_some]
  iterated n i hi haccess := by
    by_cases hitem : i.access = .item
    · refine (argument_of_item hargs hi hitem).elim (fun harg => ?_) fun harg => ?_
      · rw [harg]
        cases i.default <;> rfl
      · obtain ⟨item, harg⟩ := harg
        rw [harg]
        rfl
    · exact (argument_fits hargs hi hitem).1.not_tree haccess

/-- A call of the right shapes is not refused for want of a list or of a tree. -/
theorem Shaped.call_fails (h : Shaped k.signature.inputs given args) :
    Fails (fun cause => ∀ input, cause ≠ .noList input ∧ cause ≠ .noTree input) (k.call args) := by
  refine k.call_fails ⟨?_, ?_, ?_, ?_⟩
  · intro cause hdomain input
    constructor
    · rintro rfl
      cases hdomain
    · rintro rfl
      cases hdomain
  · intro n i hi haccess input
    exact .inr fun _ => ⟨nofun, nofun⟩
  · intro n i hi haccess input
    obtain ⟨items, hitems⟩ := h.list n i hi haccess
    exact .inl ⟨items, by rw [hitems]; rfl⟩
  · intro n i hi haccess input
    exact .inl ⟨givenAt given n, by rw [h.tree n i hi haccess]; rfl⟩

/-- All calls of a run have arguments of the shapes that the inputs ask for, so the run does not
fail because a list or a tree is expected. -/
theorem calls_shaped (k : Kind) (given : List Tree) :
    (∀ args ∈ calls k given, Shaped k.signature.inputs given args) ∧
      ∀ input, run k given ≠ .error (.call (.noList input)) ∧
        run k given ≠ .error (.call (.noTree input)) := by
  have hfails : ∀ cause, run k given = .error (.call cause) → ∀ input,
      cause ≠ .noList input ∧ cause ≠ .noTree input := by
    intro cause hrun
    obtain ⟨before, args, behind, hcalls, -, hcall⟩ := run_eq_call_error_iff.1 hrun
    have hargs : args ∈ calls k given := by simp [hcalls]
    exact (shaped_of_mem_calls hargs).call_fails cause hcall
  refine ⟨fun args hargs => shaped_of_mem_calls hargs, fun input => ⟨?_, ?_⟩⟩
  · intro hrun
    exact (hfails _ hrun input).1 rfl
  · intro hrun
    exact (hfails _ hrun input).2 rfl

theorem calls_shaped_sample :
    Shaped (Kind.sets .listLength).signature.inputs [Sample.five] [.list [.integer 5]] :=
  (calls_shaped (.sets .listLength) [Sample.five]).1 _ (by decide)

end Component
end TreeFlow
