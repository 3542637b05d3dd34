import TreeFlow.Proofs.Component.Branches
import TreeFlow.Proofs.Matching.Extra
/-
Defaults and the branches of outputs.

An input without items offers no branch to matching, so a default should only stand in for missing
values.  But it is lined up as a tree of its own, with the default branch, and takes part in the
union of the paths and in the choice between kept and numbered paths.  `paths_eq_bare_iff` says when
that shows: unless every input has items, another path has to cover the default one.
-/

namespace TreeFlow
namespace Component

open Matching (Covered Filled longest unionPaths keepsPaths leaves)

variable {k : Kind} {inputs : List Input} {given : List Tree}

/-- The tree that is given for an input; surplus inputs are given none. -/
def givenAt (given : List Tree) (n : Nat) : Tree := given[n]?.getD .empty

/-- A tree without items loses its branches. -/
def bareTree (t : Tree) : Tree := if t.hasNoItems then .empty else t

/-- The tree of an input, or its default. -/
def filledTree (i : Input) (t : Tree) : Tree := (inputTree? i t).getD .empty

/-- The inputs of a kind with what `tree` makes of the trees that are given. -/
def inputsWith (tree : Input → Tree → Tree) (inputs : List Input) (given : List Tree) :
    List Matching.Input :=
  inputs.zipIdx.map fun (i, n) => ⟨i.name, i.access, tree i (givenAt given n)⟩

/-- The inputs of a kind as they are without defaults: those without items are empty. -/
def bareInputs (inputs : List Input) (given : List Tree) : List Matching.Input :=
  inputsWith (fun _ => bareTree) inputs given

/-- Every input without a default has items. -/
def Supplied (inputs : List Input) (given : List Tree) : Prop :=
  ∀ e ∈ inputs.zipIdx, e.1.default = none → (givenAt given e.2).hasNoItems = false

theorem Supplied.items (h : Supplied inputs given) {n : Nat} {i : Input}
    (hi : inputs[n]? = some i) : i.default = none → (givenAt given n).hasNoItems = false :=
  h (i, n) (List.mk_mem_zipIdx_iff_getElem?.2 hi)

/-- Only kinds that take whole trees, and cross reference, have optional inputs. -/
theorem Kind.not_optional (k : Kind) (hmode : k.signature.mode = .longest)
    (haccess : ∀ i ∈ k.signature.inputs, i.access ≠ .tree) :
    ∀ i ∈ k.signature.inputs, i.optional = false := by
  revert k
  decide

/-! ## Trees -/

theorem inputTree?_eq_some {i : Input} {t : Tree} (h : i.default = none → t.hasNoItems = false) :
    inputTree? i t = some (filledTree i t) := by
  have hsome : (inputTree? i t).isSome := by
    unfold inputTree?
    cases ht : t.hasNoItems with
    | false => simp
    | true =>
      cases hd : i.default with
      | none => simp [h hd] at ht
      | some item => simp
  obtain ⟨t', ht'⟩ := Option.isSome_iff_exists.1 hsome
  rw [filledTree, ht', Option.getD_some]

theorem paths_ne_nil_of_items {t : Tree} (h : t.hasNoItems = false) : t.paths ≠ [] := by
  intro hnil
  have hentries : t.branches.entries = [] := List.map_eq_nil_iff.1 hnil
  rw [Tree.hasNoItems, SortedMap.values, hentries] at h
  cases h

theorem filledTree_of_items {i : Input} {t : Tree} (h : t.hasNoItems = false) :
    filledTree i t = t := by
  simp [filledTree, inputTree?, h]

/-- Where there are no items the default has the default branch alone. -/
theorem paths_filledTree {i : Input} {t : Tree} (h : i.default = none → t.hasNoItems = false) :
    (filledTree i t).paths = if t.hasNoItems then [.default] else (bareTree t).paths := by
  cases ht : t.hasNoItems with
  | false => simp [filledTree_of_items ht, bareTree, ht]
  | true =>
    obtain ⟨item, hitem⟩ : ∃ item, i.default = some item := by
      cases hd : i.default with
      | none => simp [h hd] at ht
      | some item => exact ⟨item, rfl⟩
    simp only [filledTree, inputTree?, ht, hitem, Bool.not_true, Bool.false_eq_true, if_false,
      if_true, Option.getD_some]
    rfl

theorem inputTrees?_eq_some (h : Supplied inputs given) :
    inputTrees? inputs given
      = some (inputs.zipIdx.map fun (i, n) => filledTree i (givenAt given n)) := by
  have go : ∀ l : List (Input × Nat), (∀ e ∈ l, inputs[e.2]? = some e.1) →
      (l.mapM fun (i, n) => inputTree? i (givenAt given n))
        = some (l.map fun (i, n) => filledTree i (givenAt given n)) := by
    intro l
    induction l with
    | nil => intro _; rfl
    | cons e l ih =>
      intro hl
      have he := inputTree?_eq_some (h.items (hl e List.mem_cons_self))
      rw [List.mapM_cons, ih fun e' he' => hl e' (List.mem_cons_of_mem _ he')]
      simp only [he]
      rfl
  exact go _ fun e he => List.mem_zipIdx_iff_getElem?.1 he

theorem matchInputs_eq (tree : Input → Tree → Tree) :
    matchInputs inputs (inputs.zipIdx.map fun (i, n) => tree i (givenAt given n))
      = inputsWith tree inputs given := by
  have hzip : inputs.zip (inputs.zipIdx.map fun (i, n) => tree i (givenAt given n))
      = inputs.zipIdx.map fun (i, n) => (i, tree i (givenAt given n)) :=
    List.ext_getElem (by simp) fun n _ _ => by simp
  rw [matchInputs, hzip, List.map_map]
  rfl

theorem mem_inputsWith {tree : Input → Tree → Tree} {x : Matching.Input} :
    x ∈ inputsWith tree inputs given ↔
      ∃ n i, inputs[n]? = some i ∧ x = ⟨i.name, i.access, tree i (givenAt given n)⟩ := by
  simp only [inputsWith, List.mem_map, Prod.exists, List.mk_mem_zipIdx_iff_getElem?]
  constructor
  · rintro ⟨i, n, hi, rfl⟩
    exact ⟨n, i, hi, rfl⟩
  · rintro ⟨n, i, hi, rfl⟩
    exact ⟨i, n, hi, rfl⟩

theorem inputsWith_congr {tree tree' : Input → Tree → Tree}
    (h : ∀ n i, inputs[n]? = some i → tree i (givenAt given n) = tree' i (givenAt given n)) :
    inputsWith tree inputs given = inputsWith tree' inputs given := by
  refine List.map_congr_left fun ⟨i, n⟩ hmem => ?_
  have hi := List.mk_mem_zipIdx_iff_getElem?.1 hmem
  simp only [h n i hi]

/-! ## Matching -/

theorem mem_unionPaths_inputsWith (haccess : ∀ i ∈ inputs, i.access ≠ .tree)
    {tree : Input → Tree → Tree} {p : Path} :
    p ∈ unionPaths (inputsWith tree inputs given) ↔
      ∃ n i, inputs[n]? = some i ∧ p ∈ (tree i (givenAt given n)).paths := by
  rw [Matching.mem_unionPaths]
  constructor
  · rintro ⟨x, hx, -, hp⟩
    obtain ⟨n, i, hi, rfl⟩ := mem_inputsWith.1 hx
    exact ⟨n, i, hi, hp⟩
  · rintro ⟨n, i, hi, hp⟩
    refine ⟨_, mem_inputsWith.2 ⟨n, i, hi, rfl⟩, ?_, hp⟩
    simpa [Matching.Input.iterated] using haccess i (List.mem_of_getElem? hi)

theorem keepsPaths_inputsWith (haccess : ∀ i ∈ inputs, i.access ≠ .tree)
    {tree : Input → Tree → Tree} {l : List Path} :
    keepsPaths (inputsWith tree inputs given) l = true ↔
      ∃ n i, inputs[n]? = some i ∧ (tree i (givenAt given n)).paths = l := by
  rw [Matching.keepsPaths_iff]
  constructor
  · rintro ⟨x, hx, -, hp⟩
    obtain ⟨n, i, hi, rfl⟩ := mem_inputsWith.1 hx
    exact ⟨n, i, hi, hp⟩
  · rintro ⟨n, i, hi, hp⟩
    refine ⟨_, mem_inputsWith.2 ⟨n, i, hi, rfl⟩, ?_, hp⟩
    simpa [Matching.Input.iterated] using haccess i (List.mem_of_getElem? hi)

theorem paths_bareTree_of_hasNoItems {t : Tree} (h : t.hasNoItems = true) :
    (bareTree t).paths = [] := by
  rw [bareTree, if_pos h]
  rfl

/-- An input with a default in place of items fills the inputs as they are without defaults. -/
theorem filled_of_missing (haccess : ∀ i ∈ inputs, i.access ≠ .tree)
    (hsupplied : Supplied inputs given) {n : Nat} {i : Input} (hi : inputs[n]? = some i)
    (hmissing : (givenAt given n).hasNoItems = true) :
    Filled (bareInputs inputs given) (inputsWith filledTree inputs given) := by
  constructor
  · intro p
    rw [bareInputs, mem_unionPaths_inputsWith haccess, mem_unionPaths_inputsWith haccess]
    constructor
    · rintro ⟨m, j, hj, hp⟩
      rw [paths_filledTree (hsupplied.items hj)] at hp
      split at hp
      · exact .inr (List.mem_singleton.1 hp)
      · exact .inl ⟨m, j, hj, hp⟩
    · rintro (⟨m, j, hj, hp⟩ | rfl)
      · refine ⟨m, j, hj, ?_⟩
        rw [paths_filledTree (hsupplied.items hj)]
        split
        · rename_i hnone
          rw [paths_bareTree_of_hasNoItems hnone] at hp
          cases hp
        · exact hp
      · refine ⟨n, i, hi, ?_⟩
        rw [paths_filledTree (hsupplied.items hi), if_pos hmissing]
        exact List.mem_singleton_self _
  · intro l hl
    rw [bareInputs, keepsPaths_inputsWith haccess, keepsPaths_inputsWith haccess]
    constructor
    · rintro ⟨m, j, hj, hp⟩
      rw [paths_filledTree (hsupplied.items hj)] at hp
      split at hp
      · exact .inr hp.symm
      · exact .inl ⟨m, j, hj, hp⟩
    · rintro (⟨m, j, hj, hp⟩ | rfl)
      · refine ⟨m, j, hj, ?_⟩
        rw [paths_filledTree (hsupplied.items hj)]
        split
        · rename_i hnone
          rw [paths_bareTree_of_hasNoItems hnone] at hp
          exact absurd hp.symm hl
        · exact hp
      · refine ⟨n, i, hi, ?_⟩
        rw [paths_filledTree (hsupplied.items hi), if_pos hmissing]

/-! ## Runs -/

section

variable {outs : List Tree} {out : Tree}

theorem branches_inputsWith (haccess : ∀ i ∈ inputs, i.access ≠ .tree) (hinputs : inputs ≠ [])
    (tree : Input → Tree → Tree) :
    Matching.branches .longest (inputsWith tree inputs given)
      = .ok (longest (inputsWith tree inputs given)) := by
  have hany : (inputsWith tree inputs given).any Matching.Input.iterated := by
    obtain ⟨i, hi⟩ := List.exists_mem_of_ne_nil _ hinputs
    obtain ⟨n, hn⟩ := List.mem_iff_getElem?.1 hi
    refine List.any_eq_true.2 ⟨_, mem_inputsWith.2 ⟨n, i, hn, rfl⟩, ?_⟩
    simpa [Matching.Input.iterated] using haccess i hi
  rw [Matching.branches, if_pos hany]

/-- The outputs have the branches that come from matching with the defaults as trees. -/
theorem mem_paths_iff_filled (hmode : k.signature.mode = .longest)
    (haccess : ∀ i ∈ k.signature.inputs, i.access ≠ .tree)
    (hsupplied : Supplied k.signature.inputs given) (hinputs : k.signature.inputs ≠ [])
    (hrun : run k given = .ok outs) (hout : out ∈ outs) (p : Path) :
    p ∈ out.paths ↔
      p ∈ (longest (inputsWith filledTree k.signature.inputs given)).map Matching.Branch.path := by
  refine mem_paths_of_run (k.call_plain hmode haccess) (inputTrees?_eq_some hsupplied) ?_ hrun hout
  rw [matchInputs_eq, hmode, branches_inputsWith haccess hinputs]

/-- Where matching lines up the branches, a run takes one after the other. -/
theorem run_longest (hmode : k.signature.mode = .longest)
    (haccess : ∀ i ∈ k.signature.inputs, i.access ≠ .tree)
    (hsupplied : Supplied k.signature.inputs given) (hinputs : k.signature.inputs ≠ []) :
    run k given
      = ((longest (inputsWith filledTree k.signature.inputs given)).mapM (rowOf k)).map fun rows =>
          (List.range k.signature.outputs.length).map (outputTree rows) := by
  unfold run
  simp only [inputTrees?_eq_some hsupplied]
  rw [matchInputs_eq, hmode, branches_inputsWith haccess hinputs]
  show ((longest (inputsWith filledTree k.signature.inputs given)).mapM (rowOf k) >>= _) = _
  cases (longest (inputsWith filledTree k.signature.inputs given)).mapM (rowOf k) <;> rfl

theorem unionPaths_bareInputs_ne_nil (haccess : ∀ i ∈ inputs, i.access ≠ .tree)
    {n : Nat} (hn : n < inputs.length) (hitems : (givenAt given n).hasNoItems = false) :
    unionPaths (bareInputs inputs given) ≠ [] := by
  obtain ⟨p, hp⟩ := List.exists_mem_of_ne_nil _ (paths_ne_nil_of_items hitems)
  have hmem : p ∈ unionPaths (bareInputs inputs given) := by
    refine (mem_unionPaths_inputsWith haccess).2 ⟨n, _, List.getElem?_eq_getElem hn, ?_⟩
    simpa [bareTree, hitems] using hp
  exact List.ne_nil_of_mem hmem

/-- A component that lines up items and lists in the longest way gives the branches that matching
gives without defaults exactly if no default is used, or another path covers the default one, or the
branches are numbered and their numbers come round. -/
theorem paths_eq_bare_iff (hmode : k.signature.mode = .longest)
    (haccess : ∀ i ∈ k.signature.inputs, i.access ≠ .tree)
    (hrequired : ∀ e ∈ k.signature.inputs.zipIdx, e.1.default = none → e.1.optional = false →
      (givenAt given e.2).hasNoItems = false)
    (hitems : ∃ n < k.signature.inputs.length, (givenAt given n).hasNoItems = false)
    (hrun : run k given = .ok outs) (hout : out ∈ outs) :
    (∀ p, p ∈ out.paths ↔
        p ∈ (longest (bareInputs k.signature.inputs given)).map Matching.Branch.path) ↔
      (∀ n < k.signature.inputs.length, (givenAt given n).hasNoItems = false) ∨
        Covered (unionPaths (bareInputs k.signature.inputs given)) ∨
        (keepsPaths (bareInputs k.signature.inputs given)
            (leaves (unionPaths (bareInputs k.signature.inputs given))) = false ∧
          UInt32.size ≤ (leaves (unionPaths (bareInputs k.signature.inputs given))).length) := by
  obtain ⟨n, hn, hnitems⟩ := hitems
  have hsupplied : Supplied k.signature.inputs given := fun e he hnone =>
    hrequired e he hnone (k.not_optional hmode haccess e.1 (List.fst_mem_of_mem_zipIdx he))
  have hinputs : k.signature.inputs ≠ [] := List.ne_nil_of_length_pos (by omega)
  have hpaths := mem_paths_iff_filled hmode haccess hsupplied hinputs hrun hout
  by_cases hall : ∀ n < k.signature.inputs.length, (givenAt given n).hasNoItems = false
  · refine iff_of_true (fun p => ?_) (.inl hall)
    have hsame : bareInputs k.signature.inputs given
        = inputsWith filledTree k.signature.inputs given := by
      refine inputsWith_congr fun m i hi => ?_
      have hm := hall m (List.getElem?_eq_some_iff.1 hi).1
      simp [filledTree_of_items hm, bareTree, hm]
    rw [hpaths, hsame]
  · obtain ⟨m, hm, hmissing⟩ : ∃ m < k.signature.inputs.length,
        (givenAt given m).hasNoItems = true := by
      simpa using hall
    have hfilled := filled_of_missing haccess hsupplied (List.getElem?_eq_getElem hm) hmissing
    simp only [hpaths, hall, false_or]
    exact hfilled.paths_eq_iff (unionPaths_bareInputs_ne_nil haccess hn hnitems)

namespace Sample

/-- A five in the branch of number one. -/
def five : Tree := .ofBranches [(.ofIndex 1, [.integer 5])]

/-- A five in the branches of numbers zero and one. -/
def fives : Tree := .ofBranches [(.ofIndex 0, [.integer 5]), (.ofIndex 1, [.integer 5])]

/-- The inputs of an addition to nothing. -/
def addends : List Matching.Input := bareInputs (Kind.maths .addition).signature.inputs [five]

end Sample

theorem paths_eq_bare_iff_sample :
    run (.maths .addition) [Sample.five] = .ok [Sample.fives] ∧
      ((∀ p, p ∈ Sample.fives.paths ↔ p ∈ (longest Sample.addends).map Matching.Branch.path) ↔
        (∀ n < 2, (givenAt [Sample.five] n).hasNoItems = false) ∨
          Covered (unionPaths Sample.addends) ∨
          (keepsPaths Sample.addends (leaves (unionPaths Sample.addends)) = false ∧
            UInt32.size ≤ (leaves (unionPaths Sample.addends)).length)) :=
  ⟨rfl, paths_eq_bare_iff (k := .maths .addition) rfl (by decide) (by decide) ⟨0, by decide⟩ rfl
    List.mem_cons_self⟩

/-- An addition to nothing puts its default into a branch that no input has. -/
theorem addition_default_branch :
    run (.maths .addition) [Sample.five] = .ok [Sample.fives] ∧
      Path.default ∈ Sample.fives.paths ∧
      Path.default ∉ (longest Sample.addends).map Matching.Branch.path :=
  ⟨rfl, by decide, by decide⟩

/-! ## A single tree -/

section

variable {t : Tree}

theorem paths_bareTree_single (hitems : t.hasNoItems = false) (n : Nat) :
    (bareTree (givenAt [t] n)).paths = if n = 0 then t.paths else [] := by
  cases n with
  | zero => simp [givenAt, bareTree, hitems]
  | succ n => rfl

theorem unionPaths_single (haccess : ∀ i ∈ inputs, i.access ≠ .tree) (hinputs : inputs ≠ [])
    (hitems : t.hasNoItems = false) : unionPaths (bareInputs inputs [t]) = t.paths := by
  refine SortedMap.eq_of_ascending (Matching.ascending_unionPaths _)
    t.branches.keys_ascending fun p => ?_
  rw [bareInputs, mem_unionPaths_inputsWith haccess]
  constructor
  · rintro ⟨n, i, hi, hp⟩
    rw [paths_bareTree_single hitems] at hp
    split at hp
    · exact hp
    · cases hp
  · intro hp
    refine ⟨0, _, List.getElem?_eq_getElem (List.length_pos_iff.2 hinputs), ?_⟩
    rwa [paths_bareTree_single hitems, if_pos rfl]

theorem keepsPaths_single (haccess : ∀ i ∈ inputs, i.access ≠ .tree) (hinputs : inputs ≠ [])
    (hitems : t.hasNoItems = false) : keepsPaths (bareInputs inputs [t]) t.paths = true := by
  rw [bareInputs, keepsPaths_inputsWith haccess]
  refine ⟨0, _, List.getElem?_eq_getElem (List.length_pos_iff.2 hinputs), ?_⟩
  rw [paths_bareTree_single hitems, if_pos rfl]

theorem leaves_paths (hfree : ∀ p ∈ t.paths, ∀ q ∈ t.paths, ¬ p.extends? q = true) :
    leaves t.paths = t.paths :=
  Matching.leaves_eq_self t.branches.keys_ascending hfree

/-- With nothing given but a tree no path of which extends another, the branches are those of the
tree exactly if it covers the default path. -/
theorem paths_eq_first_iff (hmode : k.signature.mode = .longest)
    (haccess : ∀ i ∈ k.signature.inputs, i.access ≠ .tree)
    (hsupplied : Supplied k.signature.inputs [t]) (hlength : 1 < k.signature.inputs.length)
    (hitems : t.hasNoItems = false) (hfree : ∀ p ∈ t.paths, ∀ q ∈ t.paths, ¬ p.extends? q = true)
    (hrun : run k [t] = .ok outs) (hout : out ∈ outs) :
    out.paths = t.paths ↔ Covered t.paths := by
  have hinputs : k.signature.inputs ≠ [] := List.ne_nil_of_length_pos (by omega)
  have hunion := unionPaths_single haccess hinputs hitems
  have hkeeps := keepsPaths_single haccess hinputs hitems
  have hleaves := leaves_paths hfree
  have hlongest : (longest (bareInputs k.signature.inputs [t])).map Matching.Branch.path
      = t.paths := by
    rw [Matching.paths_longest, hunion, hleaves, Matching.outputPaths, if_pos hkeeps]
  have hfilled := filled_of_missing haccess hsupplied (List.getElem?_eq_getElem hlength) rfl
  have hiff := hfilled.paths_eq_iff
    (unionPaths_bareInputs_ne_nil haccess (n := 0) (by omega) (by simpa [givenAt] using hitems))
  have hpaths := mem_paths_iff_filled hmode haccess hsupplied hinputs hrun hout
  rw [hlongest, hunion, hleaves, hkeeps] at hiff
  simp only [← hpaths, Bool.true_eq_false, false_and, or_false] at hiff
  rw [← hiff]
  constructor
  · intro heq p
    rw [heq]
  · exact SortedMap.eq_of_ascending out.branches.keys_ascending t.branches.keys_ascending

end

end

end Component
end TreeFlow
