import TreeFlow.Component.Run
import TreeFlow.Proofs.SortedMap
/-
Structural steps by way of a component and by way of a mapping.

Flattening, grafting and simplifying can be asked for on a parameter, where the tree is mapped, and
as a component, where the tree is a whole argument of the one call and the result is put together
from what the call gives.  Both do the same step (`Restructure.apply_mapping`), and putting a tree
into an empty output changes nothing.  What differs is the policy on inputs without items: such a
component is not called at all, so it gives no branches, where the mapping may keep some.
`Restructure.run_iff_mapping` says for which trees that shows.
-/

namespace TreeFlow

/-! ## Steps on trees without items -/

namespace Tree

variable {t : Tree}

theorem ofBranches_eq_empty_iff {branches : List (Path × List Item)} :
    ofBranches branches = empty ↔ branches = [] := by
  constructor
  · intro h
    have hpaths : ∀ p, p ∉ branches.map Prod.fst := fun p hp => by
      have hmem : p ∈ (ofBranches branches).paths := SortedMap.mem_keys_ofList.2 hp
      rw [h] at hmem
      cases hmem
    exact List.map_eq_nil_iff.1 (List.eq_nil_iff_forall_not_mem.2 hpaths)
  · intro h
    rw [h]
    rfl

theorem isEmpty_iff : t.isEmpty = true ↔ t.branches.entries = [] :=
  List.isEmpty_iff

theorem hasNoItems_of_isEmpty (h : t.isEmpty = true) : t.hasNoItems = true := by
  rw [hasNoItems, SortedMap.values, isEmpty_iff.1 h]
  rfl

theorem hasNoItems_iff_forall :
    t.hasNoItems = true ↔ ∀ e ∈ t.branches.entries, e.2 = [] := by
  simp [hasNoItems, SortedMap.values]

/-- Grafting makes a branch for each item and no other. -/
theorem graft_eq_empty_iff : t.graft = empty ↔ t.hasNoItems = true := by
  rw [graft, ofBranches_eq_empty_iff, List.flatMap_eq_nil_iff, hasNoItems_iff_forall]
  constructor
  · intro h e he
    obtain ⟨n, hn⟩ := List.getElem?_of_mem he
    have hnone := h (e, n) (List.mk_mem_zipIdx_iff_getElem?.2 hn)
    simpa [graftedItems] using hnone
  · intro h e he
    have hitems : e.1.2 = [] := h e.1 (List.fst_mem_of_mem_zipIdx he)
    simp [graftedItems, hitems]

theorem flatten_eq_empty_iff : t.flatten = empty ↔ t.isEmpty = true := by
  cases h : t.isEmpty with
  | true => simp [flatten, h]
  | false => simp [flatten, h, ofBranches_eq_empty_iff]

theorem length_numberPaths (before : List (UInt32 × UInt32)) (l : List (List UInt32)) :
    (numberPaths before l).length = l.length := by
  induction l generalizing before with
  | nil => rfl
  | cons p l ih => rw [numberPaths, List.length_cons, ih, List.length_cons]

/-- Simplifying renames branches and keeps each of them. -/
theorem simplify_eq_empty_iff : t.simplify = empty ↔ t.isEmpty = true := by
  have hlength : ∀ l : List (List UInt32), l.length = t.branches.entries.length →
      ((numberPaths [] l).zip t.branches.values = [] ↔ t.branches.entries = []) := fun l hl => by
    rw [← List.length_eq_zero_iff, List.length_zip, length_numberPaths, hl, SortedMap.values,
      List.length_map, Nat.min_self, List.length_eq_zero_iff]
  rw [simplify, ofBranches_eq_empty_iff, isEmpty_iff, hlength]
  simp [paths, SortedMap.keys]

theorem gather_entries (t : Tree) : gather t.branches.entries = t :=
  congrArg Tree.mk (SortedMap.gather_entries t.branches)

end Tree

/-! ## Both ways -/

namespace Component

/-- A tree that is put into an empty output is the output. -/
theorem outputTree_tree (t : Tree) : outputTree [⟨.default, [[.tree t]]⟩] 0 = t := by
  show Tree.gather (t.branches.entries ++ [] ++ []) = t
  rw [List.append_nil, List.append_nil, Tree.gather_entries]

namespace Restructure

/-- The mapping that does the step of a component. -/
def mapping : Restructure → Mapping
  | .flatten => .flatten
  | .graft => .graft
  | .simplify => .simplify

theorem apply_mapping (s : Restructure) (t : Tree) : s.mapping.apply t = s.apply t := by
  cases s <;> rfl

/-- Which trees a step leaves no branch of. -/
theorem mapping_eq_empty_iff (s : Restructure) (t : Tree) :
    s.mapping.apply t = .empty ↔ t.hasNoItems = true ∧ (t.isEmpty = true ∨ s = .graft) := by
  have hempty : t.isEmpty = true → t.hasNoItems = true := Tree.hasNoItems_of_isEmpty
  cases s with
  | flatten =>
    show t.flatten = .empty ↔ _
    rw [Tree.flatten_eq_empty_iff]
    simpa using hempty
  | graft =>
    show t.graft = .empty ↔ _
    rw [Tree.graft_eq_empty_iff]
    simp
  | simplify =>
    show t.simplify = .empty ↔ _
    rw [Tree.simplify_eq_empty_iff]
    simpa using hempty

theorem inputTrees?_signature (s : Restructure) (t : Tree) :
    inputTrees? s.signature.inputs [t] = if t.hasNoItems then none else some [t] := by
  have htree : inputTree? (.tree "Tree" ["T", "Data"]) t
      = if t.hasNoItems then none else some t := by
    cases h : t.hasNoItems <;> simp [inputTree?, Input.tree, h]
  show (List.mapM _ [(Input.tree "Tree" ["T", "Data"], 0)]) = _
  rw [List.mapM_cons, List.mapM_nil]
  show ((inputTree? (.tree "Tree" ["T", "Data"]) t).bind fun u => some [u]) = _
  rw [htree]
  cases t.hasNoItems <;> rfl

/-- A component makes one call with the whole tree, unless the tree has no items. -/
theorem run_eq (s : Restructure) (t : Tree) :
    run (.tree s) [t] = .ok [if t.hasNoItems then .empty else s.mapping.apply t] := by
  have htrees := s.inputTrees?_signature t
  cases hitems : t.hasNoItems with
  | true =>
    rw [hitems, if_pos rfl] at htrees
    simp only [run, Kind.signature, htrees]
    rfl
  | false =>
    rw [hitems, if_neg Bool.false_ne_true] at htrees
    simp only [run, Kind.signature, htrees]
    show Except.ok [outputTree [⟨.default, [[.tree (s.apply t)]]⟩] 0] = _
    rw [outputTree_tree, apply_mapping, if_neg Bool.false_ne_true]

/-- A component gives the tree that its mapping gives, but for one case: of a tree that has branches
and no items it gives nothing, where flattening and simplifying keep branches. -/
theorem run_iff_mapping (s : Restructure) (t : Tree) :
    run (.tree s) [t] = .ok [if t.hasNoItems then .empty else s.mapping.apply t] ∧
      (run (.tree s) [t] = .ok [s.mapping.apply t] ↔
        t.hasNoItems = false ∨ t.isEmpty = true ∨ s = .graft) := by
  refine ⟨s.run_eq t, ?_⟩
  rw [s.run_eq t, Except.ok.injEq, List.cons.injEq, eq_self, and_true]
  cases hitems : t.hasNoItems with
  | true =>
    rw [if_pos rfl, eq_comm, mapping_eq_empty_iff, hitems]
    simp
  | false => simp

end Restructure

/-- A tree with a branch and no items. -/
def Sample.hollow : Tree := .ofBranches [(.default, [])]

theorem Restructure.hollow_branch_lost :
    run (.tree .flatten) [Sample.hollow] = .ok [.empty] ∧
      Mapping.flatten.apply Sample.hollow = Sample.hollow ∧
      run (.tree .flatten) [Sample.hollow] ≠ .ok [Mapping.flatten.apply Sample.hollow] := by
  refine ⟨rfl, rfl, ?_⟩
  decide

end Component
end TreeFlow
