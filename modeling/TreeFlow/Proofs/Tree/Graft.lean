import TreeFlow.Proofs.Tree
import TreeFlow.Proofs.Tree.Nested
/-
Grafting isolates every item.

The branches of a grafted tree are listed branch by branch and item by item.  The paths below which
they are put part from each other (`pairwise_graftParent`): if no path of the tree extends another,
these are its own paths, and else they are the numbers of its branches.  What is put below paths that
part does so as well, so the list is in path order already, and nothing in it is written over
(`entries_graft`).
-/

namespace TreeFlow
namespace Tree

variable {t : Tree}

/-! ## Nested paths -/

/-- Some path of the tree extends another. -/
def Nested (t : Tree) : Prop := ∃ p ∈ t.paths, ∃ q ∈ t.paths, p.extends? q = true

instance (t : Tree) : Decidable t.Nested :=
  inferInstanceAs (Decidable (∃ p ∈ t.paths, ∃ q ∈ t.paths, p.extends? q = true))

theorem not_nested_iff : ¬ t.Nested ↔ ∀ p ∈ t.paths, ∀ q ∈ t.paths, ¬ p.extends? q = true := by
  simp only [Nested, not_exists, not_and]

theorem pairwise_precedes_paths_iff : t.paths.Pairwise Path.Precedes ↔ ¬ t.Nested := by
  rw [not_nested_iff]
  exact Path.pairwise_precedes_iff t.branches.keys_ascending

theorem hasNestedPaths_iff : t.hasNestedPaths = true ↔ t.Nested :=
  hasNestedNeighbours_iff t.branches.keys_ascending

/-! ## The branches of a grafted tree -/

/-- The path below which the items of a branch are put. -/
def graftParent (t : Tree) (b : Nat) (p : Path) : Path :=
  if t.hasNestedPaths then .ofIndex b else p

def graftedBranches (t : Tree) : List (Path × List Item) :=
  t.branches.entries.zipIdx.flatMap fun e => graftedItems (t.graftParent e.2 e.1.1) e.1.2

theorem graft_eq (t : Tree) : t.graft = ofBranches t.graftedBranches := rfl

theorem graftParent_of_nested (h : t.Nested) (b : Nat) (p : Path) :
    t.graftParent b p = .ofIndex b :=
  if_pos (hasNestedPaths_iff.2 h)

theorem graftParent_of_not_nested (h : ¬ t.Nested) (b : Nat) (p : Path) : t.graftParent b p = p :=
  if_neg fun hnested => h (hasNestedPaths_iff.1 hnested)

/-- The items of different branches are put below paths that part. -/
theorem pairwise_graftParent (hbranches : t.branchCount ≤ UInt32.size) :
    (t.branches.entries.zipIdx.map fun e => t.graftParent e.2 e.1.1).Pairwise Path.Precedes := by
  by_cases hnested : t.Nested
  · refine List.pairwise_iff_getElem.2 fun i j hi hj hij => ?_
    rw [List.length_map, List.length_zipIdx] at hj
    simp only [List.getElem_map, List.getElem_zipIdx, Nat.zero_add, graftParent_of_nested hnested]
    exact Path.precedes_ofIndex hij (Nat.lt_of_lt_of_le hj hbranches)
  · have hparents : (t.branches.entries.zipIdx.map fun e => t.graftParent e.2 e.1.1) = t.paths := by
      simp only [graftParent_of_not_nested hnested]
      rw [paths, SortedMap.keys, ← List.zipIdx_map_fst 0 t.branches.entries, List.map_map,
        List.zipIdx_map_fst]
      rfl
    rw [hparents]
    exact pairwise_precedes_paths_iff.2 hnested

theorem pairwise_graftedItems (p : Path) {items : List Item} (h : items.length ≤ UInt32.size) :
    (graftedItems p items).Pairwise fun d e => d.1.Precedes e.1 := by
  refine List.pairwise_iff_getElem.2 fun i j hi hj hij => ?_
  rw [graftedItems, List.length_map, List.length_zipIdx] at hj
  simp only [graftedItems, List.getElem_map, List.getElem_zipIdx, Nat.zero_add]
  have hj' : j < UInt32.size := Nat.lt_of_lt_of_le hj h
  exact Path.precedes_child p ((UInt32.ofNat_lt_iff_lt (Nat.lt_trans hij hj') hj').2 hij)

theorem exists_child_of_mem_graftedItems {p : Path} {items : List Item} {e : Path × List Item}
    (h : e ∈ graftedItems p items) : ∃ i, e.1 = p.child i := by
  obtain ⟨d, -, rfl⟩ := List.mem_map.1 h
  exact ⟨_, rfl⟩

theorem map_snd_graftedItems (p : Path) (items : List Item) :
    (graftedItems p items).map Prod.snd = items.map fun item => [item] := by
  rw [graftedItems, List.map_map]
  conv_rhs => rw [← List.zipIdx_map_fst 0 items, List.map_map]
  rfl

section

variable (hbranches : t.branchCount ≤ UInt32.size)
  (hitems : ∀ items ∈ t.branches.values, items.length ≤ UInt32.size)

include hbranches hitems

theorem pairwise_graftedBranches :
    t.graftedBranches.Pairwise fun d e => d.1.Precedes e.1 := by
  refine List.pairwise_flatMap.2 ⟨fun e he => ?_, ?_⟩
  · have hmem : e.1.2 ∈ t.branches.values :=
      List.mem_map_of_mem (f := Prod.snd) (List.fst_mem_of_mem_zipIdx he)
    exact pairwise_graftedItems _ (hitems _ hmem)
  · refine (List.pairwise_map.1 (pairwise_graftParent hbranches)).imp fun hparents x hx y hy => ?_
    obtain ⟨i, hi⟩ := exists_child_of_mem_graftedItems hx
    obtain ⟨j, hj⟩ := exists_child_of_mem_graftedItems hy
    rw [hi, hj]
    exact hparents.child i j

/-- The branches are listed in path order, each under a path of its own. -/
theorem entries_graft : t.graft.branches.entries = t.graftedBranches :=
  SortedMap.entries_ofList <| (pairwise_graftedBranches hbranches hitems).imp fun h =>
    (Path.precedes_iff.1 h).1

theorem not_nested_graft : ¬ t.graft.Nested := by
  rw [← pairwise_precedes_paths_iff, paths, SortedMap.keys, entries_graft hbranches hitems]
  exact List.pairwise_map.2 (pairwise_graftedBranches hbranches hitems)

theorem values_graft : t.graft.branches.values = t.items.map fun item => [item] := by
  rw [SortedMap.values, entries_graft hbranches hitems, graftedBranches, List.map_flatMap]
  simp only [map_snd_graftedItems]
  rw [items_eq, List.map_flatMap]
  conv_rhs => rw [← List.zipIdx_map_fst 0 t.branches.entries, List.flatMap_map]

theorem branch?_graft_eq_some_iff {q : Path} {single : List Item} :
    t.graft.branch? q = some single ↔
      ∃ b p items i item, t.branches.entries[b]? = some (p, items) ∧ items[i]? = some item ∧
        q = (t.graftParent b p).child (.ofNat i) ∧ single = [item] := by
  rw [branch?, SortedMap.get?_eq_some_iff, entries_graft hbranches hitems, graftedBranches,
    List.mem_flatMap]
  constructor
  · intro h
    obtain ⟨⟨⟨p, items⟩, b⟩, he, hmem⟩ := h
    obtain ⟨⟨item, i⟩, hitem, heq⟩ := List.mem_map.1 hmem
    obtain ⟨hq, hsingle⟩ := Prod.mk.inj heq
    exact ⟨b, p, items, i, item, List.mk_mem_zipIdx_iff_getElem?.1 he,
      List.mk_mem_zipIdx_iff_getElem?.1 hitem, hq.symm, hsingle.symm⟩
  · intro h
    obtain ⟨b, p, items, i, item, he, hitem, rfl, rfl⟩ := h
    exact ⟨((p, items), b), List.mk_mem_zipIdx_iff_getElem?.2 he,
      List.mem_map.2 ⟨(item, i), List.mk_mem_zipIdx_iff_getElem?.2 hitem, rfl⟩⟩

end

/-- Grafting gives each item a branch of its own, in the order of a walk over the tree.  Its path
is the path of the item's branch, or the number of that branch if paths are nested, with the place
of the item behind it.  The new paths are not nested. -/
theorem graft_isolates (t : Tree) (hbranches : t.branchCount ≤ UInt32.size)
    (hitems : ∀ items ∈ t.branches.values, items.length ≤ UInt32.size) :
    t.graft.branches.values = t.items.map (fun item => [item]) ∧
      (¬ t.Nested → ∀ q single, t.graft.branch? q = some single ↔
        ∃ p items i item, t.branch? p = some items ∧ items[i]? = some item ∧
          q = ⟨p.segments ++ [UInt32.ofNat i]⟩ ∧ single = [item]) ∧
      (t.Nested → ∀ q single, t.graft.branch? q = some single ↔
        ∃ b p items i item, t.branches.entries[b]? = some (p, items) ∧ items[i]? = some item ∧
          q = ⟨[UInt32.ofNat b, UInt32.ofNat i]⟩ ∧ single = [item]) ∧
      ¬ t.graft.Nested := by
  refine ⟨values_graft hbranches hitems, fun hflat q single => ?_, fun hnested q single => ?_,
    not_nested_graft hbranches hitems⟩
  · rw [branch?_graft_eq_some_iff hbranches hitems]
    simp only [graftParent_of_not_nested hflat]
    constructor
    · intro h
      obtain ⟨b, p, items, i, item, hentry, h⟩ := h
      exact ⟨p, items, i, item, SortedMap.get?_eq_some_iff.2 (List.mem_of_getElem? hentry), h⟩
    · intro h
      obtain ⟨p, items, i, item, hp, h⟩ := h
      obtain ⟨b, hentry⟩ := List.getElem?_of_mem (SortedMap.get?_eq_some_iff.1 hp)
      exact ⟨b, p, items, i, item, hentry, h⟩
  · rw [branch?_graft_eq_some_iff hbranches hitems]
    simp only [graftParent_of_nested hnested]
    rfl

/-- A branch above another one, and an empty branch. -/
def Sample.stacked : Tree :=
  ofBranches [(⟨[0]⟩, [.integer 1, .integer 2]), (⟨[0, 1]⟩, [.integer 3]), (⟨[4]⟩, []),
    (⟨[5]⟩, [.integer 4])]

theorem graft_isolates_sample :
    Sample.stacked.branchCount ≤ UInt32.size ∧
      (∀ items ∈ Sample.stacked.branches.values, items.length ≤ UInt32.size) ∧
      Sample.stacked.Nested ∧
      Sample.stacked.graft.branches.values
        = [[.integer 1], [.integer 2], [.integer 3], [.integer 4]] ∧
      Sample.stacked.graft.branch? ⟨[3, 0]⟩ = some [.integer 4] ∧
      ¬ Sample.stacked.graft.Nested := by
  have hbranches : Sample.stacked.branchCount ≤ UInt32.size := by decide
  have hitems : ∀ items ∈ Sample.stacked.branches.values, items.length ≤ UInt32.size := by decide
  have hnested : Sample.stacked.Nested := by decide
  obtain ⟨hvalues, -, hpaths, hflat⟩ := graft_isolates Sample.stacked hbranches hitems
  refine ⟨hbranches, hitems, hnested, hvalues, (hpaths hnested _ _).2 ?_, hflat⟩
  exact ⟨3, ⟨[5]⟩, [.integer 4], 0, .integer 4, rfl, rfl, rfl, rfl⟩

end Tree
end TreeFlow
