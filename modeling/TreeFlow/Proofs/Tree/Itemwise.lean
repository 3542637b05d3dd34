import TreeFlow.Expression
import TreeFlow.Proofs.Tree.Graft
import TreeFlow.Proofs.Tree.Merge
import TreeFlow.Proofs.Tree.Simplify
/-
Changing items and moving them.

A structural step looks at the paths of a tree and at how many items stand in each branch, and a
change of the items leaves these as they are.  So each step can be taken before the items are
changed or after that.
-/

namespace TreeFlow
namespace Tree

variable (f : Item → Item)

/-! ## Changed items -/

theorem mapItems_ofBranches (branches : List (Path × List Item)) :
    (ofBranches branches).mapItems f = ofBranches (branches.map fun e => (e.1, e.2.map f)) :=
  congrArg Tree.mk (SortedMap.map_ofList (List.map f) branches)

theorem mapItems_empty : empty.mapItems f = empty := rfl

variable (t : Tree)

theorem entries_mapItems :
    (t.mapItems f).branches.entries = t.branches.entries.map fun e => (e.1, e.2.map f) := rfl

theorem paths_mapItems : (t.mapItems f).paths = t.paths := by
  rw [paths, SortedMap.keys, entries_mapItems, List.map_map]
  rfl

theorem values_mapItems :
    (t.mapItems f).branches.values = t.branches.values.map (List.map f) := by
  rw [SortedMap.values, entries_mapItems, List.map_map, SortedMap.values, List.map_map]
  rfl

theorem items_mapItems : (t.mapItems f).items = t.items.map f := by
  rw [items, values_mapItems, items, List.map_flatten]

theorem isEmpty_mapItems : (t.mapItems f).isEmpty = t.isEmpty :=
  List.isEmpty_map

/-! ## Steps -/

theorem graftedItems_map (p : Path) (items : List Item) :
    graftedItems p (items.map f) = (graftedItems p items).map fun e => (e.1, e.2.map f) := by
  rw [graftedItems, List.zipIdx_map, List.map_map, graftedItems, List.map_map]
  rfl

theorem graft_mapItems : (t.mapItems f).graft = t.graft.mapItems f := by
  have hparent : (t.mapItems f).graftParent = t.graftParent := by
    unfold graftParent hasNestedPaths
    rw [paths_mapItems]
  rw [graft_eq, graft_eq, mapItems_ofBranches, graftedBranches, graftedBranches, hparent,
    entries_mapItems, List.zipIdx_map, List.flatMap_map, List.map_flatMap]
  simp only [Prod.map_fst, Prod.map_snd, id, graftedItems_map]

theorem flatten_mapItems : (t.mapItems f).flatten = t.flatten.mapItems f := by
  rw [flatten, flatten, isEmpty_mapItems, items_mapItems, apply_ite (mapItems f),
    mapItems_ofBranches, mapItems_empty]
  rfl

theorem simplify_mapItems : (t.mapItems f).simplify = t.simplify.mapItems f := by
  have hpaths : (t.mapItems f).simplifiedPaths = t.simplifiedPaths := by
    rw [simplifiedPaths, stripped, paths_mapItems, simplifiedPaths, stripped]
  rw [simplify_eq, simplify_eq, hpaths, values_mapItems, mapItems_ofBranches, List.zip_map_right]
  rfl

theorem reverseBranches_mapItems :
    (t.mapItems f).reverseBranches = t.reverseBranches.mapItems f := by
  refine congrArg Tree.mk (SortedMap.ext ?_)
  show (t.branches.entries.map _).map _ = (t.branches.entries.map _).map _
  rw [List.map_map, List.map_map]
  exact List.map_congr_left fun e _ => congrArg (Prod.mk e.1) List.map_reverse.symm

theorem mapItems_merge (u : Tree) :
    (t.merge u).mapItems f = (t.mapItems f).merge (u.mapItems f) :=
  congrArg Tree.mk (SortedMap.map_unionWith (fun _ _ => List.map_append) t.branches u.branches)

end Tree

theorem Mapping.apply_mapItems (m : Mapping) (f : Item → Item) (t : Tree) :
    m.apply (t.mapItems f) = (m.apply t).mapItems f := by
  cases m with
  | none => rfl
  | graft => exact t.graft_mapItems f
  | flatten => exact t.flatten_mapItems f
  | simplify => exact t.simplify_mapItems f

end TreeFlow
