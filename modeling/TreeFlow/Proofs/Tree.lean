import Mathlib.Data.List.Flatten
import TreeFlow.Proofs.SortedMap
import TreeFlow.Tree
/-
Parts of trees.

A tree can be cut down to a single branch, or to the branches that no path of it extends.
-/

namespace TreeFlow
namespace Tree

variable {t : Tree} {p : Path}

theorem items_eq (t : Tree) : t.items = t.branches.entries.flatMap Prod.snd := by
  rw [items, SortedMap.values, List.flatMap_def]

theorem paths_eq_nil_iff : t.paths = [] ↔ t = .empty := by
  constructor
  · intro h
    obtain ⟨⟨entries, ascending⟩⟩ := t
    obtain rfl := List.map_eq_nil_iff.1 h
    rfl
  · intro h
    rw [h]
    rfl

/-- No branch is empty. -/
def Full (t : Tree) : Prop := ∀ items ∈ t.branches.values, items ≠ []

instance (t : Tree) : Decidable t.Full := inferInstanceAs (Decidable (∀ items ∈ _, items ≠ []))

theorem Full.hasNoItems (h : t.Full) (hpaths : t.paths ≠ []) : t.hasNoItems = false := by
  obtain ⟨p, hp⟩ := List.exists_mem_of_ne_nil _ hpaths
  obtain ⟨items, hitems⟩ := SortedMap.mem_keys_iff.1 hp
  have hmem : items ∈ t.branches.values := List.mem_map_of_mem (f := Prod.snd) hitems
  rw [Tree.hasNoItems, List.all_eq_false]
  exact ⟨items, hmem, by simpa using h items hmem⟩

/-! ## A single branch -/

/-- The branch of one path, if there is one. -/
def only (t : Tree) (p : Path) : Tree := ⟨t.branches.only p⟩

theorem branch?_only (t : Tree) (p q : Path) :
    (t.only p).branch? q = if q = p then t.branch? q else none :=
  SortedMap.get?_only _ _ _

theorem branch?_only_self (t : Tree) (p : Path) : (t.only p).branch? p = t.branch? p := by
  rw [branch?_only, if_pos rfl]

theorem paths_only (h : p ∈ t.paths) : (t.only p).paths = [p] := SortedMap.keys_only h

theorem Full.only (h : t.Full) (p : Path) : (t.only p).Full := by
  intro items hitems
  obtain ⟨e, he, rfl⟩ := List.mem_map.1 hitems
  exact h e.2 (List.mem_map_of_mem (List.mem_filter.1 he).1)

theorem gather_only (parts : List (Path × List Item)) (p : Path) :
    (gather parts).only p = gather (parts.filter fun e => e.1 = p) :=
  congrArg Tree.mk (SortedMap.gather_only parts p)

/-! ## Branches that no path extends -/

def leafBranches (t : Tree) : List (Path × List Item) :=
  t.branches.entries.filter fun e => t.paths.all fun q => !e.1.extends? q

/-- The items of the branches that no path of the tree extends, in path order. -/
def leafItems (t : Tree) : List Item := t.leafBranches.flatMap Prod.snd

theorem leafItems_sublist (t : Tree) : t.leafItems.Sublist t.items := by
  rw [items_eq]
  exact List.filter_sublist.flatMap Prod.snd

/-- Items are missing from the leaves if they stand in a branch above another one. -/
theorem leafItems_eq_items_iff (t : Tree) :
    t.leafItems = t.items ↔
      ∀ e ∈ t.branches.entries, (∃ q ∈ t.paths, e.1.extends? q = true) → e.2 = [] := by
  let above := t.branches.entries.filter fun e => !t.paths.all fun q => !e.1.extends? q
  have hperm : (t.leafBranches ++ above).Perm t.branches.entries := List.filter_append_perm _ _
  have hcount : t.items.length = t.leafItems.length + (above.flatMap Prod.snd).length := by
    rw [items_eq, ← (hperm.flatMap_right Prod.snd).length_eq, List.flatMap_append,
      List.length_append, leafItems]
  have habove : (∀ e ∈ t.branches.entries, (∃ q ∈ t.paths, e.1.extends? q = true) → e.2 = []) ↔
      above.flatMap Prod.snd = [] := by
    simp [above, List.flatMap_eq_nil_iff]
  rw [habove, ← t.leafItems_sublist.length_eq, ← List.length_eq_zero_iff, hcount]
  omega

end Tree
end TreeFlow
