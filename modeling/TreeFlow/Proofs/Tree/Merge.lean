import Mathlib.Algebra.GroupWithZero.Nat
import Mathlib.Data.List.Basic
import TreeFlow.Proofs.SortedMap
import TreeFlow.Proofs.Tree
/-
Merging puts branches behind each other.

What a path holds in a merged tree is read off both trees (`branch?_merge`), so merging is
associative and the empty tree makes no difference.  Any number of trees can be merged, and however
this is done two at a time, a path comes to hold what it holds in each of them, in their order.
-/

namespace TreeFlow
namespace Tree

theorem ext_branch? {t u : Tree} (h : ∀ p, t.branch? p = u.branch? p) : t = u :=
  congrArg Tree.mk (SortedMap.ext_get? h)

theorem mem_paths_iff_branch? {t : Tree} {p : Path} : p ∈ t.paths ↔ (t.branch? p).isSome :=
  SortedMap.mem_keys_iff_isSome

/-! ## Two trees -/

/-- One tree is added to another branch by branch. -/
theorem merge_eq_foldl (t u : Tree) :
    t.merge u = u.branches.entries.foldl (fun merged e => merged.extendBranch e.1 e.2) t := by
  have hbranches := SortedMap.foldl_alter_append u.branches.entries t.branches
  rw [SortedMap.gather_entries] at hbranches
  rw [merge, ← hbranches]
  exact (List.foldl_hom Tree.mk fun _ _ => rfl).symm

theorem branch?_merge (t u : Tree) (p : Path) :
    (t.merge u).branch? p = Option.merge (· ++ ·) (t.branch? p) (u.branch? p) :=
  SortedMap.get?_unionWith _ _ _ _

theorem branch?_empty (p : Path) : empty.branch? p = none := rfl

theorem merge_assoc (t u v : Tree) : (t.merge u).merge v = t.merge (u.merge v) := by
  refine ext_branch? fun p => ?_
  simp only [branch?_merge]
  cases t.branch? p with
  | none => simp
  | some a =>
    cases u.branch? p with
    | none => simp
    | some b => cases v.branch? p <;> simp [List.append_assoc]

theorem empty_merge (t : Tree) : empty.merge t = t :=
  ext_branch? fun p => by simp [branch?_merge, branch?_empty]

theorem merge_empty (t : Tree) : t.merge empty = t :=
  ext_branch? fun p => by simp [branch?_merge, branch?_empty]

instance : Std.Associative merge := ⟨merge_assoc⟩

theorem items_merge_perm (t u : Tree) : (t.merge u).items.Perm (t.items ++ u.items) := by
  rw [items_eq, items_eq, items_eq]
  exact SortedMap.flatMap_uniteEntries_perm _ _

theorem itemCount_merge (t u : Tree) : (t.merge u).itemCount = t.itemCount + u.itemCount := by
  rw [itemCount, (items_merge_perm t u).length_eq, List.length_append, itemCount, itemCount]

/-! ## Any number of trees -/

/-- The branches of all trees, one tree after the other. -/
def mergeAll (ts : List Tree) : Tree := ts.foldl merge empty

theorem mergeAll_cons (t : Tree) (ts : List Tree) : mergeAll (t :: ts) = t.merge (mergeAll ts) :=
  calc mergeAll (t :: ts)
    _ = ts.foldl merge (t.merge empty) := by rw [mergeAll, List.foldl_cons, empty_merge, merge_empty]
    _ = t.merge (mergeAll ts) := List.foldl_assoc

theorem mergeAll_append (ts us : List Tree) :
    mergeAll (ts ++ us) = (mergeAll ts).merge (mergeAll us) := by
  induction ts with
  | nil => exact (empty_merge _).symm
  | cons t ts ih => rw [List.cons_append, mergeAll_cons, ih, mergeAll_cons, merge_assoc]

theorem mem_paths_mergeAll {ts : List Tree} {p : Path} :
    p ∈ (mergeAll ts).paths ↔ ∃ t ∈ ts, p ∈ t.paths := by
  induction ts with
  | nil => simp [mergeAll, paths, empty, SortedMap.empty, SortedMap.keys]
  | cons t ts ih =>
    rw [mergeAll_cons, List.exists_mem_cons_iff, ← ih]
    exact SortedMap.mem_keys_unionWith

/-- A path holds what it holds in each tree, in their order. -/
theorem getD_branch?_mergeAll (ts : List Tree) (p : Path) :
    ((mergeAll ts).branch? p).getD [] = ts.flatMap fun t => (t.branch? p).getD [] := by
  induction ts with
  | nil => rfl
  | cons t ts ih =>
    rw [mergeAll_cons, branch?_merge, List.flatMap_cons, ← ih]
    cases t.branch? p with
    | none => simp
    | some a => cases (mergeAll ts).branch? p <;> simp

theorem itemCount_mergeAll (ts : List Tree) :
    (mergeAll ts).itemCount = (ts.map itemCount).sum := by
  induction ts with
  | nil => rfl
  | cons t ts ih => rw [mergeAll_cons, itemCount_merge, ih, List.map_cons, List.sum_cons]

/-! ## Two at a time -/

/-- A way of merging trees two at a time. -/
inductive Grouping where
  | nothing
  | single (t : Tree)
  | both (left right : Grouping)

namespace Grouping

/-- The trees from left to right. -/
def trees : Grouping → List Tree
  | nothing => []
  | single t => [t]
  | both left right => left.trees ++ right.trees

def merged : Grouping → Tree
  | nothing => empty
  | single t => t
  | both left right => left.merged.merge right.merged

/-- It does not matter how the trees are grouped. -/
theorem merged_eq (g : Grouping) : g.merged = mergeAll g.trees := by
  induction g with
  | nothing => rfl
  | single t => rw [merged, trees, mergeAll_cons]; exact (merge_empty t).symm
  | both left right hleft hright => rw [merged, trees, mergeAll_append, hleft, hright]

end Grouping
end Tree
end TreeFlow
