import Mathlib.Data.List.Infix
import TreeFlow.Proofs.Path
import TreeFlow.Proofs.SortedMap
import TreeFlow.Tree.Structure
/-
Nested paths.

In path order the extensions of a path follow it directly and in one piece (`takeWhile_extends?`).
So a path with extensions has one of them right behind it, and a walk over neighbours tells whether
any path is nested in another (`hasNestedPaths_exact`).
-/

namespace TreeFlow
namespace Tree

/-- The extensions of a path are what stands right behind it. -/
theorem takeWhile_extends? {p : Path} {before behind : List Path}
    (h : (before ++ p :: behind).Pairwise fun p q => compare p q = .lt) :
    behind.takeWhile p.extends? = (before ++ p :: behind).filter p.extends? := by
  obtain ⟨-, hrest, hbefore⟩ := List.pairwise_append.1 h
  obtain ⟨hp, hbehind⟩ := List.pairwise_cons.1 hrest
  have hnone : before.filter p.extends? = [] := List.filter_eq_nil_iff.2 fun q hq =>
    Path.not_extends?_of_lt (hbefore q hq p List.mem_cons_self)
  have hclosed : behind.Pairwise fun q r => p.extends? r = true → p.extends? q = true :=
    hbehind.imp_of_mem fun hq _ hqr => Path.extends?_of_between (hp _ hq) hqr
  rw [List.filter_append, hnone, List.nil_append,
    List.filter_cons_of_neg (Path.not_extends?_self p)]
  exact SortedMap.takeWhile_eq_filter_of_pairwise hclosed

/-- If there is any extension of a path, the path after it is one. -/
theorem exists_next_of_extends? {l : List Path}
    (h : l.Pairwise fun p q => compare p q = .lt) {p q : Path} (hp : p ∈ l) (hq : q ∈ l)
    (hpq : p.extends? q = true) : ∃ r, [p, r] <:+: l ∧ p.extends? r = true := by
  obtain ⟨before, behind, rfl⟩ := List.append_of_mem hp
  have hmem : q ∈ behind.takeWhile p.extends? := by
    rw [takeWhile_extends? h]
    exact List.mem_filter.2 ⟨hq, hpq⟩
  cases behind with
  | nil => cases hmem
  | cons r behind =>
    refine ⟨r, ⟨before, behind, by simp⟩, ?_⟩
    by_contra hr
    rw [List.takeWhile_cons_of_neg hr] at hmem
    cases hmem

theorem hasNestedNeighbours_iff_next {l : List Path} :
    hasNestedNeighbours l = true ↔ ∃ p q, [p, q] <:+: l ∧ p.extends? q = true := by
  fun_induction hasNestedNeighbours l with
  | case1 p q rest ih =>
    rw [Bool.or_eq_true, ih]
    constructor
    · intro h
      rcases h with hpq | ⟨p', q', hinfix, hext⟩
      · exact ⟨p, q, ⟨[], rest, rfl⟩, hpq⟩
      · exact ⟨p', q', List.infix_cons hinfix, hext⟩
    · intro h
      obtain ⟨p', q', hinfix, hext⟩ := h
      rcases List.infix_cons_iff.1 hinfix with hfirst | hinfix
      · left
        obtain ⟨rfl, hnext⟩ := List.cons_prefix_cons.1 hfirst
        obtain ⟨rfl, -⟩ := List.cons_prefix_cons.1 hnext
        exact hext
      · exact .inr ⟨p', q', hinfix, hext⟩
  | case2 l hshort =>
    refine iff_of_false Bool.false_ne_true fun h => ?_
    obtain ⟨p, q, ⟨before, behind, rfl⟩, -⟩ := h
    cases before with
    | nil => exact hshort p q behind rfl
    | cons r before =>
      cases before with
      | nil => exact hshort r p _ rfl
      | cons s before => exact hshort r s _ rfl

/-- In path order, neighbours are nested if any two paths are. -/
theorem hasNestedNeighbours_iff {l : List Path} (h : l.Pairwise fun p q => compare p q = .lt) :
    hasNestedNeighbours l = true ↔ ∃ p ∈ l, ∃ q ∈ l, p.extends? q = true := by
  rw [hasNestedNeighbours_iff_next]
  constructor
  · intro hnested
    obtain ⟨p, q, hinfix, hext⟩ := hnested
    exact ⟨p, hinfix.subset (by simp), q, hinfix.subset (by simp), hext⟩
  · intro hnested
    obtain ⟨p, hp, q, hq, hext⟩ := hnested
    obtain ⟨r, hinfix, hr⟩ := exists_next_of_extends? h hp hq hext
    exact ⟨p, r, hinfix, hr⟩

/-- The test finds nested paths among neighbours in path order, and it finds some exactly if a path
of the tree, anywhere in it, is extended by another path of the tree. -/
theorem hasNestedPaths_exact (t : Tree) :
    (t.hasNestedPaths = true ↔
      ∃ p q, [p, q] <:+: t.paths ∧ ∃ s, s ≠ [] ∧ p.segments ++ s = q.segments) ∧
    (t.hasNestedPaths = true ↔
      ∃ p q, t.hasPath p = true ∧ t.hasPath q = true ∧
        ∃ s, s ≠ [] ∧ p.segments ++ s = q.segments) := by
  simp only [← Path.extends?_iff]
  refine ⟨hasNestedNeighbours_iff_next, ?_⟩
  have hpaths : ∀ p, t.hasPath p = true ↔ p ∈ t.paths := fun p =>
    SortedMap.mem_keys_iff_isSome.symm
  simp only [hpaths, exists_and_left]
  exact hasNestedNeighbours_iff t.branches.keys_ascending

end Tree
end TreeFlow
