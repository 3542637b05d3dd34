import Mathlib.Data.Set.Function
import TreeFlow.Proofs.SortedMap
import TreeFlow.Proofs.Tree.Numbering
/-
Simplifying keeps the structure of a tree.

The segments that are stripped are common to all paths (`shared_append_drop`), and what is left is
numbered in path order.  Each branch moves to a path of its own (`simplifiedPath`); any two of the
new paths stand to each other as the two old ones do (`compare_simplifiedPath`,
`extends?_simplifiedPath`), so no branch is written over another, and a walk over the tree meets the
same items in the same order.
-/

namespace TreeFlow
namespace Tree

variable {t : Tree} {p q : Path}

/-! ## Stripped segments -/

theorem le_sharedLength_iff {p q : List UInt32} {n : Nat} :
    n ≤ sharedLength p q ↔ n ≤ p.length ∧ n ≤ q.length ∧ p.take n = q.take n := by
  fun_induction sharedLength p q generalizing n with
  | case1 p b q ih =>
    cases n with
    | zero => simp
    | succ n => simp [ih]
  | case2 a p b q hab =>
    cases n with
    | zero => simp
    | succ n => simp [hab]
  | case3 p q hneither =>
    cases n with
    | zero => simp
    | succ n =>
      cases p with
      | nil => simp
      | cons a p =>
        cases q with
        | nil => simp
        | cons b q => exact absurd rfl (hneither a p b q rfl)

theorem le_foldl_min_iff {α : Type} {f : α → Nat} {l : List α} {a n : Nat} :
    n ≤ l.foldl (fun m x => min m (f x)) a ↔ n ≤ a ∧ ∀ x ∈ l, n ≤ f x := by
  induction l generalizing a with
  | nil => simp
  | cons x l ih => rw [List.foldl_cons, ih, Nat.le_min, List.forall_mem_cons, and_assoc]

/-- As many segments are stripped as all paths share while each has more than these. -/
theorem le_strippedLength_iff {l : List (List UInt32)} (hl : l ≠ []) {n : Nat} :
    n ≤ strippedLength l ↔
      n = 0 ∨ (∀ p ∈ l, n < p.length) ∧ ∀ p ∈ l, ∀ q ∈ l, p.take n = q.take n := by
  obtain ⟨p, rest, rfl⟩ := List.exists_cons_of_ne_nil hl
  have hshort : ∀ s, n ≤ s - 1 ↔ n = 0 ∨ n + 1 ≤ s := by intro s; omega
  simp only [strippedLength, Nat.le_min, hshort, le_foldl_min_iff, le_sharedLength_iff]
  constructor
  · intro h
    obtain ⟨⟨-, hshared⟩, hzero | hlong⟩ := h
    · exact .inl hzero
    · have hfirst : ∀ q ∈ p :: rest, q.take n = p.take n :=
        List.forall_mem_cons.2 ⟨rfl, fun q hq => (hshared q hq).2.2.symm⟩
      refine .inr ⟨List.forall_mem_cons.2 hlong, fun q hq q' hq' => ?_⟩
      exact (hfirst q hq).trans (hfirst q' hq').symm
  · intro h
    rcases h with hzero | ⟨hlong, hsame⟩
    · subst hzero
      simp
    · have hle : ∀ q ∈ p :: rest, n ≤ q.length := fun q hq => Nat.le_of_lt (hlong q hq)
      refine ⟨⟨hle p List.mem_cons_self, fun q hq => ?_⟩, .inr (List.forall_mem_cons.1 hlong)⟩
      have hq' := List.mem_cons_of_mem p hq
      exact ⟨hle p List.mem_cons_self, hle q hq', hsame p List.mem_cons_self q hq'⟩

theorem take_strippedLength {l : List (List UInt32)} {p q : List UInt32} (hp : p ∈ l)
    (hq : q ∈ l) : p.take (strippedLength l) = q.take (strippedLength l) := by
  rcases (le_strippedLength_iff (List.ne_nil_of_mem hp)).1 (Nat.le_refl _) with hzero | h
  · rw [hzero]
    rfl
  · exact h.2 p hp q hq

/-- The number of segments that are stripped from each path. -/
def stripped (t : Tree) : Nat := strippedLength (t.paths.map Path.segments)

/-- The segments that are stripped. -/
def shared (t : Tree) : List UInt32 := ((t.paths.map Path.segments).headD []).take t.stripped

theorem shared_append_drop (hp : p ∈ t.paths) :
    t.shared ++ p.segments.drop t.stripped = p.segments := by
  have hsegments : p.segments ∈ t.paths.map Path.segments := List.mem_map_of_mem hp
  have hshared : t.shared = p.segments.take t.stripped := by
    rw [shared]
    cases hl : t.paths.map Path.segments with
    | nil => simp [hl] at hsegments
    | cons q rest =>
      have hq : q ∈ t.paths.map Path.segments := hl ▸ List.mem_cons_self
      exact take_strippedLength hq hsegments
  rw [hshared, List.take_append_drop]

/-! ## Numbered segments -/

/-- The paths of the simplified tree, in the order of the branches. -/
def simplifiedPaths (t : Tree) : List Path :=
  numberPaths [] (t.paths.map fun p => p.segments.drop t.stripped)

/-- The path to which the branch at a path moves. -/
def simplifiedPath (t : Tree) (p : Path) : Path :=
  t.simplifiedPaths.getD (t.paths.idxOf p) .root

/-- The segments that are left of each path, with their numbers. -/
def numbered (t : Tree) : List (List (UInt32 × UInt32)) :=
  numberings [] (t.paths.map fun p => p.segments.drop t.stripped)

theorem simplifiedPaths_eq (t : Tree) :
    t.simplifiedPaths = t.numbered.map fun z => ⟨z.map Prod.snd⟩ :=
  numberPaths_eq [] _

theorem map_fst_numbered (t : Tree) :
    t.numbered.map (List.map Prod.fst) = t.paths.map fun p => p.segments.drop t.stripped :=
  map_fst_numberings [] _

theorem pairwise_numbered (t : Tree) : t.numbered.Pairwise (List.Lex Precedes) := by
  refine pairwise_numberings (List.pairwise_map.2 ?_)
  refine t.branches.keys_ascending.imp_of_mem fun {p q} hp hq hlt => ?_
  rwa [← Path.compare_append_left t.shared, shared_append_drop hp, shared_append_drop hq]

theorem simplify_eq (t : Tree) :
    t.simplify = ofBranches (t.simplifiedPaths.zip t.branches.values) := by
  rw [simplify, ← stripped, List.map_map]
  rfl

theorem length_simplifiedPaths (t : Tree) : t.simplifiedPaths.length = t.paths.length := by
  have hlength := congrArg List.length t.map_fst_numbered
  rw [List.length_map, List.length_map] at hlength
  rw [simplifiedPaths_eq, List.length_map, hlength]

theorem map_simplifiedPath (t : Tree) : t.paths.map t.simplifiedPath = t.simplifiedPaths := by
  refine List.ext_getElem (by rw [List.length_map, length_simplifiedPaths]) fun i hi hi' => ?_
  have hnodup : t.paths.Nodup := t.branches.nodup_keys
  rw [List.getElem_map, simplifiedPath, hnodup.idxOf_getElem, List.getD_eq_getElem?_getD,
    List.getElem?_eq_getElem hi', Option.getD_some]

/-- What is left of a path and the path to which its branch moves are the segments and the numbers
of the same list. -/
theorem exists_numbered (hp : p ∈ t.paths) :
    ∃ z ∈ t.numbered, p.segments.drop t.stripped = z.map Prod.fst ∧
      t.simplifiedPath p = ⟨z.map Prod.snd⟩ := by
  have hplace : t.paths[t.paths.idxOf p]? = some p := List.getElem?_idxOf hp
  rw [simplifiedPath]
  generalize t.paths.idxOf p = i at hplace ⊢
  have hrest : (t.numbered.map (List.map Prod.fst))[i]? = some (p.segments.drop t.stripped) := by
    rw [map_fst_numbered, List.getElem?_map, hplace]
    rfl
  rw [List.getElem?_map, Option.map_eq_some_iff] at hrest
  obtain ⟨z, hz, hzp⟩ := hrest
  refine ⟨z, List.mem_of_getElem? hz, hzp.symm, ?_⟩
  rw [List.getD_eq_getElem?_getD, simplifiedPaths_eq, List.getElem?_map, hz]
  rfl

theorem eq_shared_append (hp : p ∈ t.paths) {rest : List UInt32}
    (h : p.segments.drop t.stripped = rest) : p = ⟨t.shared ++ rest⟩ := by
  rw [← h, shared_append_drop hp]

/-! ## Two branches -/

section

variable {c : List UInt32} {z w : List (UInt32 × UInt32)}

theorem compare_fst_of_lex (h : List.Lex Precedes z w) :
    compare (⟨c ++ z.map Prod.fst⟩ : Path) ⟨c ++ w.map Prod.fst⟩ = .lt := by
  rw [Path.compare_def, Path.compare_append_left]
  exact compare_map_of_lex (fun _ _ h => h.1) h

theorem compare_snd_of_lex (h : List.Lex Precedes z w) :
    compare (⟨z.map Prod.snd⟩ : Path) ⟨w.map Prod.snd⟩ = .lt :=
  compare_map_of_lex (fun _ _ h => h.2) h

/-- The segments of one list extend those of another if its numbers do. -/
theorem extends?_iff_of_lex (h : List.Lex Precedes z w) :
    (⟨z.map Prod.snd⟩ : Path).extends? ⟨w.map Prod.snd⟩ = true ↔
      (⟨c ++ z.map Prod.fst⟩ : Path).extends? ⟨c ++ w.map Prod.fst⟩ = true := by
  rw [Path.extends?_iff_of_lt (compare_fst_of_lex h),
    Path.extends?_iff_of_lt (compare_snd_of_lex h), List.prefix_append_right_inj,
    map_prefix_iff_of_lex (fun _ _ h => h.1) h, map_prefix_iff_of_lex (fun _ _ h => h.2) h]

end

/-- The new paths of two branches stand in the order of the old ones. -/
theorem compare_simplifiedPath (hp : p ∈ t.paths) (hq : q ∈ t.paths) :
    compare (t.simplifiedPath p) (t.simplifiedPath q) = compare p q := by
  obtain ⟨z, hz, hpz, hpath⟩ := exists_numbered hp
  obtain ⟨w, hw, hqw, hqath⟩ := exists_numbered hq
  rw [hpath, hqath, eq_shared_append hp hpz, eq_shared_append hq hqw]
  rcases eq_or_lex_of_pairwise t.pairwise_numbered hz hw with heq | hlex | hlex
  · have hsame : ∀ r : Path, compare r r = .eq := fun _ => Std.ReflCmp.compare_self
    rw [heq, hsame, hsame]
  · rw [compare_fst_of_lex hlex, compare_snd_of_lex hlex]
  · rw [Std.OrientedCmp.gt_of_lt (compare_fst_of_lex hlex),
      Std.OrientedCmp.gt_of_lt (compare_snd_of_lex hlex)]

/-- The new path of a branch extends that of another exactly if the old one does. -/
theorem extends?_simplifiedPath (hp : p ∈ t.paths) (hq : q ∈ t.paths) :
    (t.simplifiedPath p).extends? (t.simplifiedPath q) = p.extends? q := by
  obtain ⟨z, hz, hpz, hpath⟩ := exists_numbered hp
  obtain ⟨w, hw, hqw, hqath⟩ := exists_numbered hq
  rw [hpath, hqath, eq_shared_append hp hpz, eq_shared_append hq hqw, Bool.eq_iff_iff]
  rcases eq_or_lex_of_pairwise t.pairwise_numbered hz hw with heq | hlex | hlex
  · rw [heq]
    exact iff_of_false (Path.not_extends?_self _) (Path.not_extends?_self _)
  · exact extends?_iff_of_lex hlex
  · exact iff_of_false (Path.not_extends?_of_lt (compare_snd_of_lex hlex))
      (Path.not_extends?_of_lt (compare_fst_of_lex hlex))

theorem simplifiedPath_injOn (t : Tree) : Set.InjOn t.simplifiedPath {p | p ∈ t.paths} := by
  intro p hp q hq heq
  have hsame : compare (t.simplifiedPath q) (t.simplifiedPath q) = .eq := Std.ReflCmp.compare_self
  refine Std.LawfulEqOrd.compare_eq_iff_eq.1 ?_
  rw [← compare_simplifiedPath hp hq, heq, hsame]

/-! ## The whole tree -/

/-- The branches stay in their order, with all their items. -/
theorem entries_simplify (t : Tree) :
    t.simplify.branches.entries = t.branches.entries.map fun e => (t.simplifiedPath e.1, e.2) := by
  have hzip : t.simplifiedPaths.zip t.branches.values
      = t.branches.entries.map fun e => (t.simplifiedPath e.1, e.2) := by
    rw [← map_simplifiedPath, paths, SortedMap.keys, SortedMap.values, List.map_map, List.zip_map']
    rfl
  rw [simplify_eq, hzip]
  refine SortedMap.entries_ofList (List.pairwise_map.2 ?_)
  refine t.branches.ascending.imp_of_mem fun {d e} hd he hlt => ?_
  rwa [compare_simplifiedPath (List.mem_map_of_mem hd) (List.mem_map_of_mem he)]

theorem paths_simplify (t : Tree) : t.simplify.paths = t.simplifiedPaths := by
  rw [← map_simplifiedPath, paths, SortedMap.keys, entries_simplify, paths, SortedMap.keys,
    List.map_map, List.map_map]
  rfl

theorem values_simplify (t : Tree) : t.simplify.branches.values = t.branches.values := by
  rw [SortedMap.values, entries_simplify, List.map_map]
  rfl

theorem items_simplify (t : Tree) : t.simplify.items = t.items := by
  rw [items, values_simplify, items]

theorem branch?_simplify (hp : p ∈ t.paths) :
    t.simplify.branch? (t.simplifiedPath p) = t.branch? p := by
  obtain ⟨items, hitems⟩ := SortedMap.mem_keys_iff.1 hp
  have hmoved : (t.simplifiedPath p, items) ∈ t.simplify.branches.entries := by
    rw [entries_simplify]
    exact List.mem_map_of_mem (f := fun e => (t.simplifiedPath e.1, e.2)) hitems
  rw [branch?, branch?, SortedMap.get?_eq_some_iff.2 hmoved, SortedMap.get?_eq_some_iff.2 hitems]

/-- Simplifying moves each branch to one of its own, with its items.  The new paths stand in the
same order as the old ones, and extend each other where the old ones do. -/
theorem simplify_moves (t : Tree) :
    t.simplify.branches.entries
        = t.branches.entries.map (fun e => (t.simplifiedPath e.1, e.2)) ∧
      Set.BijOn t.simplifiedPath {p | p ∈ t.paths} {p | p ∈ t.simplify.paths} ∧
      (∀ p ∈ t.paths, t.simplify.branch? (t.simplifiedPath p) = t.branch? p) ∧
      (∀ p ∈ t.paths, ∀ q ∈ t.paths,
        compare (t.simplifiedPath p) (t.simplifiedPath q) = compare p q ∧
          (t.simplifiedPath p).extends? (t.simplifiedPath q) = p.extends? q) ∧
      t.simplify.items = t.items ∧ t.simplify.branchCount = t.branchCount ∧
      t.simplify.itemCount = t.itemCount := by
  have hpaths : {p | p ∈ t.simplify.paths} = t.simplifiedPath '' {p | p ∈ t.paths} := by
    ext p
    rw [paths_simplify, ← map_simplifiedPath]
    exact List.mem_map
  refine ⟨t.entries_simplify, ?_, fun p hp => branch?_simplify hp, fun p hp q hq => ?_,
    t.items_simplify, ?_, ?_⟩
  · rw [hpaths]
    exact t.simplifiedPath_injOn.bijOn_image
  · exact ⟨compare_simplifiedPath hp hq, extends?_simplifiedPath hp hq⟩
  · rw [branchCount, SortedMap.size, entries_simplify, List.length_map]
    rfl
  · rw [itemCount, items_simplify, itemCount]

end Tree
end TreeFlow
