import TreeFlow.Proofs.Matching.Longest
/-
What a default that stands in as a whole tree does to the branches of longest-list matching.

The tree of a default has the default branch alone.  If the other trees have a path at the default
one or below it, that branch comes to nothing; if not, it is one leaf more.  Then kept paths are
not kept any more, and numbered ones get a number more, which can only be told apart while the
numbers do not come round (`Filled.paths_eq_iff`).
-/

namespace TreeFlow
namespace Matching

variable {xs ys : List Input}

/-- Some path stands at the default one or below it. -/
def Covered (l : List Path) : Prop := ∃ q ∈ l, q = .default ∨ Path.default.extends? q = true

/-- Inputs that differ from others in this: some of them have the default branch alone where the
others have no branch. -/
structure Filled (xs ys : List Input) : Prop where
  union : ∀ p, p ∈ unionPaths ys ↔ p ∈ unionPaths xs ∨ p = .default
  keeps : ∀ l, l ≠ [] → (keepsPaths ys l = true ↔ keepsPaths xs l = true ∨ l = [.default])

/-- Paths that are kept are those of some input. -/
theorem mem_of_keepsPaths {l : List Path} (h : keepsPaths xs l = true) {p : Path} (hp : p ∈ l) :
    p ∈ unionPaths xs := by
  obtain ⟨i, hi, hiter, rfl⟩ := keepsPaths_iff.1 h
  exact mem_unionPaths.2 ⟨i, hi, hiter, hp⟩

/-! ## Leaves -/

theorem Filled.leaves_eq (h : Filled xs ys) (hcovered : Covered (unionPaths xs)) :
    leaves (unionPaths ys) = leaves (unionPaths xs) := by
  obtain ⟨q, hq, hcover⟩ := hcovered
  refine SortedMap.eq_of_ascending (ascending_leaves (ascending_unionPaths ys))
    (ascending_leaves (ascending_unionPaths xs)) fun p => ?_
  rw [mem_leaves_unionPaths, mem_leaves_unionPaths]
  constructor
  · rintro ⟨hp, hleaf⟩
    have hleaf' : ∀ r ∈ unionPaths xs, ¬ p.extends? r = true := fun r hr =>
      hleaf r ((h.union r).2 (.inl hr))
    refine ⟨?_, hleaf'⟩
    rcases (h.union p).1 hp with hp | rfl
    · exact hp
    · rcases hcover with rfl | hext
      · exact hq
      · exact absurd hext (hleaf' q hq)
  · rintro ⟨hp, hleaf⟩
    refine ⟨(h.union p).2 (.inl hp), fun r hr => ?_⟩
    rcases (h.union r).1 hr with hr | rfl
    · exact hleaf r hr
    · rcases hcover with rfl | hext
      · exact hleaf _ hq
      · exact fun hext' => hleaf q hq (Path.extends?_trans hext' hext)

theorem Filled.mem_leaves_iff (h : Filled xs ys) (hcovered : ¬ Covered (unionPaths xs)) {p : Path} :
    p ∈ leaves (unionPaths ys) ↔
      (p ∈ leaves (unionPaths xs) ∧ p ≠ .root) ∨ p = .default := by
  have hroot : ¬ p.extends? .default = true ↔ p ≠ .root := not_congr Path.extends?_ofIndex_iff
  rw [mem_leaves_unionPaths, mem_leaves_unionPaths]
  constructor
  · rintro ⟨hp, hleaf⟩
    rcases (h.union p).1 hp with hp | rfl
    · exact .inl ⟨⟨hp, fun q hq => hleaf q ((h.union q).2 (.inl hq))⟩,
        hroot.1 (hleaf _ ((h.union _).2 (.inr rfl)))⟩
    · exact .inr rfl
  · rintro (⟨⟨hp, hleaf⟩, hne⟩ | rfl)
    · refine ⟨(h.union p).2 (.inl hp), fun q hq => ?_⟩
      rcases (h.union q).1 hq with hq | rfl
      · exact hleaf q hq
      · exact hroot.2 hne
    · refine ⟨(h.union _).2 (.inr rfl), fun q hq => ?_⟩
      rcases (h.union q).1 hq with hq | rfl
      · exact fun hext => hcovered ⟨q, hq, .inr hext⟩
      · exact Path.not_extends?_self _

/-- Where the root is a leaf it is the only path, and it is kept. -/
theorem keepsPaths_of_root_mem (h : Path.root ∈ leaves (unionPaths xs)) :
    keepsPaths xs (leaves (unionPaths xs)) = true := by
  obtain ⟨hroot, hleaf⟩ := mem_leaves_unionPaths.1 h
  have honly : ∀ p ∈ unionPaths xs, p = .root := by
    intro p hp
    by_contra hne
    exact hleaf p hp (Path.root_extends?_iff.2 hne)
  obtain ⟨i, hi, hiter, hmem⟩ := mem_unionPaths.1 hroot
  refine keepsPaths_iff.2 ⟨i, hi, hiter, ?_⟩
  refine SortedMap.eq_of_ascending i.tree.branches.keys_ascending
    (ascending_leaves (ascending_unionPaths xs)) fun p => ?_
  constructor
  · intro hp
    rw [honly p (mem_unionPaths.2 ⟨i, hi, hiter, hp⟩)]
    exact h
  · intro hp
    rw [honly p (mem_leaves_unionPaths.1 hp).1]
    exact hmem

/-! ## Branches -/

/-- Behind `2 ^ 32` numbers one more makes no difference. -/
theorem indices_succ_iff {n : Nat} :
    (∀ p : Path, (∃ k < n + 1, p = .ofIndex k) ↔ ∃ k < n, p = .ofIndex k) ↔ UInt32.size ≤ n := by
  constructor
  · intro h
    obtain ⟨k, hk, heq⟩ := (h (.ofIndex n)).1 ⟨n, Nat.lt_succ_self n, rfl⟩
    rw [Path.ofIndex_eq_iff] at heq
    by_contra hsmall
    rw [Nat.mod_eq_of_lt (by omega), Nat.mod_eq_of_lt (by omega)] at heq
    omega
  · intro h p
    constructor
    · rintro ⟨k, -, rfl⟩
      have hlt := Nat.mod_lt k (show 0 < UInt32.size by decide)
      exact ⟨k % UInt32.size, by omega, Path.ofIndex_eq_iff.2 (Nat.mod_mod k _).symm⟩
    · rintro ⟨k, hk, rfl⟩
      exact ⟨k, Nat.lt_succ_of_lt hk, rfl⟩

theorem Filled.mem_outputPaths_iff (h : Filled xs ys) (hne : unionPaths xs ≠ [])
    (hcovered : Covered (unionPaths xs)) {p : Path} :
    p ∈ outputPaths ys (leaves (unionPaths ys)) ↔ p ∈ outputPaths xs (leaves (unionPaths xs)) := by
  rw [h.leaves_eq hcovered, mem_outputPaths, mem_outputPaths]
  have hkeeps := h.keeps _ (leaves_ne_nil hne)
  by_cases hxs : keepsPaths xs (leaves (unionPaths xs)) = true
  · rw [if_pos (hkeeps.2 (.inl hxs)), if_pos hxs]
  · rw [if_neg hxs]
    by_cases hone : leaves (unionPaths xs) = [.default]
    · rw [if_pos (hkeeps.2 (.inr hone)), hone]
      simp [Path.default]
    · rw [if_neg fun hys => (hkeeps.1 hys).elim hxs hone]

/-- Where a tree of a default is added, the branches are the same exactly if another path covers
the default one or the branches are numbered and their numbers come round. -/
theorem Filled.paths_eq_iff (h : Filled xs ys) (hne : unionPaths xs ≠ []) :
    (∀ p, p ∈ (longest ys).map Branch.path ↔ p ∈ (longest xs).map Branch.path) ↔
      Covered (unionPaths xs) ∨
        (keepsPaths xs (leaves (unionPaths xs)) = false ∧
          UInt32.size ≤ (leaves (unionPaths xs)).length) := by
  rw [paths_longest, paths_longest]
  by_cases hcovered : Covered (unionPaths xs)
  · exact iff_of_true (fun _ => h.mem_outputPaths_iff hne hcovered) (.inl hcovered)
  have hfresh : Path.default ∉ unionPaths xs := fun hmem => hcovered ⟨_, hmem, .inl rfl⟩
  have hmem : Path.default ∈ leaves (unionPaths ys) := (h.mem_leaves_iff hcovered).2 (.inr rfl)
  cases hxs : keepsPaths xs (leaves (unionPaths xs)) with
  | true =>
    -- The default path is among the outputs now, and was not before.
    refine iff_of_false (fun hsame => ?_) (by simp [hcovered])
    have hbefore : Path.default ∉ outputPaths xs (leaves (unionPaths xs)) := by
      rw [mem_outputPaths, if_pos hxs]
      exact fun hold => hfresh (mem_leaves_unionPaths.1 hold).1
    refine hbefore ((hsame _).1 ?_)
    rw [mem_outputPaths]
    split
    · exact hmem
    · exact ⟨0, List.length_pos_of_mem hmem, rfl⟩
  | false =>
    -- The branches are numbered before and after, and there is one more of them.
    have hroot : Path.root ∉ leaves (unionPaths xs) := fun hroot => by
      rw [keepsPaths_of_root_mem hroot] at hxs
      cases hxs
    have hperm : (leaves (unionPaths ys)).Perm (.default :: leaves (unionPaths xs)) := by
      refine (List.perm_ext_iff_of_nodup ?_ ?_).2 fun p => ?_
      · exact SortedMap.nodup_of_ascending (ascending_leaves (ascending_unionPaths ys))
      · exact List.nodup_cons.2 ⟨fun hold => hfresh (mem_leaves_unionPaths.1 hold).1,
          SortedMap.nodup_of_ascending (ascending_leaves (ascending_unionPaths xs))⟩
      · rw [h.mem_leaves_iff hcovered, List.mem_cons, or_comm]
        refine or_congr_right (and_iff_left_of_imp ?_)
        rintro hp rfl
        exact hroot hp
    have hlength := hperm.length_eq
    rw [List.length_cons] at hlength
    have hys : ¬ keepsPaths ys (leaves (unionPaths ys)) = true := by
      intro hys
      rcases (h.keeps _ (List.ne_nil_of_mem hmem)).1 hys with hold | hone
      · exact hfresh (mem_of_keepsPaths hold hmem)
      · have hpos := List.length_pos_iff.2 (leaves_ne_nil hne)
        rw [hone, List.length_singleton] at hlength
        omega
    simp only [mem_outputPaths, hxs, hys, if_false, Bool.false_eq_true, hlength, indices_succ_iff,
      hcovered, false_or, true_and]

end Matching
end TreeFlow
