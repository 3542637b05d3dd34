import Mathlib.Data.Nat.Find
import TreeFlow.Proofs.Tree.Simplify
/-
Trees that simplifying leaves as they are.

A tree is normal if the segments that follow any prefix are numbered from zero on without a gap, and
the first segments are not all the same, unless a path has no other.  A simplified tree is normal:
its numbers leave none out, and had all paths another segment to share, this would have been
stripped too.  Of a normal tree nothing is stripped, and as there is only one way to number, its
segments are their own numbers (`Normal.simplify_eq`).
-/

namespace TreeFlow
namespace Tree

variable {t : Tree}

/-- Simplifying has nothing to strip and nothing to number anew. -/
structure Normal (t : Tree) : Prop where
  /-- The segments that follow a prefix are `0`, `1` and so on, below some number. -/
  dense : ∀ prior : List UInt32, ∃ m : Nat, ∀ a : UInt32,
    (∃ p ∈ t.paths, prior ++ [a] <+: p.segments) ↔ a.toNat < m
  /-- First segments that could be stripped are not all the same. -/
  forks : t.paths ≠ [] → (∀ p ∈ t.paths, 2 ≤ p.length) →
    ∃ p ∈ t.paths, ∃ q ∈ t.paths, p.segments.head? ≠ q.segments.head?

/-! ## Segments without gaps -/

theorem closed_iff {l : List (List UInt32)} :
    Closed l ↔ ∀ prior, ∃ m : Nat, ∀ a : UInt32, Follows l prior a ↔ a.toNat < m := by
  constructor
  · intro h prior
    have hbounded : ∃ m, ∀ a : UInt32, Follows l prior a → a.toNat < m :=
      ⟨UInt32.size, fun a _ => a.toNat_lt⟩
    classical
    refine ⟨Nat.find hbounded, fun a => ⟨Nat.find_spec hbounded a, fun ha => ?_⟩⟩
    have habove := Nat.find_min hbounded ha
    simp only [not_forall, Nat.not_lt] at habove
    obtain ⟨b, hb, hab⟩ := habove
    rcases UInt32.lt_or_eq_of_le (UInt32.le_iff_toNat_le.2 hab) with hlt | heq
    · exact h prior b a hlt hb
    · exact heq ▸ hb
  · intro h prior a b hba ha
    obtain ⟨m, hm⟩ := h prior
    have hlt := UInt32.lt_iff_toNat_lt.1 hba
    exact (hm b).2 (Nat.lt_trans hlt ((hm a).1 ha))

theorem closed_paths_iff : Closed (t.paths.map Path.segments) ↔
    ∀ prior : List UInt32, ∃ m : Nat, ∀ a : UInt32,
      (∃ p ∈ t.paths, prior ++ [a] <+: p.segments) ↔ a.toNat < m := by
  rw [closed_iff]
  simp only [Follows, List.mem_map, exists_exists_and_eq_and]

/-! ## Simplified trees -/

theorem normal_simplify (t : Tree) : t.simplify.Normal := by
  have hnumbers : t.simplify.paths.map Path.segments = t.numbered.map (List.map Prod.snd) := by
    rw [paths_simplify, simplifiedPaths_eq, List.map_map]
    rfl
  refine ⟨closed_paths_iff.1 (hnumbers ▸ closed_numberings _), fun hne hlong => ?_⟩
  by_contra hsame
  simp only [not_exists, not_and, not_not] at hsame
  have hmoved : ∀ p ∈ t.paths, t.simplifiedPath p ∈ t.simplify.paths := fun p hp => by
    rw [paths_simplify, ← map_simplifiedPath]
    exact List.mem_map_of_mem hp
  have hpaths : t.paths.map Path.segments ≠ [] := by
    intro hnil
    rw [paths_simplify, ← map_simplifiedPath, List.map_eq_nil_iff.1 hnil] at hne
    exact hne rfl
  -- All paths share one segment more than are stripped.
  have hmore : t.stripped + 1 ≤ t.stripped := by
    refine (le_strippedLength_iff hpaths).2 (.inr ⟨?_, ?_⟩)
    · refine List.forall_mem_map.2 fun p hp => ?_
      obtain ⟨z, -, hpz, hpath⟩ := exists_numbered hp
      have htwo := hlong _ (hmoved p hp)
      rw [hpath, Path.length, List.length_map] at htwo
      have hlength := congrArg List.length hpz
      rw [List.length_drop, List.length_map] at hlength
      omega
    · refine List.forall_mem_map.2 fun p hp => List.forall_mem_map.2 fun q hq => ?_
      obtain ⟨z, hz, hpz, hpath⟩ := exists_numbered hp
      obtain ⟨w, hw, hqw, hqath⟩ := exists_numbered hq
      have hheads := hsame _ (hmoved p hp) _ (hmoved q hq)
      rw [hpath, hqath] at hheads
      have hnext : z.take 1 = w.take 1 :=
        take_eq_of_pairwise t.pairwise_numbered (fun _ _ h => h.2) hz hw
          (by rw [List.take_one, List.take_one, hheads])
      have hshared := take_strippedLength (List.mem_map_of_mem (f := Path.segments) hp)
        (List.mem_map_of_mem (f := Path.segments) hq)
      rw [List.take_add, List.take_add, hpz, hqw, ← List.map_take, ← List.map_take, hnext]
      exact congrArg (· ++ _) hshared
  exact Nat.not_succ_le_self _ hmore

/-! ## Normal trees -/

theorem Normal.stripped_eq_zero (h : t.Normal) : t.stripped = 0 := by
  by_cases hpaths : t.paths = []
  · rw [stripped, hpaths]
    rfl
  · by_contra hpos
    have hone : 1 ≤ t.stripped := Nat.one_le_iff_ne_zero.2 hpos
    have hne : t.paths.map Path.segments ≠ [] := fun hnil => hpaths (List.map_eq_nil_iff.1 hnil)
    rcases (le_strippedLength_iff hne).1 hone with hzero | ⟨hlong, hsame⟩
    · cases hzero
    · obtain ⟨p, hp, q, hq, hheads⟩ :=
        h.forks hpaths fun p hp => hlong _ (List.mem_map_of_mem hp)
      have htake := hsame _ (List.mem_map_of_mem hp) _ (List.mem_map_of_mem hq)
      refine hheads ?_
      have hhead := congrArg List.head? htake
      rwa [List.head?_take, List.head?_take, if_neg Nat.one_ne_zero, if_neg Nat.one_ne_zero]
        at hhead

theorem Normal.simplify_eq (h : t.Normal) : t.simplify = t := by
  have hsegments : t.numbered.map (List.map Prod.fst) = t.paths.map Path.segments := by
    rw [map_fst_numbered, h.stripped_eq_zero]
    rfl
  have hclosed : Closed (t.numbered.map (List.map Prod.fst)) := by
    rw [hsegments]
    exact closed_paths_iff.2 h.dense
  have hkept : ∀ p ∈ t.paths, t.simplifiedPath p = p := by
    intro p hp
    obtain ⟨z, hz, hpz, hpath⟩ := exists_numbered hp
    have hnumber := map_fst_eq_map_snd t.pairwise_numbered hclosed (closed_numberings _) hz
    rw [hpath, ← hnumber, ← hpz, h.stripped_eq_zero]
    rfl
  have hentries : t.simplify.branches.entries = t.branches.entries := by
    rw [entries_simplify]
    refine SortedMap.list_map_eq_self_iff.2 fun e he => ?_
    rw [hkept e.1 (List.mem_map_of_mem he)]
  exact congrArg Tree.mk (SortedMap.ext hentries)

/-- A simplified tree is normal, and a normal tree is left as it is. -/
theorem simplify_normalizes :
    (∀ t : Tree, t.simplify.Normal) ∧ (∀ s : Tree, s.simplify = s ↔ s.Normal) ∧
      ∀ t : Tree, t.simplify.simplify = t.simplify := by
  refine ⟨normal_simplify, fun s => ⟨fun h => ?_, Normal.simplify_eq⟩, fun t => ?_⟩
  · rw [← h]
    exact normal_simplify s
  · exact (normal_simplify t).simplify_eq

end Tree
end TreeFlow
