import TreeFlow.Proofs.Matching.Shortest
/-
Shortest list against longest list.

Where all iterated inputs have the same paths, none above another, the two ways of matching make the
same branches.  In each of them an input offers its own branch either way, and only the numbers of
calls differ: the calls of shortest list are the first ones of longest list (`begins_branches`).
-/

namespace TreeFlow
namespace Matching

variable {inputs : List Input} {P : List Path} {p : Path} {offers : List Offer} {m n : Nat}

/-! ## Calls -/

theorem callsOf_prefix (h : m ≤ n) : callsOf offers m <+: callsOf offers n := by
  obtain ⟨k, rfl⟩ := Nat.exists_eq_add_of_le h
  rw [callsOf, callsOf, List.range_add, List.map_append]
  exact List.prefix_append _ _

/-- A branch at the path of another one, with the first ones of its calls; with all of them if the
iterated inputs ask for equally many there. -/
structure Begins (inputs : List Input) (s l : Branch) : Prop where
  path : s.path = l.path
  calls : s.calls <+: l.calls
  all : (∀ i ∈ inputs, ∀ j ∈ inputs, ∀ m n, Asks i l.path m → Asks j l.path n → m = n) →
    s.calls = l.calls

/-- The calls of longest list are as many as some iterated input asks for. -/
theorem isGreatest_asks (h : ∃ i ∈ inputs, i.iterated = true)
    (hp : ∀ i ∈ inputs, i.iterated = true → p ∈ i.tree.paths) :
    IsGreatest { n | ∃ i ∈ inputs, Asks i p n }
      (((inputs.map fun i => i.offerAt p).map Offer.count).foldl max 0) := by
  have hset : { n | ∃ i ∈ inputs, Asks i p n }
      = { n | ∃ i ∈ inputs, i.iterated = true ∧ n = (i.offerAt p).count } := by
    ext n
    refine exists_congr fun i => and_congr_right fun hi => ?_
    rw [asks_iff (hp i hi), offerOf_eq (hp i hi)]
  rw [hset]
  exact isGreatest_count h p

/-- Where all iterated inputs have a path, both ways of matching offer the same there. -/
theorem begins_callsAt (h : ∃ i ∈ inputs, i.iterated = true)
    (hp : ∀ i ∈ inputs, i.iterated = true → p ∈ i.tree.paths) :
    Begins inputs ⟨p, callsOf (inputs.map fun i => i.offerOf p) (leastCount inputs p)⟩
      ⟨p, callsAt inputs p⟩ := by
  have hoffers : (inputs.map fun i => i.offerOf p) = inputs.map fun i => i.offerAt p :=
    List.map_congr_left fun i hi => offerOf_eq (hp i hi)
  have hleast := isLeast_leastCount h hp
  have hmost := isGreatest_asks h hp
  rw [callsAt, hoffers]
  refine ⟨rfl, callsOf_prefix (hleast.2 hmost.1), fun hsame => ?_⟩
  obtain ⟨i, hi, hleast⟩ := hleast.1
  obtain ⟨j, hj, hmost⟩ := hmost.1
  exact congrArg (callsOf _) (hsame i hi j hj _ _ hleast hmost)

/-! ## Branches -/

/-- Where the paths are kept, a branch comes from the path that it goes to. -/
theorem shortest_of_keepsPaths (h : keepsPaths inputs (commonPaths inputs) = true) :
    shortest inputs = (commonPaths inputs).map fun p =>
      ⟨p, callsOf (inputs.map fun i => i.offerOf p) (leastCount inputs p)⟩ := by
  rw [shortest_eq, outputPaths, if_pos h, List.zip_eq_zipWith, List.zipWith_self, List.map_map]
  rfl

section

variable (hiter : ∃ i ∈ inputs, i.iterated = true)
  (hpaths : ∀ i ∈ inputs, i.iterated = true → i.tree.paths = P)

include hiter hpaths

theorem ascending_of_paths : Ascending P := by
  obtain ⟨i, hi, hiter⟩ := hiter
  exact hpaths i hi hiter ▸ i.tree.branches.keys_ascending

theorem keepsPaths_of_paths : keepsPaths inputs P = true := by
  obtain ⟨i, hi, hiter⟩ := hiter
  exact keepsPaths_iff.2 ⟨i, hi, hiter, hpaths i hi hiter⟩

theorem commonPaths_of_paths : commonPaths inputs = P := by
  refine SortedMap.eq_of_ascending (ascending_commonPaths inputs)
    (ascending_of_paths hiter hpaths) fun p => ?_
  rw [mem_commonPaths_iff hiter]
  obtain ⟨i, hi, hiter⟩ := hiter
  constructor
  · intro hp
    exact hpaths i hi hiter ▸ hp i hi hiter
  · intro hp j hj hiter'
    exact (hpaths j hj hiter').symm ▸ hp

theorem unionPaths_of_paths : unionPaths inputs = P := by
  refine SortedMap.eq_of_ascending (ascending_unionPaths inputs)
    (ascending_of_paths hiter hpaths) fun p => ?_
  rw [mem_unionPaths]
  constructor
  · intro hp
    obtain ⟨i, hi, hiter', hp⟩ := hp
    exact hpaths i hi hiter' ▸ hp
  · intro hp
    obtain ⟨i, hi, hiter⟩ := hiter
    exact ⟨i, hi, hiter, (hpaths i hi hiter).symm ▸ hp⟩

end

/-- Where all iterated inputs have the same paths, none of which extends another, shortest list
makes the branches of longest list, each with the first of its calls. -/
theorem begins_branches (hpaths : ∀ i ∈ inputs, i.iterated = true → i.tree.paths = P)
    (hfree : ∀ p ∈ P, ∀ q ∈ P, ¬ p.extends? q = true) :
    ∃ shorts longs, branches .shortest inputs = .ok shorts ∧
      branches .longest inputs = .ok longs ∧
      ((∃ i ∈ inputs, i.iterated = true) → longs.map Branch.path = P) ∧
      List.Forall₂ (Begins inputs) shorts longs := by
  by_cases hiter : ∃ i ∈ inputs, i.iterated = true
  · have hany : inputs.any Input.iterated = true := List.any_eq_true.2 hiter
    have hkeeps := keepsPaths_of_paths hiter hpaths
    have hcommon := commonPaths_of_paths hiter hpaths
    have hleaves : leaves (unionPaths inputs) = P := by
      rw [unionPaths_of_paths hiter hpaths, leaves_eq_self (ascending_of_paths hiter hpaths) hfree]
    refine ⟨shortest inputs, longest inputs, ?_, ?_, fun _ => ?_, ?_⟩
    · rw [branches, if_pos hany]
    · rw [branches, if_pos hany]
    · rw [paths_longest, hleaves, outputPaths, if_pos hkeeps]
    · rw [shortest_of_keepsPaths (hcommon.symm ▸ hkeeps), longest_of_keepsPaths
        (hleaves.symm ▸ hkeeps), hcommon, hleaves, List.forall₂_map_left_iff,
        List.forall₂_map_right_iff, List.forall₂_same]
      intro p hp
      exact begins_callsAt hiter fun i hi hiter' => (hpaths i hi hiter').symm ▸ hp
  · -- With whole trees alone, both ways make the single call.
    have hany : ¬ inputs.any Input.iterated = true := fun h => hiter (List.any_eq_true.1 h)
    refine ⟨[wholeTrees inputs], [wholeTrees inputs], ?_, ?_, fun h => absurd h hiter, ?_⟩
    · rw [branches, if_neg hany]
    · rw [branches, if_neg hany]
    · exact .cons ⟨rfl, List.prefix_refl _, fun _ => rfl⟩ .nil

namespace Sample

/-- An item input and a list input with the same paths, and a whole tree. -/
def even : List Input :=
  [⟨"Values", .item, .ofBranches [(⟨[0]⟩, [.integer 1, .integer 2]), (⟨[4, 1]⟩, [.integer 3])]⟩,
    ⟨"Whole", .tree, parents⟩,
    ⟨"Lists", .list, .ofBranches [(⟨[0]⟩, [.integer 7]), (⟨[4, 1]⟩, [])]⟩]

end Sample

/-- In the first branch the inputs ask for different numbers of calls. -/
theorem begins_branches_sample :
    (∀ i ∈ Sample.even, i.iterated = true → i.tree.paths = [⟨[0]⟩, ⟨[4, 1]⟩]) ∧
      (∀ p ∈ [Path.mk [0], ⟨[4, 1]⟩], ∀ q ∈ [Path.mk [0], ⟨[4, 1]⟩], ¬ p.extends? q = true) ∧
      ∃ shorts longs, branches .shortest Sample.even = .ok shorts ∧
        branches .longest Sample.even = .ok longs ∧
        longs.map Branch.path = [⟨[0]⟩, ⟨[4, 1]⟩] ∧
        List.Forall₂ (Begins Sample.even) shorts longs ∧
        shorts.map (fun b => b.calls.length) = [1, 1] ∧
        longs.map (fun b => b.calls.length) = [2, 1] := by
  have hpaths : ∀ i ∈ Sample.even, i.iterated = true → i.tree.paths = [⟨[0]⟩, ⟨[4, 1]⟩] := by
    decide
  have hfree : ∀ p ∈ [Path.mk [0], ⟨[4, 1]⟩], ∀ q ∈ [Path.mk [0], ⟨[4, 1]⟩],
      ¬ p.extends? q = true := by decide
  have hiter : ∃ i ∈ Sample.even, i.iterated = true := ⟨_, List.mem_cons_self, rfl⟩
  obtain ⟨shorts, longs, hshorts, hlongs, hkept, hbegins⟩ := begins_branches hpaths hfree
  refine ⟨hpaths, hfree, shorts, longs, hshorts, hlongs, hkept hiter, hbegins, ?_, ?_⟩
  · obtain rfl := Except.ok.inj hshorts
    rfl
  · obtain rfl := Except.ok.inj hlongs
    rfl

end Matching
end TreeFlow
