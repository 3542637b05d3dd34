import TreeFlow.Matching
import TreeFlow.Proofs.Path
import TreeFlow.Proofs.SortedMap
/-
The branches of longest-list matching.

They come from the union of the paths of all iterated inputs: first those go that another path of
the union extends, and what is left is kept or numbered.  The walk over neighbours finds the same
paths as the definition by all pairs (`mem_leaves`).
-/

namespace TreeFlow
namespace Matching

/-- Path order, strictly. -/
abbrev Ascending (l : List Path) : Prop := l.Pairwise fun a b => compare a b = .lt

variable {inputs : List Input} {l : List Path}

/-! ## Union -/

theorem mem_unionPaths {p : Path} :
    p ∈ unionPaths inputs ↔ ∃ i ∈ inputs, i.iterated = true ∧ p ∈ i.tree.paths := by
  have fold : ∀ (sets : List (SortedMap Path Unit)) (m : SortedMap Path Unit),
      p ∈ (sets.foldl (SortedMap.unionWith fun _ _ => ()) m).keys ↔
        p ∈ m.keys ∨ ∃ n ∈ sets, p ∈ n.keys := by
    intro sets
    induction sets with
    | nil => simp
    | cons n sets ih =>
      intro m
      rw [List.foldl_cons, ih, SortedMap.mem_keys_unionWith]
      simp [or_assoc]
  have hkeys : ∀ t : Tree, (t.branches.map fun _ => ()).keys = t.paths := by
    intro t
    simp [SortedMap.keys, SortedMap.map, Tree.paths]
  rw [unionPaths, fold]
  simp [SortedMap.keys, SortedMap.empty, ← hkeys, and_assoc]

theorem ascending_unionPaths (inputs : List Input) : Ascending (unionPaths inputs) :=
  SortedMap.keys_ascending _

/-! ## Leaves -/

theorem leaves_sublist (l : List Path) : (leaves l).Sublist l := by
  induction l with
  | nil => exact .slnil
  | cons p l ih =>
    cases l with
    | nil => exact .refl _
    | cons q l =>
      rw [leaves]
      split
      · exact ih.cons p
      · exact ih.cons_cons p

/-- The first path of an ascending list is a leaf if nothing behind it extends it. -/
theorem leaves_cons {p : Path} (h : Ascending (p :: l)) :
    leaves (p :: l) = if l.all fun q => !p.extends? q then p :: leaves l else leaves l := by
  cases l with
  | nil => rfl
  | cons q l =>
    rw [leaves]
    obtain ⟨hp, hl⟩ := List.pairwise_cons.1 h
    cases hext : p.extends? q with
    | true => simp [hext]
    | false =>
      have hall : ∀ r ∈ q :: l, ¬ p.extends? r = true := by
        rw [← Bool.not_eq_true] at hext
        intro r hr hext'
        rcases List.mem_cons.1 hr with rfl | hr
        · exact hext hext'
        · exact hext (Path.extends?_of_between (hp q List.mem_cons_self)
            ((List.pairwise_cons.1 hl).1 r hr) hext')
      rw [if_neg Bool.false_ne_true, if_pos (by simpa using hall)]

/-- The leaves of an ascending list are the paths that no path of it extends. -/
theorem leaves_eq_filter (h : Ascending l) :
    leaves l = l.filter fun p => l.all fun q => !p.extends? q := by
  induction l with
  | nil => rfl
  | cons p l ih =>
    obtain ⟨hp, hl⟩ := List.pairwise_cons.1 h
    have hback : ∀ q ∈ l, ¬ q.extends? p = true := fun q hq hext =>
      Std.OrientedCmp.not_lt_of_lt (hp q hq) (Path.compare_of_extends? hext)
    have hrest : (l.filter fun q => (p :: l).all fun r => !q.extends? r)
        = l.filter fun q => l.all fun r => !q.extends? r := by
      refine List.filter_congr fun q hq => ?_
      simp [hback q hq]
    rw [leaves_cons h, ih hl, List.filter_cons, hrest]
    simp [Path.not_extends?_self]

theorem mem_leaves (h : Ascending l) {p : Path} :
    p ∈ leaves l ↔ p ∈ l ∧ ∀ q ∈ l, ¬ p.extends? q = true := by
  simp [leaves_eq_filter h]

/-- Where no path of an ascending list extends another, they are all leaves. -/
theorem leaves_eq_self (h : Ascending l) (hfree : ∀ p ∈ l, ∀ q ∈ l, ¬ p.extends? q = true) :
    leaves l = l := by
  rw [leaves_eq_filter h, List.filter_eq_self]
  intro p hp
  simpa using hfree p hp

theorem leaves_ne_nil (hl : l ≠ []) : leaves l ≠ [] := by
  induction l with
  | nil => exact absurd rfl hl
  | cons p l ih =>
    cases l with
    | nil => exact hl
    | cons q l =>
      rw [leaves]
      split
      · exact ih (by simp)
      · simp

theorem ascending_leaves (h : Ascending l) : Ascending (leaves l) := h.sublist (leaves_sublist l)

theorem mem_leaves_unionPaths {p : Path} :
    p ∈ leaves (unionPaths inputs) ↔
      p ∈ unionPaths inputs ∧ ∀ q ∈ unionPaths inputs, ¬ p.extends? q = true :=
  mem_leaves (ascending_unionPaths inputs)

/-! ## Branches -/

theorem keepsPaths_iff :
    keepsPaths inputs l = true ↔ ∃ i ∈ inputs, i.iterated = true ∧ i.tree.paths = l := by
  simp [keepsPaths]

/-- The paths of the outputs are the given ones or their numbers. -/
theorem mem_outputPaths {p : Path} :
    p ∈ outputPaths inputs l ↔
      if keepsPaths inputs l then p ∈ l else ∃ n < l.length, p = .ofIndex n := by
  unfold outputPaths
  split
  · rfl
  · simp only [List.mem_map, Prod.exists, List.mk_mem_zipIdx_iff_getElem?]
    constructor
    · rintro ⟨q, n, hn, rfl⟩
      exact ⟨n, (List.getElem?_eq_some_iff.1 hn).1, rfl⟩
    · rintro ⟨n, hn, rfl⟩
      exact ⟨l[n], n, List.getElem?_eq_getElem hn, rfl⟩

/-- Kept paths stay in path order, and so do numbers that have not come round. -/
theorem ascending_outputPaths (h : Ascending l)
    (hkept : keepsPaths inputs l = true ∨ l.length ≤ UInt32.size) :
    Ascending (outputPaths inputs l) := by
  unfold outputPaths
  by_cases hkeeps : keepsPaths inputs l = true
  · rw [if_pos hkeeps]
    exact h
  · have hlength := hkept.resolve_left hkeeps
    rw [if_neg hkeeps, Ascending, List.pairwise_map, List.pairwise_iff_getElem]
    intro i j hi hj hij
    have hj' : j < l.length := by simpa using hj
    simpa using Path.compare_ofIndex hij (Nat.lt_of_lt_of_le hj' hlength)

theorem length_outputPaths : (outputPaths inputs l).length = l.length := by
  unfold outputPaths
  split <;> simp

theorem paths_longest (inputs : List Input) :
    (longest inputs).map Branch.path = outputPaths inputs (leaves (unionPaths inputs)) := by
  rw [longest, List.map_map]
  exact List.map_snd_zip (Nat.le_of_eq length_outputPaths)

/-- The calls for a path, as many as the input that asks for most of them. -/
def callsAt (inputs : List Input) (p : Path) : List (List Value) :=
  let offers := inputs.map fun i => i.offerAt p
  callsOf offers ((offers.map Offer.count).foldl max 0)

theorem longest_eq (inputs : List Input) :
    longest inputs
      = ((leaves (unionPaths inputs)).zip
          (outputPaths inputs (leaves (unionPaths inputs)))).map fun e =>
        ⟨e.2, callsAt inputs e.1⟩ := rfl

/-- Where the paths are kept, a branch comes from the path that it goes to. -/
theorem longest_of_keepsPaths (h : keepsPaths inputs (leaves (unionPaths inputs)) = true) :
    longest inputs = (leaves (unionPaths inputs)).map fun p => ⟨p, callsAt inputs p⟩ := by
  rw [longest_eq, outputPaths, if_pos h, List.zip_eq_zipWith, List.zipWith_self, List.map_map]
  rfl

end Matching
end TreeFlow
