import TreeFlow.Proofs.Run.Cycles
import TreeFlow.Proofs.Run.Visit
/-
The order of placing is the first of all linearizations.

Of two linearizations the first is the one with the smaller component where they part.  What comes
next in any linearization is available, so it is among the ready components; these are kept in
ascending order, so the one that is placed does not come behind it in the graph
(`placeSingly_least`).  The two orders are compared from the front as long as they agree, so nothing
has to be said of what a linearization looks like further on.
-/

namespace TreeFlow
namespace Graph

variable {g : Graph}

/-- A graph whose components can be placed one at a time has no cycle. -/
theorem acyclic_of_topologicalOrder (hg : g.WellFormed) {order : List Nat}
    (h : g.topologicalOrder = .ok order) : g.Acyclic := by
  have hleft := placeSingly_spec hg g.size (Tally.start hg) (by simp)
  rw [List.nil_append] at hleft
  by_contra hcyclic
  have hfew := (hleft.length_lt_iff hg).2 hcyclic
  simp only [topologicalOrder] at h
  rw [if_pos hfew] at h
  cases h

/-- From a state with ascending ready components, the rest is placed no later than it stands in any
linearization that starts with what is placed. -/
theorem placeSingly_least (hg : g.WellFormed) (steps : Nat) {placed other : List Nat}
    {counts : List Int} {ready : List Nat} (h : g.Tally placed counts ready)
    (hready : ready.Pairwise (· ≤ ·)) (hother : g.Linearization (placed ++ other)) :
    other = (g.placeSingly counts ready steps).1 ∨
      List.Lex (· < ·) (g.placeSingly counts ready steps).1 other := by
  induction steps generalizing placed other counts ready with
  | zero => exact (List.lex_nil_or_eq_nil other).symm
  | succ steps ih =>
    cases ready with
    | nil => exact (List.lex_nil_or_eq_nil other).symm
    | cons i rest =>
      obtain ⟨hi, hfresh, -⟩ := (h.ready i).1 List.mem_cons_self
      cases other with
      | nil =>
        -- `i` is not placed, but a linearization has all components.
        rw [List.append_nil] at hother
        exact absurd (hother.perm.mem_iff.2 (mem_indices.2 hi)) hfresh
      | cons j other =>
        have hj : j ∈ i :: rest := (h.ready j).2 (hother.available rfl)
        have hij : i ≤ j := by
          rcases List.mem_cons.1 hj with hj | hj
          · exact Nat.le_of_eq hj.symm
          · exact List.rel_of_pairwise_cons hready hj
        obtain ⟨counts', fresh, hplace, htally⟩ := Tally.place hg h
        simp only [placeSingly, hplace, List.nil_append]
        rcases Nat.eq_or_lt_of_le hij with hij | hij
        · subst hij
          have hnext := htally.perm (perm_foldr_insertAscending fresh rest).symm
          have hsorted := pairwise_foldr_insertAscending fresh hready.of_cons
          have hrest : g.Linearization ((placed ++ [i]) ++ other) := by
            rwa [List.append_assoc, List.singleton_append]
          rcases ih hnext hsorted hrest with heq | hlt
          · exact .inl (congrArg (i :: ·) heq)
          · exact .inr (.cons hlt)
        · exact .inr (.rel hij)

theorem eq_placeSingly {order : List Nat} (h : g.topologicalOrder = .ok order) :
    order = (g.placeSingly g.openCounts (readyAt g.openCounts) g.size).1 := by
  simp only [topologicalOrder] at h
  split at h
  · cases h
  · exact (Except.ok.inj h).symm

/-- Of a graph that was loaded and has no cycle, the components are placed in a linearization, and
in the first of all linearizations. -/
theorem topologicalOrder_least {d : GraphDocument} (hload : load d = .ok g) (ha : g.Acyclic) :
    ∃ order, g.topologicalOrder = .ok order ∧ g.Linearization order ∧
      ∀ other, g.Linearization other → other = order ∨ List.Lex (· < ·) order other := by
  have hg := load_wellFormed hload
  obtain ⟨order, horder, hlinear⟩ := topologicalOrder_eq_ok hg ha
  refine ⟨order, horder, hlinear, fun other hother => ?_⟩
  rw [eq_placeSingly horder]
  exact placeSingly_least hg g.size (Tally.start hg) (pairwise_readyAt g.openCounts) hother

end Graph

/-! ## A small document in which consumers stand in front

The first component is fed by the third, and that one by the second; the last is not wired. -/

namespace Sample

def backward : GraphDocument :=
  ⟨[⟨"last", "Data", "", .origin, [input "Data" [⟨"middle", "Data"⟩] none]⟩,
    ⟨"first", "Data", "", .origin, [input "Data" [] (some (.list [.integer 1]))]⟩,
    ⟨"middle", "Data", "", .origin, [input "Data" [⟨"first", "Data"⟩] none]⟩,
    ⟨"free", "Data", "", .origin, [input "Data" [] (some (.list [.integer 2]))]⟩]⟩

def backwardGraph : Graph :=
  match Graph.load backward with
  | .ok g => g
  | .error _ => default

theorem load_backward : Graph.load backward = .ok backwardGraph := rfl

theorem topologicalOrder_backward : backwardGraph.topologicalOrder = .ok [1, 2, 0, 3] := by
  decide +kernel

theorem backwardGraph_acyclic : backwardGraph.Acyclic :=
  Graph.acyclic_of_topologicalOrder (Graph.load_wellFormed load_backward) topologicalOrder_backward

end Sample

namespace Graph

/-- The component that is not wired comes last, since it is the last in the graph. -/
theorem topologicalOrder_least_sample :
    load Sample.backward = .ok Sample.backwardGraph ∧ Sample.backwardGraph.Acyclic ∧
      Sample.backwardGraph.topologicalOrder = .ok [1, 2, 0, 3] ∧
      Sample.backwardGraph.Linearization [1, 2, 0, 3] ∧
      ∀ other, Sample.backwardGraph.Linearization other →
        other = [1, 2, 0, 3] ∨ List.Lex (· < ·) [1, 2, 0, 3] other := by
  obtain ⟨order, horder, hlinear, hleast⟩ :=
    topologicalOrder_least Sample.load_backward Sample.backwardGraph_acyclic
  rw [Sample.topologicalOrder_backward] at horder
  obtain rfl := Except.ok.inj horder
  exact ⟨Sample.load_backward, Sample.backwardGraph_acyclic, Sample.topologicalOrder_backward,
    hlinear, hleast⟩

end Graph
end TreeFlow
