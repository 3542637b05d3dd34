import TreeFlow.Proofs.Except
import TreeFlow.Run.Evaluate
/-
Stores are written once, and inputs depend on what they read.

A store is known by its size and what it holds (`ext_get?`).  Recording succeeds exactly on an empty
slot and changes that slot only.  The inputs of a component are computed from the results of its
producers (`inputsFor_congr`), and they are there as soon as those results are (`inputsFor_ok`).
-/

namespace TreeFlow
namespace Store

variable {s t : Store}

theorem ext_get? (hsize : s.slots.length = t.slots.length) (h : ∀ i, s.get? i = t.get? i) :
    s = t := by
  obtain ⟨xs⟩ := s
  obtain ⟨ys⟩ := t
  congr 1
  refine List.ext_getElem hsize fun i hx hy => ?_
  have hi := h i
  simpa [get?, hx, hy] using hi

/-- The store with a result in a slot. -/
def write (s : Store) (i : Nat) (o : Outcome) : Store := ⟨s.slots.set i (some o)⟩

@[simp] theorem size_write (i : Nat) (o : Outcome) :
    (s.write i o).slots.length = s.slots.length := List.length_set

theorem get?_write {i : Nat} (hi : i < s.slots.length) (o : Outcome) (j : Nat) :
    (s.write i o).get? j = if j = i then some o else s.get? j := by
  unfold get? write
  by_cases hj : j = i
  · subst hj
    simp [hi]
  · rw [if_neg hj, List.getElem?_set_ne (Ne.symm hj)]

@[simp] theorem get?_ofSize (n i : Nat) : (ofSize n).get? i = none := by
  unfold get? ofSize
  rcases Nat.lt_or_ge i n with hi | hi <;> simp [hi]

theorem record_eq_ok_iff {i : Nat} {o : Outcome} {s' : Store} :
    s.record i o = .ok s' ↔ i < s.slots.length ∧ s.get? i = none ∧ s' = s.write i o := by
  unfold record get?
  split
  · rename_i hnone
    have hlen := List.getElem?_eq_none_iff.1 hnone
    simp only [reduceCtorEq, false_iff]
    omega
  · rename_i hsome
    simp [hsome]
  · rename_i hempty
    obtain ⟨hi, -⟩ := List.getElem?_eq_some_iff.1 hempty
    have hslot : s.slots[i] = none := by simpa [hi] using hempty
    simp [hi, hslot, write, eq_comm]

theorem put_eq_ok {i : Nat} {o : Outcome} (hi : i < s.slots.length) (hempty : s.get? i = none) :
    s.put i o = .ok (s.write i o) :=
  Except.mapError_eq_ok_iff.2 (record_eq_ok_iff.2 ⟨hi, hempty, rfl⟩)

/-! ## Inputs -/

theorem mergedSources_congr {component : String} {p : InputParam}
    (h : ∀ w ∈ p.sources, s.get? w.producer = t.get? w.producer) :
    s.mergedSources component p = t.mergedSources component p := by
  refine Except.foldlM_congr (fun w hw merged => ?_) _
  simp only [output?, h w hw]

theorem resolve_congr {component : String} {p : InputParam} (b : Bindings)
    (h : ∀ w ∈ p.sources, s.get? w.producer = t.get? w.producer) :
    s.resolve component p b = t.resolve component p b := by
  unfold resolve source
  rw [mergedSources_congr h]

/-- The inputs of a component depend on the results of its producers only. -/
theorem inputsFor_congr {n : Node} (b : Bindings)
    (h : ∀ p ∈ n.producers, s.get? p = t.get? p) : s.inputsFor n b = t.inputsFor n b := by
  refine Except.foldlM_congr (fun p hp trees => ?_) _
  cases p.slot with
  | none => rfl
  | some slot =>
    have hsame : s.resolve n.guid p b = t.resolve n.guid p b :=
      resolve_congr b fun w hw =>
        h _ (List.mem_flatMap.2 ⟨p, hp, List.mem_map_of_mem hw⟩)
    simp only [hsame]

/-- What the wires of a parameter carry is merged in the order of the wires. -/
theorem mergedSources_eq (component : String) {p : InputParam} {trees : List Tree}
    (h : p.sources.map s.output? = trees.map some) :
    s.mergedSources component p = .ok (trees.foldl Tree.merge .empty) := by
  have hcarried : List.Forall₂ (fun w t => s.output? w = some t) p.sources trees := by
    rwa [← List.forall₂_eq_eq_eq, List.forall₂_map_left_iff, List.forall₂_map_right_iff] at h
  have hwalk : s.mergedSources component p
      = trees.foldlM (fun merged t => Except.ok (merged.merge t)) .empty := by
    refine Except.foldlM_eq_of_forall₂ (hcarried.flip.imp fun t w hw merged => ?_) _
    rw [hw]
  rw [hwalk]
  exact List.foldlM_pure

theorem mergedSources_ok (component : String) {p : InputParam}
    (h : ∀ w ∈ p.sources, (s.output? w).isSome) :
    ∃ merged, s.mergedSources component p = .ok merged := by
  refine Except.foldlM_total (fun w hw merged => ?_) _
  obtain ⟨tree, htree⟩ := Option.isSome_iff_exists.1 (h w hw)
  exact ⟨merged.merge tree, by rw [htree]⟩

theorem resolve_ok (component : String) {p : InputParam} (b : Bindings)
    (h : ∀ w ∈ p.sources, (s.output? w).isSome) :
    ∃ tree, s.resolve component p b = .ok tree := by
  obtain ⟨merged, hmerged⟩ := mergedSources_ok component h
  unfold resolve source
  split
  · exact ⟨_, rfl⟩
  · exact ⟨_, by rw [hmerged]; rfl⟩

/-- Inputs whose sources are all there can be read. -/
theorem inputsFor_ok {n : Node} (b : Bindings)
    (h : ∀ p ∈ n.inputs, ∀ w ∈ p.sources, (s.output? w).isSome) :
    ∃ trees, s.inputsFor n b = .ok trees := by
  refine Except.foldlM_total (fun p hp trees => ?_) _
  cases p.slot with
  | none => exact ⟨trees, rfl⟩
  | some slot =>
    obtain ⟨tree, htree⟩ := resolve_ok n.guid b (h p hp)
    exact ⟨trees.set slot tree, by simp only [htree]; rfl⟩

end Store
end TreeFlow
