import TreeFlow.Proofs.Component.Arity
import TreeFlow.Proofs.SortedMap
/-
The branches of the outputs of a component.

Values that are not whole trees go to the branch of their call, and a branch without calls is made
all the same.  So the outputs of a kind that gives no whole trees have the branches that matching
gives, neither more nor fewer (`mem_paths_of_run`).
-/

namespace TreeFlow
namespace Component

variable {k : Kind} {given : List Tree}

/-- Every call gives values that go to its own branch. -/
def Branchwise (k : Kind) : Prop :=
  ∀ args, Ensures (Plain k.signature.outputs.length) (k.call args)

theorem parts_of_flat {p q : Path} {v : Value} (hv : v.tree? = none) :
    q ∈ (parts p v).map Prod.fst ↔ q = p := by
  cases v with
  | tree t => cases hv
  | missing => simp [parts]
  | item i => simp [parts]
  | list items => simp [parts]

theorem mem_parts {r : Row} {outputs n : Nat} (hn : n < outputs)
    (hvalues : ∀ values ∈ r.values, Plain outputs values) {p : Path} :
    p ∈ (r.parts n).map Prod.fst ↔ p = r.path := by
  have hcall : ∀ values ∈ r.values,
      p ∈ ((values[n]?.map (parts r.path)).getD []).map Prod.fst ↔ p = r.path := by
    intro values hmem
    obtain ⟨hlength, hflat⟩ := hvalues values hmem
    have hlt : n < values.length := by omega
    rw [List.getElem?_eq_getElem hlt]
    exact parts_of_flat (hflat _ (List.getElem_mem hlt))
  unfold Row.parts
  cases hrow : r.values with
  | nil => simp
  | cons values rest =>
    rw [hrow] at hcall
    rw [List.isEmpty_cons, if_neg Bool.false_ne_true, List.map_flatMap, List.mem_flatMap]
    constructor
    · rintro ⟨values', hmem, hp⟩
      exact (hcall values' hmem).1 hp
    · intro hp
      exact ⟨values, List.mem_cons_self, (hcall values List.mem_cons_self).2 hp⟩

/-- The row of a branch holds what its calls give, one call after the other. -/
theorem rowOf_eq_ok_iff {b : Matching.Branch} {r : Row} :
    rowOf k b = .ok r ↔ r.path = b.path ∧
      List.Forall₂ (fun args values => k.call (withDefaults k.signature.inputs args) = .ok values)
        b.calls r.values := by
  have hcalls : ∀ values, b.calls.mapM (callValues k) = .ok values ↔
      List.Forall₂ (fun args values => k.call (withDefaults k.signature.inputs args) = .ok values)
        b.calls values := by
    intro values
    simp only [Except.mapM_eq_ok_iff, callValues_eq, Except.mapError_eq_ok_iff]
  rw [rowOf, Except.bind_eq_ok_iff]
  constructor
  · intro h
    obtain ⟨values, hvalues, h⟩ := h
    obtain rfl := Except.ok.inj h
    exact ⟨rfl, (hcalls values).1 hvalues⟩
  · intro h
    obtain ⟨hpath, h⟩ := h
    exact ⟨r.values, (hcalls r.values).2 h, hpath ▸ rfl⟩

theorem rowOf_plain (hk : Branchwise k) {b : Matching.Branch} {r : Row} (h : rowOf k b = .ok r) :
    r.path = b.path ∧ ∀ values ∈ r.values, Plain k.signature.outputs.length values := by
  obtain ⟨hpath, hcalls⟩ := rowOf_eq_ok_iff.1 h
  refine ⟨hpath, fun values hvalues => ?_⟩
  obtain ⟨args, -, hargs⟩ := hcalls.exists_left hvalues
  exact hk _ values hargs

/-- There is a row for each branch, at its path. -/
theorem paths_of_rows {branches : List Matching.Branch} {rows : List Row}
    (h : branches.mapM (rowOf k) = .ok rows) :
    rows.map Row.path = branches.map Matching.Branch.path := by
  rw [← List.forall₂_eq_eq_eq, List.forall₂_map_left_iff, List.forall₂_map_right_iff]
  exact (Except.mapM_eq_ok_iff.1 h).flip.imp fun r b hr => (rowOf_eq_ok_iff.1 hr).1

theorem plain_of_rows (hk : Branchwise k) {branches : List Matching.Branch} {rows : List Row}
    (h : branches.mapM (rowOf k) = .ok rows) :
    ∀ r ∈ rows, ∀ values ∈ r.values, Plain k.signature.outputs.length values := by
  intro r hr
  obtain ⟨b, -, hb⟩ := Except.exists_of_mem_mapM h hr
  exact (rowOf_plain hk hb).2

theorem mem_paths_outputTree {outputs n : Nat} (hn : n < outputs) {rows : List Row}
    (hrows : ∀ r ∈ rows, ∀ values ∈ r.values, Plain outputs values) {p : Path} :
    p ∈ (outputTree rows n).paths ↔ p ∈ rows.map Row.path := by
  rw [outputTree, Tree.gather, Tree.paths, SortedMap.mem_keys_gather, List.map_flatMap,
    List.mem_flatMap, List.mem_map]
  refine exists_congr fun r => and_congr_right fun hr => ?_
  rw [mem_parts hn (hrows r hr), eq_comm]

/-- A run that has trees to match and succeeds puts its outputs together from the rows of the
branches that matching makes. -/
theorem exists_rows_of_run {trees outs : List Tree}
    (htrees : inputTrees? k.signature.inputs given = some trees) (hrun : run k given = .ok outs) :
    ∃ branches rows,
      Matching.branches k.signature.mode (matchInputs k.signature.inputs trees) = .ok branches ∧
      branches.mapM (rowOf k) = .ok rows ∧
      outs = (List.range k.signature.outputs.length).map (outputTree rows) := by
  cases hbranches : Matching.branches k.signature.mode (matchInputs k.signature.inputs trees) with
  | error e =>
    simp only [run, htrees, hbranches] at hrun
    cases hrun
  | ok branches =>
    simp only [run, htrees, hbranches] at hrun
    obtain ⟨rows, hrows, hrun⟩ := Except.bind_eq_ok_iff.1 hrun
    exact ⟨branches, rows, rfl, hrows, (Except.ok.inj hrun).symm⟩

/-- The outputs have the branches of the calls. -/
theorem mem_paths_of_run (hk : Branchwise k) {trees outs : List Tree}
    {branches : List Matching.Branch} (htrees : inputTrees? k.signature.inputs given = some trees)
    (hbranches : Matching.branches k.signature.mode (matchInputs k.signature.inputs trees)
      = .ok branches)
    (hrun : run k given = .ok outs) {out : Tree} (hout : out ∈ outs) {p : Path} :
    p ∈ out.paths ↔ p ∈ branches.map Matching.Branch.path := by
  obtain ⟨made, rows, hmade, hrows, rfl⟩ := exists_rows_of_run htrees hrun
  obtain rfl := Except.ok.inj (hmade.symm.trans hbranches)
  obtain ⟨n, hn, rfl⟩ := List.mem_map.1 hout
  rw [mem_paths_outputTree (List.mem_range.1 hn) (plain_of_rows hk hrows), paths_of_rows hrows]

end Component
end TreeFlow
