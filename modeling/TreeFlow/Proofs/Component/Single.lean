import TreeFlow.Proofs.Component.Defaults
import TreeFlow.Proofs.Matching.Supply
import TreeFlow.Proofs.Tree
/-
Kinds with a single input of items.

Such a kind should be called with every item of its tree.  But a single tree, too, is aligned on its
deepest paths: a branch that stands above another is left out, with its items (`branch_above_lost`).
The other items are processed in their order, and each output has one item for each of them
(`items_of_run`).
-/

namespace TreeFlow
namespace Component

open Matching (longest unionPaths keepsPaths leaves outputPaths callsAt)

variable {k : Kind} {i : Input} {t : Tree} {p : Path} {n : Nat} {outs : List Tree} {out : Tree}

/-- Output number `n` of the function of a kind, from one item to one item. -/
def Computes (k : Kind) (n : Nat) (x y : Item) : Prop :=
  ∃ values, k.call [.item x] = .ok values ∧ values[n]? = some (.item y)

/-- Kinds with a single input of items give items. -/
theorem Kind.call_items (k : Kind) (hinputs : k.signature.inputs = [i]) (hitem : i.access = .item)
    (args : List Value) : Ensures (Itemized k.signature.outputs.length) (k.call args) := by
  have hshape : k.signature.inputs.map Input.access = [.item] := by rw [hinputs, ← hitem]; rfl
  cases k with
  | params p => cases p <;> cases hshape
  | maths m => exact m.call_items args
  | sets l => cases l <;> cases hshape
  | tree t => cases t <;> cases hshape
  | vector v => exact v.call_items args

/-! ## Matching a single tree -/

section

variable {x : Matching.Input} {items : List Item}

theorem unionPaths_singleton (hx : x.access = .item) : unionPaths [x] = x.tree.paths := by
  refine SortedMap.eq_of_ascending (Matching.ascending_unionPaths _)
    x.tree.branches.keys_ascending fun p => ?_
  rw [Matching.mem_unionPaths]
  constructor
  · intro hp
    obtain ⟨x', hx', -, hp⟩ := hp
    exact List.mem_singleton.1 hx' ▸ hp
  · intro hp
    exact ⟨x, List.mem_singleton_self x, by simp [Matching.Input.iterated, hx], hp⟩

theorem leaves_paths_eq (t : Tree) : leaves t.paths = t.leafBranches.map Prod.fst := by
  have hascending : Matching.Ascending t.paths := t.branches.keys_ascending
  rw [Matching.leaves_eq_filter hascending, Tree.leafBranches, Tree.paths, SortedMap.keys,
    List.filter_map]
  rfl

/-- There is a call for each item of the branch at a path. -/
theorem callsAt_singleton (hx : x.access = .item) (hitems : x.tree.branch? p = some items) :
    callsAt [x] p = items.map fun item => [.item item] := by
  have hoffer : x.offerAt p = .items items.toArray := by
    rw [Matching.Input.offerAt_of_branch? (by simp [hx]) hitems, hx]
    rfl
  refine List.ext_getElem? fun c => ?_
  rw [callsAt, Matching.callsOf]
  simp only [List.map_cons, List.map_nil, hoffer, List.foldl_cons, List.foldl_nil,
    Matching.Offer.count, Nat.zero_max, List.size_toArray, List.getElem?_map]
  by_cases hc : c < items.length
  · simp [hc, Matching.Offer.argument]
  · simp [Nat.le_of_not_lt hc]

theorem longest_singleton (hx : x.access = .item) :
    longest [x] = (x.tree.leafBranches.zip (outputPaths [x] (leaves x.tree.paths))).map fun e =>
      ⟨e.2, e.1.2.map fun item => [.item item]⟩ := by
  rw [Matching.longest_eq, unionPaths_singleton hx, leaves_paths_eq, List.zip_map_left,
    List.map_map]
  refine List.map_congr_left fun e he => ?_
  have hmem : e.1 ∈ x.tree.leafBranches := (List.of_mem_zip he).1
  have hbranch := Matching.mem_entries_iff.1 (List.mem_filter.1 hmem).1
  simp [callsAt_singleton hx hbranch]

end

/-! ## What a branch gives -/

theorem flatMap_parts (r : Row) (n : Nat) :
    (r.parts n).flatMap Prod.snd = r.values.flatMap fun values =>
      ((values[n]?.map (parts r.path)).getD []).flatMap Prod.snd := by
  unfold Row.parts
  cases r.values with
  | nil => rfl
  | cons values rest => exact List.flatMap_assoc

section

variable (hinputs : k.signature.inputs = [i]) (hitem : i.access = .item)

include hinputs hitem

theorem computes_values {items : List Item} {rows : List (List Value)} (q : Path)
    (hn : n < k.signature.outputs.length)
    (h : List.Forall₂ (fun item values => k.call [.item item] = .ok values) items rows) :
    List.Forall₂ (Computes k n) items
      (rows.flatMap fun values => ((values[n]?.map (parts q)).getD []).flatMap Prod.snd) := by
  induction h with
  | nil => exact .nil
  | @cons item values items rows hcall _ ih =>
    obtain ⟨hlength, hvalues⟩ := k.call_items hinputs hitem _ values hcall
    have hvalue : values[n]? = some values[n] := List.getElem?_eq_getElem (hlength ▸ hn)
    obtain ⟨y, hy⟩ := hvalues _ (List.mem_of_getElem? hvalue)
    rw [hy] at hvalue
    rw [List.flatMap_cons, hvalue]
    exact .cons ⟨values, hcall, hvalue⟩ ih

/-- A row that comes from single items has an item for each of them in every output. -/
theorem computes_row {output : Path} {items : List Item} {r : Row}
    (hn : n < k.signature.outputs.length)
    (h : rowOf k ⟨output, items.map fun item => [.item item]⟩ = .ok r) :
    List.Forall₂ (Computes k n) items ((r.parts n).flatMap Prod.snd) := by
  obtain ⟨-, hrow⟩ := rowOf_eq_ok_iff.1 h
  rw [List.forall₂_map_left_iff] at hrow
  rw [flatMap_parts]
  exact computes_values hinputs hitem r.path hn hrow

/-- The rows of branches, one after the other. -/
theorem computes_rows {outputs : List Path} {rows : List Row} {branches : List (Path × List Item)}
    (hn : n < k.signature.outputs.length) (hlength : branches.length = outputs.length)
    (h : List.Forall₂ (fun e r => rowOf k ⟨e.2, e.1.2.map fun item => [.item item]⟩ = .ok r)
      (branches.zip outputs) rows) :
    List.Forall₂ (Computes k n) (branches.flatMap Prod.snd)
      ((rows.flatMap fun r => r.parts n).flatMap Prod.snd) := by
  have hbranches : branches.flatMap Prod.snd = (branches.zip outputs).flatMap fun e => e.1.2 := by
    have hzip : (branches.zip outputs).map Prod.fst = branches :=
      List.map_fst_zip (Nat.le_of_eq hlength)
    calc branches.flatMap Prod.snd
        = ((branches.zip outputs).map Prod.fst).flatMap Prod.snd := by rw [hzip]
      _ = (branches.zip outputs).flatMap fun e => e.1.2 := List.flatMap_map _ _ _
  rw [hbranches, List.flatMap_assoc]
  exact List.rel_flatMap h fun e r hr => computes_row hinputs hitem hn hr

end

/-- Rows in path order put their items into an output in this order. -/
theorem pairwise_parts {rows : List Row} {outputs : Nat} (hn : n < outputs)
    (hvalues : ∀ r ∈ rows, ∀ values ∈ r.values, Plain outputs values)
    (hascending : Matching.Ascending (rows.map Row.path)) :
    (rows.flatMap fun r => r.parts n).Pairwise fun a b => compare a.1 b.1 ≠ .gt := by
  have hkeys : ∀ r ∈ rows, ∀ e ∈ r.parts n, e.1 = r.path := fun r hr e he =>
    (mem_parts hn (hvalues r hr)).1 (List.mem_map_of_mem he)
  rw [List.pairwise_flatMap]
  constructor
  · intro r hr
    refine List.pairwise_of_forall_mem_list fun a ha b hb => ?_
    have same : compare r.path r.path = .eq := Std.ReflCmp.compare_self
    rw [hkeys r hr a ha, hkeys r hr b hb, same]
    exact nofun
  · refine (List.pairwise_map.1 hascending).imp_of_mem fun {r r'} hr hr' hlt a ha b hb => ?_
    rw [hkeys r hr a ha, hkeys r' hr' b hb, hlt]
    exact nofun

/-! ## Runs -/

section

variable (hinputs : k.signature.inputs = [i]) (hitem : i.access = .item)
  (hmode : k.signature.mode = .longest)

include hinputs hitem hmode

theorem run_singleton (hitems : t.hasNoItems = false) :
    run k [t] = ((longest [⟨i.name, i.access, t⟩]).mapM (rowOf k)).map fun rows =>
      (List.range k.signature.outputs.length).map (outputTree rows) := by
  have haccess : ∀ j ∈ k.signature.inputs, j.access ≠ .tree := by simp [hinputs, hitem]
  have hsupplied : Supplied k.signature.inputs [t] := by simp [Supplied, hinputs, givenAt, hitems]
  have hmatched : inputsWith filledTree k.signature.inputs [t] = [⟨i.name, i.access, t⟩] := by
    simp [inputsWith, hinputs, givenAt, filledTree_of_items hitems]
  rw [run_longest hmode haccess hsupplied (by simp [hinputs]), hmatched]

/-- The rows of a single tree are in path order as long as their numbers have not come round. -/
theorem items_outputTree {rows : List Row} (hn : n < k.signature.outputs.length)
    (hrows : (longest [⟨i.name, i.access, t⟩]).mapM (rowOf k) = .ok rows) :
    ∃ ys, List.Forall₂ (Computes k n) t.leafItems ys ∧ (outputTree rows n).items.Perm ys ∧
      ((∀ p ∈ t.paths, ∀ q ∈ t.paths, ¬ p.extends? q = true) ∨
        t.leafBranches.length ≤ UInt32.size → (outputTree rows n).items = ys) := by
  have haccess : ∀ j ∈ k.signature.inputs, j.access ≠ .tree := by simp [hinputs, hitem]
  have hlength : t.leafBranches.length
      = (outputPaths [⟨i.name, i.access, t⟩] (leaves t.paths)).length := by
    rw [Matching.length_outputPaths, leaves_paths_eq, List.length_map]
  rw [longest_singleton hitem] at hrows
  have hpaths : rows.map Row.path = outputPaths [⟨i.name, i.access, t⟩] (leaves t.paths) := by
    rw [paths_of_rows hrows, List.map_map]
    exact List.map_snd_zip (Nat.le_of_eq hlength.symm)
  have hvalues := plain_of_rows (k.call_plain hmode haccess) hrows
  rw [List.mapM_map, Except.mapM_eq_ok_iff] at hrows
  have hgathered : (outputTree rows n).items
      = (SortedMap.gather (rows.flatMap fun r => r.parts n)).entries.flatMap Prod.snd :=
    Tree.items_eq _
  rw [hgathered]
  refine ⟨_, computes_rows hinputs hitem hn hlength hrows, SortedMap.flatMap_gather_perm _,
    fun hkept => SortedMap.flatMap_gather (pairwise_parts hn hvalues ?_)⟩
  have hleaves := Matching.ascending_leaves t.branches.keys_ascending
  rw [hpaths]
  refine Matching.ascending_outputPaths hleaves ?_
  cases hkept with
  | inl hfree =>
    rw [leaves_paths hfree, Matching.keepsPaths_iff]
    exact .inl ⟨_, List.mem_singleton_self _, by simp [Matching.Input.iterated, hitem], rfl⟩
  | inr hsize =>
    right
    rwa [leaves_paths_eq, List.length_map]

end

/-- A kind with a single input of items processes all items but those of branches that stand above
another one.  Each output has an item for each of them, in their order; but where paths are nested,
the branches of the outputs are numbered, and the order is lost when the numbers come round. -/
theorem items_of_run (hmode : k.signature.mode = .longest)
    (hinputs : k.signature.inputs = [i]) (hitem : i.access = .item)
    (hitems : t.hasNoItems = false) (hrun : run k [t] = .ok outs) (hout : outs[n]? = some out) :
    (∃ ys, List.Forall₂ (Computes k n) t.leafItems ys ∧ out.items.Perm ys ∧
        ((∀ p ∈ t.paths, ∀ q ∈ t.paths, ¬ p.extends? q = true) ∨
          t.leafBranches.length ≤ UInt32.size → out.items = ys)) ∧
      out.itemCount = t.leafItems.length ∧
      (out.itemCount = t.itemCount ↔ t.leafItems = t.items) ∧
      (t.leafItems = t.items ↔
        ∀ e ∈ t.branches.entries, (∃ q ∈ t.paths, e.1.extends? q = true) → e.2 = []) := by
  rw [run_singleton hinputs hitem hmode hitems, Except.map_eq_ok_iff] at hrun
  obtain ⟨rows, hrows, rfl⟩ := hrun
  obtain ⟨hlt, rfl⟩ := List.getElem?_eq_some_iff.1 hout
  have hn : n < k.signature.outputs.length := by simpa using hlt
  rw [List.getElem_map, List.getElem_range]
  have hys := items_outputTree hinputs hitem hmode hn hrows
  have hcount : (outputTree rows n).itemCount = t.leafItems.length := by
    obtain ⟨ys, hcomputes, hperm, -⟩ := hys
    rw [Tree.itemCount, hperm.length_eq, hcomputes.length_eq]
  refine ⟨hys, hcount, ?_, t.leafItems_eq_items_iff⟩
  rw [hcount, ← t.leafItems_sublist.length_eq]
  rfl

namespace Sample

/-- A branch with an item, above another one. -/
def nested : Tree := .ofBranches [(⟨[0]⟩, [.integer 1]), (⟨[0, 0]⟩, [.integer 2])]

/-- What is left of its items after a negation. -/
def negated : Tree := .ofBranches [(⟨[0]⟩, [.integer (-2)])]

end Sample

theorem items_of_run_sample :
    run (.maths .negative) [Sample.nested] = .ok [Sample.negated] ∧
      List.Forall₂ (Computes (.maths .negative) 0) Sample.nested.leafItems Sample.negated.items ∧
      Sample.negated.itemCount = Sample.nested.leafItems.length := by
  have hrun : run (.maths .negative) [Sample.nested] = .ok [Sample.negated] := rfl
  obtain ⟨⟨ys, hcomputes, -, horder⟩, hcount, -⟩ :=
    items_of_run (k := .maths .negative) rfl rfl rfl rfl hrun (n := 0) rfl
  have hitems := horder (.inr (by decide))
  exact ⟨hrun, hitems ▸ hcomputes, hcount⟩

/-- A negation loses an item that stands above another one. -/
theorem branch_above_lost :
    run (.maths .negative) [Sample.nested] = .ok [Sample.negated] ∧
      Sample.nested.itemCount = 2 ∧ Sample.negated.itemCount = 1 :=
  ⟨rfl, rfl, rfl⟩

end Component
end TreeFlow
