import TreeFlow.Proofs.Component.Aligned
import TreeFlow.Proofs.Component.Shaped
import TreeFlow.Proofs.Component.Single
import TreeFlow.Proofs.Matching.Shortest
/-
How outputs are put together.

What a call gives is added to the branch that the output has at the path of the call, so two
branches of calls at one path would run into one.  Matching never makes such branches, whatever the
mode: their paths ascend, as long as their numbers have not come round (`ascending_branches`).  So
an output has one branch for each of them, with what its own calls give (`outputs_assembled`).
-/

namespace TreeFlow

/-! ## Paths of branches -/

namespace Matching

variable {mode : Mode} {inputs : List Input} {bs : List Branch}

theorem ascending_numbers {n : Nat} (h : n ≤ UInt32.size) :
    Ascending ((List.range n).map .ofIndex) := by
  rw [Ascending, List.pairwise_map]
  refine List.pairwise_lt_range.imp_of_mem fun _ hj hij => ?_
  exact Path.compare_ofIndex hij (Nat.lt_of_lt_of_le (List.mem_range.1 hj) h)

theorem paths_cross (h : cross inputs = .ok bs) :
    bs.map Branch.path = (List.range bs.length).map .ofIndex := by
  rw [cross] at h
  cases hfind : inputs.find? fun i => i.iterated && i.tree.isEmpty with
  | some i =>
    rw [hfind] at h
    cases h
  | none =>
    rw [hfind] at h
    obtain rfl := Except.ok.inj h
    rw [List.map_map, List.length_map, List.length_zipIdx, List.range_eq_range',
      ← List.zipIdx_map_snd, List.map_map]
    rfl

/-- The branches of all modes are in path order, and so no two of them are at one path. -/
theorem ascending_branches (h : branches mode inputs = .ok bs) (hlength : bs.length ≤ UInt32.size) :
    Ascending (bs.map Branch.path) := by
  have houtput : ∀ l : List Path, Ascending l → bs.map Branch.path = outputPaths inputs l →
      Ascending (bs.map Branch.path) := by
    intro l hl hpaths
    have hsize : l.length = bs.length := by
      rw [← length_outputPaths, ← hpaths, List.length_map]
    rw [hpaths]
    exact ascending_outputPaths hl (.inr (hsize ▸ hlength))
  unfold branches at h
  by_cases hany : inputs.any Input.iterated = true
  · rw [if_pos hany] at h
    cases mode with
    | longest =>
      obtain rfl := Except.ok.inj h
      exact houtput _ (ascending_leaves (ascending_unionPaths inputs)) (paths_longest inputs)
    | shortest =>
      obtain rfl := Except.ok.inj h
      exact houtput _ (ascending_commonPaths inputs) (paths_shortest inputs)
    | cross =>
      rw [paths_cross h]
      exact ascending_numbers hlength
  · rw [if_neg hany] at h
    obtain rfl := Except.ok.inj h
    exact List.pairwise_singleton _ _

end Matching

namespace Component

variable {k : Kind} {given trees outs : List Tree} {out : Tree} {n : Nat} {p : Path}

/-! ## Kinds that give no whole trees -/

/-- No call that a run makes gives a whole tree. -/
def Kind.Treeless (k : Kind) : Prop :=
  ∀ given, ∀ args ∈ calls k given,
    Ensures (fun values => ∀ v ∈ values, v.tree? = none) (k.call args)

/-- Whole trees are given by the kinds that take them. -/
theorem Kind.treeless_iff (k : Kind) :
    k.Treeless ↔ ∀ i ∈ k.signature.inputs, i.access ≠ .tree := by
  constructor
  · intro h
    cases k with
    | params p =>
      have hcalls : [.tree .empty] ∈ calls (.params p) [] := by cases p <;> decide
      cases h [] _ hcalls _ rfl _ List.mem_cons_self
    | tree s =>
      have hcalls : [.tree Sample.five] ∈ calls (.tree s) [Sample.five] := by cases s <;> decide
      cases h _ _ hcalls _ rfl _ List.mem_cons_self
    | maths m => cases m <;> decide
    | sets l => cases l <;> decide
    | vector v => cases v <;> decide
  · intro haccess given args hargs
    cases k with
    | params p => exact absurd rfl (haccess _ List.mem_cons_self)
    | tree s => exact absurd rfl (haccess _ List.mem_cons_self)
    | maths m => exact (m.call_plain args).imp fun _ h => h.flat
    | vector v => exact (v.call_plain args).imp fun _ h => h.flat
    | sets l =>
      by_cases hcross : l = .crossReference
      · -- Cross reference hands its arguments on, and matching gives it single items.
        subst hcross
        have hshaped := shaped_of_mem_calls hargs
        refine .pure fun v hv => ?_
        rcases List.mem_cons.1 hv with rfl | hv
        · exact hshaped.iterated 0 _ rfl (by decide)
        · obtain rfl := List.mem_singleton.1 hv
          exact hshaped.iterated 1 _ rfl (by decide)
      · exact (l.call_plain hcross args).imp fun _ h => h.flat

/-! ## Branches of an output -/

/-- The items that a value puts into the branch of its call. -/
def placed : Value → List Item
  | .missing => [.null]
  | .item item => [item]
  | .list items => items
  | .tree _ => []

theorem parts_eq {v : Value} (hv : v.tree? = none) : parts p v = [(p, placed v)] := by
  cases v with
  | tree t => cases hv
  | missing => rfl
  | item => rfl
  | list => rfl

/-- A branch of output number `n` that holds what a branch of calls gives: it is at the same path,
and it has what its calls give to the output, one after the other. -/
structure Assembled (k : Kind) (n : Nat) (b : Matching.Branch) (e : Path × List Item) : Prop where
  path : e.1 = b.path
  items : ∃ vs, List.Forall₂ (fun call v => ∃ values,
    k.call (withDefaults k.signature.inputs call) = .ok values ∧ values[n]? = some v) b.calls vs ∧
      e.2 = vs.flatMap placed
  empty : b.calls = [] → e.2 = []

/-- A branch of an output has what the rows at its path give, one after the other. -/
theorem branch?_outputTree {rows : List Row} {outputs : Nat} (hn : n < outputs)
    (hvalues : ∀ r ∈ rows, ∀ values ∈ r.values, Plain outputs values)
    (hp : p ∈ rows.map Row.path) :
    (outputTree rows n).branch? p
      = some ((rows.filter fun r => r.path = p).flatMap fun r => (r.parts n).flatMap Prod.snd) := by
  have hkey : p ∈ (rows.flatMap fun r => r.parts n).map Prod.fst :=
    SortedMap.mem_keys_gather.1 ((mem_paths_outputTree hn hvalues).2 hp)
  show (SortedMap.gather (rows.flatMap fun r => r.parts n)).get? p = _
  rw [SortedMap.get?_gather, if_pos hkey, filter_flatMap_parts hn hvalues, List.flatMap_assoc]

/-- Rows in path order are the branches of an output. -/
theorem entries_outputTree {rows : List Row} {outputs : Nat} (hn : n < outputs)
    (hvalues : ∀ r ∈ rows, ∀ values ∈ r.values, Plain outputs values)
    (hascending : Matching.Ascending (rows.map Row.path)) :
    (outputTree rows n).branches.entries
      = rows.map fun r => (r.path, (r.parts n).flatMap Prod.snd) := by
  have hbranch : ∀ r ∈ rows, (outputTree rows n).branch? r.path
      = some ((r.parts n).flatMap Prod.snd) := by
    intro r hr
    rw [branch?_outputTree hn hvalues (List.mem_map_of_mem hr), filter_path_eq_singleton
      (SortedMap.nodup_of_ascending hascending) hr, List.flatMap_singleton]
  let m : SortedMap Path (List Item) :=
    ⟨rows.map fun r => (r.path, (r.parts n).flatMap Prod.snd),
      List.pairwise_map.2 (List.pairwise_map.1 hascending)⟩
  refine congrArg SortedMap.entries (SortedMap.ext_get? (n := m) fun p => ?_)
  refine Option.ext fun items => ?_
  rw [SortedMap.get?_eq_some_iff, SortedMap.get?_eq_some_iff]
  show (p, items) ∈ (outputTree rows n).branches.entries ↔ (p, items) ∈ rows.map _
  rw [Matching.mem_entries_iff, List.mem_map]
  constructor
  · intro hp
    have hmem := (mem_paths_outputTree hn hvalues).1 (Matching.mem_paths_iff.2 ⟨items, hp⟩)
    obtain ⟨r, hr, rfl⟩ := List.mem_map.1 hmem
    exact ⟨r, hr, congrArg (Prod.mk r.path) (Option.some.inj ((hbranch r hr).symm.trans hp))⟩
  · intro hmem
    obtain ⟨r, hr, heq⟩ := hmem
    obtain ⟨rfl, rfl⟩ := Prod.mk.inj heq
    exact hbranch r hr

/-- The value that a call gives to an output. -/
theorem Plain.output {outputs : Nat} {values : List Value} (h : Plain outputs values)
    (hn : n < outputs) :
    values[n]? = some (argument values n) ∧ (argument values n).tree? = none := by
  have hvalue : values[n]? = some (argument values n) := by
    rw [argument, List.getD_eq_getElem?_getD, List.getElem?_eq_getElem (h.length.symm ▸ hn),
      Option.getD_some]
  exact ⟨hvalue, h.flat _ (List.mem_of_getElem? hvalue)⟩

/-- What a row puts into an output, call by call. -/
theorem flatMap_parts_placed {r : Row} {outputs : Nat} (hn : n < outputs)
    (hvalues : ∀ values ∈ r.values, Plain outputs values) :
    (r.parts n).flatMap Prod.snd = r.values.flatMap fun values => placed (argument values n) := by
  rw [flatMap_parts]
  refine List.flatMap_congr fun values hmem => ?_
  obtain ⟨hvalue, hflat⟩ := (hvalues values hmem).output hn
  rw [hvalue, Option.map_some, Option.getD_some, parts_eq hflat, List.flatMap_singleton]

/-- The row of a branch gives to an output what the calls of the branch give to it. -/
theorem assembled_row {b : Matching.Branch} {r : Row} (hn : n < k.signature.outputs.length)
    (hcalls : ∀ call ∈ b.calls, Ensures (Plain k.signature.outputs.length)
      (k.call (withDefaults k.signature.inputs call)))
    (h : rowOf k b = .ok r) :
    (∀ values ∈ r.values, Plain k.signature.outputs.length values) ∧
      Assembled k n b (r.path, (r.parts n).flatMap Prod.snd) := by
  obtain ⟨hpath, hrow⟩ := rowOf_eq_ok_iff.1 h
  have hgiven : List.Forall₂ (fun call values => k.call (withDefaults k.signature.inputs call)
      = .ok values ∧ Plain k.signature.outputs.length values) b.calls r.values :=
    ((List.forall₂_and_left _ _).2 ⟨hcalls, hrow⟩).imp fun call values h => ⟨h.2, h.1 values h.2⟩
  have hplain : ∀ values ∈ r.values, Plain k.signature.outputs.length values := by
    intro values hvalues
    obtain ⟨call, -, -, h⟩ := hgiven.exists_left hvalues
    exact h
  refine ⟨hplain, hpath, ⟨r.values.map fun values => argument values n, ?_, ?_⟩, fun hnone => ?_⟩
  · rw [List.forall₂_map_right_iff]
    exact hgiven.imp fun call values h => ⟨values, h.1, (h.2.output hn).1⟩
  · rw [flatMap_parts_placed hn hplain, List.flatMap_map]
  · rw [hnone] at hgiven
    rw [flatMap_parts_placed hn hplain, List.forall₂_nil_left_iff.1 hgiven, List.flatMap_nil]

/-! ## Runs -/

theorem Kind.Treeless.plain (h : k.Treeless) {bs : List Matching.Branch}
    (htrees : inputTrees? k.signature.inputs given = some trees)
    (hbs : Matching.branches k.signature.mode (matchInputs k.signature.inputs trees) = .ok bs) :
    ∀ b ∈ bs, ∀ call ∈ b.calls, Ensures (Plain k.signature.outputs.length)
      (k.call (withDefaults k.signature.inputs call)) := by
  intro b hb call hcall values hvalues
  have hmem : withDefaults k.signature.inputs call ∈ calls k given := by
    simp only [calls, htrees, hbs]
    exact List.mem_flatMap.2 ⟨b, hb, List.mem_map_of_mem hcall⟩
  exact ⟨k.length_of_call _ values hvalues, h given _ hmem values hvalues⟩

/-- The branches that matching makes are in path order in all modes.  So where a kind that gives no
whole trees is called, each of its outputs has exactly one branch for each of them, with what the
calls of that branch give. -/
theorem outputs_assembled :
    (∀ mode inputs bs, Matching.branches mode inputs = .ok bs → bs.length ≤ UInt32.size →
      Matching.Ascending (bs.map Matching.Branch.path)) ∧
    ∀ (k : Kind) (given trees outs : List Tree), k.Treeless →
      inputTrees? k.signature.inputs given = some trees → run k given = .ok outs →
      ∃ bs, Matching.branches k.signature.mode (matchInputs k.signature.inputs trees) = .ok bs ∧
        outs.length = k.signature.outputs.length ∧
        (bs.length ≤ UInt32.size → ∀ n out, outs[n]? = some out →
          List.Forall₂ (Assembled k n) bs out.branches.entries) := by
  refine ⟨fun _ _ _ => Matching.ascending_branches, fun k given trees outs hk htrees hrun => ?_⟩
  have hlength := length_of_run hrun
  obtain ⟨bs, rows, hbs, hrows, rfl⟩ := exists_rows_of_run htrees hrun
  refine ⟨bs, hbs, hlength, fun hsize n out hout => ?_⟩
  obtain ⟨hlt, rfl⟩ := List.getElem?_eq_some_iff.1 hout
  have hn : n < k.signature.outputs.length := by simpa using hlt
  have hascending := Matching.ascending_branches hbs hsize
  rw [← paths_of_rows hrows] at hascending
  have hall := (List.forall₂_and_left _ _).2
    ⟨hk.plain htrees hbs, Except.mapM_eq_ok_iff.1 hrows⟩
  have hvalues : ∀ r ∈ rows, ∀ values ∈ r.values, Plain k.signature.outputs.length values := by
    intro r hr
    obtain ⟨b, -, hcalls, hrow⟩ := hall.exists_left hr
    exact (assembled_row hn hcalls hrow).1
  rw [List.getElem_map, List.getElem_range, entries_outputTree hn hvalues hascending,
    List.forall₂_map_right_iff]
  exact hall.imp fun b r h => (assembled_row hn h.1 h.2).2

namespace Sample

/-- A branch of two items, and to cross it with, a branch of one item and an empty one. -/
def crossing : List Tree :=
  [.ofBranches [(.ofIndex 1, [.integer 1, .integer 2])],
    .ofBranches [(.ofIndex 0, [.integer 5]), (.ofIndex 7, [])]]

/-- Both branches are crossed with, and the empty one makes no calls. -/
def crossings : List Tree :=
  [.ofBranches [(.ofIndex 0, [.integer 1, .integer 2]), (.ofIndex 1, [])],
    .ofBranches [(.ofIndex 0, [.integer 5, .integer 5]), (.ofIndex 1, [])]]

end Sample

theorem outputs_assembled_sample :
    (Kind.sets .crossReference).Treeless ∧
      inputTrees? (Kind.sets .crossReference).signature.inputs Sample.crossing
        = some Sample.crossing ∧
      run (.sets .crossReference) Sample.crossing = .ok Sample.crossings ∧
      ∃ bs, Matching.branches .cross
          (matchInputs (Kind.sets .crossReference).signature.inputs Sample.crossing) = .ok bs ∧
        Matching.Ascending (bs.map Matching.Branch.path) ∧
        ∀ n out, Sample.crossings[n]? = some out →
          List.Forall₂ (Assembled (.sets .crossReference) n) bs out.branches.entries := by
  have htreeless : (Kind.sets .crossReference).Treeless := (Kind.treeless_iff _).2 (by decide)
  have htrees : inputTrees? (Kind.sets .crossReference).signature.inputs Sample.crossing
      = some Sample.crossing := rfl
  have hrun : run (.sets .crossReference) Sample.crossing = .ok Sample.crossings := rfl
  obtain ⟨bs, hbs, -, hassembled⟩ := outputs_assembled.2 _ _ _ _ htreeless htrees hrun
  have hsize : bs.length ≤ UInt32.size := by
    obtain rfl := Except.ok.inj hbs
    decide
  exact ⟨htreeless, htrees, hrun, bs, hbs, outputs_assembled.1 _ _ bs hbs hsize, hassembled hsize⟩

end Component
end TreeFlow
