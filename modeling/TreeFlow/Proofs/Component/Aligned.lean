import TreeFlow.Proofs.Component.Defaults
import TreeFlow.Proofs.Matching.Supply
import TreeFlow.Proofs.Tree
/-
Runs over trees that have the same branches.

Where all inputs have the same branches, none of them above another and none empty, matching serves
every branch with the branches at its own path alone.  So a run is made up of the runs over single
branches (`run_branchwise`): it succeeds if all of these do, its outputs are put together from
theirs, and it fails as the first of them that fails.
-/

namespace TreeFlow
namespace Component

open Matching (longest unionPaths keepsPaths leaves callsAt)

variable {k : Kind} {inputs : List Input} {given : List Tree} {outs : List Tree}
  {P : List Path} {p : Path}

/-- One tree for each input, all with the same branches: none above another, and none empty. -/
structure Aligned (inputs : List Input) (P : List Path) (given : List Tree) : Prop where
  length : given.length = inputs.length
  paths : ∀ t ∈ given, t.paths = P
  nonempty : P ≠ []
  free : ∀ p ∈ P, ∀ q ∈ P, ¬ p.extends? q = true
  full : ∀ t ∈ given, t.Full

theorem Kind.inputs_ne_nil (k : Kind) : k.signature.inputs ≠ [] := by
  revert k
  decide

/-! ## Aligned trees -/

theorem Aligned.givenAt_mem (h : Aligned inputs P given) {n : Nat} {i : Input}
    (hi : inputs[n]? = some i) : givenAt given n ∈ given := by
  have hn : n < given.length := h.length ▸ (List.getElem?_eq_some_iff.1 hi).1
  rw [givenAt, List.getElem?_eq_getElem hn, Option.getD_some]
  exact List.getElem_mem hn

theorem Aligned.hasNoItems (h : Aligned inputs P given) {t : Tree} (ht : t ∈ given) :
    t.hasNoItems = false :=
  (h.full t ht).hasNoItems (h.paths t ht ▸ h.nonempty)

theorem Aligned.supplied (h : Aligned inputs P given) : Supplied inputs given := fun _ he _ =>
  h.hasNoItems (h.givenAt_mem (List.mem_zipIdx_iff_getElem?.1 he))

/-- The inputs as matching receives them: nothing is missing. -/
def alignedInputs (inputs : List Input) (given : List Tree) : List Matching.Input :=
  inputsWith (fun _ t => t) inputs given

theorem Aligned.inputsWith_eq (h : Aligned inputs P given) :
    inputsWith filledTree inputs given = alignedInputs inputs given :=
  inputsWith_congr fun _ _ hi => filledTree_of_items (h.hasNoItems (h.givenAt_mem hi))

theorem Aligned.unionPaths_eq (h : Aligned inputs P given) (hinputs : inputs ≠ [])
    (haccess : ∀ i ∈ inputs, i.access ≠ .tree) : unionPaths (alignedInputs inputs given) = P := by
  have hzero := List.getElem?_eq_getElem (List.length_pos_iff.2 hinputs)
  have hpaths := h.paths _ (h.givenAt_mem hzero)
  refine SortedMap.eq_of_ascending (Matching.ascending_unionPaths _)
    (hpaths ▸ (givenAt given 0).branches.keys_ascending) fun p => ?_
  rw [alignedInputs, mem_unionPaths_inputsWith haccess]
  constructor
  · intro hp
    obtain ⟨n, i, hi, hp⟩ := hp
    exact h.paths _ (h.givenAt_mem hi) ▸ hp
  · intro hp
    exact ⟨0, _, hzero, hpaths ▸ hp⟩

/-- Each branch of the outputs comes from the branches at its own path. -/
theorem Aligned.longest_eq (h : Aligned inputs P given) (hinputs : inputs ≠ [])
    (haccess : ∀ i ∈ inputs, i.access ≠ .tree) :
    longest (alignedInputs inputs given)
      = P.map fun p => ⟨p, callsAt (alignedInputs inputs given) p⟩ := by
  have hzero := List.getElem?_eq_getElem (List.length_pos_iff.2 hinputs)
  have hpaths := h.paths _ (h.givenAt_mem hzero)
  have hleaves : leaves (unionPaths (alignedInputs inputs given)) = P := by
    rw [h.unionPaths_eq hinputs haccess, ← hpaths]
    exact leaves_paths (hpaths.symm ▸ h.free)
  have hkeeps : keepsPaths (alignedInputs inputs given) P = true :=
    (keepsPaths_inputsWith haccess).2 ⟨0, _, hzero, hpaths⟩
  rw [Matching.longest_of_keepsPaths (by rw [hleaves, hkeeps]), hleaves]

/-! ## A single branch -/

theorem givenAt_map_only (given : List Tree) (p : Path) (n : Nat) :
    givenAt (given.map (·.only p)) n = (givenAt given n).only p := by
  rw [givenAt, givenAt, List.getElem?_map]
  cases given[n]? <;> rfl

/-- Aligned trees stay aligned when they are cut down to one of the branches. -/
theorem Aligned.only (h : Aligned inputs P given) (hp : p ∈ P) :
    Aligned inputs [p] (given.map (·.only p)) where
  length := by rw [List.length_map, h.length]
  paths := List.forall_mem_map.2 fun t ht => Tree.paths_only (h.paths t ht ▸ hp)
  nonempty := List.cons_ne_nil _ _
  free := by simp [Path.not_extends?_self]
  full := List.forall_mem_map.2 fun t ht => (h.full t ht).only p

/-- At a path that a tree has, its other branches do not count. -/
theorem offerAt_only {access : Access} {t : Tree} (haccess : access ≠ .tree) (hp : p ∈ t.paths)
    (name : String) :
    Matching.Input.offerAt ⟨name, access, t.only p⟩ p
      = Matching.Input.offerAt ⟨name, access, t⟩ p := by
  obtain ⟨items, hitems⟩ := Matching.mem_paths_iff.1 hp
  have honly : (t.only p).branch? p = some items := (t.branch?_only_self p).trans hitems
  rw [Matching.Input.offerAt_of_branch? haccess honly,
    Matching.Input.offerAt_of_branch? haccess hitems]

theorem Aligned.callsAt_only (h : Aligned inputs P given)
    (haccess : ∀ i ∈ inputs, i.access ≠ .tree) (hp : p ∈ P) :
    callsAt (alignedInputs inputs (given.map (·.only p))) p
      = callsAt (alignedInputs inputs given) p := by
  have hoffers : ((alignedInputs inputs (given.map (·.only p))).map fun i => i.offerAt p)
      = (alignedInputs inputs given).map fun i => i.offerAt p := by
    rw [alignedInputs, alignedInputs, inputsWith, inputsWith, List.map_map, List.map_map]
    refine List.map_congr_left fun e he => ?_
    have hi : inputs[e.2]? = some e.1 := List.mem_zipIdx_iff_getElem?.1 he
    show Matching.Input.offerAt ⟨e.1.name, e.1.access, givenAt (given.map (·.only p)) e.2⟩ p
      = Matching.Input.offerAt ⟨e.1.name, e.1.access, givenAt given e.2⟩ p
    rw [givenAt_map_only]
    exact offerAt_only (haccess e.1 (List.mem_of_getElem? hi))
      (h.paths _ (h.givenAt_mem hi) ▸ hp) _
  rw [callsAt, callsAt, hoffers]

/-! ## Rows -/

theorem filter_parts {r : Row} {outputs n : Nat} (hn : n < outputs)
    (hvalues : ∀ values ∈ r.values, Plain outputs values) (p : Path) :
    ((r.parts n).filter fun e => e.1 = p) = if r.path = p then r.parts n else [] := by
  have hkeys : ∀ e ∈ r.parts n, e.1 = r.path := fun e he =>
    (mem_parts hn hvalues).1 (List.mem_map_of_mem he)
  by_cases hp : r.path = p
  · rw [if_pos hp, List.filter_eq_self]
    exact fun e he => decide_eq_true ((hkeys e he).trans hp)
  · rw [if_neg hp, List.filter_eq_nil_iff]
    exact fun e he heq => hp ((hkeys e he).symm.trans (of_decide_eq_true heq))

theorem filter_flatMap_parts {rows : List Row} {outputs n : Nat} (hn : n < outputs)
    (hvalues : ∀ r ∈ rows, ∀ values ∈ r.values, Plain outputs values) (p : Path) :
    ((rows.flatMap fun r => r.parts n).filter fun e => e.1 = p)
      = (rows.filter fun r => r.path = p).flatMap fun r => r.parts n := by
  induction rows with
  | nil => rfl
  | cons r rows ih =>
    obtain ⟨hr, hrows⟩ := List.forall_mem_cons.1 hvalues
    rw [List.flatMap_cons, List.filter_append, filter_parts hn hr, ih hrows, List.filter_cons]
    by_cases hp : r.path = p
    · rw [if_pos hp, if_pos (decide_eq_true hp), List.flatMap_cons]
    · rw [if_neg hp, if_neg (by simpa using hp), List.nil_append]

theorem filter_path_eq_singleton {rows : List Row} (hnodup : (rows.map Row.path).Nodup) {r : Row}
    (hr : r ∈ rows) : (rows.filter fun r' => r'.path = r.path) = [r] := by
  obtain ⟨before, after, rfl⟩ := List.append_of_mem hr
  rw [List.map_append, List.map_cons, List.nodup_middle, List.nodup_cons, List.mem_append,
    not_or] at hnodup
  have hnone : ∀ l : List Row, r.path ∉ l.map Row.path →
      (l.filter fun r' => r'.path = r.path) = [] := by
    intro l hpath
    refine List.filter_eq_nil_iff.2 fun r' hr' heq => hpath ?_
    exact of_decide_eq_true heq ▸ List.mem_map_of_mem hr'
  rw [List.filter_append, List.filter_cons, if_pos (decide_eq_true rfl), hnone _ hnodup.1.1,
    hnone _ hnodup.1.2, List.nil_append]

/-- The branch of an output at a path comes from the row of the path. -/
theorem outputTree_only {rows : List Row} {outputs n : Nat} (hn : n < outputs)
    (hvalues : ∀ r ∈ rows, ∀ values ∈ r.values, Plain outputs values)
    (hnodup : (rows.map Row.path).Nodup) {r : Row} (hr : r ∈ rows) :
    (outputTree rows n).only r.path = outputTree [r] n := by
  rw [outputTree, Tree.gather_only, filter_flatMap_parts hn hvalues,
    filter_path_eq_singleton hnodup hr, outputTree]

/-- The values of the calls for one path. -/
def rowAt (k : Kind) (given : List Tree) (p : Path) : Except Failure Row :=
  rowOf k ⟨p, callsAt (alignedInputs k.signature.inputs given) p⟩

section

variable (hmode : k.signature.mode = .longest)
  (haccess : ∀ i ∈ k.signature.inputs, i.access ≠ .tree)
  (h : Aligned k.signature.inputs P given)

include hmode haccess h

theorem Aligned.run_eq :
    run k given = (P.mapM (rowAt k given)).map fun rows =>
      (List.range k.signature.outputs.length).map (outputTree rows) := by
  rw [run_longest hmode haccess h.supplied k.inputs_ne_nil, h.inputsWith_eq,
    h.longest_eq k.inputs_ne_nil haccess, List.mapM_map]
  rfl

theorem Aligned.run_only (hp : p ∈ P) :
    run k (given.map (·.only p)) = (rowAt k given p).map fun row =>
      (List.range k.signature.outputs.length).map (outputTree [row]) := by
  have hrow : rowAt k (given.map (·.only p)) p = rowAt k given p := by
    rw [rowAt, rowAt, h.callsAt_only haccess hp]
  rw [(h.only hp).run_eq hmode haccess, List.mapM_cons, List.mapM_nil, hrow]
  cases rowAt k given p <;> rfl

theorem Aligned.run_only_eq_ok_iff (hp : p ∈ P) :
    (∃ outs, run k (given.map (·.only p)) = .ok outs) ↔ ∃ row, rowAt k given p = .ok row := by
  rw [h.run_only hmode haccess hp]
  cases rowAt k given p <;> simp [Except.map]

theorem Aligned.run_only_eq_error_iff (hp : p ∈ P) {e : Failure} :
    run k (given.map (·.only p)) = .error e ↔ rowAt k given p = .error e := by
  rw [h.run_only hmode haccess hp, Except.map_eq_error_iff]

/-- What a run that succeeds gives holds the branches of the runs over single branches. -/
theorem Aligned.outputs (hrun : run k given = .ok outs) :
    (∀ out ∈ outs, out.paths = P) ∧
      ∀ p ∈ P, run k (given.map (·.only p)) = .ok (outs.map (·.only p)) := by
  rw [h.run_eq hmode haccess, Except.map_eq_ok_iff] at hrun
  obtain ⟨rows, hrows, rfl⟩ := hrun
  have hbranches : (P.map fun p => ⟨p, callsAt (alignedInputs k.signature.inputs given) p⟩).mapM
      (rowOf k) = .ok rows := List.mapM_map.trans hrows
  have hpaths : rows.map Row.path = P := by
    rw [paths_of_rows hbranches, List.map_map]
    exact List.map_id _
  have hvalues := plain_of_rows (k.call_plain hmode haccess) hbranches
  have hascending : Matching.Ascending P := by
    have hzero := List.getElem?_eq_getElem (List.length_pos_iff.2 k.inputs_ne_nil)
    exact h.paths _ (h.givenAt_mem hzero) ▸ (givenAt given 0).branches.keys_ascending
  constructor
  · intro out hout
    obtain ⟨n, hn, rfl⟩ := List.mem_map.1 hout
    refine SortedMap.eq_of_ascending (outputTree rows n).branches.keys_ascending hascending
      fun p => ?_
    exact hpaths ▸ mem_paths_outputTree (List.mem_range.1 hn) hvalues
  · intro p hp
    obtain ⟨r, hr, hrow⟩ := (Except.mapM_eq_ok_iff.1 hrows).exists_right hp
    obtain rfl : r.path = p := (rowOf_plain (k.call_plain hmode haccess) hrow).1
    rw [h.run_only hmode haccess hp, hrow, List.map_map]
    refine congrArg Except.ok (List.map_congr_left fun n hn => ?_)
    exact (outputTree_only (List.mem_range.1 hn) hvalues
      (hpaths ▸ SortedMap.nodup_of_ascending hascending) hr).symm

end

/-- With aligned trees a run is made up of the runs over single branches.  It succeeds if they all
do, with outputs that hold at each path the branches of the run over it, and its fault is that of
the first one that fails. -/
theorem run_branchwise (hmode : k.signature.mode = .longest)
    (haccess : ∀ i ∈ k.signature.inputs, i.access ≠ .tree)
    (h : Aligned k.signature.inputs P given) :
    ((∃ outs, run k given = .ok outs) ↔ ∀ p ∈ P, ∃ outs, run k (given.map (·.only p)) = .ok outs) ∧
      (∀ outs, run k given = .ok outs →
        (∀ out ∈ outs, out.paths = P) ∧
          ∀ p ∈ P, run k (given.map (·.only p)) = .ok (outs.map (·.only p))) ∧
      ∀ e, run k given = .error e ↔ ∃ before p after, P = before ++ p :: after ∧
        (∀ q ∈ before, ∃ outs, run k (given.map (·.only q)) = .ok outs) ∧
        run k (given.map (·.only p)) = .error e := by
  refine ⟨?_, fun outs hrun => h.outputs hmode haccess hrun, fun e => ?_⟩
  · calc (∃ outs, run k given = .ok outs)
        ↔ ∃ rows, P.mapM (rowAt k given) = .ok rows := by
          rw [h.run_eq hmode haccess]
          cases P.mapM (rowAt k given) <;> simp [Except.map]
      _ ↔ ∀ p ∈ P, ∃ row, rowAt k given p = .ok row := Except.exists_mapM_eq_ok_iff
      _ ↔ ∀ p ∈ P, ∃ outs, run k (given.map (·.only p)) = .ok outs :=
          forall₂_congr fun p hp => (h.run_only_eq_ok_iff hmode haccess hp).symm
  · rw [h.run_eq hmode haccess, Except.map_eq_error_iff, Except.mapM_eq_error_iff]
    refine exists₃_congr fun before p after => and_congr_right fun hP => ?_
    have hbefore : ∀ q ∈ before, q ∈ P := fun q hq => by simp [hP, hq]
    have hp : p ∈ P := by simp [hP]
    refine and_congr (forall₂_congr fun q hq => ?_) ?_
    · exact (h.run_only_eq_ok_iff hmode haccess (hbefore q hq)).symm
    · exact (h.run_only_eq_error_iff hmode haccess hp).symm

namespace Sample

/-- Two branches, from which the first item and the eighth one are picked. -/
def picks : List Tree :=
  [fives, .ofBranches [(.ofIndex 0, [.integer 0]), (.ofIndex 1, [.integer 7])],
    .ofBranches [(.ofIndex 0, [.boolean false]), (.ofIndex 1, [.boolean false])]]

theorem picks_aligned :
    Aligned (Kind.sets .listItem).signature.inputs [.ofIndex 0, .ofIndex 1] picks where
  length := rfl
  paths := by decide
  nonempty := by decide
  free := by decide
  full := by decide

end Sample

/-- The second branch alone makes the whole run fail. -/
theorem run_branchwise_sample :
    run (.sets .listItem) Sample.picks = .error (.call (.indexOutOfRange 7 1)) ∧
      ∃ before p after, [Path.ofIndex 0, .ofIndex 1] = before ++ p :: after ∧
        (∀ q ∈ before, ∃ outs, run (.sets .listItem) (Sample.picks.map (·.only q)) = .ok outs) ∧
        run (.sets .listItem) (Sample.picks.map (·.only p))
          = .error (.call (.indexOutOfRange 7 1)) :=
  ⟨rfl, ((run_branchwise rfl (by decide) Sample.picks_aligned).2.2 _).1 rfl⟩

end Component
end TreeFlow
