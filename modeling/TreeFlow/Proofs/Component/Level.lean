import TreeFlow.Proofs.Component.Assembled
/-
Outputs side by side.

Consumers pair the outputs of a kind by position, which is right if the items at a place of all of
them come from one call.  What carries this is that a call is level: it puts as many items into one
output as into the others (`Kind.level_of_call`).  So the outputs stay in step from call to call,
also where branches of calls run into one, for then each output has them in the same order
(`outputs_level`).

Only the longest list is level on conditions: it cannot make an empty list longer.
-/

namespace TreeFlow
namespace Component

variable {k : Kind} {given outs : List Tree} {args values : List Value} {n outputs : Nat}
  {p : Path}

/-! ## Level calls -/

/-- The items that a call puts into output number `n`. -/
def share (n : Nat) (values : List Value) : List Item := placed (argument values n)

/-- A call puts as many items into one output as into the others. -/
def Level (values : List Value) : Prop := ∃ size, ∀ v ∈ values, (placed v).length = size

theorem Level.length_eq (h : Level values) (hn : n < values.length) {n' : Nat}
    (hn' : n' < values.length) :
    (share n values).length = (share n' values).length := by
  obtain ⟨size, hsize⟩ := h
  have hvalue : ∀ {n}, n < values.length → argument values n ∈ values := fun hn => by
    rw [argument_eq (List.getElem?_eq_getElem hn)]
    exact List.getElem_mem hn
  rw [share, share, hsize _ (hvalue hn), hsize _ (hvalue hn')]

theorem Itemized.level (h : Itemized n values) : Level values := by
  refine ⟨1, fun v hv => ?_⟩
  obtain ⟨item, rfl⟩ := h.items v hv
  rfl

theorem length_holdLast {items : List Item} (h : items ≠ []) {size : Nat}
    (hsize : items.length ≤ size) : (Lists.holdLast items size).length = size := by
  rw [Lists.holdLast, List.getLast?_eq_some_getLast h]
  simp only [List.length_append, List.length_replicate]
  omega

/-- The kinds that have several outputs. -/
def Kind.several : List Kind :=
  [.vector .deconstructPoint, .vector .vectorXyz, .vector .vector2Pt, .sets .shortestList,
    .sets .longestList, .sets .crossReference]

theorem Kind.mem_several_iff (k : Kind) : k ∈ several ↔ 1 < k.signature.outputs.length := by
  revert k
  decide

theorem Kind.treeless_of_several (hk : k ∈ Kind.several) : k.Treeless := by
  have haccess : ∀ k ∈ several, ∀ i ∈ k.signature.inputs, i.access ≠ .tree := by decide
  exact k.treeless_iff.2 (haccess k hk)

/-- A list that is an argument of a call is a branch of the tree of its input. -/
theorem ne_nil_of_listAt {i : Input} {name : String} {items : List Item}
    (hargs : args ∈ calls k given) (hi : k.signature.inputs[n]? = some i)
    (haccess : i.access = .list) (hfull : (givenAt given n).Full)
    (h : listAt args n name = .ok items) : items ≠ [] := by
  obtain ⟨hfits, hitems⟩ := argument_fits hargs hi (by simp [haccess])
  have hrequired := (k.of_not_item i (List.mem_of_getElem? hi)).2 haccess
  obtain ⟨branch, hbranch, harg⟩ :=
    hfits.exists_list haccess (paths_ne_nil_of_items (hitems hrequired))
  rw [listAt, harg] at h
  obtain rfl := Except.ok.inj h
  exact hfull _ hbranch

/-- A call of a kind with several outputs is level, whatever its arguments; but the longest list
needs lists that have a last item. -/
theorem Kind.level_of_call (hk : k ∈ Kind.several)
    (hfull : k = .sets .longestList → ∀ n < k.signature.inputs.length, (givenAt given n).Full)
    (hargs : args ∈ calls k given) (hcall : k.call args = .ok values) : Level values := by
  cases k with
  | params p => cases p <;> exact absurd hk (by decide)
  | maths m => cases m <;> exact absurd hk (by decide)
  | tree t => cases t <;> exact absurd hk (by decide)
  | vector v => exact (v.call_items args values hcall).level
  | sets l =>
    cases l with
    | series | listItem | listLength | reverseList => exact absurd hk (by decide)
    | shortestList =>
      obtain ⟨a, -, h⟩ := Except.bind_eq_ok_iff.1 hcall
      obtain ⟨b, -, h⟩ := Except.bind_eq_ok_iff.1 h
      obtain rfl := Except.ok.inj h
      refine ⟨min a.length b.length, ?_⟩
      simp only [List.forall_mem_cons, placed, List.length_take]
      exact ⟨by omega, by omega, nofun⟩
    | longestList =>
      obtain ⟨a, ha, h⟩ := Except.bind_eq_ok_iff.1 hcall
      obtain ⟨b, hb, h⟩ := Except.bind_eq_ok_iff.1 h
      obtain rfl := Except.ok.inj h
      have hne : a ≠ [] := ne_nil_of_listAt hargs rfl rfl (hfull rfl 0 (by decide)) ha
      have hne' : b ≠ [] := ne_nil_of_listAt hargs rfl rfl (hfull rfl 1 (by decide)) hb
      refine ⟨max a.length b.length, ?_⟩
      simp only [List.forall_mem_cons, placed]
      exact ⟨length_holdLast hne (by omega), length_holdLast hne' (by omega), nofun⟩
    | crossReference =>
      -- Each argument is an item or missing, for which there is a null.
      obtain rfl := Except.ok.inj hcall
      have hone : ∀ n i, (Kind.sets .crossReference).signature.inputs[n]? = some i →
          i.access = .item → i.default = none → (placed (argument args n)).length = 1 := by
        intro n i hi haccess hdefault
        rcases argument_of_item hargs hi haccess with harg | ⟨item, harg⟩
        · rw [harg, hdefault]
          rfl
        · rw [harg]
          rfl
      refine ⟨1, ?_⟩
      simp only [List.forall_mem_cons]
      exact ⟨hone 0 _ rfl rfl rfl, hone 1 _ rfl rfl rfl, nofun⟩

/-! ## Lists in step -/

section

variable {α β : Type} {f g : α → List β} {l : List α} {i : Nat}

theorem length_flatMap_congr (h : ∀ a ∈ l, (f a).length = (g a).length) :
    (l.flatMap f).length = (l.flatMap g).length := by
  induction l with
  | nil => rfl
  | cons a l ih =>
    obtain ⟨ha, hl⟩ := List.forall_mem_cons.1 h
    rw [List.flatMap_cons, List.flatMap_cons, List.length_append, List.length_append, ha, ih hl]

/-- A place in a list that is put together lies in one of its parts. -/
theorem exists_part_of_lt (hi : i < (l.flatMap f).length) :
    ∃ before a after j, l = before ++ a :: after ∧ i = (before.flatMap f).length + j ∧
      j < (f a).length := by
  induction l generalizing i with
  | nil => exact absurd hi (Nat.not_lt_zero i)
  | cons a l ih =>
    by_cases hfirst : i < (f a).length
    · exact ⟨[], a, l, i, rfl, (Nat.zero_add i).symm, hfirst⟩
    · rw [List.flatMap_cons, List.length_append] at hi
      obtain ⟨before, a', after, j, rfl, hj, hlt⟩ := ih (i := i - (f a).length) (by omega)
      refine ⟨a :: before, a', after, j, rfl, ?_, hlt⟩
      rw [List.flatMap_cons, List.length_append]
      omega

theorem getElem?_flatMap_part {before after : List α} {a : α} {j : Nat} (hj : j < (f a).length) :
    ((before ++ a :: after).flatMap f)[(before.flatMap f).length + j]? = (f a)[j]? := by
  rw [List.flatMap_append, List.flatMap_cons, List.getElem?_append_right (by omega),
    Nat.add_sub_cancel_left, List.getElem?_append_left hj]

end

/-! ## Outputs, call by call -/

/-- The items of an output at a path, none where it has no branch. -/
def itemsAt (out : Tree) (p : Path) : List Item := (out.branch? p).getD []

/-- At a path all outputs hold what the same calls gave, one after the other. -/
structure InStep (k : Kind) (given outs : List Tree) (p : Path) (made : List (List Value)) :
    Prop where
  calls : ∃ chosen, chosen.Sublist (calls k given) ∧
    List.Forall₂ (fun args values => k.call args = .ok values) chosen made
  items : ∀ n out, outs[n]? = some out → itemsAt out p = made.flatMap (share n)
  length : ∀ values ∈ made, values.length = outs.length
  level : ∀ values ∈ made, Level values

/-- One call gave the items at a place of the outputs, at one place of what it gave to each. -/
def OneCall (outs : List Tree) (p : Path) (made : List (List Value)) (i : Nat) : Prop :=
  ∃ before values after j, made = before ++ values :: after ∧
    ∀ n out, outs[n]? = some out →
      i = (before.flatMap (share n)).length + j ∧
      ∃ item, (share n values)[j]? = some item ∧ (itemsAt out p)[i]? = some item

section

variable {made : List (List Value)} {out out' : Tree} {n' i : Nat}

theorem InStep.length_share_eq (h : InStep k given outs p made) (hout : outs[n]? = some out)
    (hout' : outs[n']? = some out') (hvalues : values ∈ made) :
    (share n values).length = (share n' values).length := by
  have hn := (List.getElem?_eq_some_iff.1 hout).1
  have hn' := (List.getElem?_eq_some_iff.1 hout').1
  rw [← h.length values hvalues] at hn hn'
  exact (h.level values hvalues).length_eq hn hn'

theorem InStep.length_itemsAt_eq (h : InStep k given outs p made) (hout : outs[n]? = some out)
    (hout' : outs[n']? = some out') : (itemsAt out p).length = (itemsAt out' p).length := by
  rw [h.items n out hout, h.items n' out' hout']
  exact length_flatMap_congr fun _ => h.length_share_eq hout hout'

theorem InStep.oneCall (h : InStep k given outs p made) (hout : outs[n]? = some out)
    (hi : i < (itemsAt out p).length) : OneCall outs p made i := by
  rw [h.items n out hout] at hi
  obtain ⟨before, values, after, j, hmade, hplace, hj⟩ := exists_part_of_lt hi
  have hmem : ∀ values' ∈ before, values' ∈ made := fun values' hvalues' => by
    rw [hmade]
    exact List.mem_append_left _ hvalues'
  refine ⟨before, values, after, j, hmade, fun n' out' hout' => ?_⟩
  have hbefore : (before.flatMap (share n)).length = (before.flatMap (share n')).length :=
    length_flatMap_congr fun values' hvalues' =>
      h.length_share_eq hout hout' (hmem values' hvalues')
  have hvalues : values ∈ made := by simp [hmade]
  have hj' : j < (share n' values).length := h.length_share_eq hout hout' hvalues ▸ hj
  have hi' : i = (before.flatMap (share n')).length + j := hbefore ▸ hplace
  refine ⟨hi', (share n' values)[j], List.getElem?_eq_getElem hj', ?_⟩
  rw [h.items n' out' hout', hi', hmade, getElem?_flatMap_part hj', List.getElem?_eq_getElem hj']

end

/-! ## Runs -/

/-- What all calls for a path give, also where several rows are at it. -/
def valuesAt (rows : List Row) (p : Path) : List (List Value) :=
  (rows.filter fun r => r.path = p).flatMap Row.values

theorem itemsAt_outputTree {rows : List Row} (hn : n < outputs)
    (hvalues : ∀ r ∈ rows, ∀ values ∈ r.values, Plain outputs values) :
    itemsAt (outputTree rows n) p = (valuesAt rows p).flatMap (share n) := by
  by_cases hp : p ∈ rows.map Row.path
  · rw [itemsAt, branch?_outputTree hn hvalues hp, Option.getD_some, valuesAt, List.flatMap_assoc]
    exact List.flatMap_congr fun r hr =>
      flatMap_parts_placed hn (hvalues r (List.mem_filter.1 hr).1)
  · have hnone : (rows.filter fun r => r.path = p) = [] :=
      List.filter_eq_nil_iff.2 fun r hr heq =>
        hp (of_decide_eq_true heq ▸ List.mem_map_of_mem hr)
    have hpaths : p ∉ (outputTree rows n).paths := mt (mem_paths_outputTree hn hvalues).1 hp
    rw [itemsAt, Matching.not_mem_paths_iff.1 hpaths, Option.getD_none, valuesAt, hnone]
    rfl

/-- The calls of the branches at a path, among all calls of a run. -/
theorem exists_calls_valuesAt {trees : List Tree} {bs : List Matching.Branch} {rows : List Row}
    (htrees : inputTrees? k.signature.inputs given = some trees)
    (hbs : Matching.branches k.signature.mode (matchInputs k.signature.inputs trees) = .ok bs)
    (hrows : bs.mapM (rowOf k) = .ok rows) (p : Path) :
    ∃ chosen, chosen.Sublist (calls k given) ∧
      List.Forall₂ (fun args values => k.call args = .ok values) chosen (valuesAt rows p) := by
  refine ⟨(bs.filter fun b => b.path = p).flatMap fun b =>
    b.calls.map (withDefaults k.signature.inputs), ?_, ?_⟩
  · simp only [calls, htrees, hbs]
    exact List.filter_sublist.flatMap _
  · refine List.rel_flatMap (List.rel_filter ?_ (Except.mapM_eq_ok_iff.1 hrows)) ?_
    · intro b r hrow
      show decide (b.path = p) = true ↔ decide (r.path = p) = true
      rw [(rowOf_eq_ok_iff.1 hrow).1]
    · intro b r hrow
      rw [List.forall₂_map_left_iff]
      exact (rowOf_eq_ok_iff.1 hrow).2

section

variable (hk : k ∈ Kind.several)
  (hfull : k = .sets .longestList → ∀ n < k.signature.inputs.length, (givenAt given n).Full)

include hk hfull

theorem inStep_of_rows {trees : List Tree} {bs : List Matching.Branch} {rows : List Row}
    (htrees : inputTrees? k.signature.inputs given = some trees)
    (hbs : Matching.branches k.signature.mode (matchInputs k.signature.inputs trees) = .ok bs)
    (hrows : bs.mapM (rowOf k) = .ok rows)
    (hplain : ∀ r ∈ rows, ∀ values ∈ r.values, Plain k.signature.outputs.length values)
    (p : Path) :
    InStep k given ((List.range k.signature.outputs.length).map (outputTree rows)) p
      (valuesAt rows p) := by
  have hcalls := exists_calls_valuesAt htrees hbs hrows p
  refine ⟨hcalls, fun n out hout => ?_, fun values hvalues => ?_, fun values hvalues => ?_⟩
  · obtain ⟨hlt, rfl⟩ := List.getElem?_eq_some_iff.1 hout
    have hn : n < k.signature.outputs.length := by simpa using hlt
    rw [List.getElem_map, List.getElem_range, itemsAt_outputTree hn hplain]
  · obtain ⟨r, hr, hvalues⟩ := List.mem_flatMap.1 hvalues
    rw [(hplain r (List.mem_filter.1 hr).1 values hvalues).length, List.length_map,
      List.length_range]
  · obtain ⟨chosen, hsublist, hchosen⟩ := hcalls
    obtain ⟨args, hargs, hcall⟩ := hchosen.exists_left hvalues
    exact k.level_of_call hk hfull (hsublist.subset hargs) hcall

theorem inStep_of_run (hrun : run k given = .ok outs) :
    (∃ P, ∀ out ∈ outs, out.paths = P) ∧ ∀ p, ∃ made, InStep k given outs p made := by
  cases htrees : inputTrees? k.signature.inputs given with
  | none =>
    -- The kind is not called.
    simp only [run, htrees] at hrun
    obtain rfl := Except.ok.inj hrun
    have hempty : ∀ out ∈ k.signature.outputs.map fun _ => Tree.empty, out = .empty := by simp
    refine ⟨⟨[], fun out hout => hempty out hout ▸ rfl⟩, fun p => ⟨[], ?_⟩⟩
    refine ⟨⟨[], List.nil_sublist _, .nil⟩, fun n out hout => ?_, List.forall_mem_nil _,
      List.forall_mem_nil _⟩
    rw [hempty out (List.mem_of_getElem? hout)]
    rfl
  | some trees =>
    obtain ⟨bs, rows, hbs, hrows, rfl⟩ := exists_rows_of_run htrees hrun
    have hplain : ∀ r ∈ rows, ∀ values ∈ r.values, Plain k.signature.outputs.length values := by
      intro r hr values hvalues
      obtain ⟨b, hb, hrow⟩ := (Except.mapM_eq_ok_iff.1 hrows).exists_left hr
      obtain ⟨call, hcall, hvalues⟩ := (rowOf_eq_ok_iff.1 hrow).2.exists_left hvalues
      exact (Kind.treeless_of_several hk).plain htrees hbs b hb call hcall values hvalues
    refine ⟨⟨(outputTree rows 0).paths, fun out hout => ?_⟩, fun p =>
      ⟨_, inStep_of_rows hk hfull htrees hbs hrows hplain p⟩⟩
    obtain ⟨n, hn, rfl⟩ := List.mem_map.1 hout
    have hfirst : 0 < k.signature.outputs.length :=
      Nat.zero_lt_of_lt (k.mem_several_iff.1 hk)
    refine SortedMap.eq_of_ascending (outputTree rows n).branches.keys_ascending
      (outputTree rows 0).branches.keys_ascending fun p => ?_
    exact (mem_paths_outputTree (List.mem_range.1 hn) hplain).trans
      (mem_paths_outputTree hfirst hplain).symm

end

/-- The outputs of a kind with several of them have the same paths, and at each path the same number
of items, those at one place from one call.  The longest list does so for trees without empty
branches. -/
theorem outputs_level :
    (∀ k, k ∈ Kind.several ↔ 1 < k.signature.outputs.length) ∧
    ∀ (k : Kind) (given outs : List Tree), k ∈ Kind.several →
      (k = .sets .longestList → ∀ n < k.signature.inputs.length, (givenAt given n).Full) →
      run k given = .ok outs →
      (∃ P, ∀ out ∈ outs, out.paths = P) ∧
        ∀ p, ∃ made, InStep k given outs p made ∧
          (∃ size, ∀ out ∈ outs, (itemsAt out p).length = size) ∧
          ∀ out ∈ outs, ∀ i < (itemsAt out p).length, OneCall outs p made i := by
  refine ⟨Kind.mem_several_iff, fun k given outs hk hfull hrun => ?_⟩
  obtain ⟨hpaths, hmade⟩ := inStep_of_run hk hfull hrun
  refine ⟨hpaths, fun p => ?_⟩
  obtain ⟨made, h⟩ := hmade p
  refine ⟨made, h, ?_, fun out hout i hi => ?_⟩
  · cases outs with
    | nil => exact ⟨0, nofun⟩
    | cons first rest =>
      have hfirst : (first :: rest)[0]? = some first := rfl
      refine ⟨(itemsAt first p).length, fun out hout => ?_⟩
      obtain ⟨n, hn⟩ := List.getElem?_of_mem hout
      exact h.length_itemsAt_eq hn hfirst
  · obtain ⟨n, hn⟩ := List.getElem?_of_mem hout
    exact h.oneCall hn hi

namespace Sample

/-- Two lists at two paths, the shorter one first on one side and then on the other. -/
def uneven : List Tree :=
  [.ofBranches [(.ofIndex 0, [.integer 1, .integer 2]), (.ofIndex 1, [.integer 3])],
    .ofBranches [(.ofIndex 0, [.integer 5]), (.ofIndex 1, [.integer 6, .integer 7])]]

def evened : List Tree :=
  [.ofBranches [(.ofIndex 0, [.integer 1, .integer 2]), (.ofIndex 1, [.integer 3, .integer 3])],
    .ofBranches [(.ofIndex 0, [.integer 5, .integer 5]), (.ofIndex 1, [.integer 6, .integer 7])]]

end Sample

theorem outputs_level_sample :
    Kind.sets .longestList ∈ Kind.several ∧ (∀ n < 2, (givenAt Sample.uneven n).Full) ∧
      run (.sets .longestList) Sample.uneven = .ok Sample.evened ∧
      ∃ made, InStep (.sets .longestList) Sample.uneven Sample.evened (.ofIndex 1) made ∧
        OneCall Sample.evened (.ofIndex 1) made 1 := by
  have hfull : ∀ n < 2, (givenAt Sample.uneven n).Full := by decide
  have hrun : run (.sets .longestList) Sample.uneven = .ok Sample.evened := rfl
  have hlevel := outputs_level.2 (.sets .longestList) _ _ (by decide) (fun _ => hfull) hrun
  obtain ⟨made, hstep, -, hone⟩ := hlevel.2 (.ofIndex 1)
  exact ⟨by decide, hfull, hrun, made, hstep, hone _ List.mem_cons_self 1 (by decide)⟩

end Component
end TreeFlow
