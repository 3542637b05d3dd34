import TreeFlow.Proofs.Matching.Fits
/-
The branches and calls of shortest-list matching.

A branch is made for each path that all iterated inputs have, so nothing has to stand in: every
input has its own branch there.  The calls end with the input that asks for fewest of them.  So the
last item of a branch is never held for a further call, and no argument is missing.

`branches_shortest` is the result for whole lists of inputs.
-/

namespace TreeFlow
namespace Matching

variable {i : Input} {inputs : List Input} {p : Path} {c n : Nat} {items : List Item}

/-! ## Paths -/

theorem mem_commonPaths_iff (h : ∃ i ∈ inputs, i.iterated = true) :
    p ∈ commonPaths inputs ↔ ∀ i ∈ inputs, i.iterated = true → p ∈ i.tree.paths := by
  constructor
  · intro hp i hi hiter
    exact mem_paths_of_commonPaths hp hi hiter
  · intro hall
    have hmem : ∀ i, i ∈ inputs.filter Input.iterated → p ∈ i.tree.paths := fun i hi =>
      hall i (List.mem_filter.1 hi).1 (List.mem_filter.1 hi).2
    obtain ⟨i, hi, hiter⟩ := h
    rw [commonPaths]
    cases hinputs : inputs.filter Input.iterated with
    | nil => exact absurd hiter (List.filter_eq_nil_iff.1 hinputs i hi)
    | cons first others =>
      rw [hinputs] at hmem
      refine List.mem_filter.2 ⟨hmem first List.mem_cons_self, List.all_eq_true.2 fun j hj => ?_⟩
      exact hasPath_iff.2 (hmem j (List.mem_cons_of_mem first hj))

theorem ascending_commonPaths (inputs : List Input) : Ascending (commonPaths inputs) := by
  rw [commonPaths]
  cases inputs.filter Input.iterated with
  | nil => exact .nil
  | cons first others => exact first.tree.branches.keys_ascending.filter _

theorem paths_shortest (inputs : List Input) :
    (shortest inputs).map Branch.path = outputPaths inputs (commonPaths inputs) := by
  rw [shortest, List.map_map]
  exact List.map_snd_zip (Nat.le_of_eq length_outputPaths)

/-! ## What an input gives at a path that it has -/

/-- The number of calls that an iterated input asks for: one for each item of its branch, or a
single one for the whole of it. -/
inductive Asks (i : Input) (p : Path) : Nat → Prop
  | list {items : List Item} (h : i.access = .list) (hitems : i.tree.branch? p = some items) :
      Asks i p 1
  | item {items : List Item} (h : i.access = .item) (hitems : i.tree.branch? p = some items) :
      Asks i p items.length

/-- The value that an input hands to the call of a number: the item of this number, or the whole
branch, or the whole tree. -/
inductive Hands (i : Input) (p : Path) (c : Nat) : Value → Prop
  | tree (h : i.access = .tree) : Hands i p c (.tree i.tree)
  | list {items : List Item} (h : i.access = .list) (hitems : i.tree.branch? p = some items) :
      Hands i p c (.list items)
  | item {items : List Item} {item : Item} (h : i.access = .item)
      (hitems : i.tree.branch? p = some items) (hitem : items[c]? = some item) :
      Hands i p c (.item item)

theorem Hands.ne_missing {v : Value} (h : Hands i p c v) : v ≠ .missing := by
  cases h <;> exact nofun

theorem offerOf_of_branch? (haccess : i.access ≠ .tree) (hitems : i.tree.branch? p = some items) :
    i.offerOf p = .ofBranch i.access items := by
  have hp : i.iterated = true → p ∈ i.tree.paths := fun _ => mem_paths_iff.2 ⟨items, hitems⟩
  rw [offerOf_eq hp, Input.offerAt_of_branch? haccess hitems]

/-- At a path that an iterated input has, its offer asks for the calls that its branch asks for. -/
theorem asks_iff (hp : i.iterated = true → p ∈ i.tree.paths) :
    Asks i p n ↔ i.iterated = true ∧ n = (i.offerOf p).count := by
  constructor
  · intro h
    cases h with
    | list h hitems =>
      rw [offerOf_of_branch? (by simp [h]) hitems, h]
      exact ⟨by simp [Input.iterated, h], rfl⟩
    | item h hitems =>
      rw [offerOf_of_branch? (by simp [h]) hitems, h]
      exact ⟨by simp [Input.iterated, h], rfl⟩
  · intro h
    obtain ⟨hiter, rfl⟩ := h
    obtain ⟨items, hitems⟩ := mem_paths_iff.1 (hp hiter)
    cases haccess : i.access with
    | tree => simp [Input.iterated, haccess] at hiter
    | list =>
      rw [offerOf_of_branch? (by simp [haccess]) hitems, haccess]
      exact .list haccess hitems
    | item =>
      rw [offerOf_of_branch? (by simp [haccess]) hitems, haccess]
      exact .item haccess hitems

/-- To the calls that an input asks for it hands its items one by one. -/
theorem hands_argument (hp : i.iterated = true → p ∈ i.tree.paths)
    (hc : i.iterated = true → c < (i.offerOf p).count) :
    Hands i p c ((i.offerOf p).argument c) := by
  by_cases hiter : i.iterated = true
  · obtain ⟨items, hitems⟩ := mem_paths_iff.1 (hp hiter)
    have hcount := hc hiter
    cases haccess : i.access with
    | tree => simp [Input.iterated, haccess] at hiter
    | list =>
      rw [offerOf_of_branch? (by simp [haccess]) hitems, haccess]
      exact .list haccess hitems
    | item =>
      rw [offerOf_of_branch? (by simp [haccess]) hitems, haccess] at hcount ⊢
      have hlt : c < items.length := hcount
      have hitem : items[c]? = some items[c] := List.getElem?_eq_getElem hlt
      have hargument : (Offer.ofBranch .item items).argument c = .item items[c] := by
        simp [Offer.ofBranch, Offer.argument, hlt]
      rw [hargument]
      exact .item haccess hitems hitem
  · have haccess := access_of_not_iterated hiter
    rw [Input.offerOf, haccess]
    exact .tree haccess

/-! ## Calls -/

/-- The calls of the branch that is made for a path: as many as some iterated input asks for and
none asks for fewer, each with what every input hands to it. -/
structure Paired (inputs : List Input) (p : Path) (calls : List (List Value)) : Prop where
  length : IsLeast { n | ∃ i ∈ inputs, Asks i p n } calls.length
  arguments : ∀ c call, calls[c]? = some call → List.Forall₂ (fun i v => Hands i p c v) inputs call

/-- The number of calls that is made for a path. -/
def leastCount (inputs : List Input) (p : Path) : Nat :=
  ((inputs.filter Input.iterated).map fun i => (i.offerOf p).count).min?.getD 0

theorem shortest_eq (inputs : List Input) :
    shortest inputs
      = ((commonPaths inputs).zip (outputPaths inputs (commonPaths inputs))).map fun e =>
        ⟨e.2, callsOf (inputs.map fun i => i.offerOf e.1) (leastCount inputs e.1)⟩ := rfl

theorem isLeast_min? {l : List Nat} (h : l ≠ []) : IsLeast { n | n ∈ l } (l.min?.getD 0) := by
  obtain ⟨n, hn⟩ := Option.ne_none_iff_exists'.1 (mt List.min?_eq_none_iff.1 h)
  rw [hn, Option.getD_some]
  exact List.min?_eq_some_iff.1 hn

theorem isLeast_leastCount (h : ∃ i ∈ inputs, i.iterated = true)
    (hp : ∀ i ∈ inputs, i.iterated = true → p ∈ i.tree.paths) :
    IsLeast { n | ∃ i ∈ inputs, Asks i p n } (leastCount inputs p) := by
  have hset : { n | ∃ i ∈ inputs, Asks i p n }
      = { n | n ∈ (inputs.filter Input.iterated).map fun i => (i.offerOf p).count } := by
    ext n
    simp only [Set.mem_ofPred_eq, List.mem_map, List.mem_filter, and_assoc]
    refine exists_congr fun i => and_congr_right fun hi => ?_
    rw [asks_iff (hp i hi)]
    exact and_congr_right fun _ => eq_comm
  rw [hset]
  refine isLeast_min? fun hnil => ?_
  obtain ⟨i, hi, hiter⟩ := h
  exact List.filter_eq_nil_iff.1 (List.map_eq_nil_iff.1 hnil) i hi hiter

theorem paired_callsOf (h : ∃ i ∈ inputs, i.iterated = true)
    (hp : ∀ i ∈ inputs, i.iterated = true → p ∈ i.tree.paths) :
    Paired inputs p (callsOf (inputs.map fun i => i.offerOf p) (leastCount inputs p)) := by
  have hleast := isLeast_leastCount h hp
  constructor
  · rwa [callsOf, List.length_map, List.length_range]
  · intro c call hcall
    rw [callsOf, List.getElem?_map] at hcall
    obtain ⟨c', hc', rfl⟩ := Option.map_eq_some_iff.1 hcall
    obtain ⟨hlt, rfl⟩ := List.getElem?_eq_some_iff.1 hc'
    rw [List.length_range] at hlt
    rw [List.getElem_range, List.map_map, List.forall₂_map_right_iff, List.forall₂_same]
    -- No input asks for fewer calls, so none of them has run out of items.
    intro i hi
    refine hands_argument (hp i hi) fun hiter => Nat.lt_of_lt_of_le hlt (hleast.2 ⟨i, hi, ?_⟩)
    exact (asks_iff (hp i hi)).2 ⟨hiter, rfl⟩

/-! ## Branches -/

theorem forall₂_paired (h : ∃ i ∈ inputs, i.iterated = true) :
    List.Forall₂ (fun p b => Paired inputs p b.calls) (commonPaths inputs) (shortest inputs) := by
  have hpaths : List.Forall₂ (fun p (e : Path × Path) => p = e.1 ∧ p ∈ commonPaths inputs)
      (commonPaths inputs)
      ((commonPaths inputs).zip (outputPaths inputs (commonPaths inputs))) := by
    rw [← List.forall₂_map_right_iff (f := Prod.fst) (R := fun p q => p = q ∧ p ∈ _),
      List.map_fst_zip (Nat.le_of_eq length_outputPaths.symm), List.forall₂_same]
    exact fun p hp => ⟨rfl, hp⟩
  rw [shortest_eq, List.forall₂_map_right_iff]
  refine hpaths.imp fun p e he => ?_
  obtain ⟨rfl, hp⟩ := he
  exact paired_callsOf h ((mem_commonPaths_iff h).1 hp)

/-- Shortest-list matching makes one branch for each path that all iterated inputs have, in path
order, and its calls pair what the inputs hand on there. -/
theorem branches_shortest (h : ∃ i ∈ inputs, i.iterated = true) :
    ∃ paths bs, branches .shortest inputs = .ok bs ∧
      Ascending paths ∧
      (∀ p, p ∈ paths ↔ ∀ i ∈ inputs, i.iterated = true → p ∈ i.tree.paths) ∧
      List.Forall₂ (fun p b => Paired inputs p b.calls) paths bs ∧
      (∀ b ∈ bs, ∀ call ∈ b.calls, .missing ∉ call) ∧
      ((∃ i ∈ inputs, i.iterated = true ∧ i.tree.paths = paths) → bs.map Branch.path = paths) ∧
      ((¬ ∃ i ∈ inputs, i.iterated = true ∧ i.tree.paths = paths) →
        bs.map Branch.path = (List.range paths.length).map .ofIndex) := by
  have hany : inputs.any Input.iterated = true := List.any_eq_true.2 h
  have hpaired := forall₂_paired h
  refine ⟨commonPaths inputs, shortest inputs, ?_, ascending_commonPaths inputs,
    fun p => mem_commonPaths_iff h, hpaired, ?_, ?_, ?_⟩
  · rw [branches, if_pos hany]
  · intro b hb call hcall hmissing
    obtain ⟨p, -, hcalls⟩ := hpaired.exists_left hb
    obtain ⟨c, hc⟩ := List.getElem?_of_mem hcall
    obtain ⟨i, -, hhands⟩ := (hcalls.arguments c call hc).exists_left hmissing
    exact hhands.ne_missing rfl
  · intro hkeeps
    rw [paths_shortest, outputPaths_of_keeps hkeeps]
  · intro hkeeps
    rw [paths_shortest, outputPaths_of_not_keeps hkeeps]

namespace Sample

/-- Lists, one of which stands at a path of its own. -/
def lists : Tree :=
  .ofBranches [(⟨[1]⟩, [.integer 7, .integer 8]), (⟨[2]⟩, [.integer 9]), (⟨[3]⟩, [])]

/-- Two item inputs, a list input and a whole tree, with two paths in common. -/
def paired : List Input :=
  [⟨"Values", .item, .ofBranches [(⟨[0]⟩, [.integer 1]), (⟨[1]⟩, [.integer 2, .integer 3]),
      (⟨[2]⟩, [])]⟩,
    ⟨"Whole", .tree, parents⟩,
    ⟨"Lists", .list, lists⟩,
    ⟨"Others", .item, .ofBranches [(⟨[1]⟩, [.integer 4, .integer 5, .integer 6]),
      (⟨[1, 0]⟩, []), (⟨[2]⟩, [.integer 7])]⟩]

end Sample

theorem branches_shortest_sample :
    (∃ i ∈ Sample.paired, i.iterated = true) ∧
      ∃ paths bs, branches .shortest Sample.paired = .ok bs ∧ ⟨[0]⟩ ∉ paths ∧
        List.Forall₂ (fun p b => Paired Sample.paired p b.calls) paths bs ∧
        bs.map Branch.path = [.ofIndex 0, .ofIndex 1] ∧
        bs.map Branch.calls =
          [[[.item (.integer 2), .tree Sample.parents, .list [.integer 7, .integer 8],
              .item (.integer 4)]],
            []] := by
  have hiter : ∃ i ∈ Sample.paired, i.iterated = true := ⟨_, List.mem_cons_self, rfl⟩
  obtain ⟨paths, bs, hbs, -, hpaths, hpaired, -⟩ := branches_shortest hiter
  refine ⟨hiter, paths, bs, hbs, fun hfirst => ?_, hpaired, ?_, ?_⟩
  · exact absurd ((hpaths _).1 hfirst ⟨"Lists", .list, Sample.lists⟩ (by decide) rfl) (by decide)
  · obtain rfl := Except.ok.inj hbs
    decide
  · obtain rfl := Except.ok.inj hbs
    rfl

end Matching
end TreeFlow
