import TreeFlow.Proofs.Run.Compare
import TreeFlow.Proofs.Tree.Itemwise
/-
What a parameter makes of the trees that it is given.

The trees of its wires are merged branch by branch, in the order of the wires
(`Tree.mergeAll_branchwise`).  Then its expression, its reversal and its mapping are applied.  These
can change places with each other and with the merging, because an expression changes items only
(`itemwise_commutes`).
-/

namespace TreeFlow

/-! ## Merged sources -/

/-- Trees are merged by adding the branches of one to those of the other, one by one.  The merged
tree has the paths of all trees, each with the items it has in the first tree, then in the second
and so on; so merging is associative, the empty tree makes no difference, and no item is lost or
doubled.  This is what a parameter is given by its wires. -/
theorem Tree.mergeAll_branchwise :
    (∀ t u : Tree, t.merge u
        = u.branches.entries.foldl (fun merged e => merged.extendBranch e.1 e.2) t) ∧
      (∀ (ts : List Tree) (p : Path), p ∈ (mergeAll ts).paths ↔ ∃ t ∈ ts, p ∈ t.paths) ∧
      (∀ (ts : List Tree) (p : Path) (items : List Item), (mergeAll ts).branch? p = some items ↔
        p ∈ (mergeAll ts).paths ∧ items = ts.flatMap fun t => (t.branch? p).getD []) ∧
      (∀ t u v : Tree, (t.merge u).merge v = t.merge (u.merge v)) ∧
      (∀ t : Tree, empty.merge t = t ∧ t.merge empty = t) ∧
      (∀ g : Grouping, g.merged = mergeAll g.trees) ∧
      (∀ ts : List Tree, (mergeAll ts).itemCount = (ts.map itemCount).sum) ∧
      ∀ (s : Store) (component : String) (p : InputParam) (ts : List Tree),
        p.sources.map s.output? = ts.map some →
          s.mergedSources component p = .ok (mergeAll ts) := by
  refine ⟨merge_eq_foldl, fun ts p => mem_paths_mergeAll, fun ts p items => ?_, merge_assoc,
    fun t => ⟨empty_merge t, merge_empty t⟩, Grouping.merged_eq, itemCount_mergeAll,
    fun s component p ts h => Store.mergedSources_eq component h⟩
  rw [mem_paths_iff_branch?, ← getD_branch?_mergeAll]
  cases (mergeAll ts).branch? p with
  | none => simp
  | some present => simp [eq_comm]

/-- Two outputs with a path in common, nested paths and empty branches, and a parameter that is
wired to both. -/
def Sample.sources : Store :=
  ⟨[some ⟨[Tree.Sample.stacked], .ok⟩,
    some ⟨[.ofBranches [(⟨[0]⟩, [.integer 7]), (⟨[2]⟩, [])]], .ok⟩]⟩

def Sample.wired : InputParam :=
  ⟨"A", none, some 0, [⟨1, 0⟩, ⟨0, 0⟩], none, none, false, .none⟩

theorem Tree.mergeAll_branchwise_sample :
    ∃ ts : List Tree, Sample.wired.sources.map Sample.sources.output? = ts.map some ∧
      Sample.sources.mergedSources "sum" Sample.wired = .ok (mergeAll ts) ∧
      (mergeAll ts).branch? ⟨[0]⟩ = some [.integer 7, .integer 1, .integer 2] ∧
      (mergeAll ts).branch? ⟨[2]⟩ = some [] := by
  let ts : List Tree := [.ofBranches [(⟨[0]⟩, [.integer 7]), (⟨[2]⟩, [])], Tree.Sample.stacked]
  obtain ⟨-, hpaths, hbranch, -, -, -, -, hsources⟩ := mergeAll_branchwise
  have hwired : Sample.wired.sources.map Sample.sources.output? = ts.map some := rfl
  refine ⟨ts, hwired, hsources _ _ _ _ hwired, (hbranch _ _ _).2 ⟨?_, rfl⟩,
    (hbranch _ _ _).2 ⟨?_, rfl⟩⟩
  · exact (hpaths _ _).2 ⟨Tree.Sample.stacked, by decide, by decide⟩
  · exact (hpaths _ _).2 ⟨_, List.mem_cons_self, by decide⟩

/-! ## Changed items -/

/-- The same slots, with the items of all outputs changed. -/
def Store.mapItems (f : Item → Item) (s : Store) : Store :=
  ⟨s.slots.map (Option.map fun o => { o with outputs := o.outputs.map (Tree.mapItems f) })⟩

def Bindings.mapItems (f : Item → Item) (b : Bindings) : Bindings :=
  ⟨b.trees.map (Tree.mapItems f)⟩

theorem Bindings.lookup?_mapItems (f : Item → Item) (b : Bindings) (component : String)
    (p : InputParam) :
    (b.mapItems f).lookup? component p = (b.lookup? component p).map (Tree.mapItems f) := by
  have hget : (b.mapItems f).trees.get? = fun key => (b.trees.get? key).map (Tree.mapItems f) :=
    funext fun key => SortedMap.get?_map _ b.trees key
  rw [lookup?, lookup?, hget, Option.map_or, Option.map_bind]
  rfl

namespace InputParam

/-- The parameter without its expression, holding a tree with the items changed. -/
def mapItems (f : Item → Item) (p : InputParam) : InputParam :=
  { p with expression := none, persistent := p.persistent.map (Tree.mapItems f) }

/-- The tree of a parameter, reversed if it asks for that. -/
def turn (p : InputParam) (t : Tree) : Tree := if p.reverse then t.reverseBranches else t

theorem turn_mapItems (p : InputParam) (f : Item → Item) (t : Tree) :
    p.turn (t.mapItems f) = (p.turn t).mapItems f := by
  unfold turn
  split
  · exact t.reverseBranches_mapItems f
  · rfl

/-- An expression may as well be applied to the reversed tree. -/
theorem adapt_eq_apply_turn (p : InputParam) (e : Expression) (t : Tree) :
    ({ p with expression := some e } : InputParam).adapt t = p.mapping.apply (e.apply (p.turn t)) :=
  congrArg p.mapping.apply (p.turn_mapItems e.applyTo t)

/-- An expression may as well be applied to the mapped tree. -/
theorem adapt_eq_apply (p : InputParam) (e : Expression) (t : Tree) :
    ({ p with expression := some e } : InputParam).adapt t
      = e.apply (({ p with expression := none } : InputParam).adapt t) := by
  rw [adapt_eq_apply_turn]
  exact p.mapping.apply_mapItems e.applyTo (p.turn t)

end InputParam

namespace Store

variable (f : Item → Item) (s : Store) (component : String)

theorem output?_mapItems (w : Wire) :
    (s.mapItems f).output? w = (s.output? w).map (Tree.mapItems f) := by
  have hget : (s.mapItems f).get? w.producer = (s.get? w.producer).map fun o =>
      { o with outputs := o.outputs.map (Tree.mapItems f) } := by
    unfold get? mapItems
    rw [List.getElem?_map]
    cases s.slots[w.producer]? <;> rfl
  rw [output?, hget, output?]
  cases s.get? w.producer with
  | none => rfl
  | some o => exact List.getElem?_map

theorem mergedSources_mapItems (p : InputParam) :
    (s.mapItems f).mergedSources component p
      = (s.mergedSources component p).map (Tree.mapItems f) := by
  refine Except.foldlM_hom (g := Tree.mapItems f) (fun w _ merged => ?_) .empty
  rw [output?_mapItems]
  cases s.output? w with
  | none => rfl
  | some t => exact congrArg Except.ok (merged.mapItems_merge f t).symm

/-- Wherever a parameter takes its tree from, the items may be changed there. -/
theorem source_mapItems (p : InputParam) (b : Bindings) :
    (s.mapItems f).source component (p.mapItems f) (b.mapItems f)
      = (s.source component p b).map (Tree.mapItems f) := by
  by_cases hwired : p.sources = []
  · have hlookup : (b.mapItems f).lookup? component (p.mapItems f)
        = (b.lookup? component p).map (Tree.mapItems f) := b.lookup?_mapItems f component _
    rw [source_of_unwired (p := p.mapItems f) hwired, source_of_unwired hwired, hlookup]
    show Except.ok (((b.lookup? component p).map _ |>.or (p.persistent.map _)).getD _) = _
    rw [← Option.map_or]
    cases (b.lookup? component p).or p.persistent <;> rfl
  · rw [source_of_wired (p := p.mapItems f) hwired, source_of_wired hwired]
    exact s.mergedSources_mapItems f component p

theorem resolve_eq_map (p : InputParam) (b : Bindings) :
    s.resolve component p b = (s.source component p b).map p.adapt := by
  unfold resolve
  cases s.source component p b <;> rfl

theorem source_expression (p : InputParam) (b : Bindings) (x : Option Expression) :
    s.source component { p with expression := x } b = s.source component p b := rfl

/-- An expression may as well be applied to each tree that a parameter is given. -/
theorem resolve_eq_resolve_mapItems (p : InputParam) (e : Expression) (b : Bindings) :
    s.resolve component { p with expression := some e } b
      = (s.mapItems e.applyTo).resolve component (p.mapItems e.applyTo) (b.mapItems e.applyTo) := by
  rw [resolve_eq_map, resolve_eq_map, source_expression, source_mapItems]
  cases s.source component p b <;> rfl

/-- An expression may as well be applied to what a parameter comes to without it. -/
theorem resolve_eq_map_resolve (p : InputParam) (e : Expression) (b : Bindings) :
    s.resolve component { p with expression := some e } b
      = (s.resolve component { p with expression := none } b).map e.apply := by
  rw [resolve_eq_map, resolve_eq_map, s.source_expression component p b (some e),
    s.source_expression component p b none]
  cases s.source component p b with
  | error _ => rfl
  | ok t => exact congrArg Except.ok (p.adapt_eq_apply e t)

end Store

/-- A change of the items commutes with every structural step.  So a parameter comes to the same
tree with its expression applied where it is, to each of the trees that it is given, behind its
reversal, or to its result. -/
theorem itemwise_commutes :
    (∀ (f : Item → Item) (t u : Tree),
      (t.mapItems f).graft = t.graft.mapItems f ∧
      (t.mapItems f).flatten = t.flatten.mapItems f ∧
      (t.mapItems f).simplify = t.simplify.mapItems f ∧
      (t.mapItems f).reverseBranches = t.reverseBranches.mapItems f ∧
      (t.merge u).mapItems f = (t.mapItems f).merge (u.mapItems f)) ∧
    ∀ (p : InputParam) (e : Expression),
      (∀ t, ({ p with expression := some e } : InputParam).adapt t
        = p.mapping.apply (e.apply (p.turn t))) ∧
      ∀ (s : Store) (component : String) (b : Bindings),
        s.resolve component { p with expression := some e } b
          = (s.mapItems e.applyTo).resolve component (p.mapItems e.applyTo)
              (b.mapItems e.applyTo) ∧
        s.resolve component { p with expression := some e } b
          = (s.resolve component { p with expression := none } b).map e.apply := by
  refine ⟨fun f t u => ⟨t.graft_mapItems f, t.flatten_mapItems f, t.simplify_mapItems f,
    t.reverseBranches_mapItems f, t.mapItems_merge f u⟩, fun p e =>
    ⟨p.adapt_eq_apply_turn e, fun s component b => ⟨?_, ?_⟩⟩⟩
  · exact s.resolve_eq_resolve_mapItems component p e b
  · exact s.resolve_eq_map_resolve component p e b

end TreeFlow
