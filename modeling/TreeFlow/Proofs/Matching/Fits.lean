import TreeFlow.Proofs.Except
import TreeFlow.Proofs.Matching.Cross
import TreeFlow.Proofs.Matching.Serves
/-
The shapes of the arguments that matching lines up.

In all modes an input of tree access hands on its whole tree, one of list access its branches, and
one of item access items.  An iterated input may hand on nothing; with list access this means that
it has no branches at all, since a list of no items is a list.
-/

namespace TreeFlow
namespace Matching

variable {i : Input} {inputs : List Input} {p : Path} {b n c : Nat} {v : Value}
  {call : List Value}

/-- The values that an input of its access can hand on. -/
inductive Input.Fits (i : Input) : Value → Prop
  | tree (h : i.access = .tree) : i.Fits (.tree i.tree)
  | list (h : i.access = .list) {items : List Item} (hitems : items ∈ i.tree.branches.values) :
      i.Fits (.list items)
  | item (h : i.access = .item) (item : Item) : i.Fits (.item item)
  | missing (h : i.iterated = true) (hlist : i.access = .list → i.tree.paths = []) :
      i.Fits .missing

theorem Input.Fits.eq_tree (h : i.Fits v) (haccess : i.access = .tree) : v = .tree i.tree := by
  cases h with
  | tree _ => rfl
  | list h => cases haccess.symm.trans h
  | item h => cases haccess.symm.trans h
  | missing h => simp [iterated, haccess] at h

theorem Input.Fits.exists_list (h : i.Fits v) (haccess : i.access = .list)
    (hpaths : i.tree.paths ≠ []) : ∃ items ∈ i.tree.branches.values, v = .list items := by
  cases h with
  | tree h => cases haccess.symm.trans h
  | list _ hitems => exact ⟨_, hitems, rfl⟩
  | item h => cases haccess.symm.trans h
  | missing _ hempty => exact absurd (hempty haccess) hpaths

theorem Input.Fits.missing_or_item (h : i.Fits v) (haccess : i.access = .item) :
    v = .missing ∨ ∃ item, v = .item item := by
  cases h with
  | tree h => cases haccess.symm.trans h
  | list h => cases haccess.symm.trans h
  | item _ item => exact .inr ⟨item, rfl⟩
  | missing => exact .inl rfl

theorem Input.Fits.not_tree (h : i.Fits v) (haccess : i.access ≠ .tree) : v.tree? = none := by
  cases h with
  | tree h => exact absurd h haccess
  | list => rfl
  | item => rfl
  | missing => rfl

theorem Input.fits_elim (h : i.access = .item) (item : Option Item) :
    i.Fits (item.elim .missing .item) := by
  cases item with
  | none => exact .missing (by simp [iterated, h]) (by simp [h])
  | some item => exact .item h item

/-! ## Each mode -/

theorem mem_values_of_branch? {t : Tree} {items : List Item} (h : t.branch? p = some items) :
    items ∈ t.branches.values :=
  List.mem_map_of_mem (f := Prod.snd) (mem_entries_iff.2 h)

theorem StandIn.mem_values {t : Tree} {items : List Item} {item : Option Item}
    (h : StandIn t p items item) : items ∈ t.branches.values := by
  cases h with
  | above hq => exact mem_values_of_branch? hq
  | before hq => exact mem_values_of_branch? hq
  | first hq => exact mem_values_of_branch? hq

theorem Supplies.fits {value : Nat → Value} (h : Supplies i p value n) (c : Nat) :
    i.Fits (value c) := by
  cases h with
  | tree h => exact .tree h
  | nothing h hempty => exact .missing h fun _ => hempty
  | list h hitems => exact .list h (mem_values_of_branch? hitems)
  | listStandIn h _ hitems => exact .list h hitems.mem_values
  | items h => exact Input.fits_elim h _
  | itemStandIn h => exact Input.fits_elim h _

theorem fits_offerAt (i : Input) (p : Path) (c : Nat) : i.Fits ((i.offerAt p).argument c) :=
  (supplies_iff.2 ⟨rfl, rfl⟩ : Supplies i p _ _).fits c

/-- At a path that an iterated input has, the offers of the two list modes are the same. -/
theorem offerOf_eq (h : i.iterated = true → p ∈ i.tree.paths) : i.offerOf p = i.offerAt p := by
  by_cases haccess : i.access = .tree
  · rw [Input.offerOf, Input.offerAt, haccess]
  · obtain ⟨items, hitems⟩ := mem_paths_iff.1 (h (by simp [Input.iterated, haccess]))
    rw [Input.offerAt_of_branch? haccess hitems, Input.offerOf, hitems]
    cases hi : i.access with
    | tree => exact absurd hi haccess
    | item => rfl
    | list => rfl

theorem hasPath_iff {t : Tree} : t.hasPath p = true ↔ p ∈ t.paths := by
  rw [mem_paths_iff, ← Option.isSome_iff_exists]
  rfl

theorem mem_paths_of_commonPaths (hp : p ∈ commonPaths inputs) (hi : i ∈ inputs)
    (hiter : i.iterated = true) : p ∈ i.tree.paths := by
  have hmem : i ∈ inputs.filter Input.iterated := List.mem_filter.2 ⟨hi, hiter⟩
  rw [commonPaths] at hp
  cases hinputs : inputs.filter Input.iterated with
  | nil =>
    rw [hinputs] at hp
    cases hp
  | cons first others =>
    rw [hinputs] at hp hmem
    obtain ⟨hfirst, hothers⟩ := List.mem_filter.1 hp
    cases List.mem_cons.1 hmem with
    | inl heq => exact heq ▸ hfirst
    | inr hmem => exact hasPath_iff.1 (List.all_eq_true.1 hothers i hmem)

theorem exists_of_mem_shortest_calls (h : call ∈ (shortest inputs).flatMap Branch.calls) :
    ∃ p ∈ commonPaths inputs, ∃ c, call = inputs.map fun i => (i.offerOf p).argument c := by
  simp only [shortest, List.mem_flatMap, List.mem_map, Prod.exists] at h
  obtain ⟨_, ⟨p, output, hp, rfl⟩, hcall⟩ := h
  obtain ⟨c, -, rfl⟩ := List.mem_map.1 hcall
  exact ⟨p, (List.of_mem_zip hp).1, c, by rw [List.map_map]; rfl⟩

theorem Takes.fits (h : Takes i b n v) : i.Fits v := by
  cases h with
  | tree h => exact .tree h
  | list h hb => exact .list h (List.mem_of_getElem? hb)
  | item h => exact .item h _

theorem TakesAll.fits {combination ns : List Nat} (h : TakesAll inputs combination ns call) :
    List.Forall₂ Input.Fits inputs call := by
  induction h with
  | nil => exact .nil
  | cons h _ ih => exact .cons h.fits ih

theorem fits_of_mem_cross {bs : List Branch} (h : cross inputs = .ok bs) {branch : Branch}
    (hbranch : branch ∈ bs) (hcall : call ∈ branch.calls) :
    List.Forall₂ Input.Fits inputs call := by
  rw [cross] at h
  cases hfind : inputs.find? fun i => i.iterated && i.tree.isEmpty with
  | some i =>
    rw [hfind] at h
    cases h
  | none =>
    rw [hfind] at h
    obtain rfl := Except.ok.inj h
    obtain ⟨⟨offers, n⟩, hmem, rfl⟩ := List.mem_map.1 hbranch
    have hoffers : offers ∈ product (inputs.map Input.offers) := List.fst_mem_of_mem_zipIdx hmem
    obtain ⟨combination, -, hpicks⟩ := (forall₂_product _).exists_left hoffers
    obtain ⟨ns, -, hcall⟩ := (forall₂_product _).exists_left hcall
    exact (takesAll_of_picks hpicks hcall).fits

/-! ## All modes -/

/-- Whatever the mode, each input hands on values of its own shape. -/
theorem fits_of_branches {mode : Mode} {bs : List Branch} (h : branches mode inputs = .ok bs)
    {branch : Branch} (hbranch : branch ∈ bs) (hcall : call ∈ branch.calls) :
    List.Forall₂ Input.Fits inputs call := by
  have hmem : call ∈ bs.flatMap Branch.calls := List.mem_flatMap.2 ⟨branch, hbranch, hcall⟩
  unfold branches at h
  by_cases hany : inputs.any Input.iterated = true
  · rw [if_pos hany] at h
    cases mode with
    | longest =>
      obtain rfl := Except.ok.inj h
      obtain ⟨p, -, c, -, rfl⟩ := mem_longest_calls_iff.1 hmem
      rw [List.forall₂_map_right_iff, List.forall₂_same]
      exact fun i _ => fits_offerAt i p c
    | shortest =>
      obtain rfl := Except.ok.inj h
      obtain ⟨p, hp, c, rfl⟩ := exists_of_mem_shortest_calls hmem
      rw [List.forall₂_map_right_iff, List.forall₂_same]
      intro i hi
      rw [offerOf_eq (mem_paths_of_commonPaths hp hi)]
      exact fits_offerAt i p c
    | cross => exact fits_of_mem_cross h hbranch hcall
  · rw [if_neg hany] at h
    obtain rfl := Except.ok.inj h
    obtain rfl := List.mem_singleton.1 hbranch
    obtain rfl := List.mem_singleton.1 hcall
    rw [List.forall₂_map_right_iff, List.forall₂_same]
    intro i hi
    refine .tree (access_of_not_iterated fun hiter => hany ?_)
    exact List.any_eq_true.2 ⟨i, hi, hiter⟩

end Matching
end TreeFlow
