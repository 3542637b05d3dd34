import Mathlib.Algebra.BigOperators.Group.List.Defs
import Mathlib.Algebra.Group.Nat.Defs
import Mathlib.Data.List.Forall2
import TreeFlow.Proofs.Matching.Supply
/-
The branches and calls of cross reference.

Cross reference forms two products: of the branches of the inputs, and for each combination of
branches of what these offer.  Either product is described here without the way in which it is
formed: its members are told by the places they are taken from, and the places run through all
numbers that there are, in lexicographic order (`Enumerates`).

`branches_cross` is the result for whole lists of inputs.
-/

namespace TreeFlow
namespace Matching

/-! ## Products of lists -/

/-- All ways to take a number below each bound, in lexicographic order and so each of them once. -/
structure Enumerates (bounds : List Nat) (choices : List (List Nat)) : Prop where
  ascending : choices.Pairwise (List.Lex (· < ·))
  mem_iff : ∀ ns, ns ∈ choices ↔ List.Forall₂ (· < ·) ns bounds

section Product

variable {α : Type} {ls : List (List α)} {as : List α}

/-- The elements that stand at given places, one of each list. -/
inductive Picks : List (List α) → List Nat → List α → Prop
  | nil : Picks [] [] []
  | cons {l : List α} {ls : List (List α)} {n : Nat} {ns : List Nat} {a : α} {as : List α}
      (ha : l[n]? = some a) (has : Picks ls ns as) : Picks (l :: ls) (n :: ns) (a :: as)

/-- All ways to name one place of each list. -/
def places (ls : List (List α)) : List (List Nat) := product (ls.map fun l => List.range l.length)

theorem product_cons (l : List α) (ls : List (List α)) :
    product (l :: ls) = l.flatMap fun a => (product ls).map (a :: ·) := rfl

theorem places_cons (l : List α) (ls : List (List α)) :
    places (l :: ls) = (List.range l.length).flatMap fun n => (places ls).map (n :: ·) := rfl

theorem forall₂_range (l : List α) :
    List.Forall₂ (fun n a => l[n]? = some a) (List.range l.length) l := by
  rw [List.forall₂_iff_get]
  exact ⟨List.length_range, fun n _ h => by simp [List.getElem?_eq_getElem h]⟩

/-- A product goes through the places in the order in which they are listed. -/
theorem forall₂_product (ls : List (List α)) :
    List.Forall₂ (Picks ls) (places ls) (product ls) := by
  induction ls with
  | nil => exact .cons .nil .nil
  | cons l ls ih =>
    rw [places_cons, product_cons]
    refine List.rel_flatMap (forall₂_range l) fun n a ha => ?_
    rw [List.forall₂_map_left_iff, List.forall₂_map_right_iff]
    exact ih.imp fun _ _ has => .cons ha has

theorem mem_product : as ∈ product ls ↔ List.Forall₂ (fun a l => a ∈ l) as ls := by
  induction ls generalizing as with
  | nil => simp [product]
  | cons l ls ih =>
    rw [product_cons, List.forall₂_cons_right_iff]
    simp only [List.mem_flatMap, List.mem_map, ih]
    constructor
    · intro h
      obtain ⟨a, ha, tail, htail, rfl⟩ := h
      exact ⟨a, tail, ha, htail, rfl⟩
    · intro h
      obtain ⟨a, tail, ha, htail, rfl⟩ := h
      exact ⟨a, ha, tail, htail, rfl⟩

theorem product_pairwise {r : α → α → Prop} (h : ∀ l ∈ ls, l.Pairwise r) :
    (product ls).Pairwise (List.Lex r) := by
  induction ls with
  | nil => exact List.pairwise_singleton _ _
  | cons l ls ih =>
    obtain ⟨hl, hls⟩ := List.forall_mem_cons.1 h
    rw [product_cons, List.pairwise_flatMap]
    constructor
    · intro a _
      rw [List.pairwise_map]
      exact (ih hls).imp fun hlex => .cons hlex
    · refine hl.imp fun hab as has bs hbs => ?_
      obtain ⟨as, -, rfl⟩ := List.mem_map.1 has
      obtain ⟨bs, -, rfl⟩ := List.mem_map.1 hbs
      exact .rel hab

theorem length_product (ls : List (List α)) : (product ls).length = (ls.map List.length).prod := by
  induction ls with
  | nil => rfl
  | cons l ls ih =>
    rw [product_cons, List.map_cons, List.prod_cons, ← ih, List.length_flatMap]
    simp

theorem enumerates_places (ls : List (List α)) : Enumerates (ls.map List.length) (places ls) := by
  constructor
  · refine product_pairwise fun l hl => ?_
    obtain ⟨l, -, rfl⟩ := List.mem_map.1 hl
    exact List.pairwise_lt_range
  · intro ns
    rw [places, mem_product, List.forall₂_map_right_iff, List.forall₂_map_right_iff]
    simp only [List.mem_range]

end Product

/-! ## What is taken of an input -/

/-- The input should offer branches and has none. -/
def Input.Branchless (i : Input) : Prop := i.iterated = true ∧ i.tree.paths = []

/-- The number of branches that an input offers; a whole tree counts as one. -/
def Input.branchNumbers (i : Input) : Nat := if i.iterated then i.tree.branchCount else 1

/-- The number of values that a branch of an input, given by its number, offers: its items, or else
the one list or tree that is offered as a whole. -/
def Input.valueNumbers (i : Input) (b : Nat) : Nat :=
  match i.access with
  | .item => (i.tree.branches.values[b]?.getD []).length
  | .list | .tree => 1

/-- The value that a call takes of an input, for the number of a branch and that of a value. -/
inductive Takes (i : Input) : Nat → Nat → Value → Prop
  | tree (h : i.access = .tree) : Takes i 0 0 (.tree i.tree)
  | list {b : Nat} {items : List Item} (h : i.access = .list)
      (hb : i.tree.branches.values[b]? = some items) : Takes i b 0 (.list items)
  | item {b n : Nat} {items : List Item} {item : Item} (h : i.access = .item)
      (hb : i.tree.branches.values[b]? = some items) (hn : items[n]? = some item) :
      Takes i b n (.item item)

/-- The call that takes one value of each input. -/
inductive TakesAll : List Input → List Nat → List Nat → List Value → Prop
  | nil : TakesAll [] [] [] []
  | cons {i : Input} {is : List Input} {b n : Nat} {bs ns : List Nat} {v : Value} {vs : List Value}
      (h : Takes i b n v) (hs : TakesAll is bs ns vs) :
      TakesAll (i :: is) (b :: bs) (n :: ns) (v :: vs)

/-- The calls for a combination of branches: one for each choice of values of these branches, in
lexicographic order. -/
structure Crossed (inputs : List Input) (combination : List Nat) (calls : List (List Value)) :
    Prop where
  choices : ∃ choices, Enumerates (List.zipWith Input.valueNumbers inputs combination) choices ∧
    List.Forall₂ (TakesAll inputs combination) choices calls
  length : calls.length = (List.zipWith Input.valueNumbers inputs combination).prod

variable {i : Input} {inputs : List Input} {b n : Nat} {v : Value} {o : Offer}
  {offers : List Offer} {combination ns : List Nat} {call : List Value}

theorem Input.length_offers (i : Input) : i.offers.length = i.branchNumbers := by
  rw [offers, branchNumbers, iterated]
  cases i.access with
  | tree => rfl
  | item => simp [SortedMap.values, Tree.branchCount, SortedMap.size]
  | list => simp [SortedMap.values, Tree.branchCount, SortedMap.size]

theorem length_choices (ho : i.offers[b]? = some o) : o.choices.length = i.valueNumbers b := by
  rw [Input.offers] at ho
  rw [Input.valueNumbers]
  cases haccess : i.access with
  | tree =>
    rw [haccess] at ho
    obtain ⟨-, rfl⟩ := List.getElem?_eq_some_iff.1 ho
    simp [Offer.choices]
  | item =>
    rw [haccess] at ho
    simp only [List.getElem?_map] at ho
    obtain ⟨items, hb, rfl⟩ := Option.map_eq_some_iff.1 ho
    simp [Offer.ofBranch, Offer.choices, hb]
  | list =>
    rw [haccess] at ho
    simp only [List.getElem?_map] at ho
    obtain ⟨items, hb, rfl⟩ := Option.map_eq_some_iff.1 ho
    rfl

theorem takes_of_choices (ho : i.offers[b]? = some o) (hv : o.choices[n]? = some v) :
    Takes i b n v := by
  rw [Input.offers] at ho
  cases haccess : i.access with
  | tree =>
    rw [haccess] at ho
    obtain ⟨hb, rfl⟩ := List.getElem?_eq_some_iff.1 ho
    obtain rfl : b = 0 := Nat.lt_one_iff.1 hb
    obtain ⟨hn, rfl⟩ := List.getElem?_eq_some_iff.1 hv
    obtain rfl : n = 0 := Nat.lt_one_iff.1 hn
    exact .tree haccess
  | item =>
    rw [haccess] at ho
    simp only [List.getElem?_map] at ho
    obtain ⟨items, hb, rfl⟩ := Option.map_eq_some_iff.1 ho
    simp only [Offer.ofBranch, Offer.choices, List.getElem?_map] at hv
    obtain ⟨item, hn, rfl⟩ := Option.map_eq_some_iff.1 hv
    exact .item haccess hb hn
  | list =>
    rw [haccess] at ho
    simp only [List.getElem?_map] at ho
    obtain ⟨items, hb, rfl⟩ := Option.map_eq_some_iff.1 ho
    obtain ⟨hn, rfl⟩ := List.getElem?_eq_some_iff.1 hv
    obtain rfl : n = 0 := Nat.lt_one_iff.1 hn
    exact .list haccess hb

theorem takesAll_of_picks (ho : Picks (inputs.map Input.offers) combination offers)
    (hcall : Picks (offers.map Offer.choices) ns call) : TakesAll inputs combination ns call := by
  induction inputs generalizing combination offers ns call with
  | nil =>
    cases ho
    cases hcall
    exact .nil
  | cons i inputs ih =>
    cases ho with
    | cons hi ho =>
      cases hcall with
      | cons hv hcall => exact .cons (takes_of_choices hi hv) (ih ho hcall)

theorem map_length_choices (ho : Picks (inputs.map Input.offers) combination offers) :
    (offers.map Offer.choices).map List.length
      = List.zipWith Input.valueNumbers inputs combination := by
  induction inputs generalizing combination offers with
  | nil =>
    cases ho
    rfl
  | cons i inputs ih =>
    cases ho with
    | cons hi ho =>
      rw [List.map_cons, List.map_cons, List.zipWith_cons_cons, ih ho, length_choices hi]

theorem crossed_product (ho : Picks (inputs.map Input.offers) combination offers) :
    Crossed inputs combination (product (offers.map Offer.choices)) := by
  constructor
  · refine ⟨places (offers.map Offer.choices), ?_, ?_⟩
    · rw [← map_length_choices ho]
      exact enumerates_places _
    · exact (forall₂_product _).imp fun _ _ hcall => takesAll_of_picks ho hcall
  · rw [length_product, map_length_choices ho]

/-! ## Branches -/

theorem find?_branchless_eq_some_iff :
    (inputs.find? fun i => i.iterated && i.tree.isEmpty) = some i ↔
      ∃ before after, inputs = before ++ i :: after ∧ i.Branchless ∧
        ∀ j ∈ before, ¬ j.Branchless := by
  have hbranchless : ∀ j : Input, (j.iterated && j.tree.isEmpty) = true ↔ j.Branchless := by
    intro j
    rw [Bool.and_eq_true, Input.Branchless, Tree.isEmpty, SortedMap.isEmpty, List.isEmpty_iff,
      Tree.paths, SortedMap.keys, List.map_eq_nil_iff]
  rw [List.find?_eq_some_iff_append]
  simp only [Bool.not_eq_true', ← Bool.not_eq_true, hbranchless]
  constructor
  · intro h
    obtain ⟨hi, before, after, hinputs, hbefore⟩ := h
    exact ⟨before, after, hinputs, hi, hbefore⟩
  · intro h
    obtain ⟨before, after, hinputs, hi, hbefore⟩ := h
    exact ⟨hi, before, after, hinputs, hbefore⟩

theorem cross_eq_error_iff {e : NoBranch} :
    cross inputs = .error e ↔
      ∃ before i after, inputs = before ++ i :: after ∧ i.Branchless ∧
        (∀ j ∈ before, ¬ j.Branchless) ∧ e = ⟨i.name⟩ := by
  rw [cross]
  constructor
  · intro h
    cases hfind : inputs.find? fun i => i.iterated && i.tree.isEmpty with
    | none =>
      rw [hfind] at h
      cases h
    | some i =>
      rw [hfind] at h
      obtain ⟨before, after, hinputs, hi, hbefore⟩ := find?_branchless_eq_some_iff.1 hfind
      exact ⟨before, i, after, hinputs, hi, hbefore, (Except.error.inj h).symm⟩
  · intro h
    obtain ⟨before, i, after, hinputs, hi, hbefore, rfl⟩ := h
    rw [find?_branchless_eq_some_iff.2 ⟨before, after, hinputs, hi, hbefore⟩]

/-- The branches of cross reference, where there is no input without branches. -/
theorem cross_eq_ok (h : ∀ i ∈ inputs, ¬ i.Branchless) :
    cross inputs = .ok ((product (inputs.map Input.offers)).zipIdx.map fun (offers, n) =>
      ⟨.ofIndex n, product (offers.map Offer.choices)⟩) := by
  cases hfind : inputs.find? fun i => i.iterated && i.tree.isEmpty with
  | none => rw [cross, hfind]
  | some i =>
    obtain ⟨before, after, hinputs, hi, -⟩ := find?_branchless_eq_some_iff.1 hfind
    exact absurd hi (h i (by simp [hinputs]))

/-- Cross reference fails for the first iterated input without branches.  If there is none, it makes
a branch for each combination of branches, numbered from zero, and a call for each choice of what
these offer. -/
theorem branches_cross (h : ∃ i ∈ inputs, i.iterated = true) :
    (∀ e, branches .cross inputs = .error e ↔
      ∃ before i after, inputs = before ++ i :: after ∧ i.Branchless ∧
        (∀ j ∈ before, ¬ j.Branchless) ∧ e = ⟨i.name⟩) ∧
      ((∀ i ∈ inputs, ¬ i.Branchless) → ∃ combinations bs, branches .cross inputs = .ok bs ∧
        Enumerates (inputs.map Input.branchNumbers) combinations ∧
        bs.length = (inputs.map Input.branchNumbers).prod ∧
        bs.map Branch.path = (List.range bs.length).map .ofIndex ∧
        List.Forall₂ (fun c b => Crossed inputs c b.calls) combinations bs) := by
  have hany : inputs.any Input.iterated = true := List.any_eq_true.2 h
  have hlengths : (inputs.map Input.offers).map List.length = inputs.map Input.branchNumbers := by
    rw [List.map_map]
    exact List.map_congr_left fun i _ => i.length_offers
  rw [branches, if_pos hany]
  refine ⟨fun e => cross_eq_error_iff, fun hall => ?_⟩
  refine ⟨places (inputs.map Input.offers), _, cross_eq_ok hall, ?_, ?_, ?_, ?_⟩
  · rw [← hlengths]
    exact enumerates_places _
  · rw [List.length_map, List.length_zipIdx, length_product, hlengths]
  · rw [List.map_map, List.length_map, List.length_zipIdx, List.range_eq_range',
      ← List.zipIdx_map_snd, List.map_map]
    rfl
  · have hproduct := forall₂_product (inputs.map Input.offers)
    rw [← List.zipIdx_map_fst 0 (product _), List.forall₂_map_right_iff] at hproduct
    rw [List.forall₂_map_right_iff]
    exact hproduct.imp fun _ _ ho => crossed_product ho

namespace Sample

/-- A list input and a whole tree between two item inputs, one of which has an empty branch. -/
def crossed : List Input :=
  [⟨"Values", .item, .ofBranches [(⟨[0]⟩, [.integer 1, .integer 2]), (⟨[3]⟩, [])]⟩,
    ⟨"Whole", .tree, parents⟩,
    ⟨"Rows", .list, rows⟩,
    ⟨"Others", .item, parents⟩]

end Sample

theorem branches_cross_sample :
    branches .cross Sample.mixed = .error ⟨"Nothing"⟩ ∧
      (∃ i ∈ Sample.crossed, i.iterated = true) ∧ (∀ i ∈ Sample.crossed, ¬ i.Branchless) ∧
      ∃ combinations bs, branches .cross Sample.crossed = .ok bs ∧
        Enumerates [2, 1, 1, 1] combinations ∧
        List.Forall₂ (fun c b => Crossed Sample.crossed c b.calls) combinations bs ∧
        bs.map Branch.path = [.ofIndex 0, .ofIndex 1] ∧
        bs.map Branch.calls =
          [[[.item (.integer 1), .tree Sample.parents, .list [.integer 7, .integer 8],
              .item (.integer 10)],
            [.item (.integer 1), .tree Sample.parents, .list [.integer 7, .integer 8],
              .item (.integer 20)],
            [.item (.integer 2), .tree Sample.parents, .list [.integer 7, .integer 8],
              .item (.integer 10)],
            [.item (.integer 2), .tree Sample.parents, .list [.integer 7, .integer 8],
              .item (.integer 20)]],
            []] := by
  have hmixed : ∃ i ∈ Sample.mixed, i.iterated = true := ⟨_, List.mem_cons_self, rfl⟩
  have hiter : ∃ i ∈ Sample.crossed, i.iterated = true := ⟨_, List.mem_cons_self, rfl⟩
  have hall : ∀ i ∈ Sample.crossed, ¬ i.Branchless := by
    unfold Input.Branchless
    decide
  refine ⟨?_, hiter, hall, ?_⟩
  · refine ((branches_cross hmixed).1 _).2
      ⟨_, _, _, (List.take_append_drop 3 Sample.mixed).symm, ⟨rfl, rfl⟩, ?_, rfl⟩
    unfold Input.Branchless
    decide
  · obtain ⟨combinations, bs, hbs, hcombinations, -, -, hcrossed⟩ := (branches_cross hiter).2 hall
    refine ⟨combinations, bs, hbs, hcombinations, hcrossed, ?_, ?_⟩
    · obtain rfl := Except.ok.inj hbs
      rfl
    · obtain rfl := Except.ok.inj hbs
      rfl

end Matching
end TreeFlow
