import TreeFlow.Proofs.Component.Level
/-
Holding the last value, in two places.

A short list can be brought to the length of another one by a longest list, which repeats its last
item, or left to matching, which falls back on its last item for further calls.  What a call gets of
a branch is the same either way (`or_getLast?_holdLast`), and so is the number of calls.  So for
trees with the same branches, a longest list in front of a kind that lines up the items of two
inputs changes nothing (`run_behind_longestList`).
-/

namespace TreeFlow
namespace Component

open Matching (callsAt callsOf Offer)
open TreeFlow.Component.Lists (holdLast)

variable {k : Kind} {inputs : List Input} {a b : Tree} {P : List Path} {p : Path}
  {items as bs : List Item}

/-! ## Lists -/

/-- What holding gives for a call, it gives also once the list is longer. -/
theorem or_getLast?_holdLast (items : List Item) (n c : Nat) :
    (holdLast items n)[c]?.or (holdLast items n).getLast? = items[c]?.or items.getLast? := by
  cases hlast : items.getLast? with
  | none =>
    obtain rfl := List.getLast?_eq_none_iff.1 hlast
    rfl
  | some last =>
    have hheld : holdLast items n = items ++ List.replicate (n - items.length) last := by
      rw [holdLast, hlast]
    have hend : (holdLast items n).getLast? = some last := by
      rw [hheld, List.getLast?_append, hlast, List.getLast?_replicate]
      split <;> rfl
    rw [hend, hheld]
    by_cases hc : c < items.length
    · rw [List.getElem?_append_left hc]
    · have hnone : items[c]? = none := List.getElem?_eq_none (Nat.le_of_not_lt hc)
      rw [List.getElem?_append_right (Nat.le_of_not_lt hc), List.getElem?_replicate, hnone]
      split <;> rfl

theorem argument_holdLast (items : List Item) (n c : Nat) :
    (Offer.ofBranch .item (holdLast items n)).argument c
      = (Offer.ofBranch .item items).argument c := by
  have hargument : ∀ l : List Item, (Offer.ofBranch .item l).argument c
      = (l[c]?.or l.getLast?).elim .missing .item := fun l => by
    simp [Offer.ofBranch, Offer.argument]
  rw [hargument, hargument, or_getLast?_holdLast]

/-- Two branches make the same calls once they are as long as each other. -/
theorem callsOf_holdLast (has : as ≠ []) (hbs : bs ≠ []) {n : Nat}
    (hn : n = max as.length bs.length) :
    callsOf [.ofBranch .item (holdLast as n), .ofBranch .item (holdLast bs n)]
        (max (holdLast as n).length (holdLast bs n).length)
      = callsOf [.ofBranch .item as, .ofBranch .item bs] (max as.length bs.length) := by
  have hcount : max (holdLast as n).length (holdLast bs n).length
      = max as.length bs.length := by
    rw [length_holdLast has (by omega), length_holdLast hbs (by omega)]
    omega
  rw [hcount, callsOf, callsOf]
  refine List.map_congr_left fun c _ => ?_
  simp only [List.map_cons, List.map_nil, argument_holdLast]

theorem holdLast_ne_nil (h : items ≠ []) (n : Nat) : holdLast items n ≠ [] := by
  rw [holdLast, List.getLast?_eq_some_getLast h]
  simp [h]

/-! ## Branches -/

theorem branch?_eq_itemsAt {t : Tree} (hp : p ∈ t.paths) : t.branch? p = some (itemsAt t p) := by
  obtain ⟨items, hitems⟩ := Matching.mem_paths_iff.1 hp
  rw [itemsAt, hitems, Option.getD_some]

theorem full_iff {t : Tree} : t.Full ↔ ∀ p ∈ t.paths, itemsAt t p ≠ [] := by
  constructor
  · intro h p hp
    exact h _ (Matching.mem_values_of_branch? (branch?_eq_itemsAt hp))
  · intro h items hitems
    obtain ⟨⟨p, items⟩, hmem, rfl⟩ := List.mem_map.1 hitems
    have hbranch := Matching.mem_entries_iff.1 hmem
    have hp := h p (Matching.mem_paths_iff.2 ⟨items, hbranch⟩)
    rwa [itemsAt, hbranch, Option.getD_some] at hp

/-- The length of the longer one of two branches. -/
def longer (a b : Tree) (p : Path) : Nat := max (itemsAt a p).length (itemsAt b p).length

section

variable {x y : Matching.Input} (hx : p ∈ x.tree.paths) (hy : p ∈ y.tree.paths)

include hx hy

theorem callsAt_items (hxa : x.access = .item) (hya : y.access = .item) :
    callsAt [x, y] p
      = callsOf [.ofBranch .item (itemsAt x.tree p), .ofBranch .item (itemsAt y.tree p)]
          (longer x.tree y.tree p) := by
  have hoffer : ∀ z : Matching.Input, p ∈ z.tree.paths → z.access = .item →
      z.offerAt p = .ofBranch .item (itemsAt z.tree p) := fun z hz hza => by
    rw [Matching.Input.offerAt_of_branch? (by simp [hza]) (branch?_eq_itemsAt hz), hza]
  simp [callsAt, hoffer x hx hxa, hoffer y hy hya, Offer.ofBranch, Offer.count, longer]

theorem callsAt_lists (hxa : x.access = .list) (hya : y.access = .list) :
    callsAt [x, y] p = [[.list (itemsAt x.tree p), .list (itemsAt y.tree p)]] := by
  have hoffer : ∀ z : Matching.Input, p ∈ z.tree.paths → z.access = .list →
      z.offerAt p = .whole (itemsAt z.tree p) := fun z hz hza => by
    rw [Matching.Input.offerAt_of_branch? (by simp [hza]) (branch?_eq_itemsAt hz), hza]
    rfl
  simp [callsAt, callsOf, hoffer x hx hxa, hoffer y hy hya, Offer.count, Offer.argument]

end

/-! ## Trees of even branches -/

/-- Two trees with the branches of two others, brought to the same length at each path. -/
structure Held (P : List Path) (a b a' b' : Tree) : Prop where
  paths : a'.paths = P ∧ b'.paths = P
  items : ∀ p ∈ P, itemsAt a' p = holdLast (itemsAt a p) (longer a b p) ∧
    itemsAt b' p = holdLast (itemsAt b p) (longer a b p)

/-- Aligned pairs of trees, for any kind with two inputs. -/
theorem aligned_pair (hinputs : inputs.length = 2) (ha : a.paths = P) (hb : b.paths = P)
    (hP : P ≠ []) (hfree : ∀ p ∈ P, ∀ q ∈ P, ¬ p.extends? q = true) (hfa : a.Full)
    (hfb : b.Full) : Aligned inputs P [a, b] where
  length := hinputs.symm
  paths := by simp [ha, hb]
  nonempty := hP
  free := hfree
  full := by simp [hfa, hfb]

theorem Aligned.itemsAt_ne_nil {given : List Tree} (h : Aligned inputs P given) {t : Tree}
    (ht : t ∈ given) (hp : p ∈ P) : itemsAt t p ≠ [] :=
  full_iff.1 (h.full t ht) p (h.paths t ht ▸ hp)

/-- With one row for each path, a branch of an output comes from the row of its path. -/
theorem itemsAt_outputTree_map {row : Path → Row} {n outputs : Nat} (hn : n < outputs)
    (hrow : ∀ p, (row p).path = p)
    (hvalues : ∀ r ∈ P.map row, ∀ values ∈ r.values, Plain outputs values) (hP : P.Nodup)
    (hp : p ∈ P) :
    itemsAt (outputTree (P.map row) n) p = (row p).values.flatMap (share n) := by
  have hpaths : (P.map row).map Row.path = P := by
    rw [List.map_map, show Row.path ∘ row = id from funext hrow, List.map_id]
  have hfilter := filter_path_eq_singleton (hpaths.symm ▸ hP) (List.mem_map_of_mem (f := row) hp)
  rw [hrow p] at hfilter
  rw [itemsAt_outputTree hn hvalues, valuesAt, hfilter, List.flatMap_singleton]

/-- The row of a path in a run of the longest list. -/
def heldRow (a b : Tree) (p : Path) : Row :=
  ⟨p, [[.list (holdLast (itemsAt a p) (longer a b p)),
    .list (holdLast (itemsAt b p) (longer a b p))]]⟩

theorem heldRow_plain : ∀ values ∈ (heldRow a b p).values, Plain 2 values := by
  intro values hvalues
  obtain rfl := List.mem_singleton.1 hvalues
  exact ⟨rfl, by simp [Value.tree?]⟩

theorem rowAt_longestList (ha : p ∈ a.paths) (hb : p ∈ b.paths) :
    rowAt (.sets .longestList) [a, b] p = .ok (heldRow a b p) := by
  have hcalls : callsAt (alignedInputs (Kind.sets .longestList).signature.inputs [a, b]) p
      = [[.list (itemsAt a p), .list (itemsAt b p)]] :=
    callsAt_lists (x := ⟨"A", .list, a⟩) (y := ⟨"B", .list, b⟩) ha hb rfl rfl
  rw [rowAt, hcalls]
  rfl

theorem exists_held (h : Aligned (Kind.sets .longestList).signature.inputs P [a, b]) :
    ∃ a' b', run (.sets .longestList) [a, b] = .ok [a', b'] ∧ Held P a b a' b' := by
  have ha : a.paths = P := h.paths a (by simp)
  have hb : b.paths = P := h.paths b (by simp)
  have haccess : ∀ i ∈ (Kind.sets .longestList).signature.inputs, i.access ≠ .tree := by decide
  have hrun : run (.sets .longestList) [a, b]
      = .ok [outputTree (P.map (heldRow a b)) 0, outputTree (P.map (heldRow a b)) 1] := by
    rw [h.run_eq rfl haccess,
      Except.mapM_eq_ok_map fun p hp => rowAt_longestList (ha ▸ hp) (hb ▸ hp)]
    rfl
  obtain ⟨hpaths, -⟩ := h.outputs rfl haccess hrun
  have hP : P.Nodup := ha ▸ a.branches.nodup_keys
  have hplain : ∀ r ∈ P.map (heldRow a b), ∀ values ∈ r.values, Plain 2 values :=
    List.forall_mem_map.2 fun _ _ => heldRow_plain
  refine ⟨_, _, hrun, ⟨hpaths _ (by simp), hpaths _ (by simp)⟩, fun p hp => ⟨?_, ?_⟩⟩
  · rw [itemsAt_outputTree_map (by decide) (fun _ => rfl) hplain hP hp]
    exact List.append_nil _
  · rw [itemsAt_outputTree_map (by decide) (fun _ => rfl) hplain hP hp]
    exact List.append_nil _

/-- Behind a longest list, items are lined up as they are in front of it. -/
theorem Held.rowAt_eq {a' b' : Tree} (h : Held P a b a' b')
    (hab : Aligned k.signature.inputs P [a, b])
    (haccess : ∀ i ∈ k.signature.inputs, i.access = .item) (hp : p ∈ P) :
    rowAt k [a', b'] p = rowAt k [a, b] p := by
  have ha : a.paths = P := hab.paths a (by simp)
  have hb : b.paths = P := hab.paths b (by simp)
  obtain ⟨i, j, hinputs⟩ := List.length_eq_two.1 hab.length.symm
  have hi : i.access = .item := haccess i (by simp [hinputs])
  have hj : j.access = .item := haccess j (by simp [hinputs])
  have hmatched : ∀ t u, alignedInputs k.signature.inputs [t, u]
      = [⟨i.name, i.access, t⟩, ⟨j.name, j.access, u⟩] := fun t u => by rw [hinputs]; rfl
  have hfirst : itemsAt a p ≠ [] := hab.itemsAt_ne_nil (by simp) hp
  have hsecond : itemsAt b p ≠ [] := hab.itemsAt_ne_nil (by simp) hp
  obtain ⟨hia, hib⟩ := h.items p hp
  rw [rowAt, rowAt, hmatched, hmatched,
    callsAt_items (h.paths.1 ▸ hp) (h.paths.2 ▸ hp) hi hj,
    callsAt_items (ha ▸ hp) (hb ▸ hp) hi hj, longer, hia, hib,
    callsOf_holdLast hfirst hsecond (n := longer a b p) rfl]
  rfl

theorem Held.aligned {a' b' : Tree} (h : Held P a b a' b') (hab : Aligned inputs P [a, b]) :
    Aligned inputs P [a', b'] := by
  have hfa : a'.Full := full_iff.2 fun p hp => by
    have hp : p ∈ P := h.paths.1 ▸ hp
    rw [(h.items p hp).1]
    exact holdLast_ne_nil (hab.itemsAt_ne_nil (by simp) hp) _
  have hfb : b'.Full := full_iff.2 fun p hp => by
    have hp : p ∈ P := h.paths.2 ▸ hp
    rw [(h.items p hp).2]
    exact holdLast_ne_nil (hab.itemsAt_ne_nil (by simp) hp) _
  exact aligned_pair hab.length.symm h.paths.1 h.paths.2 hab.nonempty hab.free hfa hfb

/-! ## Runs -/

/-- The kinds that line up the items of two inputs in the longest way. -/
def Kind.pairing : List Kind :=
  [.maths .addition, .maths .subtraction, .maths .multiplication, .maths .division,
    .maths .modulus, .maths .power, .vector .distance]

theorem Kind.mem_pairing_iff (k : Kind) :
    k ∈ pairing ↔ k.signature.mode = .longest ∧ k.signature.inputs.length = 2 ∧
      ∀ i ∈ k.signature.inputs, i.access = .item := by
  revert k
  decide

theorem Held.run_eq {a' b' : Tree} (h : Held P a b a' b')
    (hab : Aligned k.signature.inputs P [a, b]) (hmode : k.signature.mode = .longest)
    (haccess : ∀ i ∈ k.signature.inputs, i.access = .item) :
    run k [a', b'] = run k [a, b] := by
  have htree : ∀ i ∈ k.signature.inputs, i.access ≠ .tree := fun i hi => by simp [haccess i hi]
  have hrows : P.mapM (rowAt k [a', b']) = P.mapM (rowAt k [a, b]) :=
    Except.mapM_eq_of_forall₂ (List.forall₂_same.2 fun p hp => h.rowAt_eq hab haccess hp)
  rw [(h.aligned hab).run_eq hmode htree, hab.run_eq hmode htree, hrows]

/-- A longest list in front of a kind that lines up two inputs item by item changes nothing, for
trees with the same branches, none of them empty or above another. -/
theorem run_behind_longestList :
    (∀ k, k ∈ Kind.pairing ↔ k.signature.mode = .longest ∧ k.signature.inputs.length = 2 ∧
      ∀ i ∈ k.signature.inputs, i.access = .item) ∧
    ∀ a b : Tree, a.paths = b.paths →
      (∀ p ∈ a.paths, ∀ q ∈ a.paths, ¬ p.extends? q = true) → a.Full → b.Full →
      ∃ a' b', run (.sets .longestList) [a, b] = .ok [a', b'] ∧
        ∀ k ∈ Kind.pairing, run k [a', b'] = run k [a, b] := by
  refine ⟨Kind.mem_pairing_iff, fun a b hpaths hfree hfa hfb => ?_⟩
  by_cases hP : a.paths = []
  · -- Without branches the longest list is not called, and gives the two trees back.
    obtain rfl := Tree.paths_eq_nil_iff.1 hP
    obtain rfl := Tree.paths_eq_nil_iff.1 (hpaths ▸ hP)
    exact ⟨.empty, .empty, rfl, fun _ _ => rfl⟩
  · have haligned : ∀ inputs : List Input, inputs.length = 2 →
        Aligned inputs a.paths [a, b] := fun inputs hinputs =>
      aligned_pair hinputs rfl hpaths.symm hP hfree hfa hfb
    obtain ⟨a', b', hrun, hheld⟩ := exists_held (haligned _ rfl)
    refine ⟨a', b', hrun, fun k hk => ?_⟩
    obtain ⟨hmode, hinputs, haccess⟩ := k.mem_pairing_iff.1 hk
    exact hheld.run_eq (haligned _ hinputs) hmode haccess

/-- Lists of uneven lengths have the sums of those that the longest list makes of them. -/
theorem run_behind_longestList_sample :
    run (.sets .longestList) Sample.uneven = .ok Sample.evened ∧
      run (.maths .addition) Sample.evened = run (.maths .addition) Sample.uneven := by
  have hrun : run (.sets .longestList) Sample.uneven = .ok Sample.evened := rfl
  obtain ⟨a', b', hheld, hsame⟩ := run_behind_longestList.2 (givenAt Sample.uneven 0)
    (givenAt Sample.uneven 1) rfl (by decide) (by decide) (by decide)
  have hevened : Sample.evened = [a', b'] := Except.ok.inj (hrun.symm.trans hheld)
  rw [hevened]
  exact ⟨hheld, hsame (.maths .addition) (by decide)⟩

end Component
end TreeFlow
