import TreeFlow.Proofs.Item.Document
import TreeFlow.Proofs.Tree.Keyed
/-
What is read of a tree that was written.

The branches of a tree stand under the texts of their paths, which are different for different
paths and read as these paths; so no branch is lost, and none is refused but for an item in it
(`ofJson_toJson`).
-/

namespace TreeFlow
namespace Tree

/-! ## Trees -/

/-- A tree with items that can be read. -/
def Readable (t : Tree) : Prop := ∀ i ∈ t.items, i.Readable

instance (t : Tree) : Decidable t.Readable := inferInstanceAs (Decidable (∀ i ∈ t.items, _))

/-- A tree as it comes back from its document. -/
def reread (t : Tree) : Tree := t.mapItems Item.reread

theorem forall_items_iff {t : Tree} {P : Item → Prop} :
    (∀ i ∈ t.items, P i) ↔ ∀ e ∈ t.branches.entries, ∀ i ∈ e.2, P i := by
  simp only [items, SortedMap.values, List.mem_flatten, List.mem_map]
  constructor
  · exact fun h e he i hi => h i ⟨e.2, ⟨e, he, rfl⟩, hi⟩
  · intro h i hi
    obtain ⟨_, ⟨e, he, rfl⟩, hi⟩ := hi
    exact h e he i hi

theorem readable_iff {t : Tree} :
    t.Readable ↔ ∀ e ∈ t.branches.entries, ∀ i ∈ e.2, i.Readable :=
  forall_items_iff

/-- A tree is refused only for an item. -/
theorem ofJson_toJson {room : Nat} (hroom : 2 < room) (t : Tree) :
    ofJson room t.toJson = if t.Readable then .ok t.reread else .error .mismatch := by
  let written : List (String × List Item) := t.branches.entries.map fun e => (e.1.text, e.2)
  have hmembers := Json.asMembers_map itemsToJson (l := written)
    (f := List.map Item.reread) (P := fun items => ∀ i ∈ items, i.Readable)
    fun e _ => itemsOfJson_itemsToJson (Nat.sub_pos_of_lt hroom) e.2
  have hjson : t.toJson = .object (written.map fun e => Json.member e.1 (itemsToJson e.2)) := by
    unfold toJson
    rw [List.map_map]
    rfl
  have hkeyed : SortedMap.ofList (written.map fun e => (e.1, e.2.map Item.reread))
      = t.reread.keyed := by
    unfold keyed reread mapItems mapBranches SortedMap.map
    rw [List.map_map, List.map_map]
    rfl
  have hreadable : t.Readable ↔ ∀ e ∈ written, ∀ i ∈ e.2, i.Readable := by
    rw [readable_iff, List.forall_mem_map]
  unfold ofJson
  rw [hjson, hmembers]
  by_cases h : t.Readable
  · rw [if_pos h, if_pos (hreadable.1 h), Except.ok_bind, hkeyed, ofKeyed_keyed]
  · rw [if_neg h, if_neg fun hall => h (hreadable.2 hall)]
    rfl

/-! ## Trees that come back unchanged -/

/-- A tree of finite items. -/
def IsFinite (t : Tree) : Prop := ∀ i ∈ t.items, i.IsFinite

instance (t : Tree) : Decidable t.IsFinite := inferInstanceAs (Decidable (∀ i ∈ t.items, _))

theorem reread_eq_self_iff {t : Tree} : t.reread = t ↔ ∀ i ∈ t.items, i.reread = i := by
  have hbranches : t.reread = t ↔ t.branches.map (List.map Item.reread) = t.branches := by
    constructor
    · exact congrArg branches
    · exact congrArg Tree.mk
  rw [hbranches, SortedMap.map_eq_self_iff, forall_items_iff]
  simp only [SortedMap.list_map_eq_self_iff]

theorem isFinite_iff (t : Tree) : t.IsFinite ↔ t.Readable ∧ t.reread = t := by
  rw [reread_eq_self_iff, IsFinite, Readable]
  simp only [Item.isFinite_iff]
  exact forall₂_and

end Tree
end TreeFlow
