import TreeFlow.Proofs.Matching.Supply
import TreeFlow.Proofs.Tree
/-
Empty branches in longest-list matching.

To an input of item access a tree serves each path with one branch, its own or one that stands in.
What the input supplies there shows whether that branch is empty: exactly then it has no value for
any call (`argument_eq_missing_iff`), and exactly then it asks for none (`count_pos_iff`).
-/

namespace TreeFlow
namespace Matching

variable {t : Tree} {p : Path} {items : List Item} {item : Option Item} {x : Input}

/-- A tree serves a path with its branch there, or else with the one that stands in. -/
inductive Serves (t : Tree) (p : Path) (items : List Item) : Prop
  | own (h : t.branch? p = some items)
  | standIn {item : Option Item} (hp : p ∉ t.paths) (h : StandIn t p items item)

theorem or_getLast?_eq_none_iff {l : List Item} {first : Option Item}
    (h : ∀ i, first = some i → i ∈ l) : first.or l.getLast? = none ↔ l = [] := by
  rw [Option.or_eq_none_iff, List.getLast?_eq_none_iff, and_iff_right_iff_imp]
  intro hl
  rw [Option.eq_none_iff_forall_ne_some]
  intro i hi
  have hmem := h i hi
  rw [hl] at hmem
  cases hmem

/-- The item that stands in is of the branch that stands in, which has one unless it is empty. -/
theorem StandIn.item_eq_none_iff (h : StandIn t p items item) : item = none ↔ items = [] := by
  cases h with
  | above => exact or_getLast?_eq_none_iff fun i hi => List.mem_of_getElem? hi
  | before => exact List.getLast?_eq_none_iff
  | first => exact List.getLast?_eq_none_iff

theorem exists_serves (h : t.paths ≠ []) (p : Path) : ∃ items, Serves t p items := by
  by_cases hp : p ∈ t.paths
  · obtain ⟨items, hitems⟩ := mem_paths_iff.1 hp
    exact ⟨items, .own hitems⟩
  · obtain ⟨⟨items, item⟩, hfound⟩ := Option.ne_none_iff_exists'.1 (mt standIn?_eq_none_iff.1 h)
    exact ⟨items, .standIn hp (standIn?_eq_some_iff.1 hfound)⟩

theorem elim_item_eq_missing_iff : item.elim Value.missing Value.item = .missing ↔ item = none := by
  cases item <;> simp

theorem elim_item_cases (item : Option Item) :
    item.elim Value.missing Value.item = .missing ∨
      ∃ i, item.elim Value.missing Value.item = .item i := by
  cases item with
  | none => exact .inl rfl
  | some i => exact .inr ⟨i, rfl⟩

/-- An empty branch supplies no value and asks for no calls, and any other does both. -/
theorem Serves.supplies (hx : x.access = .item) (h : Serves x.tree p items) :
    ∃ value n, Supplies x p value n ∧ (∀ c, value c = .missing ↔ items = []) ∧
      (0 < n ↔ items ≠ []) := by
  cases h with
  | own h =>
    refine ⟨_, _, .items hx h, fun c => ?_, List.length_pos_iff⟩
    rw [elim_item_eq_missing_iff]
    exact or_getLast?_eq_none_iff fun i hi => List.mem_of_getElem? hi
  | @standIn item hp h =>
    refine ⟨_, _, .itemStandIn hx hp h, fun _ => ?_, ?_⟩
    · rw [elim_item_eq_missing_iff]
      exact h.item_eq_none_iff
    · rw [ne_eq, ← h.item_eq_none_iff]
      cases item <;> simp

theorem argument_eq_missing_iff (hx : x.access = .item) (h : Serves x.tree p items) (c : Nat) :
    (x.offerAt p).argument c = .missing ↔ items = [] := by
  obtain ⟨value, n, hsupplies, hmissing, -⟩ := h.supplies hx
  rw [← hmissing c, hsupplies.eq_offer.1]

theorem count_pos_iff (hx : x.access = .item) :
    0 < (x.offerAt p).count ↔ ∃ items, Serves x.tree p items ∧ items ≠ [] := by
  have hcount : ∀ {items}, Serves x.tree p items → (0 < (x.offerAt p).count ↔ items ≠ []) := by
    intro items h
    obtain ⟨value, n, hsupplies, -, hpos⟩ := h.supplies hx
    rw [← hpos, hsupplies.eq_offer.2]
  constructor
  · intro hpos
    by_cases hempty : x.tree.paths = []
    · have hiter : x.iterated = true := by simp [Input.iterated, hx]
      rw [← (Supplies.nothing (p := p) hiter hempty).eq_offer.2] at hpos
      exact absurd hpos (Nat.lt_irrefl 0)
    · obtain ⟨items, hserves⟩ := exists_serves hempty p
      exact ⟨items, hserves, (hcount hserves).1 hpos⟩
  · intro h
    obtain ⟨items, hserves, hitems⟩ := h
    exact (hcount hserves).2 hitems

/-- An input of item access hands on single items or nothing. -/
theorem argument_of_item (hx : x.access = .item) (p : Path) (c : Nat) :
    (x.offerAt p).argument c = .missing ∨ ∃ item, (x.offerAt p).argument c = .item item := by
  obtain ⟨value, n, h⟩ := exists_supplies x p
  rw [← congrFun h.eq_offer.1 c]
  cases h with
  | tree h => rw [hx] at h; cases h
  | list h => rw [hx] at h; cases h
  | listStandIn h => rw [hx] at h; cases h
  | nothing => exact .inl rfl
  | items => exact elim_item_cases _
  | itemStandIn => exact elim_item_cases _

/-! ## Items that are handed on -/

section

variable {q : Path} {i : Item} {c : Nat}

theorem mem_items_of_branch? (h : t.branch? q = some items) (hi : i ∈ items) : i ∈ t.items := by
  rw [Tree.items_eq]
  exact List.mem_flatMap.2 ⟨_, mem_entries_iff.2 h, hi⟩

theorem StandIn.mem_items (h : StandIn t p items (some i)) : i ∈ t.items := by
  generalize hitem : some i = item at h
  cases h with
  | above hq =>
    obtain h | ⟨-, h⟩ := Option.or_eq_some_iff.1 hitem.symm
    · exact mem_items_of_branch? hq (List.mem_of_getElem? h)
    · exact mem_items_of_branch? hq (List.mem_of_getLast? h)
  | before hq => exact mem_items_of_branch? hq (List.mem_of_getLast? hitem.symm)
  | first hq => exact mem_items_of_branch? hq (List.mem_of_getLast? hitem.symm)

theorem elim_item_eq_item_iff :
    item.elim Value.missing Value.item = .item i ↔ item = some i := by
  cases item <;> simp

/-- An item that an input hands on is one of its tree. -/
theorem mem_items_of_argument (hx : x.access = .item)
    (h : (x.offerAt p).argument c = .item i) : i ∈ x.tree.items := by
  obtain ⟨value, n, hsupplies⟩ := exists_supplies x p
  rw [← congrFun hsupplies.eq_offer.1 c] at h
  cases hsupplies with
  | tree haccess => rw [hx] at haccess; cases haccess
  | list haccess => rw [hx] at haccess; cases haccess
  | listStandIn haccess => rw [hx] at haccess; cases haccess
  | nothing => cases h
  | items _ hitems =>
    obtain h | ⟨-, h⟩ := Option.or_eq_some_iff.1 (elim_item_eq_item_iff.1 h)
    · exact mem_items_of_branch? hitems (List.mem_of_getElem? h)
    · exact mem_items_of_branch? hitems (List.mem_of_getLast? h)
  | itemStandIn _ _ hitems =>
    rw [elim_item_eq_item_iff.1 h] at hitems
    exact hitems.mem_items

end

/-! ## Calls -/

/-- A path that some input offers and none extends, so that calls are made for it. -/
def Leaf (inputs : List Input) (p : Path) : Prop :=
  Offered inputs p ∧ ∀ q, Offered inputs q → ¬ p.extends? q = true

theorem lt_foldl_max_iff {l : List Nat} {c : Nat} : c < l.foldl max 0 ↔ ∃ n ∈ l, c < n := by
  obtain ⟨hmem, hupper⟩ := isGreatest_foldl_max l 0
  constructor
  · intro h
    refine ⟨_, hmem.resolve_left ?_, h⟩
    omega
  · intro h
    obtain ⟨n, hn, hlt⟩ := h
    exact Nat.lt_of_lt_of_le hlt (hupper (.inr hn))

theorem mem_longest_calls_iff {xs : List Input} {call : List Value} :
    call ∈ (longest xs).flatMap Branch.calls ↔
      ∃ p, Leaf xs p ∧ ∃ c, (∃ x ∈ xs, c < (x.offerAt p).count) ∧
        call = xs.map fun x => (x.offerAt p).argument c := by
  have hpath : ∀ p, Leaf xs p ↔ ∃ output, (p, output) ∈
      (leaves (unionPaths xs)).zip (outputPaths xs (leaves (unionPaths xs))) := by
    intro p
    have hleaf : p ∈ leaves (unionPaths xs) ↔ Leaf xs p := by
      rw [mem_leaves_unionPaths]
      simp only [mem_unionPaths, Leaf, Offered]
    have hlength : (outputPaths xs (leaves (unionPaths xs))).length
        = (leaves (unionPaths xs)).length := length_outputPaths
    have hmem := List.map_fst_zip (Nat.le_of_eq hlength.symm)
    rw [← hleaf]
    nth_rewrite 1 [← hmem]
    simp
  simp only [longest, List.mem_flatMap, List.mem_map, Prod.exists]
  constructor
  · intro h
    obtain ⟨_, ⟨p, output, hp, rfl⟩, hcall⟩ := h
    obtain ⟨c, hc, rfl⟩ := List.mem_map.1 hcall
    rw [List.mem_range, lt_foldl_max_iff] at hc
    refine ⟨p, (hpath p).2 ⟨output, hp⟩, c, ?_, by rw [List.map_map]; rfl⟩
    simpa using hc
  · intro h
    obtain ⟨p, hp, c, hc, rfl⟩ := h
    obtain ⟨output, hp⟩ := (hpath p).1 hp
    refine ⟨_, ⟨p, output, hp, rfl⟩, List.mem_map.2 ⟨c, ?_, by rw [List.map_map]; rfl⟩⟩
    rw [List.mem_range, lt_foldl_max_iff]
    simpa using hc

end Matching
end TreeFlow
