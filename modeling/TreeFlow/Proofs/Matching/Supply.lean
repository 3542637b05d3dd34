import Mathlib.Data.List.Basic
import Mathlib.Order.Bounds.Basic
import TreeFlow.Proofs.Matching.Longest
/-
The calls of longest-list matching.

What an input supplies to a branch is said here without a walk over its tree: the branch at the
path, or else the longest one above the path, or else the greatest one before it, or else the first
one (`StandIn`, `Supplies`).  The walks find these because the ways up and the branches are listed
in order, so that the first hit is the extreme one (`findSome?_eq_some_iff_of_pairwise`).

`branches_longest` is the result for whole lists of inputs.
-/

namespace TreeFlow
namespace Matching

/-! ## The first hit in an ordered list -/

section Ordered

variable {α β : Type} {r : α → α → Prop} {l : List α}

theorem findSome?_eq_some_iff_of_pairwise (hr : ∀ a b, r a b → ¬ r b a) (h : l.Pairwise r)
    {f : α → Option β} {b : β} :
    l.findSome? f = some b ↔
      ∃ a ∈ l, f a = some b ∧ ∀ c ∈ l, (f c).isSome = true → c = a ∨ r a c := by
  constructor
  · intro hfind
    obtain ⟨before, a, behind, rfl, ha, hbefore⟩ := List.findSome?_eq_some_iff.1 hfind
    refine ⟨a, by simp, ha, fun c hc hhit => ?_⟩
    rcases List.mem_append.1 hc with hc | hc
    · simp [hbefore c hc] at hhit
    · rcases List.mem_cons.1 hc with rfl | hc
      · exact .inl rfl
      · exact .inr ((List.pairwise_cons.1 (List.pairwise_append.1 h).2.1).1 c hc)
  · rintro ⟨a, ha, hhit, hfirst⟩
    obtain ⟨before, behind, rfl⟩ := List.append_of_mem ha
    refine List.findSome?_eq_some_iff.2 ⟨before, a, behind, rfl, hhit, fun c hc => ?_⟩
    have hca : r c a := (List.pairwise_append.1 h).2.2 c hc a List.mem_cons_self
    by_contra hsome
    rcases hfirst c (List.mem_append_left _ hc) (Option.isSome_iff_ne_none.2 hsome) with rfl | hac
    · exact hr _ _ hca hca
    · exact hr _ _ hca hac

theorem head?_eq_some_iff_of_pairwise (hr : ∀ a b, r a b → ¬ r b a) (h : l.Pairwise r) {a : α} :
    l.head? = some a ↔ a ∈ l ∧ ∀ b ∈ l, b = a ∨ r a b := by
  have hhead : l.head? = l.findSome? some := by rw [← List.head?_filterMap, List.filterMap_some]
  rw [hhead, findSome?_eq_some_iff_of_pairwise hr h]
  simp

theorem getLast?_eq_some_iff_of_pairwise (hr : ∀ a b, r a b → ¬ r b a) (h : l.Pairwise r) {a : α} :
    l.getLast? = some a ↔ a ∈ l ∧ ∀ b ∈ l, b = a ∨ r b a := by
  have hhead := head?_eq_some_iff_of_pairwise (fun a b => hr b a) (List.pairwise_reverse.2 h)
    (a := a)
  simpa using hhead

end Ordered

/-! ## What stands in for a branch -/

/-- A branch that stands in at a path which the tree has not got, and the one item of it that
stands in for all items there. -/
inductive StandIn (t : Tree) (p : Path) : List Item → Option Item → Prop
  | above {q : Path} {k : UInt32} {tail : List UInt32} {items : List Item}
      (hq : t.branch? q = some items) (hp : q.segments ++ k :: tail = p.segments)
      (hnearest : ∀ r ∈ t.paths, r.extends? p = true → r.length ≤ q.length) :
      StandIn t p items (items[k.toNat]?.or items.getLast?)
  | before {q : Path} {items : List Item} (hq : t.branch? q = some items)
      (habove : ∀ r ∈ t.paths, ¬ r.extends? p = true) (hlt : compare q p = .lt)
      (hnearest : ∀ r ∈ t.paths, compare r p = .lt → r = q ∨ compare r q = .lt) :
      StandIn t p items items.getLast?
  | first {q : Path} {items : List Item} (hq : t.branch? q = some items)
      (habove : ∀ r ∈ t.paths, ¬ r.extends? p = true)
      (hbefore : ∀ r ∈ t.paths, ¬ compare r p = .lt)
      (hfirst : ∀ r ∈ t.paths, r = q ∨ compare q r = .lt) :
      StandIn t p items items.getLast?

variable {t : Tree} {p q : Path} {k : UInt32} {items : List Item} {item : Option Item}

theorem mem_entries_iff : (q, items) ∈ t.branches.entries ↔ t.branch? q = some items :=
  SortedMap.get?_eq_some_iff.symm

theorem mem_paths_iff : q ∈ t.paths ↔ ∃ items, t.branch? q = some items := by
  rw [Tree.paths, SortedMap.mem_keys_iff]
  simp only [mem_entries_iff]

/-- A branch at the path itself is offered as it is. -/
theorem Input.offerAt_of_branch? {i : Input} (haccess : i.access ≠ .tree)
    (hitems : i.tree.branch? p = some items) : i.offerAt p = .ofBranch i.access items := by
  rw [Input.offerAt]
  cases h : i.access with
  | tree => exact absurd h haccess
  | item => simp [Matching.offerAt, hitems]
  | list => simp [Matching.offerAt, hitems]

theorem not_mem_paths_iff : p ∉ t.paths ↔ t.branch? p = none := by
  rw [mem_paths_iff, ← Option.isSome_iff_exists, Option.not_isSome_iff_eq_none]

/-! ## The nearest branch above -/

theorem mem_ancestors : (q, k) ∈ ancestors p ↔ ∃ tail, q.segments ++ k :: tail = p.segments := by
  obtain ⟨l⟩ := p
  obtain ⟨s⟩ := q
  simp only [ancestors, List.mem_reverse, List.mem_map, Prod.exists, List.mk_mem_zipIdx_iff_getElem?,
    Prod.mk.injEq, Path.mk.injEq]
  constructor
  · rintro ⟨_, n, hn, rfl, rfl⟩
    obtain ⟨hlt, rfl⟩ := List.getElem?_eq_some_iff.1 hn
    exact ⟨l.drop (n + 1), by rw [List.getElem_cons_drop, List.take_append_drop]⟩
  · rintro ⟨tail, rfl⟩
    exact ⟨k, s.length, by simp, by simp, rfl⟩

/-- The ways up are listed nearest first. -/
theorem ancestors_pairwise (p : Path) :
    (ancestors p).Pairwise fun a b => b.1.length < a.1.length := by
  rw [ancestors, List.pairwise_reverse, List.pairwise_map, List.pairwise_iff_getElem]
  intro i j hi hj hij
  simp only [List.length_zipIdx] at hi hj
  simp only [List.getElem_zipIdx, Path.length, List.length_take]
  omega

theorem extends?_iff_mem_ancestors : q.extends? p = true ↔ ∃ k, (q, k) ∈ ancestors p := by
  rw [Path.extends?_iff]
  simp only [mem_ancestors]
  constructor
  · rintro ⟨s, hs, h⟩
    obtain ⟨k, tail, rfl⟩ := List.exists_cons_of_ne_nil hs
    exact ⟨k, tail, h⟩
  · rintro ⟨k, tail, h⟩
    exact ⟨k :: tail, by simp, h⟩

theorem ancestors_ext {r : Path} {k' : UInt32} (hq : (q, k) ∈ ancestors p)
    (hr : (r, k') ∈ ancestors p) (hlength : r.length = q.length) : (r, k') = (q, k) := by
  obtain ⟨tail, hq⟩ := mem_ancestors.1 hq
  obtain ⟨tail', hr⟩ := mem_ancestors.1 hr
  obtain ⟨hsegments, hbehind⟩ := List.append_inj (hr.trans hq.symm) hlength
  obtain ⟨rfl, -⟩ := List.cons_eq_cons.1 hbehind
  rw [show r = q from congrArg Path.mk hsegments]

/-- The nearest branch above a path is the longest one. -/
theorem nearestAncestor?_eq_some_iff :
    nearestAncestor? t p = some (items, k) ↔
      ∃ q, t.branch? q = some items ∧ (q, k) ∈ ancestors p ∧
        ∀ r ∈ t.paths, r.extends? p = true → r.length ≤ q.length := by
  rw [nearestAncestor?, findSome?_eq_some_iff_of_pairwise (fun a b hab => Nat.lt_asymm hab)
    (ancestors_pairwise p)]
  constructor
  · rintro ⟨⟨q, segment⟩, hmem, hhit, hfirst⟩
    obtain ⟨items', hq, heq⟩ := Option.map_eq_some_iff.1 hhit
    obtain ⟨rfl, rfl⟩ := Prod.mk.inj heq
    refine ⟨q, hq, hmem, fun r hr hext => ?_⟩
    obtain ⟨k', hk'⟩ := extends?_iff_mem_ancestors.1 hext
    obtain ⟨items'', hr⟩ := mem_paths_iff.1 hr
    rcases hfirst (r, k') hk' (by simp [hr]) with heq | hlt
    · rw [(Prod.mk.inj heq).1]
    · exact Nat.le_of_lt hlt
  · rintro ⟨q, hq, hmem, hnearest⟩
    refine ⟨(q, k), hmem, by simp [hq], fun ⟨r, k'⟩ hr hsome => ?_⟩
    rw [Option.isSome_map, Option.isSome_iff_exists] at hsome
    rcases Nat.lt_or_eq_of_le
      (hnearest r (mem_paths_iff.2 hsome) (extends?_iff_mem_ancestors.2 ⟨k', hr⟩)) with hlt | heq
    · exact .inr hlt
    · exact .inl (ancestors_ext hmem hr heq)

theorem nearestAncestor?_eq_none_iff :
    nearestAncestor? t p = none ↔ ∀ r ∈ t.paths, ¬ r.extends? p = true := by
  rw [nearestAncestor?, List.findSome?_eq_none_iff]
  constructor
  · intro hnone r hr hext
    obtain ⟨k, hk⟩ := extends?_iff_mem_ancestors.1 hext
    obtain ⟨items, hitems⟩ := mem_paths_iff.1 hr
    have hhit := hnone (r, k) hk
    simp [hitems] at hhit
  · rintro hnone ⟨r, k⟩ hr
    rw [Option.map_eq_none_iff, Option.eq_none_iff_forall_ne_some]
    intro items hitems
    exact hnone r (mem_paths_iff.2 ⟨items, hitems⟩) (extends?_iff_mem_ancestors.2 ⟨k, hr⟩)

/-! ## The nearest branch in path order -/

theorem compare_asymm (a b : Path × List Item) (h : compare a.1 b.1 = .lt) :
    ¬ compare b.1 a.1 = .lt :=
  Std.OrientedCmp.not_lt_of_lt h

/-- An entry is told by its path. -/
theorem entry_eq_iff {e : Path × List Item} (hq : t.branch? q = some items)
    (he : e ∈ t.branches.entries) : e = (q, items) ↔ e.1 = q := by
  constructor
  · rintro rfl
    rfl
  · rintro rfl
    have he := mem_entries_iff.1 he
    rw [hq] at he
    rw [Option.some.inj he]

theorem forall_paths_iff {P : Path → Prop} :
    (∀ r ∈ t.paths, P r) ↔ ∀ e ∈ t.branches.entries, P e.1 := by
  simp only [Tree.paths, SortedMap.keys, List.forall_mem_map]

/-- The entries of a tree before a path. -/
def earlier (t : Tree) (p : Path) : List (Path × List Item) :=
  t.branches.entries.filter fun e => compare e.1 p == .lt

theorem nearestBranch?_eq (t : Tree) (p : Path) :
    nearestBranch? t p
      = ((earlier t p).getLast?.or t.branches.entries.head?).map Prod.snd := by
  have hbefore : t.branches.entries.Pairwise fun a b =>
      (compare b.1 p == .lt) = true → (compare a.1 p == .lt) = true :=
    t.branches.ascending.imp fun hab hb => by
      rw [beq_iff_eq] at hb ⊢
      exact Std.TransCmp.lt_trans hab hb
  rw [nearestBranch?, SortedMap.takeWhile_eq_filter_of_pairwise hbefore]
  rfl

theorem getLast?_earlier_eq_some_iff :
    (earlier t p).getLast? = some (q, items) ↔
      t.branch? q = some items ∧ compare q p = .lt ∧
        ∀ r ∈ t.paths, compare r p = .lt → r = q ∨ compare r q = .lt := by
  have hascending := t.branches.ascending.filter fun e => compare e.1 p == .lt
  rw [earlier, getLast?_eq_some_iff_of_pairwise compare_asymm hascending, forall_paths_iff]
  simp only [List.mem_filter, beq_iff_eq, mem_entries_iff, and_assoc, and_imp]
  refine and_congr_right fun hq => and_congr_right fun _ => ?_
  exact forall₂_congr fun e he => imp_congr_right fun _ => or_congr_left (entry_eq_iff hq he)

theorem earlier_eq_nil_iff : earlier t p = [] ↔ ∀ r ∈ t.paths, ¬ compare r p = .lt := by
  rw [earlier, List.filter_eq_nil_iff, forall_paths_iff]
  simp only [beq_iff_eq]

theorem head?_entries_eq_some_iff :
    t.branches.entries.head? = some (q, items) ↔
      t.branch? q = some items ∧ ∀ r ∈ t.paths, r = q ∨ compare q r = .lt := by
  rw [head?_eq_some_iff_of_pairwise compare_asymm t.branches.ascending, mem_entries_iff,
    forall_paths_iff]
  exact and_congr_right fun hq => forall₂_congr fun e he => or_congr_left (entry_eq_iff hq he)

/-- The nearest branch is the greatest one before the path, or else the first one. -/
theorem nearestBranch?_eq_some_iff :
    nearestBranch? t p = some items ↔
      ∃ q, t.branch? q = some items ∧
        ((compare q p = .lt ∧ ∀ r ∈ t.paths, compare r p = .lt → r = q ∨ compare r q = .lt) ∨
          ((∀ r ∈ t.paths, ¬ compare r p = .lt) ∧ ∀ r ∈ t.paths, r = q ∨ compare q r = .lt)) := by
  rw [nearestBranch?_eq]
  cases hlast : (earlier t p).getLast? with
  | none =>
    have hnone := earlier_eq_nil_iff.1 (List.getLast?_eq_none_iff.1 hlast)
    rw [Option.none_or, Option.map_eq_some_iff]
    constructor
    · rintro ⟨⟨q, _⟩, hhead, rfl⟩
      obtain ⟨hq, hfirst⟩ := head?_entries_eq_some_iff.1 hhead
      exact ⟨q, hq, .inr ⟨hnone, hfirst⟩⟩
    · rintro ⟨q, hq, ⟨hlt, -⟩ | ⟨-, hfirst⟩⟩
      · exact absurd hlt (hnone q (mem_paths_iff.2 ⟨_, hq⟩))
      · exact ⟨(q, items), head?_entries_eq_some_iff.2 ⟨hq, hfirst⟩, rfl⟩
  | some e =>
    obtain ⟨r, _⟩ := e
    obtain ⟨hr, hlt, hnearest⟩ := getLast?_earlier_eq_some_iff.1 hlast
    rw [Option.some_or, Option.map_some, Option.some_inj]
    constructor
    · rintro rfl
      exact ⟨r, hr, .inl ⟨hlt, hnearest⟩⟩
    · rintro ⟨q, hq, ⟨hlt', hnearest'⟩ | ⟨hnone, -⟩⟩
      · have hlast' := getLast?_earlier_eq_some_iff.2 ⟨hq, hlt', hnearest'⟩
        rw [hlast] at hlast'
        exact (Prod.mk.inj (Option.some.inj hlast')).2
      · exact absurd hlt (hnone r (mem_paths_iff.2 ⟨_, hr⟩))

theorem nearestBranch?_eq_none_iff : nearestBranch? t p = none ↔ t.paths = [] := by
  rw [nearestBranch?_eq, Option.map_eq_none_iff, Option.or_eq_none_iff, List.head?_eq_none_iff,
    Tree.paths, SortedMap.keys, List.map_eq_nil_iff]
  refine and_iff_right_of_imp fun hnil => ?_
  rw [earlier, hnil]
  rfl

/-! ## Stand-ins are found -/

/-- The branch and the item that stand in, found by the walks. -/
def standIn? (t : Tree) (p : Path) : Option (List Item × Option Item) :=
  match nearestAncestor? t p with
  | some (items, k) => some (items, items[k.toNat]?.or items.getLast?)
  | none => (nearestBranch? t p).map fun items => (items, items.getLast?)

theorem standIn?_eq_some_iff : standIn? t p = some (items, item) ↔ StandIn t p items item := by
  constructor
  · intro h
    rw [standIn?] at h
    cases habove : nearestAncestor? t p with
    | some found =>
      obtain ⟨q, hq, hmem, hnearest⟩ := nearestAncestor?_eq_some_iff.1 habove
      obtain ⟨tail, hp⟩ := mem_ancestors.1 hmem
      rw [habove] at h
      obtain ⟨rfl, rfl⟩ := Prod.mk.inj (Option.some.inj h)
      exact .above hq hp hnearest
    | none =>
      have hnone := nearestAncestor?_eq_none_iff.1 habove
      rw [habove] at h
      obtain ⟨found, hfound, hitems⟩ := Option.map_eq_some_iff.1 h
      obtain ⟨rfl, rfl⟩ := Prod.mk.inj hitems
      obtain ⟨q, hq, ⟨hlt, hnearest⟩ | ⟨hbefore, hfirst⟩⟩ := nearestBranch?_eq_some_iff.1 hfound
      · exact .before hq hnone hlt hnearest
      · exact .first hq hnone hbefore hfirst
  · intro h
    cases h with
    | above hq hp hnearest =>
      have habove := nearestAncestor?_eq_some_iff.2 ⟨_, hq, mem_ancestors.2 ⟨_, hp⟩, hnearest⟩
      rw [standIn?, habove]
    | before hq hnone hlt hnearest =>
      have hfound := nearestBranch?_eq_some_iff.2 ⟨_, hq, .inl ⟨hlt, hnearest⟩⟩
      rw [standIn?, nearestAncestor?_eq_none_iff.2 hnone, hfound]
      rfl
    | first hq hnone hbefore hfirst =>
      have hfound := nearestBranch?_eq_some_iff.2 ⟨_, hq, .inr ⟨hbefore, hfirst⟩⟩
      rw [standIn?, nearestAncestor?_eq_none_iff.2 hnone, hfound]
      rfl

theorem standIn?_eq_none_iff : standIn? t p = none ↔ t.paths = [] := by
  rw [standIn?]
  cases habove : nearestAncestor? t p with
  | some found =>
    obtain ⟨q, hq, -, -⟩ := nearestAncestor?_eq_some_iff.1 habove
    have hmem := mem_paths_iff.2 ⟨_, hq⟩
    simp [List.ne_nil_of_mem hmem]
  | none => rw [Option.map_eq_none_iff, nearestBranch?_eq_none_iff]

/-- Where a tree has no branch at a path, the offer is what stands in. -/
theorem offerAt_of_not_mem (access : Access) (h : p ∉ t.paths) :
    offerAt access t p = (standIn? t p).elim .missing fun (items, item) =>
      if access = .list then .whole items else .ofItem? item := by
  rw [offerAt.eq_def, not_mem_paths_iff.1 h, standIn?]
  cases nearestAncestor? t p with
  | some found => cases access <;> rfl
  | none => cases nearestBranch? t p <;> cases access <;> rfl

/-! ## What an input supplies -/

/-- What an input supplies at a path: a value to each call, by number, and how many calls it asks
for by itself. -/
inductive Supplies (i : Input) (p : Path) : (Nat → Value) → Nat → Prop
  | tree (h : i.access = .tree) : Supplies i p (fun _ => .tree i.tree) 0
  | nothing (h : i.iterated = true) (hempty : i.tree.paths = []) :
      Supplies i p (fun _ => .missing) 0
  | list {items : List Item} (h : i.access = .list) (hitems : i.tree.branch? p = some items) :
      Supplies i p (fun _ => .list items) 1
  | listStandIn {items : List Item} {item : Option Item} (h : i.access = .list)
      (hp : p ∉ i.tree.paths) (hitems : StandIn i.tree p items item) :
      Supplies i p (fun _ => .list items) 1
  | items {items : List Item} (h : i.access = .item) (hitems : i.tree.branch? p = some items) :
      Supplies i p (fun c => (items[c]?.or items.getLast?).elim .missing .item) items.length
  | itemStandIn {items : List Item} {item : Option Item} (h : i.access = .item)
      (hp : p ∉ i.tree.paths) (hitems : StandIn i.tree p items item) :
      Supplies i p (fun _ => item.elim .missing .item) item.toList.length

variable {i : Input} {value : Nat → Value} {n : Nat}

theorem access_of_not_iterated (h : ¬ i.iterated = true) : i.access = .tree := by
  simpa [Input.iterated] using h

theorem Input.offerAt_eq (h : i.iterated = true) (p : Path) :
    i.offerAt p = Matching.offerAt i.access i.tree p := by
  rw [Input.offerAt]
  cases haccess : i.access with
  | tree => simp [Input.iterated, haccess] at h
  | _ => rfl

theorem Offer.argument_ofItem? (item : Option Item) (c : Nat) :
    (Offer.ofItem? item).argument c = item.elim .missing .item := by
  cases item with
  | none => rfl
  | some item => cases c <;> rfl

theorem Offer.count_ofItem? (item : Option Item) :
    (Offer.ofItem? item).count = item.toList.length := by
  cases item <;> rfl

theorem Supplies.eq_offer (h : Supplies i p value n) :
    value = (fun c => (i.offerAt p).argument c) ∧ n = (i.offerAt p).count := by
  cases h with
  | tree h =>
    have hoffer : i.offerAt p = .tree i.tree := by rw [Input.offerAt, h]
    rw [hoffer]
    exact ⟨rfl, rfl⟩
  | nothing h hempty =>
    have hoffer : i.offerAt p = .missing := by
      rw [Input.offerAt_eq h, offerAt_of_not_mem _ (by simp [hempty]),
        standIn?_eq_none_iff.2 hempty]
      rfl
    rw [hoffer]
    exact ⟨rfl, rfl⟩
  | @list items h hitems =>
    have hoffer : i.offerAt p = .whole items := by
      rw [Input.offerAt, h]
      simp only [offerAt, hitems, Offer.ofBranch]
    rw [hoffer]
    exact ⟨rfl, rfl⟩
  | @listStandIn items item h hp hitems =>
    have hoffer : i.offerAt p = .whole items := by
      rw [Input.offerAt, h]
      simp only [offerAt_of_not_mem _ hp, standIn?_eq_some_iff.2 hitems, Option.elim_some, if_true]
    rw [hoffer]
    exact ⟨rfl, rfl⟩
  | @items items h hitems =>
    have hoffer : i.offerAt p = .items items.toArray := by
      rw [Input.offerAt, h]
      simp only [offerAt, hitems, Offer.ofBranch]
    rw [hoffer]
    simp [Offer.argument, Offer.count]
  | @itemStandIn items item h hp hitems =>
    have hoffer : i.offerAt p = .ofItem? item := by
      rw [Input.offerAt, h]
      simp only [offerAt_of_not_mem _ hp, standIn?_eq_some_iff.2 hitems, Option.elim_some,
        reduceCtorEq, if_false]
    rw [hoffer]
    exact ⟨funext fun c => (Offer.argument_ofItem? item c).symm, (Offer.count_ofItem? item).symm⟩

/-- Every input supplies something at every path. -/
theorem exists_supplies (i : Input) (p : Path) : ∃ value n, Supplies i p value n := by
  by_cases hiter : i.iterated = true
  · by_cases hempty : i.tree.paths = []
    · exact ⟨_, _, .nothing hiter hempty⟩
    by_cases hp : p ∈ i.tree.paths
    · obtain ⟨items, hitems⟩ := mem_paths_iff.1 hp
      cases haccess : i.access with
      | tree => exact ⟨_, _, .tree haccess⟩
      | list => exact ⟨_, _, .list haccess hitems⟩
      | item => exact ⟨_, _, .items haccess hitems⟩
    · obtain ⟨found, hfound⟩ := Option.ne_none_iff_exists'.1 (mt standIn?_eq_none_iff.1 hempty)
      have hstand := standIn?_eq_some_iff.1 hfound
      cases haccess : i.access with
      | tree => exact ⟨_, _, .tree haccess⟩
      | list => exact ⟨_, _, .listStandIn haccess hp hstand⟩
      | item => exact ⟨_, _, .itemStandIn haccess hp hstand⟩
  · exact ⟨_, _, .tree (access_of_not_iterated hiter)⟩

theorem supplies_iff :
    Supplies i p value n ↔
      value = (fun c => (i.offerAt p).argument c) ∧ n = (i.offerAt p).count := by
  constructor
  · exact Supplies.eq_offer
  · rintro ⟨rfl, rfl⟩
    obtain ⟨value, n, h⟩ := exists_supplies i p
    obtain ⟨rfl, rfl⟩ := h.eq_offer
    exact h

/-! ## Calls -/

theorem isGreatest_foldl_max (l : List Nat) (a : Nat) :
    IsGreatest { n | n = a ∨ n ∈ l } (l.foldl max a) := by
  induction l generalizing a with
  | nil =>
    refine ⟨.inl rfl, fun n hn => ?_⟩
    obtain rfl : n = a := by simpa using hn
    exact Nat.le_refl n
  | cons b l ih =>
    obtain ⟨hmem, hupper⟩ := ih (max a b)
    have hmax := hupper (.inl rfl)
    rw [List.foldl_cons]
    refine ⟨?_, ?_⟩
    · rcases hmem with hmem | hmem
      · rcases Nat.le_total a b with hab | hab
        · exact .inr (by rw [hmem, Nat.max_eq_right hab]; exact List.mem_cons_self)
        · exact .inl (by rw [hmem]; omega)
      · exact .inr (List.mem_cons_of_mem b hmem)
    · rintro n (rfl | hn)
      · omega
      · rcases List.mem_cons.1 hn with rfl | hn
        · omega
        · exact hupper (.inr hn)

/-- The calls of the branch that is made for a path: as many as some iterated input asks for and
none asks for more, each with the one value that each input supplies to it. -/
structure Matched (inputs : List Input) (p : Path) (calls : List (List Value)) : Prop where
  length : IsGreatest
    { n | ∃ i ∈ inputs, i.iterated = true ∧ ∃ value, Supplies i p value n } calls.length
  arguments : ∀ c call, calls[c]? = some call → List.Forall₂
    (fun i v => ∀ w, (∃ value n, Supplies i p value n ∧ value c = w) ↔ w = v) inputs call

variable {inputs : List Input}

theorem count_offerAt_of_not_iterated (h : ¬ i.iterated = true) : (i.offerAt p).count = 0 := by
  rw [Input.offerAt, access_of_not_iterated h]
  rfl

theorem isGreatest_count (h : ∃ i ∈ inputs, i.iterated = true) (p : Path) :
    IsGreatest { n | ∃ i ∈ inputs, i.iterated = true ∧ n = (i.offerAt p).count }
      (((inputs.map fun i => i.offerAt p).map Offer.count).foldl max 0) := by
  obtain ⟨hmem, hupper⟩ :=
    isGreatest_foldl_max ((inputs.map fun i => i.offerAt p).map Offer.count) 0
  generalize ((inputs.map fun i => i.offerAt p).map Offer.count).foldl max 0 = most at *
  have hle : ∀ i ∈ inputs, (i.offerAt p).count ≤ most := fun i hi =>
    hupper (.inr (List.mem_map_of_mem (List.mem_map_of_mem hi)))
  refine ⟨?_, ?_⟩
  · -- A tree input asks for no calls, so it cannot be the one that a positive number comes from.
    rcases Nat.eq_zero_or_pos most with rfl | hpos
    · obtain ⟨i, hi, hiter⟩ := h
      exact ⟨i, hi, hiter, (Nat.le_zero.1 (hle i hi)).symm⟩
    · obtain ⟨_, hoffer, hcount⟩ := List.mem_map.1 (hmem.resolve_left (by omega))
      obtain ⟨i, hi, rfl⟩ := List.mem_map.1 hoffer
      refine ⟨i, hi, ?_, hcount.symm⟩
      by_contra hiter
      rw [count_offerAt_of_not_iterated hiter] at hcount
      omega
  · rintro _ ⟨i, hi, -, rfl⟩
    exact hle i hi

theorem matched_callsOf (h : ∃ i ∈ inputs, i.iterated = true) (p : Path) :
    Matched inputs p (callsOf (inputs.map fun i => i.offerAt p)
      (((inputs.map fun i => i.offerAt p).map Offer.count).foldl max 0)) := by
  constructor
  · have hcount := isGreatest_count h p
    simpa [callsOf, supplies_iff] using hcount
  · intro c call hcall
    rw [callsOf, List.getElem?_map] at hcall
    obtain ⟨c', hc', rfl⟩ := Option.map_eq_some_iff.1 hcall
    obtain ⟨-, rfl⟩ := List.getElem?_eq_some_iff.1 hc'
    rw [List.map_map, List.forall₂_map_right_iff, List.forall₂_same]
    intro i _ w
    simp [supplies_iff, eq_comm]

/-! ## Branches -/

/-- Some iterated input has the path. -/
def Offered (inputs : List Input) (p : Path) : Prop :=
  ∃ i ∈ inputs, i.iterated = true ∧ p ∈ i.tree.paths

theorem outputPaths_of_keeps {l : List Path}
    (h : ∃ i ∈ inputs, i.iterated = true ∧ i.tree.paths = l) : outputPaths inputs l = l := by
  rw [outputPaths, if_pos (keepsPaths_iff.2 h)]

theorem outputPaths_of_not_keeps {l : List Path}
    (h : ¬ ∃ i ∈ inputs, i.iterated = true ∧ i.tree.paths = l) :
    outputPaths inputs l = (List.range l.length).map .ofIndex := by
  have hindices : l.zipIdx.map Prod.snd = List.range l.length := by
    rw [List.zipIdx_map_snd, List.range_eq_range']
  rw [outputPaths, if_neg fun hkeeps => h (keepsPaths_iff.1 hkeeps), ← hindices, List.map_map]
  rfl

/-- Longest-list matching makes one branch for each path that some iterated input has and that no
such path extends, in path order, and its calls are what the inputs supply there. -/
theorem branches_longest {inputs : List Input} (h : ∃ i ∈ inputs, i.iterated = true) :
    ∃ paths bs, branches .longest inputs = .ok bs ∧
      Ascending paths ∧
      (∀ p, p ∈ paths ↔ Offered inputs p ∧ ∀ q, Offered inputs q → ¬ p.extends? q = true) ∧
      List.Forall₂ (fun p b => Matched inputs p b.calls) paths bs ∧
      ((∃ i ∈ inputs, i.iterated = true ∧ i.tree.paths = paths) → bs.map Branch.path = paths) ∧
      ((¬ ∃ i ∈ inputs, i.iterated = true ∧ i.tree.paths = paths) →
        bs.map Branch.path = (List.range paths.length).map .ofIndex) := by
  have hany : inputs.any Input.iterated = true := List.any_eq_true.2 h
  refine ⟨leaves (unionPaths inputs), longest inputs, ?_, ?_, fun p => ?_, ?_, ?_, ?_⟩
  · rw [branches, if_pos hany]
  · exact ascending_leaves (ascending_unionPaths inputs)
  · rw [mem_leaves_unionPaths]
    simp only [mem_unionPaths, Offered]
  · have hpaths : List.Forall₂ (fun p (e : Path × Path) => p = e.1) (leaves (unionPaths inputs))
        ((leaves (unionPaths inputs)).zip (outputPaths inputs (leaves (unionPaths inputs)))) := by
      rw [← List.forall₂_map_right_iff (f := Prod.fst),
        List.map_fst_zip (Nat.le_of_eq length_outputPaths.symm), List.forall₂_eq_eq_eq]
    rw [longest, List.forall₂_map_right_iff]
    refine hpaths.imp fun p e he => ?_
    subst he
    exact matched_callsOf h e.1
  · intro hkeeps
    rw [paths_longest, outputPaths_of_keeps hkeeps]
  · intro hkeeps
    rw [paths_longest, outputPaths_of_not_keeps hkeeps]

namespace Sample

/-- Paths of mixed depth, with an empty branch among them. -/
def values : Tree :=
  .ofBranches [(⟨[0]⟩, [.integer 1]), (⟨[0, 0]⟩, [.integer 2, .integer 3]), (⟨[0, 1]⟩, [])]

def parents : Tree := .ofBranches [(⟨[0]⟩, [.integer 10, .integer 20])]

def rows : Tree := .ofBranches [(⟨[5]⟩, [.integer 7, .integer 8])]

def mixed : List Input :=
  [⟨"Values", .item, values⟩, ⟨"Parents", .item, parents⟩, ⟨"Rows", .list, rows⟩,
    ⟨"Nothing", .item, .empty⟩, ⟨"Whole", .tree, parents⟩]

end Sample

theorem branches_longest_sample :
    (∃ i ∈ Sample.mixed, i.iterated = true) ∧
      ∃ paths bs, branches .longest Sample.mixed = .ok bs ∧ ⟨[0]⟩ ∉ paths ∧
        List.Forall₂ (fun p b => Matched Sample.mixed p b.calls) paths bs ∧
        bs.map Branch.path = [.ofIndex 0, .ofIndex 1, .ofIndex 2] ∧
        bs.map Branch.calls =
          [[[.item (.integer 2), .item (.integer 10), .list [.integer 7, .integer 8], .missing,
              .tree Sample.parents],
            [.item (.integer 3), .item (.integer 10), .list [.integer 7, .integer 8], .missing,
              .tree Sample.parents]],
            [[.missing, .item (.integer 20), .list [.integer 7, .integer 8], .missing,
              .tree Sample.parents]],
            [[.missing, .item (.integer 20), .list [.integer 7, .integer 8], .missing,
              .tree Sample.parents]]] := by
  have hiter : ∃ i ∈ Sample.mixed, i.iterated = true := ⟨_, List.mem_cons_self, rfl⟩
  obtain ⟨paths, bs, hbs, -, hpaths, hmatched, -⟩ := branches_longest hiter
  refine ⟨hiter, paths, bs, hbs, fun hroot => ?_, hmatched, ?_, ?_⟩
  · exact ((hpaths _).1 hroot).2 ⟨[0, 0]⟩ ⟨_, List.mem_cons_self, rfl, by decide⟩ (by decide)
  · obtain rfl := Except.ok.inj hbs
    decide
  · obtain rfl := Except.ok.inj hbs
    rfl

end Matching
end TreeFlow
