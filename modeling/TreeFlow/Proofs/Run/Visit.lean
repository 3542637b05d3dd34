import TreeFlow.Proofs.Run.Schedule
import TreeFlow.Proofs.Run.Settled
/-
Visits of the components of a graph, one after the other.

`visit` takes the components in an order and writes what each settles to.  It goes through along
every linearization (`visit_ok`), and it keeps a settled store that holds the results of exactly
the components done so far (`Visited`).  Two such stores that hold all components are equal
(`Visited.unique`), so the order makes no difference.
-/

namespace TreeFlow
namespace Graph

variable {g : Graph} {b : Bindings} {s t : Store}

/-- Visits a component: what it settles to is written. -/
def visitOne (g : Graph) (b : Bindings) (s : Store) (i : Nat) : Except Failure Store := do
  s.put i (← g.settle b s i)

/-- Visits components one at a time. -/
def visit (g : Graph) (b : Bindings) (order : List Nat) : Except Failure Store :=
  order.foldlM (g.visitOne b) (Store.ofSize g.size)

/-- A settled store with the results of exactly the components in a list. -/
structure Visited (g : Graph) (b : Bindings) (done : List Nat) (s : Store) : Prop
    extends g.Settled b s where
  recorded : ∀ i, (s.get? i).isSome ↔ i ∈ done

/-! ## One at a time -/

theorem Visited.start (g : Graph) (b : Bindings) : g.Visited b [] (Store.ofSize g.size) where
  toSettled := Settled.start g b
  recorded := by simp

theorem Visited.get?_eq_none {done : List Nat} (hs : g.Visited b done s) {i : Nat}
    (hi : i ∉ done) : s.get? i = none := by
  rwa [← hs.recorded, Option.not_isSome_iff_eq_none] at hi

theorem Visited.fed_of_available {done placed : List Nat} (hs : g.Visited b done s)
    (hsub : placed ⊆ done) {i : Nat} (hi : g.Available placed i) :
    ∀ p, g.Feeds p i → (s.get? p).isSome :=
  fun p hp => (hs.recorded p).2 (hsub (hi.2.2 p hp))

theorem Visited.write {done : List Nat} (hs : g.Visited b done s) (hg : g.WellFormed) {i : Nat}
    (hlt : i < g.size) (hfresh : i ∉ done) (hfed : ∀ p, g.Feeds p i → (s.get? p).isSome)
    {o : Outcome} (ho : g.settle b s i = .ok o) :
    s.put i o = .ok (s.write i o) ∧ g.Visited b (done ++ [i]) (s.write i o) := by
  have hslot : i < s.slots.length := hs.size ▸ hlt
  have hempty := hs.get?_eq_none hfresh
  refine ⟨Store.put_eq_ok hslot hempty, hs.toSettled.write hg hlt hempty hfed ho, fun j => ?_⟩
  rw [Store.get?_write hslot, List.mem_append, List.mem_singleton]
  by_cases hj : j = i
  · simp [hj]
  · simp [hj, hs.recorded]

theorem visitOne_ok (hg : g.WellFormed) {done : List Nat} (hs : g.Visited b done s) {i : Nat}
    (hi : g.Available done i) :
    ∃ s', g.visitOne b s i = .ok s' ∧ g.Visited b (done ++ [i]) s' := by
  have hfed := hs.fed_of_available (List.Subset.refl _) hi
  obtain ⟨o, ho⟩ := hs.settle_ok hg hi.1 hfed
  obtain ⟨hput, hvisited⟩ := hs.write hg hi.1 hi.2.1 hfed ho
  exact ⟨_, Except.bind_eq_ok_iff.2 ⟨o, ho, hput⟩, hvisited⟩

theorem Linearization.available {order before after : List Nat} {c : Nat}
    (h : g.Linearization order) (hsplit : order = before ++ c :: after) :
    g.Available before c := by
  have hnodup : order.Nodup := h.perm.nodup_iff.2 List.nodup_range
  have hmem : c ∈ order := by simp [hsplit]
  refine ⟨mem_indices.1 (h.perm.mem_iff.1 hmem), ?_, h.behind before c after hsplit⟩
  exact fun hc => List.disjoint_of_nodup_append (hsplit ▸ hnodup) hc List.mem_cons_self

/-- A visit along a linearization goes through. -/
theorem visit_ok (hg : g.WellFormed) {order : List Nat} (horder : g.Linearization order) :
    ∃ s, g.visit b order = .ok s ∧ g.Visited b order s :=
  Except.foldlM_ok (g.Visited b) (Visited.start g b) fun _ _ _ _ hsplit hs =>
    visitOne_ok hg hs (horder.available hsplit)

/-- What a component settles to does not depend on the store, once its producers are there. -/
theorem Settled.settle_eq (hs : g.Settled b s) (ht : g.Settled b t) (hg : g.WellFormed)
    (ha : g.Acyclic) {i : Nat} (hsfed : ∀ p, g.Feeds p i → (s.get? p).isSome)
    (htfed : ∀ p, g.Feeds p i → (t.get? p).isSome) : g.settle b s i = g.settle b t i := by
  refine settle_congr hg fun p hp => ?_
  obtain ⟨o, ho⟩ := Option.isSome_iff_exists.1 (hsfed p hp)
  obtain ⟨o', ho'⟩ := Option.isSome_iff_exists.1 (htfed p hp)
  rw [ho, ho', hs.unique ht hg ha p ho ho']

/-- After a whole linearization every component has a result. -/
theorem Visited.full {order : List Nat} (hs : g.Visited b order s) (h : g.Linearization order)
    (i : Nat) (hi : i < g.size) : (s.get? i).isSome :=
  (hs.recorded i).2 (h.perm.mem_iff.2 (mem_indices.2 hi))

theorem Visited.unique {order order' : List Nat} (hs : g.Visited b order s)
    (ht : g.Visited b order' t) (hg : g.WellFormed) (ha : g.Acyclic)
    (h : g.Linearization order) (h' : g.Linearization order') : s = t :=
  hs.eq_of_full ht.toSettled hg ha (hs.full h) (ht.full h')

end Graph
end TreeFlow
