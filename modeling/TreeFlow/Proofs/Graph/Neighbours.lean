import Mathlib.Data.List.Sort
import TreeFlow.Graph.Load
/-
The lists of neighbours that loading makes.

Loading pushes a place to a list for each end of each wire, and at last sorts the lists and leaves
out repetitions.  So the lists tell, in ascending order and once each, exactly the components that
are wired to a component (`mem_predecessors_ofNodes`, `mem_successors_ofNodes`,
`pairwise_ofNodes`).
-/

namespace TreeFlow
namespace Graph

variable {index : SortedMap String Nat} {nodes : List Node} {lists : List (List Nat)}
  {i place p c : Nat}

/-! ## Sorting places -/

theorem perm_insertAscending (i : Nat) (l : List Nat) : (insertAscending i l).Perm (i :: l) := by
  induction l with
  | nil => exact .refl _
  | cons j l ih =>
    rw [insertAscending]
    split
    · exact .refl _
    · exact (ih.cons j).trans (.swap i j l)

theorem perm_foldr_insertAscending (l rest : List Nat) :
    (l.foldr insertAscending rest).Perm (rest ++ l) := by
  induction l with
  | nil => simp
  | cons i l ih =>
    rw [List.foldr_cons]
    exact ((perm_insertAscending i _).trans (ih.cons i)).trans List.perm_middle.symm

theorem perm_ascending (l : List Nat) : (ascending l).Perm l :=
  perm_foldr_insertAscending l []

theorem insertAscending_eq (i : Nat) (l : List Nat) :
    insertAscending i l = l.orderedInsert (· ≤ ·) i := by
  induction l with
  | nil => rfl
  | cons j l ih => rw [insertAscending, List.orderedInsert_cons, ih]

theorem pairwise_foldr_insertAscending (l : List Nat) {rest : List Nat}
    (h : rest.Pairwise (· ≤ ·)) : (l.foldr insertAscending rest).Pairwise (· ≤ ·) := by
  induction l with
  | nil => exact h
  | cons i l ih =>
    rw [List.foldr_cons, insertAscending_eq]
    exact ih.orderedInsert i _

theorem pairwise_ascending (l : List Nat) : (ascending l).Pairwise (· ≤ ·) :=
  pairwise_foldr_insertAscending l .nil

/-! ## Places once each -/

/-- The walk over a list notes each place when it comes to another one. -/
theorem mem_eraseReps_loop {a : Nat} {l acc : List Nat} :
    place ∈ List.eraseRepsBy.loop (· == ·) a l acc ↔ place ∈ acc ∨ place = a ∨ place ∈ l := by
  induction l generalizing a acc with
  | nil => simp [List.eraseRepsBy.loop, or_comm]
  | cons b l ih =>
    rw [List.eraseRepsBy.loop]
    split
    next hab =>
      obtain rfl : a = b := eq_of_beq hab
      rw [ih, List.mem_cons, or_self_left]
    next => rw [ih, List.mem_cons, List.mem_cons, or_assoc, or_left_comm]

/-- What is noted is below the place at hand, and that one is not above what is still to come. -/
theorem pairwise_eraseReps_loop {a : Nat} {l acc : List Nat}
    (hacc : (a :: acc).Pairwise (· > ·)) (hl : (a :: l).Pairwise (· ≤ ·)) :
    (List.eraseRepsBy.loop (· == ·) a l acc).Pairwise (· < ·) := by
  induction l generalizing a acc with
  | nil =>
    rw [List.eraseRepsBy.loop]
    exact List.pairwise_reverse.2 hacc
  | cons b l ih =>
    obtain ⟨ha, hbl⟩ := List.pairwise_cons.1 hl
    have hab : a ≤ b := ha b List.mem_cons_self
    rw [List.eraseRepsBy.loop]
    split
    next heq =>
      obtain rfl : a = b := eq_of_beq heq
      exact ih hacc hbl
    next hne =>
      have hlt : a < b := Nat.lt_of_le_of_ne hab (by simpa using hne)
      refine ih (List.pairwise_cons.2 ⟨fun d hd => ?_, hacc⟩) hbl
      rcases List.mem_cons.1 hd with rfl | hd
      · exact hlt
      · exact Nat.lt_trans (List.rel_of_pairwise_cons hacc hd) hlt

theorem mem_distinct {places : List Nat} : place ∈ distinct places ↔ place ∈ places := by
  rw [distinct, ← (perm_ascending places).mem_iff]
  cases ascending places with
  | nil => rfl
  | cons a l =>
    rw [List.eraseReps, List.eraseRepsBy, mem_eraseReps_loop, List.mem_cons]
    simp

theorem pairwise_distinct (places : List Nat) : (distinct places).Pairwise (· < ·) := by
  have hascending := pairwise_ascending places
  rw [distinct]
  cases h : ascending places with
  | nil => exact .nil
  | cons a l =>
    rw [h] at hascending
    exact pairwise_eraseReps_loop (List.pairwise_singleton _ a) hascending

/-! ## Wire by wire -/

/-- The list of a component. -/
def listAt (lists : List (List Nat)) (i : Nat) : List Nat := (lists[i]?).getD []

theorem length_push (lists : List (List Nat)) (i place : Nat) :
    (push lists i place).length = lists.length := List.length_modify ..

theorem mem_push {j q : Nat} :
    q ∈ listAt (push lists i place) j ↔
      q ∈ listAt lists j ∨ (i < lists.length ∧ j = i ∧ q = place) := by
  rw [listAt, listAt, push, List.getElem?_modify]
  by_cases hij : i = j
  · subst hij
    cases h : lists[i]? with
    | none => simp [List.getElem?_eq_none_iff.1 h]
    | some l => simp [(List.getElem?_eq_some_iff.1 h).1]
  · simp [hij, Ne.symm hij]

theorem length_foldl_push (lists : List (List Nat)) (entries : List (Nat × Nat)) :
    (entries.foldl (fun lists e => push lists e.1 e.2) lists).length = lists.length := by
  induction entries generalizing lists with
  | nil => rfl
  | cons e entries ih => rw [List.foldl_cons, ih, length_push]

theorem mem_foldl_push {entries : List (Nat × Nat)} :
    place ∈ listAt (entries.foldl (fun lists e => push lists e.1 e.2) lists) i ↔
      place ∈ listAt lists i ∨ (i < lists.length ∧ (i, place) ∈ entries) := by
  induction entries generalizing lists with
  | nil => simp
  | cons e entries ih =>
    rw [List.foldl_cons, ih, mem_push, length_push, List.mem_cons, Prod.ext_iff]
    constructor
    · intro h
      rcases h with (hold | ⟨hlt, rfl, rfl⟩) | ⟨hlt, hmem⟩
      · exact .inl hold
      · exact .inr ⟨hlt, .inl ⟨rfl, rfl⟩⟩
      · exact .inr ⟨hlt, .inr hmem⟩
    · intro h
      rcases h with hold | ⟨hlt, ⟨rfl, rfl⟩ | hmem⟩
      · exact .inl (.inl hold)
      · exact .inl (.inr ⟨hlt, rfl, rfl⟩)
      · exact .inr ⟨hlt, hmem⟩

/-- Empty lists, after places are pushed to them one after the other. -/
def pushed (count : Nat) (entries : List (Nat × Nat)) : List (List Nat) :=
  entries.foldl (fun lists e => push lists e.1 e.2) (List.replicate count [])

theorem length_pushed (count : Nat) (entries : List (Nat × Nat)) :
    (pushed count entries).length = count := by
  rw [pushed, length_foldl_push, List.length_replicate]

theorem mem_pushed {count : Nat} {entries : List (Nat × Nat)} :
    place ∈ listAt (pushed count entries) i ↔ i < count ∧ (i, place) ∈ entries := by
  rw [pushed, mem_foldl_push, List.length_replicate, listAt, List.getElem?_replicate]
  by_cases hi : i < count <;> simp [hi]

/-- The ends of all wires, the consumer first. -/
def wireEnds (nodes : List Node) : List (Nat × Nat) :=
  nodes.zipIdx.flatMap fun (n, consumer) => n.producers.map fun producer => (consumer, producer)

theorem mem_wireEnds : (c, p) ∈ wireEnds nodes ↔ ∃ n, nodes[c]? = some n ∧ p ∈ n.producers := by
  simp only [wireEnds, List.mem_flatMap, List.mem_map, Prod.exists, Prod.mk.injEq,
    List.mem_zipIdx_iff_getElem?]
  constructor
  · intro h
    obtain ⟨n, consumer, hn, producer, hp, rfl, rfl⟩ := h
    exact ⟨n, hn, hp⟩
  · intro h
    obtain ⟨n, hn, hp⟩ := h
    exact ⟨n, c, hn, p, hp, rfl, rfl⟩

/-- The two sets of lists do not depend on each other. -/
theorem foldl_link (entries : List (Nat × Nat)) (lists : List (List Nat) × List (List Nat)) :
    entries.foldl (fun lists e => link e.1 lists e.2) lists
      = (entries.foldl (fun lists e => push lists e.1 e.2) lists.1,
        (entries.map Prod.swap).foldl (fun lists e => push lists e.1 e.2) lists.2) := by
  induction entries generalizing lists with
  | nil => rfl
  | cons e entries ih =>
    rw [List.foldl_cons, ih]
    rfl

theorem links_eq (nodes : List Node) :
    links nodes = (pushed nodes.length (wireEnds nodes),
      pushed nodes.length ((wireEnds nodes).map Prod.swap)) := by
  have hwires : links nodes = (wireEnds nodes).foldl (fun lists e => link e.1 lists e.2)
      (List.replicate nodes.length [], List.replicate nodes.length []) := by
    rw [wireEnds, List.foldl_flatMap, links]
    simp only [List.foldl_map]
  rw [hwires, foldl_link]
  rfl

/-! ## What loading notes -/

@[simp] theorem nodes_ofNodes (index : SortedMap String Nat) (nodes : List Node) :
    (ofNodes index nodes).nodes = nodes := rfl

theorem listAt_map_distinct (lists : List (List Nat)) (i : Nat) :
    listAt (lists.map distinct) i = distinct (listAt lists i) := by
  rw [listAt, listAt, List.getElem?_map]
  cases lists[i]? <;> rfl

theorem predecessors_ofNodes (index : SortedMap String Nat) (nodes : List Node) (i : Nat) :
    (ofNodes index nodes).predecessors i = distinct (listAt (links nodes).1 i) :=
  listAt_map_distinct _ i

theorem successors_ofNodes (index : SortedMap String Nat) (nodes : List Node) (i : Nat) :
    (ofNodes index nodes).successors i = distinct (listAt (links nodes).2 i) :=
  listAt_map_distinct _ i

theorem mem_predecessors_ofNodes :
    p ∈ (ofNodes index nodes).predecessors c ↔ ∃ n, nodes[c]? = some n ∧ p ∈ n.producers := by
  rw [predecessors_ofNodes, mem_distinct, links_eq, mem_pushed, mem_wireEnds,
    and_iff_right_iff_imp]
  intro h
  obtain ⟨n, hn, -⟩ := h
  exact (List.getElem?_eq_some_iff.1 hn).1

/-- A wire from nowhere would not be noted at its start. -/
theorem mem_successors_ofNodes :
    c ∈ (ofNodes index nodes).successors p ↔
      p < nodes.length ∧ ∃ n, nodes[c]? = some n ∧ p ∈ n.producers := by
  rw [successors_ofNodes, mem_distinct, links_eq, mem_pushed, ← mem_wireEnds,
    List.mem_map_of_involutive Prod.swap_swap]
  rfl

theorem pairwise_ofNodes (index : SortedMap String Nat) (nodes : List Node) (i : Nat) :
    ((ofNodes index nodes).predecessors i).Pairwise (· < ·) ∧
      ((ofNodes index nodes).successors i).Pairwise (· < ·) := by
  rw [predecessors_ofNodes, successors_ofNodes]
  exact ⟨pairwise_distinct _, pairwise_distinct _⟩

/-- Every component has its lists. -/
theorem length_ofNodes (index : SortedMap String Nat) (nodes : List Node) :
    (ofNodes index nodes).predecessorLists.length = nodes.length ∧
      (ofNodes index nodes).successorLists.length = nodes.length := by
  have hlists : (ofNodes index nodes).predecessorLists = (links nodes).1.map distinct ∧
      (ofNodes index nodes).successorLists = (links nodes).2.map distinct := ⟨rfl, rfl⟩
  rw [hlists.1, hlists.2, List.length_map, List.length_map, links_eq]
  exact ⟨length_pushed _ _, length_pushed _ _⟩

end Graph
end TreeFlow
