import Mathlib.Data.List.Perm.Basic
import TreeFlow.Proofs.Matching.Shortest
/-
Matching over inputs in another order.

Which branches longest list and shortest list make depends on all inputs alike: the union of the
paths and their intersection, the choice between kept and numbered paths, and the greatest and the
least of the numbers of calls.  What an input offers depends on that input alone.  So with the
inputs in another order the branches are the same, and each call has its arguments in that order
(`branches_rearrange`).

Cross reference is no such case, since its first input varies slowest.
-/

namespace TreeFlow
namespace Matching

/-! ## Lists in another order -/

section

variable {α β : Type}

/-- The elements at the given places, in the order of the places. -/
def rearrange (order : List Nat) (l : List α) : List α := order.filterMap fun n => l[n]?

theorem rearrange_map (order : List Nat) (f : α → β) (l : List α) :
    rearrange order (l.map f) = (rearrange order l).map f := by
  rw [rearrange, rearrange, List.map_filterMap]
  exact List.filterMap_congr fun n _ => List.getElem?_map

theorem filterMap_getElem? (l : List α) : (List.range l.length).filterMap (fun n => l[n]?) = l := by
  induction l with
  | nil => rfl
  | cons a l ih =>
    rw [List.length_cons, List.range_succ_eq_map, List.filterMap_cons, List.filterMap_map]
    exact congrArg (a :: ·) ih

/-- With each place named once, nothing is lost and nothing taken twice. -/
theorem rearrange_perm {order : List Nat} {l : List α} (h : order.Perm (List.range l.length)) :
    (rearrange order l).Perm l := by
  have hperm := h.filterMap fun n => l[n]?
  rwa [filterMap_getElem?] at hperm

end

theorem min?_eq_of_perm {l l' : List Nat} (h : l.Perm l') : l.min? = l'.min? := by
  refine Option.ext fun n => ?_
  rw [List.min?_eq_some_iff, List.min?_eq_some_iff, h.mem_iff]
  exact and_congr_right fun _ => forall_congr' fun m => imp_congr_left h.mem_iff

/-! ## What depends on all inputs -/

section

variable {xs ys : List Input}

theorem unionPaths_perm (h : xs.Perm ys) : unionPaths xs = unionPaths ys := by
  refine SortedMap.eq_of_ascending (ascending_unionPaths xs) (ascending_unionPaths ys) fun p => ?_
  rw [mem_unionPaths, mem_unionPaths]
  exact exists_congr fun i => and_congr_left fun _ => h.mem_iff

theorem commonPaths_perm (h : xs.Perm ys) (hiter : ∃ i ∈ xs, i.iterated = true) :
    commonPaths xs = commonPaths ys := by
  have hiter' : ∃ i ∈ ys, i.iterated = true :=
    hiter.imp fun i hi => ⟨h.mem_iff.1 hi.1, hi.2⟩
  refine SortedMap.eq_of_ascending (ascending_commonPaths xs) (ascending_commonPaths ys) fun p => ?_
  rw [mem_commonPaths_iff hiter, mem_commonPaths_iff hiter']
  exact forall_congr' fun i => imp_congr_left h.mem_iff

theorem outputPaths_perm (h : xs.Perm ys) (l : List Path) :
    outputPaths xs l = outputPaths ys l := by
  have hkeeps : keepsPaths xs l = keepsPaths ys l := h.any_eq
  rw [outputPaths, outputPaths, hkeeps]

theorem leastCount_perm (h : xs.Perm ys) (p : Path) : leastCount xs p = leastCount ys p := by
  have hcounts := (h.filter Input.iterated).map fun i => (i.offerOf p).count
  rw [leastCount, leastCount, min?_eq_of_perm hcounts]

theorem greatestCount_perm (h : xs.Perm ys) (p : Path) :
    ((xs.map fun i => i.offerAt p).map Offer.count).foldl max 0
      = ((ys.map fun i => i.offerAt p).map Offer.count).foldl max 0 :=
  ((h.map _).map _).foldl_eq 0

end

/-! ## Branches -/

variable {inputs : List Input} {order : List Nat} {mode : Mode}

/-- A branch with the arguments of its calls in another order. -/
def Branch.rearrange (order : List Nat) (b : Branch) : Branch :=
  ⟨b.path, b.calls.map (Matching.rearrange order)⟩

theorem callsOf_rearrange (order : List Nat) (inputs : List Input) (offer : Input → Offer)
    (count : Nat) :
    callsOf ((rearrange order inputs).map offer) count
      = (callsOf (inputs.map offer) count).map (rearrange order) := by
  rw [callsOf, callsOf, List.map_map]
  refine List.map_congr_left fun c _ => ?_
  rw [Function.comp_apply, rearrange_map, rearrange_map]

theorem wholeTrees_rearrange (order : List Nat) (inputs : List Input) :
    wholeTrees (rearrange order inputs) = (wholeTrees inputs).rearrange order := by
  rw [wholeTrees, wholeTrees, Branch.rearrange, List.map_singleton, rearrange_map]

section

variable (h : order.Perm (List.range inputs.length))

include h

theorem longest_rearrange :
    longest (rearrange order inputs) = (longest inputs).map (Branch.rearrange order) := by
  have hperm := rearrange_perm h
  rw [longest_eq, longest_eq, unionPaths_perm hperm, outputPaths_perm hperm, List.map_map]
  refine List.map_congr_left fun e _ => ?_
  rw [callsAt, greatestCount_perm hperm, callsOf_rearrange]
  rfl

theorem shortest_rearrange (hiter : ∃ i ∈ inputs, i.iterated = true) :
    shortest (rearrange order inputs) = (shortest inputs).map (Branch.rearrange order) := by
  have hperm := rearrange_perm h
  rw [shortest_eq, shortest_eq, commonPaths_perm hperm.symm hiter, outputPaths_perm hperm,
    List.map_map]
  refine List.map_congr_left fun e _ => ?_
  rw [leastCount_perm hperm, callsOf_rearrange]
  rfl

end

/-- With the inputs in another order, longest list and shortest list make the same branches, and
each of their calls has its arguments, one for each input, in this order. -/
theorem branches_rearrange (hmode : mode ≠ .cross) (h : order.Perm (List.range inputs.length)) :
    ∃ bs, branches mode inputs = .ok bs ∧
      branches mode (rearrange order inputs) = .ok (bs.map (Branch.rearrange order)) ∧
      ∀ b ∈ bs, ∀ call ∈ b.calls, call.length = inputs.length := by
  have hany : (rearrange order inputs).any Input.iterated = inputs.any Input.iterated :=
    (rearrange_perm h).any_eq
  have hlength : ∀ bs, branches mode inputs = .ok bs →
      ∀ b ∈ bs, ∀ call ∈ b.calls, call.length = inputs.length := fun bs hbs b hb call hcall =>
    (fits_of_branches hbs hb hcall).length_eq.symm
  suffices hsame : ∃ bs, branches mode inputs = .ok bs ∧
      branches mode (rearrange order inputs) = .ok (bs.map (Branch.rearrange order)) by
    obtain ⟨bs, hbs, hbs'⟩ := hsame
    exact ⟨bs, hbs, hbs', hlength bs hbs⟩
  unfold branches
  rw [hany]
  by_cases hiter : inputs.any Input.iterated = true
  · rw [if_pos hiter, if_pos hiter]
    cases mode with
    | longest => exact ⟨_, rfl, congrArg Except.ok (longest_rearrange h)⟩
    | shortest =>
      exact ⟨_, rfl, congrArg Except.ok (shortest_rearrange h (List.any_eq_true.1 hiter))⟩
    | cross => exact absurd rfl hmode
  · rw [if_neg hiter, if_neg hiter, wholeTrees_rearrange]
    exact ⟨_, rfl, rfl⟩

namespace Sample

/-- The last input first. -/
def lastFirst : List Nat := [3, 0, 1, 2]

end Sample

theorem branches_rearrange_sample :
    Mode.shortest ≠ .cross ∧ Sample.lastFirst.Perm (List.range Sample.paired.length) ∧
      ∃ bs : List Branch, branches .shortest (rearrange Sample.lastFirst Sample.paired)
          = .ok (bs.map (Branch.rearrange Sample.lastFirst)) ∧
        bs.map (fun b => (b.rearrange Sample.lastFirst).calls) =
          [[[.item (.integer 4), .item (.integer 2), .tree Sample.parents,
              .list [.integer 7, .integer 8]]],
            []] := by
  have hmode : Mode.shortest ≠ .cross := by decide
  have horder : Sample.lastFirst.Perm (List.range Sample.paired.length) := by decide
  obtain ⟨bs, hbs, hrearranged, -⟩ := branches_rearrange hmode horder
  refine ⟨hmode, horder, bs, hrearranged, ?_⟩
  obtain rfl := Except.ok.inj hbs
  rfl

end Matching
end TreeFlow
