import Mathlib.Data.List.Perm.Basic
import TreeFlow.Run.Pool
/-
Every task of a pool finishes, once, in an order that is free.

With a permit to give, a pool is never stuck, so after two steps for each task all have finished
(`finishingOrder_perm`).  The other way round, every order of the tasks is the finishing order of
some choices, even if only one task may run at a time (`exists_finishingOrder_eq`).
-/

namespace TreeFlow
namespace Pool

variable {α : Type}

/-- All tasks of a pool, wherever they are. -/
def tasks (p : Pool α) : List α := p.waiting ++ p.running ++ p.finished

/-- The number of steps that are left. -/
def effort (p : Pool α) : Nat := 2 * p.waiting.length + p.running.length

theorem start_spec (p : Pool α) {k : Nat} (hk : k < p.waiting.length) :
    (p.start k).tasks.Perm p.tasks ∧ (p.start k).effort = p.effort - 1 := by
  have hmoved := List.getElem_cons_eraseIdx_perm hk
  constructor
  · simp only [tasks, start, List.getElem?_eq_getElem hk, Option.toList_some]
    refine List.Perm.append_right _ ?_
    rw [← List.append_assoc]
    refine (List.perm_append_singleton _ _).trans ?_
    exact hmoved.append_right p.running
  · have hlength := List.length_eraseIdx_of_lt hk
    simp only [effort, start, List.getElem?_eq_getElem hk, Option.toList_some,
      List.length_append, List.length_singleton, hlength]
    omega

theorem finish_spec (p : Pool α) {k : Nat} (hk : k < p.running.length) :
    (p.finish k).tasks.Perm p.tasks ∧ (p.finish k).effort = p.effort - 1 := by
  have hmoved := List.getElem_cons_eraseIdx_perm hk
  constructor
  · simp only [tasks, finish, List.getElem?_eq_getElem hk, Option.toList_some,
      List.append_assoc]
    refine List.Perm.append_left _ ?_
    rw [← List.append_assoc]
    refine (List.perm_append_singleton _ _).trans ?_
    exact hmoved.append_right p.finished
  · have hlength := List.length_eraseIdx_of_lt hk
    simp only [effort, finish, hlength]
    omega

/-- A step loses no task and, unless there is nothing left to do, takes the pool one step on. -/
theorem step_spec {permits : Nat} (hp : 0 < permits) (choice : Nat) (p : Pool α) :
    (p.step permits choice).tasks.Perm p.tasks ∧
      (p.step permits choice).effort = p.effort - 1 := by
  have hstartable : p.startable permits ≤ p.waiting.length := by
    unfold startable
    split <;> omega
  simp only [step]
  split
  · rename_i hnone
    have hrunning : p.running.length = 0 := by omega
    have hwaiting : p.waiting.length = 0 := by
      have : p.startable permits = p.waiting.length := if_pos (by omega)
      omega
    exact ⟨.refl _, by rw [effort, hrunning, hwaiting]⟩
  · rename_i hsome
    have hlt := Nat.mod_lt choice (Nat.pos_of_ne_zero hsome)
    split
    · exact p.start_spec (by omega)
    · exact p.finish_spec (by omega)

theorem advance_spec {permits : Nat} (hp : 0 < permits) (choices : Nat → Nat) (steps : Nat)
    (p : Pool α) :
    (advance permits choices steps p).tasks.Perm p.tasks ∧
      (advance permits choices steps p).effort = p.effort - steps := by
  induction steps generalizing p with
  | zero => exact ⟨.refl _, rfl⟩
  | succ steps ih =>
    obtain ⟨htasks, heffort⟩ := step_spec hp (choices steps) p
    obtain ⟨htasks', heffort'⟩ := ih (p.step permits (choices steps))
    refine ⟨htasks'.trans htasks, ?_⟩
    rw [advance, heffort', heffort]
    omega

theorem finishingOrder_perm {permits : Nat} (hp : 0 < permits) (choices : Nat → Nat)
    (l : List α) : (finishingOrder permits choices l).Perm l := by
  obtain ⟨htasks, heffort⟩ := advance_spec hp choices (2 * l.length) (ofTasks l)
  have hzero : (ofTasks l).effort - 2 * l.length = 0 := by simp [effort, ofTasks]
  rw [hzero] at heffort
  unfold finishingOrder
  generalize advance permits choices (2 * l.length) (ofTasks l) = p at htasks heffort
  rw [effort] at heffort
  have hwaiting : p.waiting = [] := List.length_eq_zero_iff.1 (by omega)
  have hrunning : p.running = [] := List.length_eq_zero_iff.1 (by omega)
  simpa [tasks, hwaiting, hrunning, ofTasks] using htasks

/-! ## Every order -/

theorem advance_congr {permits : Nat} {c : Nat → Nat} (c' : Nat → Nat) {steps : Nat}
    (h : ∀ k < steps, c k = c' k) (p : Pool α) :
    advance permits c steps p = advance permits c' steps p := by
  induction steps generalizing p with
  | zero => rfl
  | succ steps ih =>
    rw [advance, advance, h steps (Nat.lt_succ_self _)]
    exact ih (fun k hk => h k (Nat.lt_succ_of_lt hk)) _

/-- A waiting task can be the next to finish. -/
theorem exists_next {permits : Nat} (hp : 0 < permits) {waiting : List α} (finished : List α)
    {k : Nat} (hk : k < waiting.length) :
    ∃ c₁ c₂, ((⟨waiting, [], finished⟩ : Pool α).step permits c₁).step permits c₂
      = ⟨waiting.eraseIdx k, [], finished ++ [waiting[k]]⟩ := by
  refine ⟨k, (if 1 < permits then (waiting.eraseIdx k).length else 0), ?_⟩
  have hfirst : (⟨waiting, [], finished⟩ : Pool α).step permits k
      = ⟨waiting.eraseIdx k, [waiting[k]], finished⟩ := by
    have hne : waiting.length ≠ 0 := by omega
    simp [step, startable, hp, hne, Nat.mod_eq_of_lt hk, hk, start]
  rw [hfirst]
  simp only [step, startable, List.length_singleton]
  rw [if_neg (by omega), Nat.mod_eq_of_lt (by omega), if_neg (by omega), Nat.sub_self]
  rfl

theorem exists_advance_eq {permits : Nat} (hp : 0 < permits) {order waiting : List α}
    (h : order.Perm waiting) (finished : List α) :
    ∃ choices, (advance permits choices (2 * waiting.length) ⟨waiting, [], finished⟩).finished
      = finished ++ order := by
  induction order generalizing waiting finished with
  | nil =>
    obtain rfl := h.symm.eq_nil
    exact ⟨fun _ => 0, by simp [advance]⟩
  | cons a order ih =>
    obtain ⟨k, hk, rfl⟩ := List.mem_iff_getElem.1 (h.mem_iff.1 List.mem_cons_self)
    have hrest : order.Perm (waiting.eraseIdx k) :=
      (h.trans (List.getElem_cons_eraseIdx_perm hk).symm).cons_inv
    obtain ⟨c₁, c₂, hnext⟩ := exists_next hp finished hk
    obtain ⟨choices, hchoices⟩ := ih hrest (finished ++ [waiting[k]])
    have hlength := List.length_eraseIdx_of_lt hk
    obtain ⟨n, hn⟩ : ∃ n, 2 * waiting.length = n + 1 + 1 := ⟨2 * waiting.length - 2, by omega⟩
    have hn' : 2 * (waiting.eraseIdx k).length = n := by omega
    refine ⟨fun s => if s = n + 1 then c₁ else if s = n then c₂ else choices s, ?_⟩
    rw [hn, advance, advance, if_pos rfl, if_neg (by omega), if_pos rfl, hnext,
      advance_congr choices fun s hs => by rw [if_neg (by omega), if_neg (by omega)],
      ← hn', hchoices]
    simp

/-- Every order of the tasks is one in which they can finish. -/
theorem exists_finishingOrder_eq {permits : Nat} (hp : 0 < permits) {order l : List α}
    (h : order.Perm l) : ∃ choices, finishingOrder permits choices l = order := by
  obtain ⟨choices, hchoices⟩ := exists_advance_eq hp h []
  exact ⟨choices, by simpa [finishingOrder, ofTasks] using hchoices⟩

end Pool
end TreeFlow
