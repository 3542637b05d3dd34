import TreeFlow.Proofs.Expression.Machine
/-
What holds in every state of the machine.

The waiting calls account for the counter: from one to the next it is as the frame says, and where
no level lies between two calls the inner one reads a smaller part of the grammar.  So at most five
calls wait for each level that is taken (`Stack.length_le`), no level is given back that has not
been taken (`Consistent.halted`), and the first call ends at the depth at which it was made.

Every step goes on in the text, or further down the grammar, or ends a call (`Move.cost_lt`).
-/

namespace TreeFlow
namespace Expression

theorem Rule.order_le (rule : Rule) : rule.order ≤ 5 := by cases rule <;> decide

namespace Machine

variable {cs : List Char} {m m' : Machine} {first rule : Rule} {position start depth : Nat}
  {frames : List Frame}

/-! ## Waiting calls -/

/-- The calls that wait for a call of the rule at the depth, down to the first call. -/
inductive Stack (first : Rule) (start : Nat) : Rule → Nat → List Frame → Prop
  | nil : Stack first start first start []
  | cons {frame : Frame} {outer inner : Nat} {frames : List Frame}
      (hcounts : frame.Counts outer inner) (rest : Stack first start frame.rule outer frames) :
      Stack first start frame.awaits inner (frame :: frames)

theorem Stack.of_cons {frame : Frame} (h : Stack first start rule depth (frame :: frames)) :
    ∃ outer, frame.Counts outer depth ∧ Stack first start frame.rule outer frames := by
  cases h with
  | cons hcounts rest => exact ⟨_, hcounts, rest⟩

theorem Stack.length_le (h : Stack first start rule depth frames) :
    frames.length + first.order + 5 * start ≤ rule.order + 5 * depth := by
  induction h with
  | nil => rw [List.length_nil, Nat.zero_add]
  | cons hcounts rest ih =>
    have horder := hcounts.order_le
    rw [List.length_cons]
    omega

theorem Stack.length_le_of_le (h : Stack first start rule depth frames)
    (hdepth : depth ≤ maxLevels) : frames.length ≤ 5 * (maxLevels - start) + 5 := by
  have hlength := h.length_le
  have horder := rule.order_le
  omega

/-! ## Every state of a run -/

/-- What is known of a state, if the first call was made at the position and the depth. -/
inductive Consistent (cs : List Char) (first : Rule) (position start : Nat) : Machine → Prop
  | call {p d : Nat} {frames : List Frame} {rule : Rule} (hlow : position ≤ p)
      (hp : p ≤ cs.length) (hd : d ≤ maxLevels) (stack : Stack first start rule d frames) :
      Consistent cs first position start ⟨p, d, frames, .call rule⟩
  | value {p d : Nat} {frames : List Frame} {rule : Rule} {f : Formula} (hlow : position < p)
      (hp : p ≤ cs.length) (hd : d ≤ maxLevels) (stack : Stack first start rule d frames) :
      Consistent cs first position start ⟨p, d, frames, .value f⟩
  /-- Only a call that was refused a level leaves the counter above the limit. -/
  | fault {p d d' : Nat} {frames : List Frame} {rule : Rule} {fault : Fault}
      (hp : p ≤ cs.length) (hd : d ≤ maxLevels + 1) (hd' : d' ≤ maxLevels)
      (stack : Stack first start rule d' frames) :
      Consistent cs first position start ⟨p, d, frames, .fault fault⟩

theorem consistent_start (hposition : position ≤ cs.length) (hdepth : depth ≤ maxLevels) :
    Consistent cs rule position depth (.start rule position depth) :=
  .call (Nat.le_refl _) hposition hdepth .nil

namespace Consistent

theorem move (h : Consistent cs first position start m) (hmove : Move cs m m') :
    Consistent cs first position start m' := by
  cases hmove with
  | call frame hcounts hdepth hp hp' hcost =>
    cases h with
    | call hlow _ hd stack =>
      exact .call (Nat.le_trans hlow hp) hp' (hdepth hd) (.cons hcounts stack)
  | leaf hp hp' =>
    cases h with
    | call hlow _ hd stack => exact .value (Nat.lt_of_le_of_lt hlow hp) hp' hd stack
  | again frame' hrule hcounts hdepth hp hp' =>
    cases h with
    | value hlow _ _ stack =>
      obtain ⟨outer, hframe, rest⟩ := stack.of_cons
      rw [← hrule] at rest
      exact .call (Nat.le_of_lt (Nat.lt_trans hlow hp)) hp' hdepth (.cons (hcounts _ hframe) rest)
  | back frame hp hp' =>
    cases h with
    | value hlow _ hd stack =>
      obtain ⟨outer, hframe, rest⟩ := stack.of_cons
      rw [hframe.depthBehind]
      exact .value (Nat.lt_of_lt_of_le hlow hp) hp' (Nat.le_trans hframe.le hd) rest
  | failCall hdepth hp hp' =>
    cases h with
    | call _ _ hd stack => exact .fault hp' (by omega) hd stack
  | failBack hdepth hp hp' =>
    cases h with
    | value _ _ hd stack =>
      obtain ⟨outer, hframe, rest⟩ := stack.of_cons
      exact .fault hp' (by omega) (Nat.le_trans hframe.le hd) rest

theorem position_le (h : Consistent cs first position start m) : m.position ≤ cs.length := by
  cases h with
  | call _ hp | value _ hp | fault hp => exact hp

theorem depth_le (h : Consistent cs first position start m) : m.depth ≤ maxLevels + 1 := by
  cases h with
  | call _ _ hd | value _ _ hd => exact Nat.le_succ_of_le hd
  | fault _ hd => exact hd

/-- At most five calls wait for each level that can be taken. -/
theorem openCalls_le (h : Consistent cs first position start m) :
    m.openCalls ≤ 5 * (maxLevels - start) + 6 := by
  cases h with
  | call _ _ hd stack => exact Nat.succ_le_succ (stack.length_le_of_le hd)
  | value _ _ hd stack => exact Nat.le_succ_of_le (stack.length_le_of_le hd)
  | fault _ _ hd' stack => exact Nat.succ_le_succ (stack.length_le_of_le hd')

end Consistent

/-! ## No state is stuck -/

theorem isSome_expect {c : Char} {next : Machine → Option Machine}
    (h : ∀ p, (next (m.goTo p)).isSome) : (m.expect cs c next).isSome := by
  rw [expect]
  split
  · exact h _
  · rfl

theorem isSome_enterName : (m.enterName cs).isSome := by
  rw [enterName]
  split
  · rfl
  split
  · rfl
  split
  · rfl
  · exact isSome_expect fun _ => rfl

theorem isSome_enter (rule : Rule) : (m.enter cs rule).isSome := by
  cases rule with
  | primary =>
    rw [enter, enterPrimary]
    split
    · rfl
    split
    · rfl
    split
    · rfl
    split
    · exact isSome_enterName
    · rfl
  | _ => rfl

theorem isSome_ascend {outer : Nat} (f : Formula) (h : m.depth = outer + 1) :
    (m.ascend f).isSome := by
  rw [ascend, h]
  rfl

theorem isSome_resume {frame : Frame} {outer : Nat} (f : Formula)
    (h : frame.Counts outer m.depth) : (m.resume cs frame f).isSome := by
  cases frame with
  | chain => rfl
  | sign negative => exact isSome_ascend _ h
  | unsigned => rfl
  | base =>
    rw [resume]
    split <;> rfl
  | exponent base => exact isSome_ascend _ h
  | group function =>
    rw [resume]
    exact isSome_expect fun p => isSome_ascend _ h
  | literal => rfl

/-- A run goes on until it is over. -/
theorem Consistent.halted (h : Consistent cs first position start m) (hstep : m.step cs = none) :
    Halted m := by
  cases h with
  | @call p d frames rule =>
    have hsome : (enter cs rule ⟨p, d, frames, .call rule⟩).isSome := isSome_enter rule
    have hnone : enter cs rule ⟨p, d, frames, .call rule⟩ = none := hstep
    rw [hnone] at hsome
    cases hsome
  | @value p d frames rule f _ _ _ stack =>
    cases frames with
    | nil => exact .value p d f
    | cons frame frames =>
      obtain ⟨outer, hcounts, -⟩ := stack.of_cons
      have hsome : (resume cs frame f ⟨p, d, frames, .value f⟩).isSome := isSome_resume f hcounts
      have hnone : resume cs frame f ⟨p, d, frames, .value f⟩ = none := hstep
      rw [hnone] at hsome
      cases hsome
  | fault => exact .fault _ _ _ _

/-! ## Runs -/

theorem Consistent.after {n : Nat} (h : Consistent cs first position start m)
    (hafter : m.after cs n = some m') : Consistent cs first position start m' := by
  induction n generalizing m with
  | zero =>
    cases hafter
    exact h
  | succ n ih =>
    obtain ⟨next, hstep, hrest⟩ := Option.bind_eq_some_iff.1 hafter
    exact ih (h.move (move_of_step h.position_le hstep)) hrest

end Machine

/-! ## The cost of a run -/

/-- What is left to do counts for every character, every waiting call, and every rule that the
present call may still go down. -/
def Control.cost : Control → Nat
  | .call rule => 13 - 2 * rule.order
  | .value _ => 1
  | .fault _ => 0

namespace Machine

variable {cs : List Char} {m m' : Machine} {first rule : Rule} {position start depth : Nat}

def cost (cs : List Char) (m : Machine) : Nat :=
  16 * (cs.length - m.position) + m.frames.length + m.control.cost

theorem Move.cost_lt (h : Move cs m m') : m'.cost cs < m.cost cs := by
  cases h with
  | call frame _ _ hp hp' hcost =>
    have horder := frame.rule.order_le
    have horder' := frame.awaits.order_le
    simp only [cost, Control.cost, List.length_cons]
    omega
  | @leaf _ _ _ _ rule =>
    have horder := rule.order_le
    simp only [cost, Control.cost]
    omega
  | again frame' =>
    simp only [cost, Control.cost, List.length_cons]
    omega
  | back frame =>
    simp only [cost, Control.cost, List.length_cons]
    omega
  | @failCall _ _ _ _ _ rule =>
    have horder := rule.order_le
    simp only [cost, Control.cost]
    omega
  | failBack =>
    simp only [cost, Control.cost, List.length_cons]
    omega

theorem Consistent.add_cost_le {n : Nat} (h : Consistent cs first position start m)
    (hafter : m.after cs n = some m') : n + m'.cost cs ≤ m.cost cs := by
  induction n generalizing m with
  | zero =>
    cases hafter
    rw [Nat.zero_add]
  | succ n ih =>
    obtain ⟨next, hstep, hrest⟩ := Option.bind_eq_some_iff.1 hafter
    have hmove := move_of_step h.position_le hstep
    have hlt := hmove.cost_lt
    have hle := ih (h.move hmove) hrest
    omega

/-- A run is no longer than the rest of the text allows. -/
theorem length_le_of_after {n : Nat} (hposition : position ≤ cs.length) (hdepth : depth ≤ maxLevels)
    (hafter : (Machine.start rule position depth).after cs n = some m) :
    n ≤ 16 * (cs.length - position) + 13 := by
  have hcost := (consistent_start hposition hdepth).add_cost_le hafter
  have hstart : (Machine.start rule position depth).cost cs
      = 16 * (cs.length - position) + 0 + (13 - 2 * rule.order) := rfl
  omega

end Machine
end Expression
end TreeFlow
