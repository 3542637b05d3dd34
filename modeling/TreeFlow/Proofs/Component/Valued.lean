import TreeFlow.Proofs.Component.Faults
/-
Arguments without a value.

A kind reads its item inputs one by one, and each reader refuses an argument that is missing.  So a
call with an item for each item input does not fail for want of a value (`Kind.call_valued`), and a
call that lacks a value which an input needs fails (`Kind.call_of_lacks`).
-/

namespace TreeFlow
namespace Component

variable {k : Kind} {inputs : List Input} {args : List Value} {n : Nat} {i : Input}

/-! ## Inputs that need a value -/

/-- An item input that cannot do without a value. -/
def Input.Required (i : Input) : Prop :=
  i.access = .item ∧ i.default = none ∧ i.optional = false

instance (i : Input) : Decidable i.Required := inferInstanceAs (Decidable (_ ∧ _))

/-- Cross reference apart, a kind that iterates over items matches in the longest way, and takes
neither whole trees nor optional inputs. -/
theorem Kind.of_item (k : Kind) (hcross : k ≠ .sets .crossReference)
    (h : ∃ i ∈ k.signature.inputs, i.access = .item) :
    k.signature.mode = .longest ∧
      ∀ j ∈ k.signature.inputs, j.access ≠ .tree ∧ j.optional = false := by
  revert k
  decide

/-- A kind that needs a value takes items alone, and but for two kinds it has one input. -/
theorem Kind.of_required (k : Kind) (h : ∃ i ∈ k.signature.inputs, i.Required) :
    k ≠ .sets .crossReference ∧ (∀ j ∈ k.signature.inputs, j.access = .item) ∧
      (k.signature.inputs.length = 1 ∨ k = .vector .vector2Pt ∨ k = .vector .distance) := by
  revert k
  decide

/-! ## What a call does without a value -/

/-- A call lacks a value that an input needs. -/
def Lacks (inputs : List Input) (args : List Value) : Prop :=
  ∃ (n : Nat) (i : Input), inputs[n]? = some i ∧ i.Required ∧ args[n]? = some .missing

/-- A call has an item for each item input. -/
def Itemwise (inputs : List Input) (args : List Value) : Prop :=
  ∀ n i, inputs[n]? = some i → i.access = .item → ∃ item, argument args n = .item item

/-- A step that does not fail for want of a value. -/
def Valued {α : Type} (r : Except CallFault α) : Prop := ∀ input, r ≠ .error (.noValue input)

/-- With an item for each item input, no call fails for want of a value. -/
theorem Kind.call_valued (k : Kind) (h : Itemwise k.signature.inputs args) :
    Valued (k.call args) := by
  have hreads : Reads (fun cause => ∀ input, cause ≠ .noValue input) k.signature.inputs args := by
    constructor
    · rintro cause hdomain input rfl
      cases hdomain
    · intro n i hi haccess input
      exact .inl (h n i hi haccess)
    · intro n i hi haccess input
      exact .inr nofun
    · intro n i hi haccess input
      exact .inr nofun
  intro input herror
  exact k.call_fails hreads _ herror input rfl

theorem formed_of_missing {α : Type} {form : Form} {view : Item → Option α} {input : String}
    (h : argument args n = .missing) : formed form view args n input = .error (.noValue input) := by
  rw [formed, h]

theorem Maths.result_of_missing (m : Maths) (hm : ∃ i ∈ m.inputs, i.Required)
    (h : argument args 0 = .missing) : ∃ cause, m.result args = .error cause := by
  have hread : ∀ name, numberAt args 0 name = .error (.noValue name) := fun _ =>
    formed_of_missing h
  have hunary : ∀ exact rounded, ∃ cause, unaryOr args exact rounded = .error cause := by
    intro exact rounded
    rw [unaryOr, h]
    exact ⟨_, Except.bind_eq_error_iff.2 (.inl (hread _))⟩
  cases m with
  | addition | subtraction | multiplication | division | modulus | power =>
    exact absurd hm (by decide)
  | negative => exact hunary _ _
  | absolute =>
    rw [result]
    exact hunary _ _
  | squareRoot => exact ⟨_, Except.bind_eq_error_iff.2 (.inl (hread _))⟩
  | degrees => exact ⟨_, Except.bind_eq_error_iff.2 (.inl (hread _))⟩
  | radians => exact ⟨_, Except.bind_eq_error_iff.2 (.inl (hread _))⟩

theorem Vectors.between_of_missing (h : argument args 0 = .missing ∨ argument args 1 = .missing) :
    ∃ cause, between args = .error cause := by
  cases hfirst : coordinatesAt args 0 "Point A" with
  | error cause => exact ⟨cause, Except.bind_eq_error_iff.2 (.inl hfirst)⟩
  | ok a =>
    cases h with
    | inl h =>
      rw [coordinatesAt, formed_of_missing h] at hfirst
      cases hfirst
    | inr h =>
      refine ⟨.noValue "Point B", Except.bind_eq_error_iff.2 (.inr ⟨a, hfirst, ?_⟩)⟩
      exact Except.bind_eq_error_iff.2 (.inl (formed_of_missing h))

/-- A call fails if it lacks a value, though another argument may be found at fault first. -/
theorem Kind.call_of_lacks (k : Kind) (h : Lacks k.signature.inputs args) :
    ∃ cause, k.call args = .error cause := by
  obtain ⟨n, i, hi, hrequired, harg⟩ := h
  have hmissing : argument args n = .missing := argument_eq harg
  have hsome : ∃ i ∈ k.signature.inputs, i.Required := ⟨i, List.mem_of_getElem? hi, hrequired⟩
  have hn : n < k.signature.inputs.length := (List.getElem?_eq_some_iff.1 hi).1
  have hends : ∀ {f : Coordinates → CallResult},
      argument args 0 = .missing ∨ argument args 1 = .missing →
      ∃ cause, (Vectors.between args >>= f) = .error cause := fun h =>
    (Vectors.between_of_missing h).imp fun _ h => Except.bind_eq_error_iff.2 (.inl h)
  cases k with
  | params p => exact absurd hsome (by cases p <;> decide)
  | sets l => exact absurd hsome (by cases l <;> decide)
  | tree t => exact absurd hsome (by cases t <;> decide)
  | maths m =>
    have hlength : (Kind.maths m).signature.inputs.length = 1 :=
      ((Kind.maths m).of_required hsome).2.2.resolve_right (by simp)
    obtain rfl : n = 0 := by omega
    obtain ⟨cause, hcause⟩ := m.result_of_missing hsome hmissing
    exact ⟨cause, Except.bind_eq_error_iff.2 (.inl hcause)⟩
  | vector v =>
    cases v with
    | constructPoint | unitX | unitY | unitZ | vectorXyz => exact absurd hsome (by decide)
    | deconstructPoint =>
      obtain rfl : n = 0 := Nat.lt_one_iff.1 hn
      exact ⟨_, Except.bind_eq_error_iff.2 (.inl (formed_of_missing hmissing))⟩
    | distance =>
      have hcases : n = 0 ∨ n = 1 := Nat.le_one_iff_eq_zero_or_eq_one.1 (Nat.lt_succ_iff.1 hn)
      cases hcases with
      | inl h => exact hends (.inl (h ▸ hmissing))
      | inr h => exact hends (.inr (h ▸ hmissing))
    | vector2Pt =>
      have hcases : n = 0 ∨ n = 1 ∨ n = 2 := by
        have hlt : n < 3 := hn
        omega
      obtain h | h | h := hcases
      · exact hends (.inl (h ▸ hmissing))
      · exact hends (.inr (h ▸ hmissing))
      · -- The third input has a default.
        subst h
        obtain rfl := Option.some.inj hi
        exact absurd hrequired (by decide)

end Component
end TreeFlow
