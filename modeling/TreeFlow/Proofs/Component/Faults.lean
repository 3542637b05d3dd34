import TreeFlow.Proofs.Component.Calls
/-
The faults that a call can end with.

A kind reads its arguments with readers that each refuse an argument of another shape, and it has
domain faults of its own besides.  So a property of faults holds of whatever a call ends with, if it
holds of the domain faults and of the refusals that the arguments can meet with (`Kind.call_fails`).
That is shown once here, for all kinds; what certain arguments rule out follows for each property of
faults by itself.
-/

namespace TreeFlow
namespace Component

/-- The fault is the refusal of an argument that has another shape than the reader takes. -/
def CallFault.misshapen : CallFault → Bool
  | .noValue _ | .noList _ | .noTree _ => true
  | _ => false

variable {P : CallFault → Prop} {inputs : List Input} {args : List Value} {n : Nat} {i : Input}
  {input : String}

/-- What a step ends with, if it fails, has a property. -/
def Fails {α : Type} (P : CallFault → Prop) (r : Except CallFault α) : Prop :=
  ∀ cause, r = .error cause → P cause

/-- A property of faults that holds of the domain faults, and of the refusal of each argument that
has not the shape of its input. -/
structure Reads (P : CallFault → Prop) (inputs : List Input) (args : List Value) : Prop where
  domain : ∀ cause, cause.misshapen = false → P cause
  item : ∀ n i, inputs[n]? = some i → i.access = .item → ∀ input,
    (∃ item, argument args n = .item item) ∨ P (.noValue input)
  list : ∀ n i, inputs[n]? = some i → i.access = .list → ∀ input,
    (∃ items, (argument args n).list? = some items) ∨ P (.noList input)
  tree : ∀ n i, inputs[n]? = some i → i.access = .tree → ∀ input,
    (∃ t, (argument args n).tree? = some t) ∨ P (.noTree input)

section

variable {α β : Type}

theorem Fails.ok (a : α) : Fails P (.ok a) := nofun

theorem Fails.error {cause : CallFault} (h : P cause) :
    Fails P (.error cause : Except CallFault α) := by
  intro cause' heq
  exact Except.error.inj heq ▸ h

theorem Fails.bind {x : Except CallFault α} {f : α → Except CallFault β} (hx : Fails P x)
    (hf : ∀ a, Fails P (f a)) : Fails P (x >>= f) := by
  intro cause h
  cases Except.bind_eq_error_iff.1 h with
  | inl h => exact hx cause h
  | inr h =>
    obtain ⟨a, -, h⟩ := h
    exact hf a cause h

theorem Fails.ite {c : Prop} [Decidable c] {x y : Except CallFault α} (hx : Fails P x)
    (hy : Fails P y) : Fails P (if c then x else y) := by
  split
  · exact hx
  · exact hy

/-! ## Readers -/

theorem Reads.formed (h : Reads P inputs args) {form : Form} {view : Item → Option α}
    (hi : inputs[n]? = some i) (haccess : i.access = .item) :
    Fails P (formed form view args n input) := by
  have hother : (∀ item, argument args n ≠ .item item) →
      Fails P (.error (.noValue input) : Except CallFault α) := fun hne =>
    .error ((h.item n i hi haccess input).resolve_left fun ⟨item, hitem⟩ => hne item hitem)
  rw [Component.formed]
  cases hargument : argument args n with
  | item item =>
    dsimp only
    cases view item with
    | none => exact .error (h.domain _ rfl)
    | some a => exact .ok a
  | missing => exact hother (by simp [hargument])
  | list items => exact hother (by simp [hargument])
  | tree t => exact hother (by simp [hargument])

theorem Reads.listAt (h : Reads P inputs args) (hi : inputs[n]? = some i)
    (haccess : i.access = .list) : Fails P (listAt args n input) := by
  rw [Component.listAt]
  cases hlist : (argument args n).list? with
  | some items => exact .ok items
  | none =>
    refine .error ((h.list n i hi haccess input).resolve_left ?_)
    simp [hlist]

theorem Reads.treeAt (h : Reads P inputs args) (hi : inputs[n]? = some i)
    (haccess : i.access = .tree) : Fails P (treeAt args n input) := by
  rw [Component.treeAt]
  cases htree : (argument args n).tree? with
  | some t => exact .ok t
  | none =>
    refine .error ((h.tree n i hi haccess input).resolve_left ?_)
    simp [htree]

end

/-! ## Families -/

theorem Parameter.call_fails (p : Parameter) (h : Reads P p.signature.inputs args) :
    Fails P (p.call args) := by
  refine .bind (h.treeAt (n := 0) rfl rfl) fun t => .bind ?_ fun _ => .ok _
  rw [convert]
  split
  · exact .error (h.domain _ rfl)
  · exact .ok _

theorem Restructure.call_fails (s : Restructure) (h : Reads P s.signature.inputs args) :
    Fails P (s.call args) :=
  .bind (h.treeAt (n := 0) rfl rfl) fun _ => .ok _

theorem Maths.integralOr_fails {whole : Int64 → Int64 → Option Int64}
    {rounded : Float → Float → Float} (ha : Fails P (numberAt args 0 "A"))
    (hb : Fails P (numberAt args 1 "B")) : Fails P (integralOr args whole rounded) := by
  unfold integralOr
  extract_lets found
  cases found with
  | some n => exact .ok _
  | none => exact .bind ha fun _ => .bind hb fun _ => .ok _

theorem Maths.unaryOr_fails {exact : Int → Int} {rounded : Float → Float}
    (h : Fails P (numberAt args 0 "Value")) : Fails P (unaryOr args exact rounded) := by
  rw [unaryOr]
  split
  · exact .ok _
  · exact .bind h fun _ => .ok _

theorem Maths.result_fails (m : Maths) (h : Reads P m.inputs args) : Fails P (m.result args) := by
  cases m with
  | addition => exact integralOr_fails (h.formed rfl rfl) (h.formed rfl rfl)
  | subtraction => exact integralOr_fails (h.formed rfl rfl) (h.formed rfl rfl)
  | multiplication => exact integralOr_fails (h.formed rfl rfl) (h.formed rfl rfl)
  | division =>
    exact .bind (h.formed rfl rfl) fun a => .bind (h.formed rfl rfl) fun b =>
      .ite (.error (h.domain _ rfl)) (.ok _)
  | modulus =>
    exact .bind (h.formed rfl rfl) fun b =>
      .ite (.error (h.domain _ rfl)) (integralOr_fails (h.formed rfl rfl) (h.formed rfl rfl))
  | power => exact .bind (h.formed rfl rfl) fun a => .bind (h.formed rfl rfl) fun b => .ok _
  | negative => exact unaryOr_fails (h.formed rfl rfl)
  | absolute =>
    rw [result]
    exact unaryOr_fails (h.formed rfl rfl)
  | squareRoot =>
    exact .bind (h.formed rfl rfl) fun x => .ite (.error (h.domain _ rfl)) (.ok _)
  | degrees => exact .bind (h.formed rfl rfl) fun x => .ok _
  | radians => exact .bind (h.formed rfl rfl) fun x => .ok _

theorem Lists.enumerate_fails (h : Reads P (signature .series).inputs args) :
    Fails P (enumerate args) := by
  refine .bind (h.formed rfl rfl) fun count =>
    .ite (.error (h.domain _ rfl)) (.ite (.error (h.domain _ rfl)) ?_)
  dsimp only
  split
  · exact .ok _
  · exact .bind (h.formed rfl rfl) fun _ => .bind (h.formed rfl rfl) fun _ => .ok _

theorem Lists.pick_fails (h : Reads P (signature .listItem).inputs args) :
    Fails P (pick args) := by
  refine .bind (h.listAt rfl rfl) fun items => .bind (h.formed rfl rfl) fun index =>
    .bind (h.formed rfl rfl) fun wrap => .ite (.ok _) ?_
  dsimp only
  split
  · exact .ok _
  · exact .error (h.domain _ rfl)

theorem Lists.call_fails (l : Lists) (h : Reads P l.signature.inputs args) :
    Fails P (l.call args) := by
  cases l with
  | series => exact enumerate_fails h
  | listItem => exact pick_fails h
  | listLength => exact .bind (h.listAt rfl rfl) fun _ => .ok _
  | reverseList => exact .bind (h.listAt rfl rfl) fun _ => .ok _
  | shortestList => exact .bind (h.listAt rfl rfl) fun _ => .bind (h.listAt rfl rfl) fun _ => .ok _
  | longestList => exact .bind (h.listAt rfl rfl) fun _ => .bind (h.listAt rfl rfl) fun _ => .ok _
  | crossReference => exact .ok _

theorem Vectors.call_fails (v : Vectors) (h : Reads P v.inputs args) : Fails P (v.call args) := by
  cases v with
  | constructPoint =>
    exact .bind (.bind (h.formed rfl rfl) fun _ => .bind (h.formed rfl rfl) fun _ =>
      .bind (h.formed rfl rfl) fun _ => .ok _) fun _ => .ok _
  | deconstructPoint => exact .bind (h.formed rfl rfl) fun _ => .ok _
  | unitX => exact .bind (h.formed rfl rfl) fun _ => .ok _
  | unitY => exact .bind (h.formed rfl rfl) fun _ => .ok _
  | unitZ => exact .bind (h.formed rfl rfl) fun _ => .ok _
  | vectorXyz =>
    exact .bind (.bind (h.formed rfl rfl) fun _ => .bind (h.formed rfl rfl) fun _ =>
      .bind (h.formed rfl rfl) fun _ => .ok _) fun _ => .ok _
  | vector2Pt =>
    exact .bind (.bind (h.formed rfl rfl) fun _ => .bind (h.formed rfl rfl) fun _ => .ok _)
      fun _ => .bind (h.formed rfl rfl) fun _ => .ok _
  | distance =>
    exact .bind (.bind (h.formed rfl rfl) fun _ => .bind (h.formed rfl rfl) fun _ => .ok _)
      fun _ => .ok _

/-- What a call ends with, if it fails, is a domain fault or the refusal of an argument. -/
theorem Kind.call_fails (k : Kind) (h : Reads P k.signature.inputs args) :
    Fails P (k.call args) := by
  cases k with
  | params p => exact p.call_fails h
  | maths m => exact .bind (m.result_fails h) fun _ => .ok _
  | sets l => exact l.call_fails h
  | tree s => exact s.call_fails h
  | vector v => exact v.call_fails h

end Component
end TreeFlow
