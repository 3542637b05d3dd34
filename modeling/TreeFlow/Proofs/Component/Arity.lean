import TreeFlow.Failure
import TreeFlow.Proofs.Except
/-
Every call gives one value for each declared output.

The functions of all kinds are built from steps that can fail and a list of values at the end;
`Ensures` follows that shape.  So the count of values that a run checks is never wrong, and the only
failures of a run are those of its own component (`isLocal_of_runComponent`).  Besides, only kinds
that take whole trees give whole trees, cross reference apart, which hands its arguments on
(`Kind.call_plain`).
-/

namespace TreeFlow
namespace Component

/-- Whatever values a call gives, they have a property. -/
def Ensures (P : List Value → Prop) (r : CallResult) : Prop := ∀ values, r = .ok values → P values

/-- `n` values, none of them a whole tree. -/
structure Plain (n : Nat) (values : List Value) : Prop where
  length : values.length = n
  flat : ∀ v ∈ values, v.tree? = none

variable {P : List Value → Prop} {r r' : CallResult}

theorem Ensures.error {e : CallFault} : Ensures P (.error e) := nofun

theorem Ensures.pure {values : List Value} (h : P values) : Ensures P (Pure.pure values) := by
  intro values' h'
  obtain rfl := Except.ok.inj h'
  exact h

theorem Ensures.bind {α : Type} {x : Except CallFault α} {f : α → CallResult}
    (h : ∀ a, Ensures P (f a)) : Ensures P (x >>= f) := by
  intro values hv
  obtain ⟨a, -, ha⟩ := Except.bind_eq_ok_iff.1 hv
  exact h a values ha

theorem Ensures.ite {c : Prop} [Decidable c] (h : Ensures P r) (h' : Ensures P r') :
    Ensures P (if c then r else r') := by
  split
  · exact h
  · exact h'

theorem Ensures.imp {Q : List Value → Prop} (h : Ensures P r)
    (hPQ : ∀ values, P values → Q values) : Ensures Q r :=
  fun values hv => hPQ values (h values hv)

theorem Plain.item (i : Item) : Plain 1 [.item i] := ⟨rfl, by simp [Value.tree?]⟩

/-- `n` values, each a single item. -/
structure Itemized (n : Nat) (values : List Value) : Prop where
  length : values.length = n
  items : ∀ v ∈ values, ∃ item, v = .item item

theorem Itemized.plain {n : Nat} {values : List Value} (h : Itemized n values) :
    Plain n values where
  length := h.length
  flat v hv := by
    obtain ⟨item, rfl⟩ := h.items v hv
    rfl

theorem Itemized.one (i : Item) : Itemized 1 [.item i] := ⟨rfl, by simp⟩

theorem Plain.list (items : List Item) : Plain 1 [.list items] := ⟨rfl, by simp [Value.tree?]⟩

/-! ## Families -/

theorem Parameter.length_of_call (p : Parameter) (args : List Value) :
    Ensures (fun values => values.length = 1) (p.call args) :=
  .bind fun _ => .bind fun _ => .pure rfl

theorem Restructure.length_of_call (t : Restructure) (args : List Value) :
    Ensures (fun values => values.length = 1) (t.call args) :=
  .bind fun _ => .pure rfl

theorem Maths.call_items (m : Maths) (args : List Value) : Ensures (Itemized 1) (m.call args) :=
  .bind fun _ => .pure (.one _)

theorem Maths.call_plain (m : Maths) (args : List Value) : Ensures (Plain 1) (m.call args) :=
  (m.call_items args).imp fun _ h => h.plain

theorem Lists.enumerate_plain (args : List Value) : Ensures (Plain 1) (enumerate args) := by
  refine .bind fun count => .ite .error (.ite .error ?_)
  dsimp only
  split
  · exact .pure (.list _)
  · exact .bind fun _ => .bind fun _ => .pure (.list _)

theorem Lists.pick_plain (args : List Value) : Ensures (Plain 1) (pick args) := by
  refine .bind fun items => .bind fun index => .bind fun wrap => .ite (.pure (.item _)) ?_
  dsimp only
  split
  · exact .pure (.item _)
  · exact .error

theorem Lists.call_plain (l : Lists) (hl : l ≠ .crossReference) (args : List Value) :
    Ensures (Plain l.signature.outputs.length) (l.call args) := by
  cases l with
  | series => exact enumerate_plain args
  | listItem => exact pick_plain args
  | listLength => exact .bind fun _ => .pure (.item _)
  | reverseList => exact .bind fun _ => .pure (.list _)
  | shortestList => exact .bind fun _ => .bind fun _ => .pure ⟨rfl, by simp [Value.tree?]⟩
  | longestList => exact .bind fun _ => .bind fun _ => .pure ⟨rfl, by simp [Value.tree?]⟩
  | crossReference => exact absurd rfl hl

theorem Vectors.call_items (v : Vectors) (args : List Value) :
    Ensures (Itemized v.signature.outputs.length) (v.call args) := by
  cases v with
  | constructPoint => exact .bind fun _ => .pure (.one _)
  | deconstructPoint => exact .bind fun _ => .pure ⟨rfl, by simp⟩
  | unitX => exact .bind fun _ => .pure (.one _)
  | unitY => exact .bind fun _ => .pure (.one _)
  | unitZ => exact .bind fun _ => .pure (.one _)
  | vectorXyz => exact .bind fun _ => .pure ⟨rfl, by simp⟩
  | vector2Pt => exact .bind fun _ => .bind fun _ => .pure ⟨rfl, by simp⟩
  | distance => exact .bind fun _ => .pure (.one _)

theorem Vectors.call_plain (v : Vectors) (args : List Value) :
    Ensures (Plain v.signature.outputs.length) (v.call args) :=
  (v.call_items args).imp fun _ h => h.plain

/-- A kind that lines up items and lists in the longest way gives no whole trees. -/
theorem Kind.call_plain (k : Kind) (hmode : k.signature.mode = .longest)
    (haccess : ∀ i ∈ k.signature.inputs, i.access ≠ .tree) (args : List Value) :
    Ensures (Plain k.signature.outputs.length) (k.call args) := by
  cases k with
  | params p => exact absurd rfl (haccess _ List.mem_cons_self)
  | maths m => exact m.call_plain args
  | sets l => exact l.call_plain (by rintro rfl; cases hmode) args
  | tree t => exact absurd rfl (haccess _ List.mem_cons_self)
  | vector v => exact v.call_plain args

/-- One value for each declared output, whatever the arguments. -/
theorem Kind.length_of_call (k : Kind) (args : List Value) :
    Ensures (fun values => values.length = k.signature.outputs.length) (k.call args) := by
  cases k with
  | params p => exact p.length_of_call args
  | maths m => exact (m.call_plain args).imp fun _ h => h.length
  | sets l =>
    by_cases hl : l = .crossReference
    · subst hl
      exact .pure rfl
    · exact (l.call_plain hl args).imp fun _ h => h.length
  | tree t => exact t.length_of_call args
  | vector v => exact (v.call_plain args).imp fun _ h => h.length

/-! ## Runs -/

theorem callValues_eq (k : Kind) (args : List Value) :
    callValues k args = (k.call (withDefaults k.signature.inputs args)).mapError .call := by
  unfold callValues
  cases h : k.call (withDefaults k.signature.inputs args) with
  | error cause => rfl
  | ok values =>
    have hlength := k.length_of_call _ values h
    simp [hlength, Except.mapError]

/-- A run gives a tree for each declared output. -/
theorem length_of_run {k : Kind} {given outs : List Tree} (h : run k given = .ok outs) :
    outs.length = k.signature.outputs.length := by
  simp only [run] at h
  split at h
  · obtain rfl := Except.ok.inj h
    simp
  · split at h
    · cases h
    · obtain ⟨rows, -, h⟩ := Except.bind_eq_ok_iff.1 h
      obtain rfl := Except.ok.inj h
      simp

theorem run_ne_arity {k k' : Kind} {given : List Tree} {values outputs : Nat} :
    run k given ≠ .error (.arity k' values outputs) := by
  intro h
  simp only [run] at h
  split at h
  · cases h
  · split at h
    · cases h
    · rcases Except.bind_eq_error_iff.1 h with h | ⟨rows, -, h⟩
      · obtain ⟨b, -, h⟩ := Except.exists_of_mapM_eq_error h
        rcases Except.bind_eq_error_iff.1 h with h | ⟨vs, -, h⟩
        · obtain ⟨args, -, h⟩ := Except.exists_of_mapM_eq_error h
          rw [callValues_eq, Except.mapError_eq_error_iff] at h
          obtain ⟨e, -, h⟩ := h
          cases h
        · cases h
      · cases h

end Component

/-- A failing run is recorded with its component; it does not end the run of the graph. -/
theorem isLocal_of_runComponent {k : Component.Kind} {component : String} {inputs : List Tree}
    {e : Failure} (h : runComponent k component inputs = .error e) : e.isLocal = true := by
  rw [runComponent, Except.mapError_eq_error_iff] at h
  obtain ⟨cause, hrun, rfl⟩ := h
  cases cause with
  | unmatched cause => rfl
  | call cause => rfl
  | arity kind values outputs => exact absurd hrun Component.run_ne_arity

end TreeFlow
