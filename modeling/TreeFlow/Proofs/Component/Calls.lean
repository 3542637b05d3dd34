import TreeFlow.Proofs.Component.Arity
/-
The calls of a run.

Matching groups the calls by the branch that their results go to.  As far as failure goes only
their order counts: a run fails with the fault of the first of its calls that fails
(`run_eq_call_error_iff`), and where it succeeds, each of them does.
-/

namespace TreeFlow
namespace Component

variable {k : Kind} {given : List Tree}

/-- The calls of a run in order, with the defaults in place of missing values.  They are made up to
the first one that fails. -/
def calls (k : Kind) (given : List Tree) : List (List Value) :=
  match inputTrees? k.signature.inputs given with
  | none => []
  | some trees =>
    match Matching.branches k.signature.mode (matchInputs k.signature.inputs trees) with
    | .error _ => []
    | .ok branches => branches.flatMap fun b => b.calls.map (withDefaults k.signature.inputs)

/-- The rows of all branches hold what the calls give, one call after the other. -/
theorem mapM_rowOf (k : Kind) (branches : List Matching.Branch) :
    (branches.mapM (rowOf k)).map (fun rows => rows.flatMap Row.values)
      = (branches.flatMap Matching.Branch.calls).mapM (callValues k) := by
  induction branches with
  | nil => rfl
  | cons b branches ih =>
    rw [List.mapM_cons, List.flatMap_cons, List.mapM_append, ← ih, rowOf]
    cases b.calls.mapM (callValues k) with
    | error e => rfl
    | ok values => cases branches.mapM (rowOf k) <;> rfl

theorem map_callValues (k : Kind) (branches : List Matching.Branch) :
    (branches.flatMap Matching.Branch.calls).mapM (callValues k)
      = (branches.flatMap fun b => b.calls.map (withDefaults k.signature.inputs)).mapM
          fun args => (k.call args).mapError .call := by
  rw [← List.map_flatMap, List.mapM_map]
  exact congrArg (fun f => List.mapM f _) (funext fun args => callValues_eq k args)

/-- A run fails if its calls do, taken one after the other. -/
theorem run_eq_call_error_iff_mapM {cause : CallFault} :
    run k given = .error (.call cause) ↔
      (calls k given).mapM (fun args => (k.call args).mapError Failure.call)
        = .error (.call cause) := by
  cases htrees : inputTrees? k.signature.inputs given with
  | none =>
    simp only [run, calls, htrees]
    constructor <;> intro h <;> cases h
  | some trees =>
    cases hbranches : Matching.branches k.signature.mode
        (matchInputs k.signature.inputs trees) with
    | error e =>
      simp only [run, calls, htrees, hbranches]
      constructor <;> intro h <;> cases h
    | ok branches =>
      simp only [run, calls, htrees, hbranches]
      rw [← map_callValues, ← mapM_rowOf]
      cases branches.mapM (rowOf k) with
      | error e =>
        show Except.error e = _ ↔ Except.error e = _
        rw [Except.error.injEq, Except.error.injEq]
      | ok rows => constructor <;> intro h <;> cases h

/-- The fault of a failing run is that of the first of its calls that fails. -/
theorem run_eq_call_error_iff {cause : CallFault} :
    run k given = .error (.call cause) ↔
      ∃ before args behind, calls k given = before ++ args :: behind ∧
        (∀ earlier ∈ before, ∃ values, k.call earlier = .ok values) ∧
        k.call args = .error cause := by
  rw [run_eq_call_error_iff_mapM, Except.mapM_eq_error_iff]
  refine exists₃_congr fun before args behind => ?_
  simp only [Except.mapError_eq_ok_iff, Except.mapError_eq_error_iff, Failure.call.injEq,
    exists_eq_right]

/-- A run that makes a failing call fails with a call. -/
theorem exists_run_eq_call_error {args : List Value} {cause : CallFault}
    (hargs : args ∈ calls k given) (hcall : k.call args = .error cause) :
    ∃ cause, run k given = .error (.call cause) := by
  obtain ⟨e, he⟩ := Except.exists_mapM_eq_error
    (f := fun args => (k.call args).mapError Failure.call) hargs
    (Except.mapError_eq_error_iff.2 ⟨cause, hcall, rfl⟩)
  obtain ⟨args', -, hargs'⟩ := Except.exists_of_mapM_eq_error he
  obtain ⟨cause', -, rfl⟩ := Except.mapError_eq_error_iff.1 hargs'
  exact ⟨cause', run_eq_call_error_iff_mapM.2 he⟩

/-! ## Arguments -/

variable {inputs : List Input} {args : List Value} {n : Nat} {i : Input} {v : Value}

theorem getElem?_withDefaults (hi : inputs[n]? = some i) :
    (withDefaults inputs args)[n]? = args[n]?.map fun arg =>
      match arg, i.default with
      | .missing, some item => .item item
      | arg, _ => arg := by
  rw [withDefaults, List.getElem?_map, List.getElem?_zipIdx]
  cases args[n]? with
  | none => rfl
  | some v => cases v <;> cases hdefault : i.default <;> simp [hi, hdefault]

/-- Without a default the value of matching is the argument. -/
theorem getElem?_withDefaults_of_none (hi : inputs[n]? = some i) (hdefault : i.default = none) :
    (withDefaults inputs args)[n]? = args[n]? := by
  rw [getElem?_withDefaults hi, hdefault]
  cases args[n]? with
  | none => rfl
  | some v => cases v <;> rfl

theorem argument_eq (h : args[n]? = some v) : argument args n = v := by
  rw [argument, List.getD_eq_getElem?_getD, h, Option.getD_some]

end Component
end TreeFlow
