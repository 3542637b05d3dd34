import TreeFlow.Proofs.Component.Arity
import TreeFlow.Proofs.Component.Restructure
import TreeFlow.Proofs.Tree
/-
Parameters as projections.

A parameter hands its tree on with each item brought into one form.  The tree keeps its shape, nulls
stay, and an item that is in the form already is left as it is (`coerce?_of_coerce?`).  So a
parameter that is run on its own output gives it again.  It fails at the first item that has no such
form, and only there (`runComponent_projects`).
-/

namespace TreeFlow
namespace Component
namespace Parameter

variable {p : Parameter} {x y : Item} {t u : Tree}

/-! ## Items -/

/-- A form is never null. -/
theorem null_iff_of_coerce? (h : p.coerce? x = some y) : x = .null ↔ y = .null := by
  cases x with
  | null =>
    obtain rfl := Option.some.inj h
    exact Iff.rfl
  | boolean | integer | number | text | point | vector =>
    refine iff_of_false nofun ?_
    rintro rfl
    cases p <;> simp [coerce?, Item.isNull] at h

/-- An item in the form of a parameter has it already. -/
theorem coerce?_of_coerce? (h : p.coerce? x = some y) : p.coerce? y = some y := by
  unfold coerce? at h
  by_cases hnull : x.isNull = true
  · rw [if_pos hnull] at h
    obtain rfl := Option.some.inj h
    rfl
  · rw [if_neg hnull] at h
    cases p with
    | data | valueList =>
      obtain rfl := Option.some.inj h
      exact if_neg hnull
    | number | numberSlider | integer | boolean | point =>
      obtain ⟨_, -, rfl⟩ := Option.map_eq_some_iff.1 h
      rfl
    | text =>
      obtain rfl := Option.some.inj h
      rfl

/-! ## Trees -/

/-- A tree with the branches of another one, and in each place the form of the item there. -/
def Coerced (p : Parameter) (t u : Tree) : Prop :=
  List.Forall₂ (fun e e' => e'.1 = e.1 ∧
      List.Forall₂ (fun x y => p.coerce? x = some y ∧ (x = .null ↔ y = .null)) e.2 e'.2)
    t.branches.entries u.branches.entries

theorem Coerced.again (h : p.Coerced t u) : p.Coerced u u := by
  refine List.forall₂_same.2 fun e' he' => ⟨rfl, List.forall₂_same.2 fun y hy => ?_⟩
  obtain ⟨e, -, -, hitems⟩ := h.exists_left he'
  obtain ⟨x, -, hx, -⟩ := hitems.exists_left hy
  exact ⟨coerce?_of_coerce? hx, Iff.rfl⟩

/-- What stands in the place of an item once its tree is converted. -/
def formOf (p : Parameter) (item : Item) : Item := (p.coerce? item).getD .null

theorem coerced_mapItems (h : ∀ item ∈ t.items, p.coerce? item ≠ none) :
    p.Coerced t (t.mapItems p.formOf) := by
  show List.Forall₂ _ t.branches.entries (t.branches.entries.map fun e => (e.1, e.2.map p.formOf))
  rw [List.forall₂_map_right_iff, List.forall₂_same]
  refine fun e he => ⟨rfl, ?_⟩
  rw [List.forall₂_map_right_iff, List.forall₂_same]
  intro item hitem
  have hmem : item ∈ t.items := by
    rw [Tree.items_eq]
    exact List.mem_flatMap.2 ⟨e, he, hitem⟩
  obtain ⟨y, hy⟩ := Option.ne_none_iff_exists'.1 (h item hmem)
  have hform : p.coerce? item = some (p.formOf item) := by rw [formOf, hy, Option.getD_some]
  exact ⟨hform, null_iff_of_coerce? hform⟩

theorem Coerced.ne_none (h : p.Coerced t u) : ∀ item ∈ t.items, p.coerce? item ≠ none := by
  intro item hitem
  rw [Tree.items_eq] at hitem
  obtain ⟨e, he, hitem⟩ := List.mem_flatMap.1 hitem
  obtain ⟨e', -, -, hitems⟩ := h.exists_right he
  obtain ⟨y, -, hy, -⟩ := hitems.exists_right hitem
  exact Option.ne_none_iff_exists'.2 ⟨y, hy⟩

theorem Coerced.eq_mapItems (h : p.Coerced t u) : u = t.mapItems p.formOf := by
  refine congrArg Tree.mk (SortedMap.ext ?_)
  show u.branches.entries = t.branches.entries.map fun e => (e.1, e.2.map p.formOf)
  rw [← List.forall₂_eq_eq_eq, List.forall₂_map_right_iff]
  refine h.flip.imp fun e' e hbranch => Prod.ext hbranch.1 ?_
  show e'.2 = e.2.map p.formOf
  rw [← List.forall₂_eq_eq_eq, List.forall₂_map_right_iff]
  exact hbranch.2.flip.imp fun y x hx => by rw [formOf, hx.1, Option.getD_some]

theorem find?_isNone_eq_none_iff {items : List Item} :
    (items.find? fun item => (p.coerce? item).isNone) = none ↔
      ∀ item ∈ items, p.coerce? item ≠ none := by
  simp

theorem find?_isNone_eq_some_iff {items : List Item} {item : Item} :
    (items.find? fun item => (p.coerce? item).isNone) = some item ↔
      ∃ before after, items = before ++ item :: after ∧ (∀ x ∈ before, p.coerce? x ≠ none) ∧
        p.coerce? item = none := by
  rw [List.find?_eq_some_iff_append]
  simp only [Option.isNone_iff_eq_none, Bool.not_eq_true', Option.isNone_eq_false_iff,
    Option.isSome_iff_ne_none]
  constructor
  · intro h
    obtain ⟨hnone, before, after, hitems, hbefore⟩ := h
    exact ⟨before, after, hitems, hbefore, hnone⟩
  · intro h
    obtain ⟨before, after, hitems, hbefore, hnone⟩ := h
    exact ⟨hnone, before, after, hitems, hbefore⟩

theorem convert_eq_ok_iff : p.convert t = .ok u ↔ p.Coerced t u := by
  rw [convert]
  cases hfind : t.items.find? fun item => (p.coerce? item).isNone with
  | none =>
    have hcoerced := coerced_mapItems (find?_isNone_eq_none_iff.1 hfind)
    constructor
    · intro h
      obtain rfl := Except.ok.inj h
      exact hcoerced
    · intro h
      rw [h.eq_mapItems]
      rfl
  | some item =>
    obtain ⟨before, after, hitems, -, hnone⟩ := find?_isNone_eq_some_iff.1 hfind
    exact iff_of_false nofun fun h => h.ne_none item (by simp [hitems]) hnone

theorem convert_eq_error_iff {cause : CallFault} :
    p.convert t = .error cause ↔ ∃ before item after, t.items = before ++ item :: after ∧
      (∀ x ∈ before, p.coerce? x ≠ none) ∧ p.coerce? item = none ∧
      cause = .unconvertible p.name item := by
  constructor
  · intro h
    rw [convert] at h
    cases hfind : t.items.find? fun item => (p.coerce? item).isNone with
    | none =>
      rw [hfind] at h
      cases h
    | some item =>
      rw [hfind] at h
      obtain ⟨before, after, hitems, hbefore, hnone⟩ := find?_isNone_eq_some_iff.1 hfind
      exact ⟨before, item, after, hitems, hbefore, hnone, (Except.error.inj h).symm⟩
  · intro h
    obtain ⟨before, item, after, hitems, hbefore, hnone, rfl⟩ := h
    rw [convert, find?_isNone_eq_some_iff.2 ⟨before, after, hitems, hbefore, hnone⟩]

/-! ## Runs -/

/-- The one input is optional, so a tree without items is handed on as well. -/
theorem inputTrees?_signature (p : Parameter) (t : Tree) :
    inputTrees? p.signature.inputs [t] = some [t] := by
  have htree : inputTree? ((Input.tree "Data" ["D", "Value", "Values", "Input"]).asOptional) t
      = some t := by
    cases h : t.hasNoItems <;> simp [inputTree?, Input.tree, Input.asOptional, h]
  rw [inputTrees?, Option.mapM_eq_some_iff]
  exact .cons htree .nil

theorem callValues_tree (p : Parameter) (t : Tree) :
    callValues (.params p) [.tree t]
      = ((p.convert t).mapError .call).map fun u => [.tree u] := by
  rw [callValues_eq]
  show (p.convert t >>= fun u => (.ok [.tree u] : CallResult)).mapError Failure.call = _
  cases p.convert t <;> rfl

/-- The whole tree is the argument of the one call, and what the call gives is the output. -/
theorem run_eq (p : Parameter) (t : Tree) :
    run (.params p) [t] = ((p.convert t).mapError .call).map fun u => [u] := by
  have hrow : rowOf (.params p) ⟨.default, [[.tree t]]⟩
      = ((p.convert t).mapError .call).map fun u => ⟨.default, [[.tree u]]⟩ := by
    rw [rowOf, List.mapM_cons, List.mapM_nil, callValues_tree]
    cases p.convert t <;> rfl
  simp only [run, Kind.signature, p.inputTrees?_signature]
  show ([⟨.default, [[.tree t]]⟩].mapM (rowOf (.params p)) >>= fun rows =>
    .ok [outputTree rows 0]) = _
  rw [List.mapM_cons, List.mapM_nil, hrow]
  cases p.convert t with
  | error cause => rfl
  | ok u => exact congrArg (fun u => Except.ok [u]) (outputTree_tree u)

theorem runComponent_eq_ok_iff {component : String} {outs : List Tree} :
    runComponent (.params p) component [t] = .ok outs ↔ ∃ u, outs = [u] ∧ p.Coerced t u := by
  rw [runComponent, Except.mapError_eq_ok_iff, run_eq, Except.map_eq_ok_iff]
  refine exists_congr fun u => ?_
  rw [Except.mapError_eq_ok_iff, convert_eq_ok_iff, and_comm, eq_comm]

theorem runComponent_eq_error_iff {component : String} {e : TreeFlow.Failure} :
    runComponent (.params p) component [t] = .error e ↔
      ∃ before item after, t.items = before ++ item :: after ∧
        (∀ x ∈ before, p.coerce? x ≠ none) ∧ p.coerce? item = none ∧
        e = .componentEvaluation component (.unconvertible p.name item) := by
  simp only [runComponent, run_eq, Except.mapError_eq_error_iff, Except.map_eq_error_iff,
    convert_eq_error_iff]
  constructor
  · intro h
    obtain ⟨_, ⟨_, ⟨before, item, after, hitems, hbefore, hnone, rfl⟩, rfl⟩, rfl⟩ := h
    exact ⟨before, item, after, hitems, hbefore, hnone, rfl⟩
  · intro h
    obtain ⟨before, item, after, hitems, hbefore, hnone, rfl⟩ := h
    exact ⟨_, ⟨_, ⟨before, item, after, hitems, hbefore, hnone, rfl⟩, rfl⟩, rfl⟩

theorem exists_runComponent_eq_error_iff {component : String} :
    (∃ e, runComponent (.params p) component [t] = .error e) ↔
      ∃ item ∈ t.items, p.coerce? item = none := by
  simp only [runComponent_eq_error_iff]
  constructor
  · intro h
    obtain ⟨e, before, item, after, hitems, -, hnone, -⟩ := h
    exact ⟨item, by simp [hitems], hnone⟩
  · intro h
    obtain ⟨item, hitem, hnone⟩ := h
    cases hfind : t.items.find? fun item => (p.coerce? item).isNone with
    | none => exact absurd hnone (find?_isNone_eq_none_iff.1 hfind item hitem)
    | some first =>
      obtain ⟨before, after, hitems, hbefore, hfirst⟩ := find?_isNone_eq_some_iff.1 hfind
      exact ⟨_, before, first, after, hitems, hbefore, hfirst, rfl⟩

theorem message_unconvertible (component kind : String) (item : Item) :
    (TreeFlow.Failure.componentEvaluation component (.unconvertible kind item)).message
      = "component " ++ component ++ " failed: " ++ kind ++ " parameter cannot convert "
        ++ item.formName ++ " '" ++ item.display ++ "'" := by
  show ("component " ++ component ++ " failed: ") ++ (kind ++ " parameter cannot convert " ++
    (item.formName ++ " '" ++ item.display ++ "'")) = _
  simp only [String.append_assoc]

/-- A parameter gives a tree of the same shape, with the form of each item in its place, or it fails
with the first item that has none; and it leaves what it gives as it is. -/
theorem runComponent_projects (p : Parameter) (component : String) (t : Tree) :
    (∀ outs, runComponent (.params p) component [t] = .ok outs ↔
        ∃ u, outs = [u] ∧ p.Coerced t u) ∧
      (∀ e, runComponent (.params p) component [t] = .error e ↔
        ∃ before item after, t.items = before ++ item :: after ∧
          (∀ x ∈ before, p.coerce? x ≠ none) ∧ p.coerce? item = none ∧
          e = .componentEvaluation component (.unconvertible p.name item)) ∧
      (∀ item, (TreeFlow.Failure.componentEvaluation component
          (.unconvertible p.name item)).message
        = "component " ++ component ++ " failed: " ++ p.name ++ " parameter cannot convert "
          ++ item.formName ++ " '" ++ item.display ++ "'") ∧
      ((∃ e, runComponent (.params p) component [t] = .error e) ↔
        ∃ item ∈ t.items, p.coerce? item = none) ∧
      ∀ u, runComponent (.params p) component [t] = .ok [u] →
        runComponent (.params p) component [u] = .ok [u] := by
  refine ⟨fun outs => runComponent_eq_ok_iff, fun e => runComponent_eq_error_iff,
    message_unconvertible component p.name, exists_runComponent_eq_error_iff, fun u h => ?_⟩
  obtain ⟨u', hu, hcoerced⟩ := runComponent_eq_ok_iff.1 h
  obtain rfl := List.singleton_inj.1 hu
  exact runComponent_eq_ok_iff.2 ⟨u, rfl, hcoerced.again⟩

end Parameter

namespace Sample

/-- Integers in several forms, with a null, a branch above another one and an empty branch. -/
def untyped : Tree :=
  .ofBranches [(⟨[0]⟩, [.text " 4 ", .null]), (⟨[0, 0]⟩, []), (⟨[1]⟩, [.boolean true])]

def typed : Tree :=
  .ofBranches [(⟨[0]⟩, [.integer 4, .null]), (⟨[0, 0]⟩, []), (⟨[1]⟩, [.integer 1])]

end Sample

theorem Parameter.runComponent_projects_sample :
    runComponent (.params .integer) "Integer" [Sample.untyped] = .ok [Sample.typed] ∧
      Parameter.integer.Coerced Sample.untyped Sample.typed ∧
      runComponent (.params .integer) "Integer" [Sample.typed] = .ok [Sample.typed] := by
  have hrun : runComponent (.params .integer) "Integer" [Sample.untyped] = .ok [Sample.typed] := rfl
  obtain ⟨hok, -, -, -, hagain⟩ :=
    Parameter.runComponent_projects .integer "Integer" Sample.untyped
  obtain ⟨u, hu, hcoerced⟩ := (hok _).1 hrun
  obtain rfl := List.singleton_inj.1 hu
  exact ⟨hrun, hcoerced, hagain _ hrun⟩

end Component
end TreeFlow
