import TreeFlow.Proofs.Component.Parameter
import TreeFlow.Proofs.Item.Integer
/-
Panels: the texts of a tree, and what can be read back from them.

A text parameter takes every tree and puts the text of each item in its place; nulls stay.  A
parameter behind it gives the first tree again exactly if it reads each text as the item that the
text was written for (`run_behind_text`).  Integers are written with all their digits, and a text is
read as an integer before it is read as a number, so that no integer is rounded on the way; truth
values are written with the words that they are read by.  Nothing else comes back, since a parameter
gives only items of its own form (`text_lossless`).
-/

namespace TreeFlow

namespace Item

/-- What is written for a word is read as that word. -/
theorem integer?_display (v : Int64) : (Item.text (Item.integer v).display).integer? = some v := by
  have hunpadded : Text.Padded (toString v.toInt).toList (Item.integer v).display.toList :=
    ⟨[], [], nofun, nofun, List.append_nil _⟩
  obtain ⟨w, hw, hsame⟩ := Component.exists_word (Component.fits_toInt v)
  rw [integer?_text hunpadded, hw, Option.some_or, Int64.toInt_inj.1 hsame]

theorem boolean?_display (b : Bool) : (Item.text (Item.boolean b).display).boolean? = some b := by
  cases b <;> decide +kernel

end Item

namespace Component
namespace Parameter

variable {p : Parameter} {x y : Item} {t : Tree}

/-! ## Items -/

theorem coerce?_text (x : Item) :
    Parameter.text.coerce? x = some (if x.isNull then .null else .text x.display) :=
  (apply_ite some _ _ _).symm

theorem formOf_text (x : Item) :
    Parameter.text.formOf x = if x.isNull then .null else .text x.display := by
  rw [formOf, coerce?_text, Option.getD_some]

/-- A parameter that brings items into a form by looking at them in some way reads back exactly the
items in this form and nulls, if it sees in the text of a form what the form was made of. -/
theorem coerce?_formOf_text_iff {α : Type} {view : Item → Option α} {form : α → Item}
    (hview : ∀ x, p.coerce? x = if x.isNull then some .null else (view x).map form)
    (hform : ∀ a, (form a).isNull = false)
    (hread : ∀ a, view (.text (form a).display) = some a) :
    p.coerce? (Parameter.text.formOf x) = some x ↔ x = .null ∨ ∃ a, x = form a := by
  rw [formOf_text, hview]
  constructor
  · intro h
    split at h
    · exact .inl (Option.some.inj h).symm
    · obtain ⟨a, -, ha⟩ := Option.map_eq_some_iff.1 h
      exact .inr ⟨a, ha.symm⟩
  · intro h
    obtain rfl | ⟨a, rfl⟩ := h
    · rfl
    · rw [hform a]
      exact congrArg (Option.map form) (hread a)

/-! ## Trees -/

/-- A text parameter takes every tree. -/
theorem runComponent_text (component : String) (t : Tree) :
    runComponent (.params .text) component [t] = .ok [t.mapItems Parameter.text.formOf] := by
  refine runComponent_eq_ok_iff.2 ⟨_, rfl, coerced_mapItems fun item _ => ?_⟩
  rw [coerce?_text]
  exact Option.some_ne_none _

/-- A tree is what becomes of its image if each item is what becomes of its own. -/
theorem coerced_mapItems_iff {f : Item → Item} :
    p.Coerced (t.mapItems f) t ↔ ∀ item ∈ t.items, p.coerce? (f item) = some item := by
  show List.Forall₂ _ (t.branches.entries.map fun e => (e.1, e.2.map f)) t.branches.entries ↔ _
  rw [List.forall₂_map_left_iff, List.forall₂_same, Tree.items_eq]
  simp only [List.forall₂_map_left_iff, List.forall₂_same, List.mem_flatMap]
  constructor
  · intro h item hitem
    obtain ⟨e, he, hitem⟩ := hitem
    exact ((h e he).2 item hitem).1
  · intro h e he
    refine ⟨trivial, fun item hitem => ?_⟩
    have hitem := h item ⟨e, he, hitem⟩
    exact ⟨hitem, null_iff_of_coerce? hitem⟩

/-- A parameter behind a panel gives the tree in front of it exactly if it reads all texts back. -/
theorem run_behind_text (p : Parameter) (panel component : String) (t : Tree) :
    (runComponent (.params .text) panel [t] >>= runComponent (.params p) component) = .ok [t] ↔
      ∀ item ∈ t.items, p.coerce? (Parameter.text.formOf item) = some item := by
  rw [runComponent_text, Except.ok_bind, runComponent_eq_ok_iff, ← coerced_mapItems_iff]
  constructor
  · intro h
    obtain ⟨u, hu, hcoerced⟩ := h
    obtain rfl := List.singleton_inj.1 hu
    exact hcoerced
  · intro h
    exact ⟨t, rfl, h⟩

/-- Panels lose no integer and no truth value: a tree of integers and nulls, or of truth values and
nulls, comes back from its texts, and these are the only trees that do. -/
theorem text_lossless (panel component : String) (t : Tree) :
    ((runComponent (.params .text) panel [t] >>= runComponent (.params .integer) component)
        = .ok [t] ↔ ∀ item ∈ t.items, item = .null ∨ ∃ v, item = .integer v) ∧
      ((runComponent (.params .text) panel [t] >>= runComponent (.params .boolean) component)
        = .ok [t] ↔ ∀ item ∈ t.items, item = .null ∨ ∃ b, item = .boolean b) := by
  have hinteger : ∀ x, Parameter.integer.coerce? (Parameter.text.formOf x) = some x ↔
      x = .null ∨ ∃ v, x = .integer v := fun x =>
    coerce?_formOf_text_iff (fun _ => rfl) (fun _ => rfl) Item.integer?_display
  have hboolean : ∀ x, Parameter.boolean.coerce? (Parameter.text.formOf x) = some x ↔
      x = .null ∨ ∃ b, x = .boolean b := fun x =>
    coerce?_formOf_text_iff (fun _ => rfl) (fun _ => rfl) Item.boolean?_display
  simp only [run_behind_text, hinteger, hboolean, and_self]

end Parameter
end Component
end TreeFlow
