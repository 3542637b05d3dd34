import TreeFlow.Proofs.Json.Text
import TreeFlow.Proofs.Literal.Branches
/-
The form in which a literal is read.

A point may be given as a list, but its parts are items themselves, so it is read as a list of them
before it is tried as a point.  An object is a map of branches or a point and never both, because
the parts of a point are no lists.  Hence lists are lists of items, maps are objects of such lists,
and single items are all else that reads as an item; and exactly the finite literals and items come
back in the form in which they were written (`forms_distinct`).
-/

namespace TreeFlow

open Json (Decoded)

/-! ## Points and vectors -/

/-- A value that can be the kind or a coordinate of a point. -/
inductive Json.Flat : Json → Prop
  | text {s : String} : Flat (.text s)
  | integer {n : Int} : Flat (.integer n)
  | real {x : Float} : Flat (.real x)

theorem Json.flat_of_asFloat {v : Json} {x : Float} (h : Json.asFloat v = .ok x) : v.Flat := by
  cases v with
  | integer n => exact .integer
  | real x => exact .real
  | null | boolean | text | list | object | illegible | cut => cases h

theorem flat_of_shape? {v : Json} {make : Coordinates → Item} (h : shape? v = some make) :
    v.Flat := by
  cases v with
  | text s => exact .text
  | integer n => exact .integer
  | null | boolean | real | list | object | illegible | cut => cases h

theorem ShapeDraft.flat_of_field {d d' : ShapeDraft} {name : String} {v : Json}
    (hname : name ∈ ["kind", "x", "y", "z"]) (h : d.field name v = .ok d') : v.Flat := by
  unfold ShapeDraft.field at h
  split at h
  · obtain ⟨make, hmake, -⟩ := Json.exists_of_once h
    exact flat_of_shape? (Json.required_eq_ok_iff.1 hmake)
  · obtain ⟨x, hx, -⟩ := Json.exists_of_once h
    exact Json.flat_of_asFloat hx
  · obtain ⟨y, hy, -⟩ := Json.exists_of_once h
    exact Json.flat_of_asFloat hy
  · obtain ⟨z, hz, -⟩ := Json.exists_of_once h
    exact Json.flat_of_asFloat hz
  next hkind hx hy hz =>
    obtain h | h | h | h : name = "kind" ∨ name = "x" ∨ name = "y" ∨ name = "z" := by
      simpa using hname
    · exact (hkind h).elim
    · exact (hx h).elim
    · exact (hy h).elim
    · exact (hz h).elim

/-- Not all parts of a point are lists. -/
theorem exists_flat_of_shapeOfJson {v : Json} {i : Item} (h : shapeOfJson v = .ok i) :
    ∃ w ∈ v.parts, w.Flat := by
  by_contra hnone
  have hnone : ∀ w ∈ v.parts, ¬ w.Flat := fun w hw hflat => hnone ⟨w, hw, hflat⟩
  obtain ⟨d, rfl, hfinish⟩ := Json.draft_of_parts h (· = ShapeDraft.start) rfl
    fun hname hw _ hstep => absurd (ShapeDraft.flat_of_field hname hstep) (hnone _ hw)
  cases hfinish

/-- A list that can be read as a point has no parts beside the kind and the coordinates. -/
theorem flat_of_shapeOfJson_list {elements : List Json} {i : Item}
    (h : shapeOfJson (.list elements) = .ok i) : ∀ w ∈ elements, w.Flat := by
  obtain ⟨d, hd, h⟩ := Except.bind_eq_ok_iff.1 h
  obtain ⟨i', -, h⟩ := Except.bind_eq_ok_iff.1 h
  -- A fifth element is refused, so each of them stands for a field.
  have hlength : elements.length ≤ ["kind", "x", "y", "z"].length := by
    by_contra hlong
    rw [if_pos (Nat.lt_of_not_le hlong)] at h
    cases h
  intro w hw
  rw [← List.map_snd_zip hlength] at hw
  obtain ⟨m, hm, rfl⟩ := List.mem_map.1 hw
  obtain ⟨c, c', hstep⟩ := Except.exists_step_of_foldlM hd hm
  exact ShapeDraft.flat_of_field (List.of_mem_zip hm).1 hstep

/-! ## Which form -/

namespace Literal

variable {v : Json} {i : Item}

theorem exists_item_of_flat (h : v.Flat) : ∃ i, Item.ofSound? v = some i := by
  cases h with
  | text | integer | real => exact ⟨_, rfl⟩

/-- A list that can be read as a point is read as a list. -/
theorem exists_items_of_flat {elements : List Json} (h : ∀ w ∈ elements, w.Flat) :
    ∃ items, items? (.list elements) = some items :=
  Option.exists_mapM_eq_some fun w hw => exists_item_of_flat (h w hw)

theorem not_flat_of_items? {items : List Item} (h : items? v = some items) : ¬ v.Flat := by
  intro hflat
  cases hflat with
  | text | integer | real => cases h

/-- An object is not both a map of branches and a point. -/
theorem branches?_eq_none_of_shapeOfJson {members : List (Json × Json)}
    (h : shapeOfJson (.object members) = .ok i) : branches? (.object members) = none := by
  cases hbranches : branches? (.object members) with
  | none => rfl
  | some map =>
    obtain ⟨w, hw, hflat⟩ := exists_flat_of_shapeOfJson h
    obtain ⟨m, hm, rfl⟩ := List.mem_map.1 hw
    obtain ⟨l, hl, -⟩ := branches?_object_eq_some_iff.1 hbranches
    obtain ⟨e, -, -, hitems⟩ := hl.exists_right hm
    exact absurd hflat (not_flat_of_items? hitems)

theorem ofSound?_eq_list_iff {items : List Item} :
    ofSound? v = some (.list items) ↔ items? v = some items := by
  simp [ofSound?, Option.or_eq_some_iff]

/-- A single item is whatever is no list and reads as an item. -/
theorem ofSound?_eq_scalar_iff : ofSound? v = some (.scalar i) ↔
    (∀ elements, v ≠ .list elements) ∧ Item.ofSound? v = some i := by
  have hforms : ofSound? v = some (.scalar i) ↔
      items? v = none ∧ branches? v = none ∧ Item.ofSound? v = some i := by
    simp [ofSound?, Option.or_eq_some_iff]
  rw [hforms]
  constructor
  · intro h
    obtain ⟨hitems, -, hitem⟩ := h
    refine ⟨fun elements hlist => ?_, hitem⟩
    subst hlist
    have hflat := flat_of_shapeOfJson_list (Except.toOption_eq_some_iff.1 hitem)
    obtain ⟨items, hsome⟩ := exists_items_of_flat hflat
    rw [hitems] at hsome
    cases hsome
  · intro h
    obtain ⟨hlist, hitem⟩ := h
    cases v with
    | list elements => exact absurd rfl (hlist elements)
    | object members =>
      have hshape := Except.toOption_eq_some_iff.1 hitem
      exact ⟨rfl, branches?_eq_none_of_shapeOfJson hshape, hitem⟩
    | null | boolean | integer | real | text | illegible | cut => exact ⟨rfl, rfl, hitem⟩

end Literal

/-! ## What is written -/

theorem Json.sized_ofFloat (x : Float) : (Json.ofFloat x).Sized := by
  unfold Json.ofFloat
  split
  · exact .real ‹_›
  · exact .null

theorem Json.isWord_toInt (w : Int64) : Json.isWord w.toInt = true := by
  have hlow := w.minValue_le_toInt
  have hhigh := w.toInt_lt
  have hsize : (UInt64.size : Int) = 2 ^ 64 := by decide
  refine Bool.and_eq_true_iff.2 ⟨decide_eq_true hlow, decide_eq_true ?_⟩
  omega

theorem sized_shapeToJson (kind : String) (a : Coordinates) :
    (Item.toJson.shapeToJson kind a).Sized := by
  refine .object (List.forall_mem_cons.2 ⟨.text, ?_⟩)
  refine List.forall_mem_cons.2 ⟨Json.sized_ofFloat a.x, ?_⟩
  refine List.forall_mem_cons.2 ⟨Json.sized_ofFloat a.y, ?_⟩
  exact List.forall_mem_singleton.2 (Json.sized_ofFloat a.z)

theorem Item.sized_toJson (i : Item) : i.toJson.Sized := by
  cases i with
  | null => exact .null
  | boolean value => exact .boolean
  | integer value => exact .integer (Json.isWord_toInt value)
  | number x => exact Json.sized_ofFloat x
  | text value => exact .text
  | point a => exact sized_shapeToJson "point" a
  | vector a => exact sized_shapeToJson "vector" a

theorem sized_itemsToJson (items : List Item) : (itemsToJson items).Sized :=
  .list (List.forall_mem_map.2 fun i _ => i.sized_toJson)

namespace Literal

theorem sized_toJson (l : Literal) : l.toJson.Sized := by
  cases l with
  | list items => exact sized_itemsToJson items
  | branches map => exact .object (List.forall_mem_map.2 fun e _ => sized_itemsToJson e.2)
  | scalar i => exact i.sized_toJson

theorem ofJson_toJson_iff {room : Nat} (hroom : 2 < room) (l : Literal) :
    ofJson room l.toJson = .ok l ↔ l.IsFinite :=
  ⟨fun h => (isFinite_of_ofJson l.sized_toJson h).1, ofJson_toJson hroom⟩

end Literal

theorem Item.ofJson_toJson_iff {room : Nat} (hroom : 0 < room) (i : Item) :
    ofJson room i.toJson = .ok i ↔ i.IsFinite := by
  rw [ofJson_toJson hroom, i.isFinite_iff, Except.ite_eq_ok_iff]

namespace Literal

/-! ## One form for each value -/

/-- A literal is read in the one form that its value has, and what is finite is read in the form in
which it was written, from its text as well. -/
theorem forms_distinct {room : Nat} (hroom : 2 < room) :
    (∀ l : Literal, ofJson room l.toJson = .ok l ↔ l.IsFinite) ∧
    (∀ i : Item, Item.ofJson room i.toJson = .ok i ↔ i.IsFinite) ∧
    (∀ (l : Literal) style, l.toJson.spelled = true →
      (Json.decode (ofJson room) (Text.unitsOf (l.toJson.write style "")) = .ok l ↔
        l.IsFinite)) ∧
    (∀ v items, ofJson room v = .ok (.list items) ↔
      Json.asList (Item.ofJson (room - 1)) v = .ok items) ∧
    (∀ v map, ofJson room v = .ok (.branches map) ↔ ∃ l,
      Json.asMembers (Json.asList (Item.ofJson (room - 2))) v = .ok l ∧ .ofList l = map) ∧
    ∀ v i, ofJson room v = .ok (.scalar i) ↔
      (∀ elements, v ≠ .list elements) ∧ Item.ofJson room v = .ok i := by
  have hroom₁ : 1 < room := Nat.lt_of_succ_lt hroom
  have hroom₀ : 0 < room := Nat.lt_of_succ_lt hroom₁
  refine ⟨ofJson_toJson_iff hroom, Item.ofJson_toJson_iff hroom₀, fun l style hspelled => ?_,
    fun v items => ?_, fun v map => ?_, fun v i => ?_⟩
  · rw [Json.decode_write _ hspelled style]
    exact ofJson_toJson_iff hroom l
  · rw [ofJson_eq_ok_iff, asList_eq_ok_iff hroom₀, ofSound?_eq_list_iff]
  · rw [ofJson_eq_ok_iff, exists_asMembers_iff hroom₁, ofSound?_eq_branches_iff]
  · rw [ofJson_eq_ok_iff, Item.ofJson_eq_ok_iff, ofSound?_eq_scalar_iff, and_left_comm]

/-- A list that could be a point, a map of branches under the names of its members, and a number
that could be an integer. -/
def Sample.doubtful : List Literal :=
  [.list [.text "point", .integer 1, .integer 2, .number 3],
    .branches (.ofList [("kind", [.text "point"]), ("x", [.number 5]), ("y", []), ("z", [.null])]),
    .scalar (.point ⟨1, 2, 3⟩), .scalar (.number 5)]

theorem forms_distinct_sample :
    2 < Json.maxNesting ∧ ∀ l ∈ Sample.doubtful, l.IsFinite ∧ l.toJson.spelled = true ∧
      ofJson Json.maxNesting l.toJson = .ok l ∧
      Json.decode (ofJson Json.maxNesting) (Text.unitsOf (l.toJson.write .compact "")) = .ok l := by
  have hroom : 2 < Json.maxNesting := by decide
  have hfinite : ∀ l ∈ Sample.doubtful, l.IsFinite := by decide +kernel
  have hspelled : ∀ l ∈ Sample.doubtful, l.toJson.spelled = true := by decide +kernel
  obtain ⟨hvalue, -, htext, -⟩ := forms_distinct hroom
  refine ⟨hroom, fun l hl => ⟨hfinite l hl, hspelled l hl, (hvalue l).2 (hfinite l hl), ?_⟩⟩
  exact (htext l _ (hspelled l hl)).2 (hfinite l hl)

end Literal
end TreeFlow
