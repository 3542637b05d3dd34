import TreeFlow.Literal
import TreeFlow.Proofs.Json.Sized
import TreeFlow.Proofs.Tree.Document
/-
What is read of a literal that was written.

A literal comes from a text, so its numbers and coordinates are finite (`isFinite_of_ofJson`).  A
finite literal is read back in its own form: neither a list nor a map of branches is taken for a
single item, because lists and maps are tried first, and a single item is never taken for either of
them, because none of its members is a list (`ofJson_toJson`).
-/

namespace TreeFlow

open Json (Decoded)

/-! ## Items of a text -/

/-- A draft of a point or vector that is finite so far. -/
structure ShapeDraft.IsFinite (d : ShapeDraft) : Prop where
  shape : ∀ make ∈ d.shape, make = Item.point ∨ make = Item.vector
  x : ∀ x ∈ d.x, x.isFinite = true
  y : ∀ y ∈ d.y, y.isFinite = true
  z : ∀ z ∈ d.z, z.isFinite = true

theorem of_shape?_eq_some {v : Json} {make : Coordinates → Item} (h : shape? v = some make) :
    make = .point ∨ make = .vector := by
  unfold shape? at h
  split at h
  · exact .inl (Option.some.inj h).symm
  · exact .inr (Option.some.inj h).symm
  · exact .inl (Option.some.inj h).symm
  · exact .inr (Option.some.inj h).symm
  · cases h

theorem ShapeDraft.IsFinite.field {d d' : ShapeDraft} {name : String} {v : Json} (hv : v.Sized)
    (hd : d.IsFinite) (h : d.field name v = .ok d') : d'.IsFinite := by
  unfold ShapeDraft.field at h
  split at h
  · obtain ⟨make, hmake, rfl⟩ := Json.exists_of_once h
    have hshape := of_shape?_eq_some (Json.required_eq_ok_iff.1 hmake)
    exact { hd with shape := fun _ h => Option.some.inj h ▸ hshape }
  · obtain ⟨x, hx, rfl⟩ := Json.exists_of_once h
    exact { hd with x := Json.forall_isFinite_of_asFloat hv hx }
  · obtain ⟨y, hy, rfl⟩ := Json.exists_of_once h
    exact { hd with y := Json.forall_isFinite_of_asFloat hv hy }
  · obtain ⟨z, hz, rfl⟩ := Json.exists_of_once h
    exact { hd with z := Json.forall_isFinite_of_asFloat hv hz }
  · exact Except.ok.inj h ▸ hd

theorem of_shapeOfJson {v : Json} {i : Item} (hv : v.Sized) (h : shapeOfJson v = .ok i) :
    ∃ a : Coordinates, a.IsFinite ∧ (i = .point a ∨ i = .vector a) := by
  obtain ⟨d, hd, hfinish⟩ := Json.draft_of_asRecord h hv ShapeDraft.IsFinite
    ⟨nofun, nofun, nofun, nofun⟩ fun hv hd h => hd.field hv h
  obtain ⟨make, hmake, hfinish⟩ := Except.bind_eq_ok_iff.1 hfinish
  obtain ⟨x, hx, hfinish⟩ := Except.bind_eq_ok_iff.1 hfinish
  obtain ⟨y, hy, hfinish⟩ := Except.bind_eq_ok_iff.1 hfinish
  obtain ⟨z, hz, hfinish⟩ := Except.bind_eq_ok_iff.1 hfinish
  obtain rfl := Except.ok.inj hfinish
  refine ⟨⟨x, y, z⟩, ⟨hd.x x (Json.required_eq_ok_iff.1 hx), hd.y y (Json.required_eq_ok_iff.1 hy),
    hd.z z (Json.required_eq_ok_iff.1 hz)⟩, ?_⟩
  cases hd.shape make (Json.required_eq_ok_iff.1 hmake) with
  | inl h => exact .inl (by rw [h])
  | inr h => exact .inr (by rw [h])

namespace Item

theorem of_toOption_shapeOfJson {v : Json} {i : Item} (hv : v.Sized)
    (h : (shapeOfJson v).toOption = some i) : i.IsFinite ∧ i ≠ .null := by
  obtain ⟨a, ha, rfl | rfl⟩ := of_shapeOfJson hv (Except.toOption_eq_some_iff.1 h)
  · exact ⟨ha, nofun⟩
  · exact ⟨ha, nofun⟩

/-- An item of a text is finite, and only `null` is read as `null`. -/
theorem of_ofSound? {v : Json} {i : Item} (hv : v.Sized) (h : ofSound? v = some i) :
    i.IsFinite ∧ (i = .null → v = .null) := by
  cases hv with
  | null =>
    obtain rfl := Option.some.inj h
    exact ⟨trivial, fun _ => rfl⟩
  | boolean | text =>
    obtain rfl := Option.some.inj h
    exact ⟨trivial, nofun⟩
  | real hx =>
    obtain rfl := Option.some.inj h
    exact ⟨hx, nofun⟩
  | @integer n hn =>
    obtain rfl := Option.some.inj h
    by_cases hword : n ≤ Int64.maxValue.toInt
    · rw [if_pos hword]
      exact ⟨trivial, nofun⟩
    · rw [if_neg hword]
      exact ⟨Binary64.isFinite_ofInt (Json.natAbs_lt_of_isWord hn), nofun⟩
  | list helements =>
    obtain ⟨hfinite, hne⟩ := of_toOption_shapeOfJson (.list helements) h
    exact ⟨hfinite, fun hnull => (hne hnull).elim⟩
  | object hmembers =>
    obtain ⟨hfinite, hne⟩ := of_toOption_shapeOfJson (.object hmembers) h
    exact ⟨hfinite, fun hnull => (hne hnull).elim⟩
  | illegible | cut => cases h

end Item

/-! ## Literals of a text -/

namespace Literal

/-- A literal without a number or coordinate that is not finite. -/
def IsFinite : Literal → Prop
  | .list items => ∀ i ∈ items, i.IsFinite
  | .branches map => ∀ e ∈ map.entries, ∀ i ∈ e.2, i.IsFinite
  | .scalar item => item.IsFinite

instance : DecidablePred IsFinite
  | .list items => inferInstanceAs (Decidable (∀ i ∈ items, i.IsFinite))
  | .branches map => inferInstanceAs (Decidable (∀ e ∈ map.entries, ∀ i ∈ e.2, i.IsFinite))
  | .scalar item => inferInstanceAs (Decidable item.IsFinite)

theorem of_items? {v : Json} {items : List Item} (hv : v.Sized) (h : items? v = some items) :
    ∀ i ∈ items, i.IsFinite := by
  cases hv with
  | list helements =>
    intro i hi
    obtain ⟨w, hw, hread⟩ := (Option.mapM_eq_some_iff.1 h).exists_left hi
    exact (Item.of_ofSound? (helements w hw) hread).1
  | null | boolean | integer | real | text | object | illegible | cut => cases h

theorem of_branches? {v : Json} {map : SortedMap String (List Item)} (hv : v.Sized)
    (h : branches? v = some map) : ∀ e ∈ map.entries, ∀ i ∈ e.2, i.IsFinite := by
  cases hv with
  | object hmembers =>
    intro e he
    obtain ⟨listed, hlisted, rfl⟩ := Option.map_eq_some_iff.1 h
    obtain ⟨⟨name, w⟩, hw, hread⟩ :=
      (Option.mapM_eq_some_iff.1 hlisted).exists_left (SortedMap.mem_of_mem_ofList he)
    cases name with
    | text s =>
      obtain ⟨items, hitems, heq⟩ := Option.map_eq_some_iff.1 hread
      obtain ⟨-, rfl⟩ := Prod.mk.inj heq
      exact of_items? (hmembers _ hw) hitems
    | null | boolean | integer | real | list | object | illegible | cut => cases hread
  | null | boolean | integer | real | text | list | illegible | cut => cases h

theorem ofJson_eq_ok_iff {room : Nat} {v : Json} {l : Literal} :
    ofJson room v = .ok l ↔ v.sound room = true ∧ ofSound? v = some l :=
  Except.ite_elim_eq_ok_iff

/-- A literal of a text is finite, and only `null` is read as `null`. -/
theorem isFinite_of_ofJson {room : Nat} {v : Json} {l : Literal} (hv : v.Sized)
    (h : ofJson room v = .ok l) : l.IsFinite ∧ (l = .scalar .null → v = .null) := by
  obtain ⟨-, h⟩ := ofJson_eq_ok_iff.1 h
  rcases Option.or_eq_some_iff.1 h with h | ⟨-, h⟩
  · obtain ⟨items, hitems, rfl⟩ := Option.map_eq_some_iff.1 h
    exact ⟨of_items? hv hitems, nofun⟩
  · rcases Option.or_eq_some_iff.1 h with h | ⟨-, h⟩
    · obtain ⟨map, hmap, rfl⟩ := Option.map_eq_some_iff.1 h
      exact ⟨of_branches? hv hmap, nofun⟩
    · obtain ⟨i, hi, rfl⟩ := Option.map_eq_some_iff.1 h
      obtain ⟨hfinite, hnull⟩ := Item.of_ofSound? hv hi
      exact ⟨hfinite, fun heq => hnull (Literal.scalar.inj heq)⟩

end Literal

/-! ## What was written -/

namespace Item

theorem ofJson_eq_ok_iff {room : Nat} {v : Json} {i : Item} :
    ofJson room v = .ok i ↔ v.sound room = true ∧ ofSound? v = some i :=
  Except.ite_elim_eq_ok_iff

theorem sound_toJson {room : Nat} (hroom : 0 < room) (i : Item) : i.toJson.sound room = true := by
  cases i with
  | null | boolean value | integer value | text value => rfl
  | number x => exact Json.sound_ofFloat room x
  | point a => exact sound_shapeToJson hroom "point" a
  | vector a => exact sound_shapeToJson hroom "vector" a

theorem ofSound?_toJson {i : Item} (h : i.IsFinite) : ofSound? i.toJson = some i := by
  obtain ⟨hreadable, hreread⟩ := i.isFinite_iff.1 h
  have hread : ofJson 1 i.toJson = .ok i := by
    rw [ofJson_toJson Nat.one_pos, if_pos hreadable, hreread]
  exact (ofJson_eq_ok_iff.1 hread).2

end Item

theorem sound_itemsToJson {room : Nat} (hroom : 1 < room) (items : List Item) :
    (itemsToJson items).sound room = true :=
  Json.sound_list_map Item.toJson (Nat.zero_lt_of_lt hroom) fun i _ =>
    i.sound_toJson (Nat.sub_pos_of_lt hroom)

namespace Literal

variable {items : List Item} {map : SortedMap String (List Item)}

theorem items?_itemsToJson (h : ∀ i ∈ items, i.IsFinite) :
    items? (itemsToJson items) = some items := by
  show (items.map Item.toJson).mapM Item.ofSound? = some items
  rw [List.mapM_map]
  exact Option.mapM_eq_some_self fun i hi => Item.ofSound?_toJson (h i hi)

theorem branches?_branches (h : (branches map).IsFinite) :
    branches? (branches map).toJson = some map := by
  show Option.map SortedMap.ofList ((map.entries.map _).mapM _) = some map
  rw [List.mapM_map, Option.mapM_eq_some_self, Option.map_some, SortedMap.ofList_entries]
  intro e he
  show (items? (itemsToJson e.2)).map (fun items => (e.1, items)) = some e
  rw [items?_itemsToJson (h e he)]
  rfl

theorem items?_toJson (i : Item) : items? i.toJson = none := by
  cases i with
  | number x =>
    show items? (if x.isFinite then .real x else .null) = none
    split <;> rfl
  | null | boolean value | integer value | text value | point a | vector a => rfl

/-- The kind of a point or vector is no list. -/
theorem branches?_toJson (i : Item) : branches? i.toJson = none := by
  cases i with
  | number x =>
    show branches? (if x.isFinite then .real x else .null) = none
    split <;> rfl
  | null | boolean value | integer value | text value | point a | vector a => rfl

/-- A finite literal is read back in its own form. -/
theorem ofJson_toJson {room : Nat} (hroom : 2 < room) {l : Literal} (h : l.IsFinite) :
    ofJson room l.toJson = .ok l := by
  refine ofJson_eq_ok_iff.2 ?_
  cases l with
  | list items =>
    refine ⟨sound_itemsToJson (Nat.lt_of_succ_lt hroom) items, ?_⟩
    show ((items? (itemsToJson items)).map list).or _ = _
    rw [items?_itemsToJson h]
    rfl
  | branches map =>
    constructor
    · exact Json.sound_object_map itemsToJson (Nat.zero_lt_of_lt hroom) fun e _ =>
        sound_itemsToJson (Nat.lt_sub_of_add_lt hroom) e.2
    · show ((branches? (branches map).toJson).map branches).or _ = _
      rw [branches?_branches h]
      rfl
  | scalar i =>
    have hroom : 0 < room := by omega
    refine ⟨i.sound_toJson hroom, ?_⟩
    show ((items? i.toJson).map list).or (((branches? i.toJson).map branches).or
      ((Item.ofSound? i.toJson).map scalar)) = _
    rw [items?_toJson, branches?_toJson, Item.ofSound?_toJson h]
    rfl

theorem toJson_ne_null {l : Literal} (h : l.IsFinite) (hne : l ≠ .scalar .null) :
    l.toJson ≠ .null := by
  intro hnull
  cases l with
  | list items => cases hnull
  | branches map => cases hnull
  | scalar i =>
    have hread := Item.ofSound?_toJson h
    rw [show i.toJson = .null from hnull] at hread
    exact hne (congrArg scalar (Option.some.inj hread).symm)

end Literal
end TreeFlow
