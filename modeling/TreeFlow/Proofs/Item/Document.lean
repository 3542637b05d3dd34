import TreeFlow.Item.Document
import TreeFlow.Proofs.Json.Decode
/-
What is read of an item that was written.

Every form of item reads as itself, with one exception among the numbers, which is lost to `null` if
it is not finite.  A point or vector has no form of its own for such a coordinate, and is not read
at all (`ofJson_toJson`).
-/

namespace TreeFlow

open Json (Decoded)

def Coordinates.IsFinite (a : Coordinates) : Prop :=
  a.x.isFinite = true ∧ a.y.isFinite = true ∧ a.z.isFinite = true

instance (a : Coordinates) : Decidable a.IsFinite := inferInstanceAs (Decidable (_ ∧ _))

namespace Item

/-- A point or vector with finite coordinates, or anything else. -/
def Readable (i : Item) : Prop := ∀ a ∈ i.coordinates?, a.IsFinite

instance (i : Item) : Decidable i.Readable :=
  inferInstanceAs (Decidable (∀ a ∈ i.coordinates?, a.IsFinite))

/-- An item as it comes back from its document. -/
def reread : Item → Item
  | .number x => if x.isFinite then .number x else .null
  | i => i

theorem shapeOfJson_object {kind : String} {make : Coordinates → Item}
    (hkind : shape? (.text kind) = some make) (x y z : Json) :
    shapeOfJson (.object [Json.member "kind" (.text kind), Json.member "x" x, Json.member "y" y,
        Json.member "z" z])
      = do return make ⟨← Json.asFloat x, ← Json.asFloat y, ← Json.asFloat z⟩ := by
  refine (Json.asRecord_object _ .start ShapeDraft.field ShapeDraft.finish
    [.text kind, x, y, z]).trans ?_
  simp only [List.zip_cons_cons, List.zip_nil_right, List.foldlM_cons, List.foldlM_nil,
    ShapeDraft.field, ShapeDraft.start, hkind, Json.once_none]
  cases Json.asFloat x with
  | error e => rfl
  | ok x =>
    cases Json.asFloat y with
    | error e => rfl
    | ok y => cases Json.asFloat z <;> rfl

theorem shapeOfJson_shapeToJson {kind : String} {make : Coordinates → Item}
    (hkind : shape? (.text kind) = some make) (a : Coordinates) :
    shapeOfJson (toJson.shapeToJson kind a)
      = if a.IsFinite then .ok (make a) else .error .mismatch := by
  refine (shapeOfJson_object hkind _ _ _).trans ?_
  rw [Json.asFloat_ofFloat, Json.asFloat_ofFloat, Json.asFloat_ofFloat]
  by_cases h : a.IsFinite
  · rw [if_pos h, if_pos h.1, if_pos h.2.1, if_pos h.2.2]
    rfl
  · rw [if_neg h]
    split_ifs with hx hy hz
    · exact absurd ⟨hx, hy, hz⟩ h
    all_goals rfl

theorem sound_shapeToJson {room : Nat} (hroom : 0 < room) (kind : String) (a : Coordinates) :
    (toJson.shapeToJson kind a).sound room = true := by
  have hne : (room != 0) = true := by simpa using Nat.pos_iff_ne_zero.1 hroom
  simp [toJson.shapeToJson, Json.sound, Json.soundMembers, Json.member, Json.sound_ofFloat, hne]

/-- Only points and vectors with a coordinate that is not finite are refused. -/
theorem ofJson_toJson {room : Nat} (hroom : 0 < room) (i : Item) :
    ofJson room i.toJson = if i.Readable then .ok i.reread else .error .mismatch := by
  have hshape : ∀ {kind : String} {make : Coordinates → Item},
      shape? (.text kind) = some make → ∀ a, ofJson room (toJson.shapeToJson kind a)
        = if a.IsFinite then .ok (make a) else .error .mismatch := by
    intro kind make hkind a
    unfold ofJson
    rw [if_pos (sound_shapeToJson hroom kind a)]
    show (shapeOfJson (toJson.shapeToJson kind a)).toOption.elim (.error Json.Fault.mismatch)
      Except.ok = _
    rw [shapeOfJson_shapeToJson hkind]
    split <;> rfl
  cases i with
  | null => rfl
  | boolean value => rfl
  | text value => rfl
  | integer value =>
    show (ofSound? (.integer value.toInt)).elim (.error Json.Fault.mismatch) Except.ok = _
    have hword : value.toInt ≤ Int64.maxValue.toInt := value.toInt_le
    rw [ofSound?, if_pos hword, Int64.ofInt_toInt]
    rfl
  | number x =>
    show ofJson room (Json.ofFloat x) = .ok (if x.isFinite then .number x else .null)
    unfold Json.ofFloat
    split <;> rfl
  | point a =>
    refine (hshape rfl a).trans ?_
    simp [Readable, coordinates?, reread]
  | vector a =>
    refine (hshape rfl a).trans ?_
    simp [Readable, coordinates?, reread]

/-- An item without a number or coordinate that is not finite. -/
def IsFinite : Item → Prop
  | .number x => x.isFinite = true
  | .point a | .vector a => a.IsFinite
  | _ => True

instance : DecidablePred IsFinite
  | .number _ => inferInstanceAs (Decidable (_ = true))
  | .point a | .vector a => inferInstanceAs (Decidable a.IsFinite)
  | .null | .boolean _ | .integer _ | .text _ => inferInstanceAs (Decidable True)

/-- Exactly the finite items come back unchanged. -/
theorem isFinite_iff (i : Item) : i.IsFinite ↔ i.Readable ∧ i.reread = i := by
  cases i with
  | null => simp [IsFinite, Readable, reread, coordinates?]
  | boolean value => simp [IsFinite, Readable, reread, coordinates?]
  | integer value => simp [IsFinite, Readable, reread, coordinates?]
  | text value => simp [IsFinite, Readable, reread, coordinates?]
  | point a => simp [IsFinite, Readable, reread, coordinates?]
  | vector a => simp [IsFinite, Readable, reread, coordinates?]
  | number x => cases hx : x.isFinite <;> simp [IsFinite, Readable, reread, coordinates?, hx]

end Item

theorem itemsOfJson_itemsToJson {room : Nat} (hroom : 0 < room) (items : List Item) :
    Json.asList (Item.ofJson room) (itemsToJson items)
      = if ∀ i ∈ items, i.Readable then .ok (items.map Item.reread) else .error .mismatch :=
  Json.asList_map Item.toJson fun i _ => i.ofJson_toJson hroom

end TreeFlow
