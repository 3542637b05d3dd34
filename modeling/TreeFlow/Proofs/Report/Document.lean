import TreeFlow.Proofs.Tree.Document
import TreeFlow.Report.Document
/-
What is read of a report that was written.

A report reads as itself, with `null` for the numbers that are not finite.  It is refused exactly
for a position, a point or a vector with a coordinate that is not finite (`ofJson_toJson`): such a
coordinate is written as `null`, and coordinates have to be numbers.
-/

namespace TreeFlow

open Json (Decoded)

/-! ## Positions -/

namespace Position

def IsFinite (p : Position) : Prop := p.x.isFinite = true ∧ p.y.isFinite = true

instance (p : Position) : Decidable p.IsFinite := inferInstanceAs (Decidable (_ ∧ _))

theorem ofJson_object (x y : Json) : ofJson (.object [Json.member "x" x, Json.member "y" y])
    = do return ⟨← Json.asFloat x, ← Json.asFloat y⟩ := by
  refine (Json.asRecord_object _ ⟨none, none⟩ Draft.field Draft.finish [x, y]).trans ?_
  simp only [List.zip_cons_cons, List.zip_nil_right, List.foldlM_cons, List.foldlM_nil,
    Draft.field, Json.once_none]
  cases Json.asFloat x with
  | error e => rfl
  | ok x => cases Json.asFloat y <;> rfl

theorem ofJson_toJson (p : Position) :
    ofJson p.toJson = if p.IsFinite then .ok p else .error .mismatch := by
  refine (ofJson_object _ _).trans ?_
  rw [Json.asFloat_ofFloat, Json.asFloat_ofFloat]
  by_cases h : p.IsFinite
  · rw [if_pos h, if_pos h.1, if_pos h.2]
    rfl
  · rw [if_neg h]
    split_ifs with hx hy
    · exact absurd ⟨hx, hy⟩ h
    all_goals rfl

end Position

/-! ## Statuses -/

theorem Status.ofJson_toJson (room : Nat) (s : Status) : ofJson room s.toJson = .ok s := by
  cases s <;> rfl

namespace Report

/-! ## Parts of entries -/

theorem Info.ofJson_toJson (i : Info) :
    ofJson i.toJson = if i.position.IsFinite then .ok i else .error .mismatch := by
  refine (Json.asRecord_object _ ⟨none, none, none⟩ Draft.field Draft.finish
    [.text i.typeName, .text i.nickname, i.position.toJson]).trans ?_
  simp only [List.zip_cons_cons, List.zip_nil_right, List.foldlM_cons, List.foldlM_nil,
    Draft.field, Json.once_none, i.position.ofJson_toJson]
  split <;> rfl

namespace Output

/-- An output as it comes back from its document. -/
def reread (o : Output) : Output := { o with tree := o.tree.reread }

theorem ofJson_toJson (o : Output) :
    ofJson o.toJson = if o.tree.Readable then .ok o.reread else .error .mismatch := by
  have hroom : 2 < treeRoom := by decide
  have hcount : ∀ n : Nat, Json.asCount (.integer n) = .ok n := fun n => by simp [Json.asCount]
  refine (Json.asRecord_object _ ⟨none, none, none⟩ Draft.field Draft.finish
    [o.tree.toJson, .integer o.itemCount, .integer o.branchCount]).trans ?_
  simp only [List.zip_cons_cons, List.zip_nil_right, List.foldlM_cons, List.foldlM_nil,
    Draft.field, Json.once_none, hcount, Tree.ofJson_toJson hroom]
  split <;> rfl

end Output

/-! ## Entries -/

namespace Entry

/-- An entry at a finite position, with outputs that can be read. -/
def Readable (e : Entry) : Prop :=
  e.info.position.IsFinite ∧ ∀ output ∈ e.outputs.entries, output.2.tree.Readable

instance (e : Entry) : Decidable e.Readable := inferInstanceAs (Decidable (_ ∧ _))

/-- An entry as it comes back from its document. -/
def reread (e : Entry) : Entry := { e with outputs := e.outputs.map Output.reread }

theorem outputsOfJson_object (outputs : SortedMap String Output) :
    outputsOfJson (.object (outputs.entries.map fun output =>
        Json.member output.1 output.2.toJson))
      = if ∀ output ∈ outputs.entries, output.2.tree.Readable then
          .ok (outputs.map Output.reread)
        else .error .mismatch := by
  unfold outputsOfJson
  rw [Json.asMembers_map Output.toJson (f := Output.reread) (P := fun o => o.tree.Readable)
    fun output _ => output.2.ofJson_toJson]
  split
  · show Except.ok (SortedMap.ofList _) = _
    rw [SortedMap.ofList_map]
  · rfl

/-- An entry is read from its parts; where no status stands, it is ok. -/
theorem ofJson_object (info outputs : Json) (status : Option Json) :
    ofJson (.object ([Json.member "component_info" info, Json.member "outputs" outputs]
        ++ (status.map (Json.member "status")).toList))
      = do return ⟨← Info.ofJson info, ← outputsOfJson outputs,
          ← (status.map (Status.ofJson statusRoom)).getD (.ok .ok)⟩ := by
  cases status with
  | none =>
    refine (Json.asRecord_object _ ⟨none, none, none⟩ Draft.field Draft.finish
      [info, outputs]).trans ?_
    simp only [List.zip_cons_cons, List.zip_nil_right, List.foldlM_cons, List.foldlM_nil,
      Draft.field, Json.once_none]
    cases Info.ofJson info with
    | error e => rfl
    | ok i => cases outputsOfJson outputs <;> rfl
  | some status =>
    refine (Json.asRecord_object _ ⟨none, none, none⟩ Draft.field Draft.finish
      [info, outputs, status]).trans ?_
    simp only [List.zip_cons_cons, List.zip_nil_right, List.foldlM_cons, List.foldlM_nil,
      Draft.field, Json.once_none, Option.map_some, Option.getD_some]
    cases Info.ofJson info with
    | error e => rfl
    | ok i =>
      cases outputsOfJson outputs with
      | error e => rfl
      | ok o => cases Status.ofJson statusRoom status <;> rfl

theorem ofJson_toJson (e : Entry) :
    ofJson e.toJson = if e.Readable then .ok e.reread else .error .mismatch := by
  let written : Option Json := if e.status.isOk then none else some e.status.toJson
  have hjson : e.toJson = .object ([Json.member "component_info" e.info.toJson,
      Json.member "outputs" (.object (e.outputs.entries.map fun output =>
        Json.member output.1 output.2.toJson))]
      ++ (written.map (Json.member "status")).toList) := by
    unfold toJson
    cases hstatus : e.status <;> simp [written, hstatus, Status.isOk]
  have hstatus : (written.map (Status.ofJson statusRoom)).getD (.ok .ok) = .ok e.status := by
    cases hstatus : e.status <;> simp [written, hstatus, Status.isOk, Status.ofJson_toJson]
  rw [hjson, ofJson_object, e.info.ofJson_toJson, outputsOfJson_object, hstatus]
  by_cases h : e.Readable
  · rw [if_pos h, if_pos h.1, if_pos h.2]
    rfl
  · rw [if_neg h]
    split_ifs with hinfo houtputs
    · exact absurd ⟨hinfo, houtputs⟩ h
    all_goals rfl

end Entry

/-! ## Reports -/

/-- A report all of whose positions, points and vectors are finite. -/
def Readable (r : Report) : Prop := ∀ entry ∈ r.entries.entries, entry.2.Readable

instance (r : Report) : Decidable r.Readable :=
  inferInstanceAs (Decidable (∀ entry ∈ r.entries.entries, _))

/-- A report as it comes back from its document: with `null` for numbers that are not finite. -/
def reread (r : Report) : Report := ⟨r.entries.map Entry.reread⟩

/-- A report is refused only for a position, a point or a vector that is not finite. -/
theorem ofJson_toJson (r : Report) :
    ofJson r.toJson = if r.Readable then .ok r.reread else .error .mismatch := by
  have hmembers : Json.asMembers Entry.ofJson r.toJson = if r.Readable then
      .ok (r.entries.entries.map fun entry => (entry.1, entry.2.reread)) else .error .mismatch :=
    Json.asMembers_map Entry.toJson fun entry _ => entry.2.ofJson_toJson
  unfold ofJson
  rw [hmembers]
  split
  · show Except.ok (Report.mk (SortedMap.ofList _)) = _
    rw [SortedMap.ofList_map]
    rfl
  · rfl

end Report
end TreeFlow
