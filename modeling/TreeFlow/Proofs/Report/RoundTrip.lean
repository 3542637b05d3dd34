import TreeFlow.Proofs.Json.Text
import TreeFlow.Proofs.Report.Document
/-
Reports that come back unchanged.

Reading a written report loses nothing but what is not finite: a number becomes `null`, and a
coordinate makes the whole report unreadable.  So exactly the reports that are finite throughout are
read as themselves, from their value and from every text of it (`Report.reads_back_iff`).
-/

namespace TreeFlow
namespace Report

namespace Entry

/-- An entry at a finite position, with finite outputs. -/
def IsFinite (e : Entry) : Prop :=
  e.info.position.IsFinite ∧ ∀ output ∈ e.outputs.entries, output.2.tree.IsFinite

instance (e : Entry) : Decidable e.IsFinite := inferInstanceAs (Decidable (_ ∧ _))

theorem reread_eq_self_iff {e : Entry} :
    e.reread = e ↔ ∀ output ∈ e.outputs.entries, output.2.tree.reread = output.2.tree := by
  have houtputs : e.reread = e ↔ e.outputs.map Output.reread = e.outputs := by
    constructor
    · exact congrArg outputs
    · exact congrArg fun outputs => { e with outputs := outputs }
  have houtput : ∀ o : Output, o.reread = o ↔ o.tree.reread = o.tree := by
    intro o
    constructor
    · exact congrArg Output.tree
    · exact congrArg fun tree => { o with tree := tree }
  rw [houtputs, SortedMap.map_eq_self_iff]
  simp only [houtput]

theorem isFinite_iff (e : Entry) : e.IsFinite ↔ e.Readable ∧ e.reread = e := by
  rw [reread_eq_self_iff, IsFinite, Readable, and_assoc, ← forall₂_and]
  simp only [Tree.isFinite_iff]

end Entry

/-- A report without a number, coordinate or position that is not finite. -/
def IsFinite (r : Report) : Prop := ∀ entry ∈ r.entries.entries, entry.2.IsFinite

instance (r : Report) : Decidable r.IsFinite :=
  inferInstanceAs (Decidable (∀ entry ∈ r.entries.entries, _))

theorem reread_eq_self_iff {r : Report} :
    r.reread = r ↔ ∀ entry ∈ r.entries.entries, entry.2.reread = entry.2 := by
  have hentries : r.reread = r ↔ r.entries.map Entry.reread = r.entries := by
    constructor
    · exact congrArg entries
    · exact congrArg Report.mk
  rw [hentries, SortedMap.map_eq_self_iff]

theorem isFinite_iff (r : Report) : r.IsFinite ↔ r.Readable ∧ r.reread = r := by
  rw [reread_eq_self_iff, IsFinite, Readable, ← forall₂_and]
  simp only [Entry.isFinite_iff]

theorem ofJson_toJson_eq_self_iff (r : Report) : ofJson r.toJson = .ok r ↔ r.IsFinite := by
  rw [r.ofJson_toJson, r.isFinite_iff, Except.ite_eq_ok_iff]

/-- Exactly the reports that are finite throughout are read back as they are, and so from every
text of them. -/
theorem reads_back_iff (r : Report) :
    (ofJson r.toJson = .ok r ↔ r.IsFinite) ∧
      (r.toJson.spelled = true → ∀ style,
        (read (Text.unitsOf (r.toJson.write style "")) = .ok r ↔ r.IsFinite)) := by
  refine ⟨r.ofJson_toJson_eq_self_iff, fun h style => ?_⟩
  show Json.decode ofJson _ = _ ↔ _
  rw [Json.decode_write ofJson h style]
  exact r.ofJson_toJson_eq_self_iff

namespace Sample

/-- A branch with every form of item, numbers among them that could pass for integers, and an empty
branch. -/
def forms : Tree :=
  .ofBranches [(⟨[0]⟩, [.null, .boolean true, .integer 5, .number 5, .number (-0.0), .text "5",
    .point ⟨1, 2.5, -3⟩, .vector ⟨0, 0, 1⟩]), (⟨[0, 1]⟩, [])]

def entry (status : Status) : Entry :=
  ⟨⟨"Data", "d", ⟨1.5, -2⟩⟩, .ofList [("Data", .ofTree forms), ("Empty", .ofTree .empty)], status⟩

/-- A component of each status. -/
def statuses : Report :=
  ⟨.ofList [("a", entry .ok), ("b", entry (.failed "division by zero")),
    ("c", entry (.skipped "b"))]⟩

end Sample

theorem reads_back_iff_sample : Sample.statuses.IsFinite ∧
    ofJson Sample.statuses.toJson = .ok Sample.statuses ∧
    read (Text.unitsOf Sample.statuses.toJson.pretty) = .ok Sample.statuses := by
  have hfinite : Sample.statuses.IsFinite := by decide +kernel
  obtain ⟨hvalue, htext⟩ := reads_back_iff Sample.statuses
  refine ⟨hfinite, hvalue.2 hfinite, (htext ?_ (.indented 0)).2 hfinite⟩
  decide +kernel

end Report
end TreeFlow
