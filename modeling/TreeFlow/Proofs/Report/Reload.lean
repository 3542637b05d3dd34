import TreeFlow.Files
import TreeFlow.Proofs.Json.Text
import TreeFlow.Proofs.Report
import TreeFlow.Proofs.Report.Document
import TreeFlow.Proofs.Text.Utf8
/-
Loading a report that was saved.

A run of a graph without cycles always leaves a report, and the report can be saved.  It can be
loaded again exactly if all positions, points and vectors in it are finite, and then it comes back
with `null` for the other numbers that are not (`run_reloads`).  The report of a point with an
infinite coordinate cannot be loaded (`far_point_lost`).
-/

namespace TreeFlow

/-- A report whose text spells it is loaded as its value is read. -/
theorem Report.ofOctets_octetsOf {r : Report} (h : r.toJson.spelled = true) :
    Report.ofOctets (Text.octetsOf r.toJson.pretty)
      = if r.Readable then .ok r.reread else .error (.json .mismatch) := by
  have hread : Json.read (Text.units (Text.octetsOf r.toJson.pretty)) = ⟨r.toJson, false⟩ := by
    rw [Text.units_octetsOf]
    exact Json.read_write h (.indented 0)
  unfold ofOctets Report.read Json.decode
  rw [hread]
  show (ofJson r.toJson >>= fun r' => Except.ok r').mapError Failure.json = _
  rw [r.ofJson_toJson]
  split <;> rfl

namespace Graph

variable {g : Graph}

/-- The report of a run is read from its document if it is readable, and refused if it is not.  The
same holds for the octets that are saved, where the document holds nothing that a text cannot
spell. -/
theorem run_reloads {d : GraphDocument} (hload : load d = .ok g) (ha : g.Acyclic) (b : Bindings)
    (limit : Nat) (choices : Nat → Nat → Nat) :
    ∃ r, g.run b limit choices = .ok r ∧
      Report.ofJson r.toJson = (if r.Readable then .ok r.reread else .error .mismatch) ∧
      (r.toJson.spelled = true → Report.ofOctets (Text.octetsOf r.toJson.pretty)
        = if r.Readable then .ok r.reread else .error (.json .mismatch)) := by
  obtain ⟨s, order, r, -, hr, -⟩ := run_visited (load_wellFormed hload) ha b limit choices
  exact ⟨r, hr, r.ofJson_toJson, Report.ofOctets_octetsOf⟩

end Graph

/-! ## Points that come back, and one that does not -/

namespace Sample

/-- A point with the given text as its first coordinate. -/
def pointAt (x : String) : GraphDocument :=
  ⟨[⟨"point", "Construct Point", "", .origin, [input "X" [] (some (.list [.text x]))]⟩]⟩

def pointGraph (x : String) : Graph :=
  match Graph.load (pointAt x) with
  | .ok g => g
  | .error _ => default

end Sample

theorem Graph.run_reloads_sample : load (Sample.pointAt "5") = .ok (Sample.pointGraph "5") ∧
    (Sample.pointGraph "5").Acyclic ∧
    ∃ r, (Sample.pointGraph "5").run .empty 2 Pool.inTurn = .ok r ∧ r.toJson.spelled = true ∧
      r.Readable ∧ Report.ofOctets (Text.octetsOf r.toJson.pretty) = .ok r.reread := by
  have hload : load (Sample.pointAt "5") = .ok (Sample.pointGraph "5") := rfl
  have ha : (Sample.pointGraph "5").Acyclic :=
    (load_wellFormed hload).acyclic (by decide +kernel)
  obtain ⟨r, hr, -, htext⟩ := run_reloads hload ha .empty 2 Pool.inTurn
  have hfinite : ((Sample.pointGraph "5").run .empty 2 Pool.inTurn).map
      (fun r => (r.toJson.spelled, decide r.Readable)) = .ok (true, true) := by decide +kernel
  rw [hr] at hfinite
  obtain ⟨hspelled, hreadable⟩ := Prod.mk.inj (Except.ok.inj hfinite)
  refine ⟨hload, ha, r, hr, hspelled, of_decide_eq_true hreadable, ?_⟩
  rw [htext hspelled, if_pos (of_decide_eq_true hreadable)]

theorem Graph.far_point_lost : load (Sample.pointAt "inf") = .ok (Sample.pointGraph "inf") ∧
    (Sample.pointGraph "inf").Acyclic ∧
    ∃ r, (Sample.pointGraph "inf").run .empty 2 Pool.inTurn = .ok r ∧
      Report.ofOctets (Text.octetsOf r.toJson.pretty) = .error (.json .mismatch) := by
  have hload : load (Sample.pointAt "inf") = .ok (Sample.pointGraph "inf") := rfl
  have hg := load_wellFormed hload
  have ha : (Sample.pointGraph "inf").Acyclic := hg.acyclic (by decide +kernel)
  obtain ⟨s, order, r, -, hr, -⟩ := run_visited hg ha .empty 2 Pool.inTurn
  have hinfinite : ((Sample.pointGraph "inf").run .empty 2 Pool.inTurn).map
      (fun r => (r.toJson.spelled, decide r.Readable)) = .ok (true, false) := by decide +kernel
  rw [hr] at hinfinite
  obtain ⟨hspelled, hlost⟩ := Prod.mk.inj (Except.ok.inj hinfinite)
  refine ⟨hload, ha, r, hr, ?_⟩
  rw [Report.ofOctets_octetsOf hspelled, if_neg (of_decide_eq_false hlost)]

end TreeFlow
