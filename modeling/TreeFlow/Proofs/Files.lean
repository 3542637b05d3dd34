import TreeFlow.Files
import TreeFlow.Proofs.Report
import TreeFlow.Proofs.Run.Reorder
/-
Jobs on files.

A job reads, runs and writes, in this order.  Of whatever holds the files two things are asked: that
reading changes nothing, and that a text that was written is what is read from its place then
(`FileAccess.Lawful`).  So a job sees the files as they are before it.  If the graph or the bindings
are not to be had, or the graph has a cycle, it fails and leaves all files as they are
(`Job.run_of_not_runs`); otherwise it does one write, of a report that follows from the graph and
the bindings alone (`Job.run_of_runs`).
-/

namespace TreeFlow

variable {σ : Type} {files : FileAccess (StateM σ)} {octetsAt : σ → String → Option (List UInt8)}

/-! ## Access to files in a state -/

/-- `octetsAt` gives the octets that can be read at a location.  What a write that fails leaves
behind is not said. -/
structure FileAccess.Lawful (files : FileAccess (StateM σ))
    (octetsAt : σ → String → Option (List UInt8)) : Prop where
  read : ∀ location s, files.read location s = (octetsAt s location, s)
  written : ∀ location text s s', files.write location text s = (true, s') →
    octetsAt s' location = some (Text.octetsOf text)

/-- There is a file at the location, and this is what a reader of octets makes of it. -/
def Reads {α : Type} (octets? : String → Option (List UInt8))
    (reader : List UInt8 → Except Failure α) (location : String) (a : α) : Prop :=
  ∃ octets, octets? location = some octets ∧ reader octets = .ok a

section Sequences

variable {ε α β : Type} {x : ExceptT ε (StateM σ) α} {f : α → ExceptT ε (StateM σ) β} {s s' : σ}

theorem run_bind_of_ok {a : α} (h : x.run.run s = (.ok a, s')) :
    (x >>= f).run.run s = (f a).run.run s' := by
  simp only [ExceptT.run_bind, StateT.run_bind, h]
  rfl

theorem run_bind_of_error {e : ε} (h : x.run.run s = (.error e, s')) :
    (x >>= f).run.run s = (.error e, s') := by
  simp only [ExceptT.run_bind, StateT.run_bind, h]
  rfl

end Sequences

namespace FileAccess.Lawful

variable {α : Type} {reader : List UInt8 → Except Failure α} {location : String} {s : σ}

theorem load_eq (h : files.Lawful octetsAt) (reader : List UInt8 → Except Failure α)
    (location : String) (s : σ) :
    (files.load reader location).run.run s
      = (match octetsAt s location with
        | some octets => reader octets
        | none => .error .file, s) := by
  show (files.read location >>= _).run s = _
  rw [StateT.run_bind, StateT.run, h.read]
  cases octetsAt s location <;> rfl

theorem load_of_reads (h : files.Lawful octetsAt) {a : α}
    (ha : Reads (octetsAt s) reader location a) :
    (files.load reader location).run.run s = (.ok a, s) := by
  obtain ⟨octets, hoctets, ha⟩ := ha
  rw [h.load_eq, hoctets]
  exact congrArg (·, s) ha

theorem load_of_not_reads (h : files.Lawful octetsAt)
    (hnone : ¬ ∃ a, Reads (octetsAt s) reader location a) :
    ∃ e, (files.load reader location).run.run s = (.error e, s) := by
  rw [h.load_eq]
  cases hoctets : octetsAt s location with
  | none => exact ⟨.file, rfl⟩
  | some octets =>
    cases ha : reader octets with
    | ok a => exact absurd ⟨a, octets, hoctets, ha⟩ hnone
    | error e => exact ⟨e, congrArg (·, s) ha⟩

end FileAccess.Lawful

/-! ## Graphs that run -/

namespace Graph

theorem wellFormed_of_ofOctets {octets : List UInt8} {g : Graph} (h : ofOctets octets = .ok g) :
    g.WellFormed := by
  unfold ofOctets at h
  split at h
  · obtain ⟨d, -, hload⟩ := Except.bind_eq_ok_iff.1 h
    exact load_wellFormed hload
  · cases h

/-- The report of a graph without cycles does not depend on how many components run at once and in
which order they finish. -/
theorem exists_report {g : Graph} (hg : g.WellFormed) (ha : g.Acyclic) (b : Bindings) :
    ∃ r, ∀ limit choices, g.run b limit choices = .ok r := by
  obtain ⟨s, order, r, hs, hr, hlinear, hvisited, -⟩ := run_visited hg ha b 0 Pool.inTurn
  refine ⟨r, fun limit choices => ?_⟩
  obtain ⟨s', order', r', hs', hr', hlinear', hvisited', -⟩ := run_visited hg ha b limit choices
  obtain rfl := hvisited.unique hvisited' hg ha hlinear hlinear'
  rw [← hr, run, run, hs, hs']

end Graph

/-! ## Jobs -/

namespace Job

variable {j : Job} {g : Graph} {b : Bindings} {s : σ}

/-- The graph and the bindings of a job, if the files that it names are there and are accepted. -/
structure Finds (j : Job) (octets? : String → Option (List UInt8)) (g : Graph) (b : Bindings) :
    Prop where
  graph : Reads octets? Graph.ofOctets j.graph g
  bindings : match j.inputs with
    | some location => Reads octets? Bindings.ofOctets location b
    | none => b = .empty

theorem report_of_finds (h : files.Lawful octetsAt) (hj : j.Finds (octetsAt s) g b) :
    (j.report files).run.run s = (g.run b j.limit Pool.inTurn, s) := by
  obtain ⟨hgraph, hbindings⟩ := hj
  rw [report, run_bind_of_ok (h.load_of_reads hgraph)]
  cases hinputs : j.inputs with
  | none =>
    rw [hinputs] at hbindings
    obtain rfl := hbindings
    rfl
  | some location =>
    rw [hinputs] at hbindings
    exact run_bind_of_ok (h.load_of_reads hbindings)

theorem report_of_not_finds (h : files.Lawful octetsAt)
    (hj : ¬ ∃ g b, j.Finds (octetsAt s) g b) :
    ∃ e, (j.report files).run.run s = (.error e, s) := by
  by_cases hgraph : ∃ g, Reads (octetsAt s) Graph.ofOctets j.graph g
  · obtain ⟨g, hg⟩ := hgraph
    rw [report, run_bind_of_ok (h.load_of_reads hg)]
    cases hinputs : j.inputs with
    | none => exact absurd ⟨g, .empty, hg, by rw [hinputs]⟩ hj
    | some location =>
      have hbindings : ¬ ∃ b, Reads (octetsAt s) Bindings.ofOctets location b := fun hb =>
        hj ⟨g, hb.choose, hg, by rw [hinputs]; exact hb.choose_spec⟩
      obtain ⟨e, he⟩ := h.load_of_not_reads hbindings
      exact ⟨e, run_bind_of_error he⟩
  · obtain ⟨e, he⟩ := h.load_of_not_reads hgraph
    exact ⟨e, by rw [report, run_bind_of_error he]⟩

/-- A job without a graph that it can run fails and changes nothing. -/
theorem run_of_not_runs (h : files.Lawful octetsAt)
    (hj : ¬ ∃ g b, j.Finds (octetsAt s) g b ∧ g.Acyclic) :
    ∃ e, (j.run files).run.run s = (.error e, s) := by
  by_cases hfinds : ∃ g b, j.Finds (octetsAt s) g b
  · obtain ⟨g, b, hfinds⟩ := hfinds
    obtain ⟨octets, -, hgraph⟩ := hfinds.graph
    obtain ⟨guids, hrun⟩ := Graph.run_eq_error (Graph.wellFormed_of_ofOctets hgraph)
      (fun ha => hj ⟨g, b, hfinds, ha⟩) b j.limit Pool.inTurn
    have hreport := report_of_finds h hfinds
    rw [hrun] at hreport
    exact ⟨_, run_bind_of_error hreport⟩
  · obtain ⟨e, hreport⟩ := report_of_not_finds h hfinds
    exact ⟨e, run_bind_of_error hreport⟩

/-- A job with a graph that it can run does one write, of the report. -/
theorem run_of_runs (h : files.Lawful octetsAt) (hj : j.Finds (octetsAt s) g b) (ha : g.Acyclic)
    {location : String} (houtput : j.output = some location) :
    ∃ r, (∀ limit choices, g.run b limit choices = .ok r) ∧
      ∀ saved s', files.write location r.toJson.pretty s = (saved, s') →
        (j.run files).run.run s = (if saved then .ok r else .error .file, s') := by
  obtain ⟨octets, -, hgraph⟩ := hj.graph
  obtain ⟨r, hr⟩ := Graph.exists_report (Graph.wellFormed_of_ofOctets hgraph) ha b
  refine ⟨r, hr, fun saved s' hwrite => ?_⟩
  have hreport := report_of_finds h hj
  rw [hr] at hreport
  have hsave : (files.save location r).run.run s
      = (if saved then .ok () else .error .file, s') := by
    show (files.write location r.toJson.pretty >>= _).run s = _
    rw [StateT.run_bind, StateT.run, hwrite]
    rfl
  rw [run, run_bind_of_ok hreport, houtput]
  cases saved with
  | true => exact run_bind_of_ok hsave
  | false => exact run_bind_of_error hsave

end Job
end TreeFlow
