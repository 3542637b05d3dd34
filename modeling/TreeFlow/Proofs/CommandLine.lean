import TreeFlow.CommandLine
import TreeFlow.Proofs.Files.Directory
/-
What the end of a command line tells.

An invocation runs one job, and from how the job ends its exit code follows.  Failing is 1, and
then no file was touched unless saving is what failed; otherwise the report is in the output file,
and the code says whether all components went well (`run_truthful`).
-/

namespace TreeFlow

theorem Status.isOk_iff {t : Status} : t.isOk = true ↔ t = .ok := by
  cases t <;> simp [isOk]

namespace CommandLine

variable {σ : Type} {files : FileAccess (StateM σ)} {octetsAt : σ → String → Option (List UInt8)}
  {e : Environment} {arguments : List String} {i : Invocation} {s s' : σ}

theorem run_of_job_error {failure : Failure} (hread : read arguments = .ok (.run i))
    (hjob : ((i.job e).run files).run.run s = (.error failure, s')) :
    run files e arguments s = (.failed failure, s') := by
  unfold run
  rw [hread]
  show (((i.job e).run files).run >>= _).run s = _
  rw [StateT.run_bind, hjob]
  rfl

theorem run_of_job_ok {r : Report} (hread : read arguments = .ok (.run i))
    (hjob : ((i.job e).run files).run.run s = (.ok r, s')) :
    run files e arguments s = (.completed r (i.outputIn e), s') := by
  unfold run
  rw [hread]
  show (((i.job e).run files).run >>= _).run s = _
  rw [StateT.run_bind, hjob]
  rfl

theorem code_completed (r : Report) (output : String) : (Ending.completed r output).code
    = if ∀ entry ∈ r.entries.entries, entry.2.status = .ok then 0 else 2 := by
  have hall : r.unsuccessful.isEmpty = true ↔
      ∀ entry ∈ r.entries.entries, entry.2.status = .ok := by
    rw [List.isEmpty_iff, Report.unsuccessful, List.filter_eq_nil_iff]
    refine forall₂_congr fun entry _ => ?_
    rw [← Status.isOk_iff, Bool.not_eq_true', Bool.not_eq_false]
  simp only [Ending.code, hall]

/-- Of a command line that asks for a run.  If a file is missing or not accepted, or the graph has a
cycle, it ends with 1 and leaves all files as they are.  Otherwise there is one report, whatever is
said about how many components run at once.  If it can be saved, then it is what the output file
holds, and the code is 2 or 0, as it has unsuccessful components or not; if not, the code is 1. -/
theorem run_truthful (hfiles : files.Lawful octetsAt) (hread : read arguments = .ok (.run i))
    (s : σ) :
    let output := e.output.getD (i.output.getD defaultOutput)
    let ended := run files e arguments s
    ((¬ ∃ g b, (i.job e).Finds (octetsAt s) g b ∧ g.Acyclic) →
        ended.1.code = 1 ∧ ended.2 = s) ∧
      ∀ g b, (i.job e).Finds (octetsAt s) g b → g.Acyclic →
        ∃ r, (∀ limit choices, g.run b limit choices = .ok r) ∧
          ∀ saved s', files.write output r.toJson.pretty s = (saved, s') →
            ended.2 = s' ∧
            (saved = true → octetsAt s' output = some (Text.octetsOf r.toJson.pretty) ∧
              ended.1.code
                = if ∀ entry ∈ r.entries.entries, entry.2.status = .ok then 0 else 2) ∧
            (saved = false → ended.1.code = 1) := by
  intro output ended
  constructor
  · intro hnone
    obtain ⟨failure, hjob⟩ := Job.run_of_not_runs hfiles hnone
    have hended : ended = (.failed failure, s) := run_of_job_error hread hjob
    rw [hended]
    exact ⟨rfl, rfl⟩
  · intro g b hfinds ha
    have houtput : (i.job e).output = some output := rfl
    obtain ⟨r, hr, hjob⟩ := Job.run_of_runs hfiles hfinds ha houtput
    refine ⟨r, hr, fun saved s' hwrite => ?_⟩
    have hjob := hjob saved s' hwrite
    cases saved with
    | true =>
      have hended : ended = (.completed r output, s') := run_of_job_ok hread hjob
      rw [hended]
      exact ⟨rfl, fun _ => ⟨hfiles.written _ _ _ _ hwrite, code_completed r output⟩, nofun⟩
    | false =>
      have hended : ended = (.failed .file, s') := run_of_job_error hread hjob
      rw [hended]
      exact ⟨rfl, nofun, fun _ => rfl⟩

end CommandLine

namespace Sample

/-- A number parameter that holds a word. -/
def wordy : List UInt8 := Text.octetsOf
  ("\x7b\"components\": [[\"n\", \"Number\", \"\", [0, 0], "
    ++ "[[\"input\", \"Data\", null, null, [], [\"x\"]]]]]\x7d")

def wordyGraph : Graph :=
  match Graph.ofOctets wordy with
  | .ok g => g
  | .error _ => default

def desk : Directory := ⟨.ofList [(["g.json"], wordy)], []⟩

def request : List String := ["--output", "a.json", "g.json", "--max-parallel=7"]

def settings : CommandLine.Environment := ⟨some "out/r.json", some "0", some 8⟩

end Sample

namespace CommandLine

theorem run_truthful_sample :
    Directory.access.Lawful Directory.read ∧
      read Sample.request = .ok (.run ⟨"g.json", none, some "a.json", some 7⟩) ∧
      (run Directory.access Sample.settings Sample.request .empty).1.code = 1 ∧
      (run Directory.access Sample.settings Sample.request .empty).2 = .empty ∧
      (run Directory.access Sample.settings Sample.request Sample.desk).1.code = 2 ∧
      ∃ r, Sample.wordyGraph.run .empty 1 Pool.inTurn = .ok r ∧
        (run Directory.access Sample.settings Sample.request Sample.desk).2.read "out/r.json"
          = some (Text.octetsOf r.toJson.pretty) := by
  have hread : read Sample.request = .ok (.run ⟨"g.json", none, some "a.json", some 7⟩) := by
    decide +kernel
  have hended := run_truthful (e := Sample.settings) Directory.access_lawful hread
  obtain ⟨hnothing, -⟩ := hended .empty
  obtain ⟨-, hreport⟩ := hended Sample.desk
  have hmissing : Directory.empty.read "g.json" = none := by decide +kernel
  obtain ⟨hfailed, hsame⟩ := hnothing fun ⟨g, b, hfinds, _⟩ => by
    obtain ⟨octets, hoctets, -⟩ := hfinds.graph
    exact absurd (hmissing.symm.trans hoctets) nofun
  have hgraph : Graph.ofOctets Sample.wordy = .ok Sample.wordyGraph := by decide +kernel
  have ha : Sample.wordyGraph.Acyclic :=
    (Graph.wellFormed_of_ofOctets hgraph).acyclic (by decide +kernel)
  obtain ⟨r, hr, hsave⟩ :=
    hreport Sample.wordyGraph .empty ⟨⟨Sample.wordy, by decide +kernel, hgraph⟩, rfl⟩ ha
  have hstatus : (Sample.wordyGraph.run .empty 1 Pool.inTurn).map
      (fun r => decide (∀ entry ∈ r.entries.entries, entry.2.status = .ok)) = .ok false := by
    decide +kernel
  rw [hr] at hstatus
  obtain ⟨⟨made, place⟩, hprepare⟩ := Option.isSome_iff_exists.1
    (show (Sample.desk.prepare "out/r.json").isSome = true by decide +kernel)
  have hwrite : Directory.access.write "out/r.json" r.toJson.pretty Sample.desk
      = (true, { made with files := made.files.insert place (Text.octetsOf r.toJson.pretty) }) := by
    simp only [Directory.access, Directory.write, hprepare, Option.bind_eq_bind, Option.bind_some,
      Option.pure_def]
  obtain ⟨hstate, hsaved, -⟩ := hsave true _ hwrite
  obtain ⟨hoctets, hcode⟩ := hsaved rfl
  rw [if_neg (of_decide_eq_false (Except.ok.inj hstatus))] at hcode
  exact ⟨Directory.access_lawful, hread, hfailed, hsame, hcode, r, hr 1 _, hstate ▸ hoctets⟩

end CommandLine
end TreeFlow
