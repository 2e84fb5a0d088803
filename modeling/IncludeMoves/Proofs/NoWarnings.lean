import IncludeMoves.CommandLine
import IncludeMoves.Proofs.Abort
import IncludeMoves.Proofs.FoundDirectives
import IncludeMoves.Proofs.JsonLines
import Mathlib

/-!
# Runs without warnings

A record has a place for a token whose delimiters do not belong together, a report has a warning for it,
and the totals count it. All three stay empty. The search passes on what the group of the pattern has
matched, and that is a path between two delimiters of one style, even where the line has delimiters of
both styles; so a revision has no such record, and a run reports and counts nothing but revisions.

* `Report.Unwarned` — a revision whose report has no warning in it;
* `Project.exists_reported` — what a run writes are the reports of its revisions, up to where it ends;
* `Finished.IsUnwarned`, `Invocation.no_run_warns` — whole runs.
-/

namespace IncludeMoves

/-! ### Reports and totals -/

namespace Report

/-- **A revision that is reported without a warning.** No record gives rise to one; the lines for the
reader are the notices of the edits, and no object for another program has a member for a malformed
token. -/
structure Unwarned (report : Report) (r : Revision) : Prop where
  warnings : ∀ record ∈ r.records, record.warning? report.colour = none
  notices : report.format = .text →
    report.lines r = if report.quiet then [] else r.records.filterMap Record.notice?
  members : report.format = .jsonLines → ∀ line ∈ report.lines r,
    ∃ members, Json.parse line = .ok (.object members) ∧ "malformed" ∉ members.map Prod.fst

/-- An object that shows a record without a malformed token has no member for one. -/
theorem not_mem_of_shows {members : List (String × Json)} {record : Record}
    (h : Record.Shows members record) (hnone : record.malformed = none) :
    "malformed" ∉ members.map Prod.fst := by
  intro hmem
  obtain ⟨⟨name, v⟩, hv, rfl⟩ := List.mem_map.mp hmem
  obtain ⟨token, htoken, -⟩ := (h.malformed v).mp hv
  rw [hnone] at htoken
  cases htoken

/-- A revision of which no record is malformed warns of nothing, in any format. -/
theorem unwarned_of_malformed {r : Revision} (report : Report)
    (h : ∀ record ∈ r.records, record.malformed = none) : report.Unwarned r := by
  have hwarnings : ∀ record ∈ r.records, record.warning? report.colour = none := by
    intro record hrecord
    rw [Record.warning?, h record hrecord, Option.map_none]
  refine ⟨hwarnings, fun hformat => ?_, fun hformat line hline => ?_⟩
  -- As text, the lines of a record are its notice or nothing.
  · have htext : ∀ record ∈ r.records,
        record.textLines report.colour = record.notice?.toList := by
      intro record hrecord
      rw [Record.textLines, hwarnings record hrecord, Option.toList_none, List.nil_append]
    simp only [lines, hformat, List.filterMap_eq_flatMap_toList, List.flatMap_def,
      List.map_congr_left htext]
  -- As an object, a record has no member that tells of a warning.
  · rw [lines] at hline
    split at hline
    · exact absurd hline List.not_mem_nil
    · simp only [hformat] at hline
      obtain ⟨record, hrecord, rfl⟩ := List.mem_map.mp hline
      obtain ⟨members, hmembers, hshows⟩ := record.parse_jsonLine
      exact ⟨members, hmembers, not_mem_of_shows hshows (h record hrecord)⟩

/-- **Every revision is reported without a warning.** -/
theorem unwarned_revise (report : Report) (m : Moves) (file : Path) (text : String) :
    report.Unwarned (m.revise file text) :=
  unwarned_of_malformed report fun _ => Moves.malformed_of_mem_records

end Report

theorem Tally.warnings_eq_zero {revisions : List Revision}
    (h : ∀ r ∈ revisions, ∀ record ∈ r.records, record.malformed = none) :
    (Tally.ofRevisions revisions).warnings = 0 := by
  change (revisions.flatMap Revision.records).countP _ = 0
  rw [List.countP_eq_zero]
  intro record hrecord
  obtain ⟨r, hr, hrecord⟩ := List.mem_flatMap.mp hrecord
  rw [h r hr record hrecord]
  decide

/-! ### What a run reports -/

namespace Project

variable {p : Project} {moves : Moves} {w : Writing} {report : Report} {sources : List Path}
  {fs fs' : FileSystem} {result : Except Problem (List Revision)} {revisions : List Revision}
  {o o' : Output}

/-- What a run returns are revisions by its table. The text is that of the file when its turn came, and
which text that was does not matter here. -/
theorem eq_revise_of_mem {σ : Type} {reporter : Reporter σ} {state state' : σ} {r : Revision}
    (h : p.reviseAll moves w reporter sources fs state = (.ok revisions, fs', state'))
    (hr : r ∈ revisions) : ∃ text, r = moves.revise r.file text := by
  induction sources generalizing fs state revisions with
  | nil =>
    cases h
    exact absurd hr List.not_mem_nil
  | cons source sources ih =>
    obtain ⟨first, rs, fs₁, state₁, rfl, hstep, -, hrest⟩ := reviseAll_cons_ok h
    -- It is the first revision, or one of the others.
    rcases List.mem_cons.mp hr with rfl | hr
    · obtain ⟨text, -, rfl, -⟩ := reviseFile_ok hstep
      exact ⟨text, rfl⟩
    · exact ih hrest hr

/-- **What a run writes** are the reports of revisions by its table, as far as it gets. If standard
output is full, the last report is cut off. -/
theorem exists_reported
    (h : p.reviseAll moves w (Output.reporter report) sources fs o = (result, fs', o')) :
    ∃ (revised : List Revision) (part : String),
      (∀ r ∈ revised, ∃ text, r = moves.revise r.file text) ∧ o'.text = o.text ++ part ∧
      part.toList <+: (String.join (revised.map report.output)).toList := by
  -- On the sources: what is written for the first stands in front of what is written for the rest.
  induction sources generalizing fs o result with
  | nil =>
    cases h
    exact ⟨[], "", fun _ hr => absurd hr List.not_mem_nil, String.append_empty.symm, List.prefix_rfl⟩
  | cons source sources ih =>
    rcases reviseAll_cons_cases h with ⟨e, -, -, -, rfl⟩ | ⟨r, e, hstep, hreport, -⟩ |
      ⟨r, fs₁, o₁, result₁, hstep, hreport, hrest, -⟩
    -- The step has failed, the report has been cut short, or the run has gone on.
    · exact ⟨[], "", fun _ hr => absurd hr List.not_mem_nil, String.append_empty.symm,
        List.prefix_rfl⟩
    · obtain ⟨text, -, rfl, -⟩ := reviseFile_ok hstep
      obtain ⟨part, hpart, htext⟩ := Output.text_of_reporter_error hreport
      refine ⟨[moves.revise source text], part, fun r hr => ?_, htext, ?_⟩
      · rw [List.mem_singleton.mp hr]
        exact ⟨text, rfl⟩
      · rw [List.map_singleton, String.join_cons, String.toList_append]
        exact hpart.trans (List.prefix_append _ _)
    · obtain ⟨text, -, rfl, -⟩ := reviseFile_ok hstep
      obtain ⟨revised, part, hrevised, htext, hpart⟩ := ih hrest
      refine ⟨moves.revise source text :: revised,
        report.output (moves.revise source text) ++ part, fun r hr => ?_, ?_, ?_⟩
      · rcases List.mem_cons.mp hr with rfl | hr
        · exact ⟨text, rfl⟩
        · exact hrevised r hr
      · rw [htext, Output.text_of_reporter_ok hreport, String.append_assoc]
      · rw [List.map_cons, String.join_cons, String.toList_append, String.toList_append]
        exact (List.prefix_append_right_inj _).mpr hpart

end Project

/-! ### Whole runs -/

/-- **A run that has not warned**, of those that start with the output `out`: its totals count no
warning, and what it has written are the reports of revisions by its table, as far as it got, each of
them reported without a warning. -/
structure Finished.IsUnwarned (done : Finished Output Tally) (fs : FileSystem) (table : Path)
    (report : Report) (out : Output) : Prop where
  totals : ∀ totals, done.result = .ok totals → totals.warnings = 0
  output : ∃ (revised : List Revision) (part : String), done.state.text = out.text ++ part ∧
    part.toList <+: (String.join (revised.map report.output)).toList ∧
    ∀ r ∈ revised, report.Unwarned r ∧
      ∃ moves text, fs.readMoves table = .ok moves ∧ r = moves.revise r.file text

/-- A run that fails before it reports anything has not warned. -/
theorem Finished.isUnwarned_of_error (e : RunError) (fs : FileSystem) (table : Path) (report : Report)
    (out : Output) (fs' : FileSystem) (log : String) :
    Finished.IsUnwarned ⟨.error e, fs', out, log⟩ fs table report out where
  totals totals h := by cases h
  output := ⟨[], "", String.append_empty.symm, List.prefix_rfl, fun _ hr => absurd hr List.not_mem_nil⟩

namespace Project

/-- **The revisions of a run have no malformed record**, whether it writes or not and whatever takes its
reports. -/
theorem malformed_of_applyTable {σ : Type} {p : Project} {table : Path} {w : Writing} {verbose : Bool}
    {reporter : Reporter σ} {fs : FileSystem} {state : σ} {revisions : List Revision}
    (h : (p.applyTable table w verbose reporter fs state).result = .ok revisions) :
    ∀ r ∈ revisions, ∀ record ∈ r.records, record.malformed = none := by
  rcases p.applyTable_cases table w verbose reporter fs state with
    ⟨e, -, hdone⟩ | ⟨moves, sources, result, fs', state', log, -, -, hall, hdone⟩
  -- A run that ended before the revisions has made none.
  · rw [hdone] at h
    cases h
  rw [hdone] at h
  cases result with
  | error e => cases h
  | ok made =>
    cases h
    intro r hr
    -- Every revision is one of some text by the table.
    obtain ⟨text, hr⟩ := eq_revise_of_mem hall hr
    rw [hr]
    exact fun record => Moves.malformed_of_mem_records

/-- No run of a project warns of anything, however it ends: every line that it writes belongs to a
revision by its table. -/
theorem isUnwarned_run (p : Project) (table : Path) (report : Report) (verbose : Bool)
    (faults : WriteFaults) (fs : FileSystem) (out : Output) :
    (p.run table report verbose faults fs out).IsUnwarned fs table report out := by
  obtain ⟨log, hrun⟩ := p.run_eq table report verbose faults fs out
  refine ⟨fun totals htotals => ?_, ?_⟩
  -- The totals count the warnings of all records.
  · rw [hrun] at htotals
    cases hresult : (p.applyTable table ⟨false, faults⟩ verbose (Output.reporter report) fs out).result
      with
    | error e =>
      rw [hresult] at htotals
      cases htotals
    | ok revisions =>
      rw [hresult] at htotals
      cases htotals
      exact Tally.warnings_eq_zero (malformed_of_applyTable hresult)
  · rw [hrun]
    rcases p.applyTable_cases table ⟨false, faults⟩ verbose (Output.reporter report) fs out with
      ⟨e, -, hdone⟩ | ⟨moves, sources, result, fs', out', log', hmoves, -, hall, hdone⟩
    -- Nothing has been reported.
    · rw [hdone]
      exact ⟨[], "", String.append_empty.symm, List.prefix_rfl,
        fun _ hr => absurd hr List.not_mem_nil⟩
    rw [hdone]
    -- Some revisions have been reported, the last one of them perhaps in part.
    obtain ⟨revised, part, hrevised, htext, hpart⟩ := exists_reported hall
    refine ⟨revised, part, htext, hpart, fun r hr => ?_⟩
    obtain ⟨text, hr⟩ := hrevised r hr
    refine ⟨?_, moves, text, hmoves, hr⟩
    rw [hr]
    exact report.unwarned_revise moves r.file text

end Project

namespace Invocation

/-- **No run warns.** No record of any revision is malformed. So the totals of a run count no warning,
also if it writes no file; and however a run of a project or an invocation ends, nothing that it writes is
a warning, or an object with a member for a malformed token. -/
theorem no_run_warns :
    (∀ (m : Moves) (file : Path) (text : String), ∀ record ∈ (m.revise file text).records,
      record.malformed = none) ∧
    (∀ (σ : Type) (p : Project) (table : Path) (w : Writing) (verbose : Bool) (reporter : Reporter σ)
      (fs : FileSystem) (state : σ) (revisions : List Revision),
      (p.applyTable table w verbose reporter fs state).result = .ok revisions →
      (Tally.ofRevisions revisions).warnings = 0) ∧
    (∀ (p : Project) (table : Path) (report : Report) (verbose : Bool) (faults : WriteFaults)
      (fs : FileSystem) (out : Output),
      (p.run table report verbose faults fs out).IsUnwarned fs table report out) ∧
    ∀ (i : Invocation) (executable : Path) (colour : Bool) (faults : WriteFaults) (fs : FileSystem)
      (out : Output),
      let format := (Format.ofName? i.format).getD .text
      let report : Report := ⟨format, i.quiet, colour && !i.noColour⟩
      (i.run executable colour faults fs out).IsUnwarned fs i.table report out := by
  -- Of the runs the invocation is one that may end before the run of the project begins.
  refine ⟨fun m file text record => Moves.malformed_of_mem_records,
    fun σ p table w verbose reporter fs state revisions h =>
      Tally.warnings_eq_zero (Project.malformed_of_applyTable h),
    Project.isUnwarned_run, fun i executable colour faults fs out => ?_⟩
  rw [run]
  cases Format.ofName? i.format with
  | none => exact Finished.isUnwarned_of_error _ fs _ _ out fs ""
  | some format =>
    -- The root, the project, and then the run of the project.
    simp only [Option.getD_some]
    split
    · exact Finished.isUnwarned_of_error _ fs _ _ out fs ""
    split
    · exact Finished.isUnwarned_of_error _ fs _ _ out fs ""
    · exact Project.isUnwarned_run _ i.table _ i.verbose faults fs out

/-- A file `src/a.hpp` with delimiters of both styles, and a table `f.json` for its directives. In the
last line of the file the delimiters do not belong together. -/
def mixedTree : FileSystem where
  entries := [
    ([(Path.ofString "src").bytes], .dir),
    ([(Path.ofString "a.hpp").bytes, (Path.ofString "src").bytes],
      .file ⟨1, 0o644, "#include <\"A\">\n#include \"<A>\"\n#include \"A>\n".toUTF8⟩),
    ([(Path.ofString "f.json").bytes],
      .file ⟨2, 0o644, "\x7b\"\\\"A\\\"\":\"B\",\"<A>\":null\x7d".toUTF8⟩)]
  cwd := []

/-- The project of this tree. -/
def mixedProject : Project :=
  ⟨.ofString "/", .ofString "/src"⟩

/-- The table of `f.json`. -/
def mixedMoves : Moves :=
  ⟨[("\"A\"", .moved "B"), ("<A>", .gone)]⟩

/-- The file after the run. -/
def mixedAfter : RegularFile :=
  ⟨3, 0o644, "#include <B>\n#include \"A>\n".toUTF8⟩

/-- A run over it makes two edits and passes over the line whose delimiters do not belong together. -/
theorem run_mixedTree :
    mixedProject.run (.ofString "/f.json") ⟨.text, false, false⟩ false .none mixedTree ⟨"", none⟩
      = ⟨.ok ⟨1, 1, 1, 1, 0⟩,
        mixedTree.put [(Path.ofString "a.hpp").bytes, (Path.ofString "src").bytes] (.file mixedAfter),
        ⟨"src/a.hpp: \"A\" -> B\nsrc/a.hpp: <A> -> (removed)\n", none⟩, ""⟩ := by
  have hmoves : mixedTree.readMoves (.ofString "/f.json") = .ok mixedMoves := by
    cbv
  have hsources : mixedProject.sources mixedTree = .ok [.ofString "src/a.hpp"] := by
    cbv
  -- One directive is moved, one is removed, and a line that only looks like one is kept.
  have hstep : mixedProject.reviseFile mixedMoves ⟨false, .none⟩ (.ofString "src/a.hpp") mixedTree
      = (.ok ⟨.ofString "src/a.hpp", "#include <B>\n#include \"A>\n",
          [⟨.ofString "src/a.hpp", "\"A\"", .replaced "B" .angled, none⟩,
            ⟨.ofString "src/a.hpp", "<A>", .removed, none⟩]⟩,
        mixedTree.put [(Path.ofString "a.hpp").bytes, (Path.ofString "src").bytes]
          (.file mixedAfter)) := by
    simp only [Project.reviseFile, Moves.revise_eq_reviseLines]
    rfl
  simp only [Project.run, Project.applyTable, hmoves, hsources, Project.reviseAll, hstep]
  rfl

/-- It has not warned. -/
theorem no_run_warns_mixedTree :
    let report : Report := ⟨.text, false, false⟩
    let done := mixedProject.run (.ofString "/f.json") report false .none mixedTree ⟨"", none⟩
    done.result = .ok ⟨1, 1, 1, 1, 0⟩ ∧
      done.state.text = "src/a.hpp: \"A\" -> B\nsrc/a.hpp: <A> -> (removed)\n" ∧
      done.IsUnwarned mixedTree (.ofString "/f.json") report ⟨"", none⟩ := by
  intro report done
  have hdone : done = _ := run_mixedTree
  refine ⟨?_, ?_, no_run_warns.2.2.1 _ _ report false .none mixedTree ⟨"", none⟩⟩
  · rw [hdone]
  · rw [hdone]

end Invocation

end IncludeMoves
