import IncludeMoves.Proofs.FoundDirectives
import IncludeMoves.Proofs.ReportLines
import Mathlib.Algebra.BigOperators.Group.List.Basic

/-!
# Totals, reports and texts agree

The totals of revisions are counted over their records, the reports are written from the records, and the
texts are put together beside them. All three tell of the directives of the old texts, so they agree: each
removed directive takes one newline out of the texts, each edit and each warning is one line for the
reader, and each directive is one line for other programs.

* `Tally.ofRevisions_append` — the totals of two lists of revisions;
* `Moves.newlines_revise` — the newlines that a revision takes out of a text;
* `Moves.isPlain_of_mem_records` — the records of a revision have no newline in their names;
* `Record.length_textLines` — the lines for records, by what the totals count;
* `Tally.totals_agree` — any number of files.
-/

namespace IncludeMoves

/-! ### Newlines and directive lines -/

/-- The number of newlines in a text. -/
def newlines (text : String) : Nat :=
  text.toList.count '\n'

/-- The number of lines of a text that are directives. What stands behind the last newline does not
count, whatever it looks like. -/
def directiveLines (text : String) : Nat :=
  (Lines.of text.toList).terminated.countP fun line => (Directive.readLine? line).isSome

theorem newlines_eq (text : String) : newlines text = (Lines.of text.toList).terminated.length := by
  rw [newlines]
  induction text.toList using Lines.induct with
  | tail t h => rw [Lines.of_of_not_mem h, List.count_eq_zero_of_not_mem h, List.length_nil]
  | line w r h ih =>
    rw [Lines.of_append h, List.count_append, List.count_eq_zero_of_not_mem h, List.count_cons_self, ih,
      Nat.zero_add, List.length_cons]

theorem Style.line_ne_nil (s : Style) (path : List Char) : s.line path ≠ [] :=
  List.append_ne_nil_of_right_ne_nil _ (List.cons_ne_nil _ _)

namespace Moves

variable {m : Moves} {file : Path} {text : String} {record : Record}

theorem directiveLines_eq (m : Moves) (file : Path) (text : String) :
    directiveLines text = (m.revise file text).records.length := by
  rw [revise_eq_reviseLines, reviseLines, List.length_filterMap_eq_countP, directiveLines]
  refine List.countP_congr fun line _ => ?_
  rw [lineRecord?]
  cases Directive.readLine? line <;> simp

/-- A line is taken out of the text exactly if its record says so. -/
theorem reviseLine_eq_nil_iff (file : Path) {line : List Char} (hline : Lines.IsLine line) :
    m.reviseLine line = [] ↔ ∃ r, m.lineRecord? file line = some r ∧ r.outcome = .removed := by
  rw [reviseLine, lineRecord?]
  cases Directive.readLine? line with
  | none => simp [hline.ne_nil]
  | some d =>
    simp only [Option.some.injEq, exists_eq_left']
    cases m.outcomeOf d.1 d.2 with
    | kept => simp [hline.ne_nil]
    | removed => simp
    | replaced new style => simp [Directive.toList_render, style.line_ne_nil]

/-- **Each removed directive takes one newline out of the text**, and nothing else does. The induction
is on the lines, of which each one keeps its newline or goes with it. -/
theorem newlines_revise (hm : m.KeepsLines) (file : Path) (text : String) :
    newlines text = newlines (m.revise file text).text
      + (m.revise file text).records.countP fun r => r.outcome == .removed := by
  -- A directive is removed exactly if nothing is left of its line.
  have hremoved : (m.revise file text).records.countP (fun r => r.outcome == .removed)
      = (Lines.of text.toList).terminated.countP fun line => m.reviseLine line = [] := by
    rw [revise_eq_reviseLines, reviseLines, List.countP_filterMap]
    refine List.countP_congr fun line hline => ?_
    rw [decide_eq_true_eq, reviseLine_eq_nil_iff file (Lines.isLine_of_mem hline)]
    cases m.lineRecord? file line <;> simp
  -- The lines that are left are the others.
  have hleft : newlines (m.revise file text).text
      = (Lines.of text.toList).terminated.countP fun line => ¬ m.reviseLine line = [] := by
    rw [text_revise, newlines_eq, lines_revisedText hm, ← List.countP_eq_length_filter,
      List.countP_map]
    rfl
  calc newlines text
      = (Lines.of text.toList).terminated.length := newlines_eq text
    _ = (Lines.of text.toList).terminated.countP (fun line => m.reviseLine line = [])
        + (Lines.of text.toList).terminated.countP (fun line => ¬ m.reviseLine line = []) := by
      simpa using List.length_eq_countP_add_countP fun line => decide (m.reviseLine line = [])
    _ = newlines (m.revise file text).text
        + (m.revise file text).records.countP fun r => r.outcome == .removed := by
      rw [hremoved, hleft, Nat.add_comm]

/-- The records of a revision have no newline in their names if the path of the file has none. The old
path is from a line, and the new one from a table that writes no newline. -/
theorem isPlain_of_mem_records (hm : m.KeepsLines) (hfile : 10 ∉ file.bytes)
    (h : record ∈ (m.revise file text).records) : record.IsPlain := by
  rw [records_revise] at h
  obtain ⟨d, hd, rfl⟩ := List.mem_map.mp h
  rw [Directive.found_eq] at hd
  obtain ⟨line, hline, hd⟩ := List.mem_filterMap.mp hd
  -- The directive is a line, so its path has no newline.
  obtain ⟨-, y, hy⟩ := Directive.ofLine?_eq_some_iff.mp hd
  have hold := Directive.Layout.isLine_line_iff.mp (hy ▸ Lines.isLine_of_mem hline)
  refine ⟨hfile, hold, fun new style hnew => ?_, fun token htoken => by cases htoken⟩
  rw [recordOf, outcomeOf] at hnew
  split at hnew
  · cases hnew
  · cases hnew
  · next hmove =>
    cases hnew
    exact hm _ _ hmove

end Moves

/-! ### Lines and records -/

namespace Record

/-- **The lines for the reader**: one for each removed directive, for each replaced one and for each
warning. -/
theorem length_textLines (colour : Bool) (records : List Record) :
    (records.flatMap (textLines colour)).length
      = records.countP (fun r => r.outcome == .removed)
        + records.countP (fun r => match r.outcome with | .replaced _ _ => true | _ => false)
        + records.countP (fun r => r.malformed.isSome) := by
  induction records with
  | nil => rfl
  | cons r records ih =>
    rw [List.flatMap_cons, List.length_append, ih, List.countP_cons, List.countP_cons, List.countP_cons,
      textLines, List.length_append, notice?, warning?]
    cases r.outcome <;> cases r.malformed <;> simp <;> omega

theorem textLines_eq_nil_iff {r : Record} (colour : Bool) (h : r.malformed = none) :
    r.textLines colour = [] ↔ r.isEdit = false := by
  rw [textLines, warning?, h, notice?, isEdit]
  cases r.outcome <;> simp

end Record

namespace Tally

/-- Totals add up, each by itself. -/
instance : Add Tally where
  add a b :=
    { scanned := a.scanned + b.scanned
      modified := a.modified + b.modified
      removed := a.removed + b.removed
      replaced := a.replaced + b.replaced
      warnings := a.warnings + b.warnings }

theorem count_append (p : Record → Bool) (as bs : List Revision) :
    count p (as ++ bs) = count p as + count p bs := by
  rw [count, List.flatMap_append, List.countP_append]
  rfl

/-- **The totals of two lists of revisions** are the sums of their totals. -/
theorem ofRevisions_append (as bs : List Revision) :
    ofRevisions (as ++ bs) = ofRevisions as + ofRevisions bs := by
  rw [ofRevisions, List.length_append, List.countP_append, count_append, count_append, count_append]
  rfl

theorem count_eq_sum (p : Record → Bool) (revisions : List Revision) :
    count p revisions = (revisions.map fun r => r.records.countP p).sum :=
  List.countP_flatMap

end Tally

/-! ### Reports -/

namespace Report

/-- A report for the reader, with all its lines. -/
def notices (colour : Bool) : Report :=
  ⟨.text, false, colour⟩

theorem lines_notices (colour : Bool) :
    (notices colour).lines = fun r => r.records.flatMap (Record.textLines colour) :=
  rfl

theorem lines_jsonLines (colour : Bool) :
    (jsonLines colour).lines = fun r => r.records.map Record.jsonLine :=
  rfl

theorem length_lines_notices (colour : Bool) (revisions : List Revision) :
    (revisions.flatMap (notices colour).lines).length
      = (Tally.ofRevisions revisions).removed + (Tally.ofRevisions revisions).replaced
        + (Tally.ofRevisions revisions).warnings := by
  rw [lines_notices, ← List.flatMap_assoc]
  exact Record.length_textLines colour (revisions.flatMap Revision.records)

theorem length_lines_jsonLines (colour : Bool) (revisions : List Revision) :
    (revisions.flatMap (jsonLines colour).lines).length
      = (revisions.map fun r => r.records.length).sum := by
  simp only [lines_jsonLines, List.length_flatMap, List.length_map]

/-- Notices are written exactly if the file is modified, where nothing is malformed. -/
theorem output_notices_ne_empty_iff {r : Revision} {colour : Bool}
    (hlines : ∀ line ∈ (notices colour).lines r, line ≠ "")
    (h : ∀ record ∈ r.records, record.malformed = none) :
    (notices colour).output r ≠ "" ↔ r.isModified = true := by
  have hnone : (notices colour).lines r = [] ↔ ∀ record ∈ r.records, record.isEdit = false := by
    rw [lines_notices, List.flatMap_eq_nil_iff]
    exact forall₂_congr fun record hrecord => record.textLines_eq_nil_iff colour (h record hrecord)
  rw [Ne, output_eq_empty_iff hlines, hnone, Revision.isModified, List.any_eq_true]
  simp

end Report

namespace Tally

/-- **Totals, reports and texts agree.** Take any files whose paths have no newline, and revise their texts
by a table that writes none. Then as many newlines are lost as directives are counted as removed; what is
written for the reader has one line for each directive that is counted as removed or replaced and for each
warning, what is written for other programs has one line for each directive line of the texts, and nothing
is written behind the last of these lines; the files that are counted as modified are those for which
something is written for the reader; and every file is counted as scanned. The totals of two lists are the
sums of their totals. -/
theorem totals_agree (m : Moves) (hm : m.KeepsLines) (inputs : List (Path × String))
    (hpaths : ∀ input ∈ inputs, 10 ∉ input.1.bytes) (colour : Bool) :
    let revisions := inputs.map fun input => m.revise input.1 input.2
    let totals := ofRevisions revisions
    let written (report : Report) := Lines.of (String.join (revisions.map report.output)).toList
    ((inputs.map fun input => newlines input.2).sum
      = (revisions.map fun r => newlines r.text).sum + totals.removed) ∧
    ((written (.notices colour)).terminated.length
        = totals.removed + totals.replaced + totals.warnings ∧
      (written (.notices colour)).tail = []) ∧
    ((written (.jsonLines colour)).terminated.length
        = (inputs.map fun input => directiveLines input.2).sum ∧
      (written (.jsonLines colour)).tail = []) ∧
    totals.modified = revisions.countP (fun r => (Report.notices colour).output r ≠ "") ∧
    totals.scanned = inputs.length ∧
    ∀ as bs : List Revision, ofRevisions (as ++ bs) = ofRevisions as + ofRevisions bs := by
  intro revisions totals written
  -- No record breaks a line, so every output is a list of lines.
  have hplain : ∀ r ∈ revisions, ∀ record ∈ r.records, record.IsPlain := by
    intro r hr record hrecord
    obtain ⟨input, hinput, rfl⟩ := List.mem_map.mp hr
    exact Moves.isPlain_of_mem_records hm (hpaths input hinput) hrecord
  have hlines : ∀ report : Report, ∀ r ∈ revisions, ∀ line ∈ report.lines r, IsOneLine line :=
    fun report r hr line hline => Report.isOneLine_of_mem_lines (hplain r hr) hline
  have hwritten : ∀ report : Report, written report
      = ⟨(revisions.flatMap report.lines).map fun line => line.toList ++ ['\n'], []⟩ :=
    fun report => Report.lines_of_outputs (hlines report)
  refine ⟨?_, ⟨?_, ?_⟩, ⟨?_, ?_⟩, ?_, ?_, ofRevisions_append⟩
  -- Newlines: file by file.
  · change _ = _ + count _ revisions
    rw [count_eq_sum, ← List.sum_map_add, List.map_map]
    refine congrArg List.sum (List.map_congr_left fun input _ => ?_)
    exact Moves.newlines_revise hm input.1 input.2
  -- Notices: a line for each record that is told of.
  · rw [hwritten, List.length_map]
    exact Report.length_lines_notices colour revisions
  · rw [hwritten]
  -- Records as objects: a line for each directive.
  · rw [hwritten, List.length_map, Report.length_lines_jsonLines, List.map_map]
    refine congrArg List.sum (List.map_congr_left fun input _ => ?_)
    exact (m.directiveLines_eq input.1 input.2).symm
  · rw [hwritten]
  -- A file is modified exactly if there is a notice about it.
  · refine List.countP_congr fun r hr => ?_
    obtain ⟨input, -, rfl⟩ := List.mem_map.mp hr
    rw [decide_eq_true_eq]
    exact (Report.output_notices_ne_empty_iff
      (fun line hline => (hlines _ _ hr line hline).ne_empty)
      fun record => Moves.malformed_of_mem_records).symm
  · exact List.length_map _

/-- A table that moves one path and removes another. -/
def fewMoves : Moves :=
  ⟨[("a", .moved "c"), ("b", .gone)]⟩

/-- A file with a directive of each outcome, one in which the last line has no newline, and one that
stays. -/
def fewFiles : List (Path × String) :=
  [(.ofString "x.c", "#include \"a\"\n # include <b>\n#include \"k\"\nint x;\n"),
    (.ofString "y.c", "#include <a>\n#include <b>"),
    (.ofString "z.c", "#include <k>\n")]

/-- The totals of these files, the lines of their reports, and their newlines. -/
theorem totals_agree_fewFiles :
    let revisions := fewFiles.map fun input => fewMoves.revise input.1 input.2
    let written (report : Report) := Lines.of (String.join (revisions.map report.output)).toList
    fewMoves.KeepsLines ∧ (∀ input ∈ fewFiles, 10 ∉ input.1.bytes) ∧
      ofRevisions revisions = ⟨3, 2, 1, 2, 0⟩ ∧
      (written (.notices false)).terminated.length = 3 ∧
      (written (.jsonLines false)).terminated.length = 5 ∧
      (fewFiles.map fun input => newlines input.2).sum
        = (revisions.map fun r => newlines r.text).sum + 1 := by
  intro revisions written
  have hm : fewMoves.KeepsLines := Moves.forall_moved (by decide)
  have hpaths : ∀ input ∈ fewFiles, 10 ∉ input.1.bytes := by decide
  -- Two files are modified: one line is lost, two are changed.
  have htotals : ofRevisions revisions = ⟨3, 2, 1, 2, 0⟩ := by
    simp only [revisions, Moves.revise_eq_reviseLines]
    decide
  have hdirectives : (fewFiles.map fun input => directiveLines input.2).sum = 5 := by
    decide
  obtain ⟨hnewlines, ⟨hnotices, -⟩, ⟨hjson, -⟩, -⟩ := totals_agree fewMoves hm fewFiles hpaths false
  rw [htotals] at hnotices hnewlines
  exact ⟨hm, hpaths, htotals, hnotices, hjson.trans hdirectives, hnewlines⟩

end Tally

end IncludeMoves
