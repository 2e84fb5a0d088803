import IncludeMoves.Proofs.Composition

/-!
# Edits that change nothing

A run asks twice whether a file has changed. What it reports are the edits of the revision, and what it
writes depends on the text. The two agree but for edits that put a line in the place of the same line.

No other edits can make up for each other, a removed line for one that is written elsewhere: a table
without newlines makes one line or none of each line. So a text that stays the same has as many lines as
before, none was removed, and each is what became of itself.

* `Moves.Records` — the record of a line of the text;
* `Moves.revisedText_eq_self_iff` — a text stays the same if and only if each of its lines does;
* `Record.Alters` — the records of the lines that do not;
* `Project.reviseFile_eq_self_iff` — a file is left as it is if and only if its text stays the same;
* `Moves.text_changes_with_edits` — what the edits of a revision say about its text.
-/

namespace IncludeMoves

open Pattern (Piece)

/-- If a list is the same after its members were changed and some were dropped, none was changed. -/
theorem forall_eq_of_filter_map_eq {α : Type} {f : α → α} {keep : α → Bool} {as : List α}
    (h : (as.map f).filter keep = as) : ∀ a ∈ as, f a = a := by
  -- The list is as long as before, so nothing was dropped.
  have hlength : ((as.map f).filter keep).length = (as.map f).length := by
    rw [h, List.length_map]
  have hmap : as.map f = as.map id := by
    rw [List.map_id, ← List.filter_sublist.eq_of_length hlength, h]
  exact List.map_inj_left.mp hmap

/-- **A record alters its line** if the directive there was removed, or replaced by another line.
Replacing a line by itself is an edit too, and alters nothing. -/
def Record.Alters (r : Record) (line : List Char) : Prop :=
  r.outcome = .removed ∨ ∃ new s, r.outcome = .replaced new s ∧ line ≠ (s.render new).toList

theorem Record.Alters.isEdit {r : Record} {line : List Char} (h : r.Alters line) :
    r.isEdit = true := by
  rcases h with h | ⟨new, s, h, -⟩ <;> simp [Record.isEdit, h]

namespace Moves

variable {m : Moves} {file : Path} {text : String} {line : List Char} {r : Record}

/-! ### The records of the lines -/

/-- **The record of a line**: the search of the text matches the line, and `r` says what became of the
directive. -/
def Records (m : Moves) (file : Path) (text : String) (line : List Char) (r : Record) : Prop :=
  ∃ token, Piece.hit line token ∈ Directive.segments text.toList ∧
    m.record? file (.hit line token) = some r

/-- Each record of a revision is that of a line. -/
theorem mem_records_iff : r ∈ (m.revise file text).records ↔ ∃ line, m.Records file text line r := by
  rw [revise, List.mem_filterMap]
  constructor
  · rintro ⟨piece, hpiece, hr⟩
    cases piece with
    | plain c => cases hr
    | hit line token => exact ⟨line, token, hpiece, hr⟩
  · rintro ⟨line, token, hpiece, hr⟩
    exact ⟨_, hpiece, hr⟩

/-- The lines with a record are those in which a directive can be read. -/
theorem records_iff : m.Records file text line r ↔
    line ∈ (Lines.of text.toList).terminated ∧
      ∃ s path, Directive.readLine? line = some (s, path) ∧
        r = ⟨file, String.ofList path, m.outcomeOf s path, none⟩ := by
  constructor
  · rintro ⟨token, htoken, hr⟩
    obtain ⟨hmem, s, path, hread, rfl⟩ := Directive.hit_mem_segments_iff.mp htoken
    -- The token of a match spells the line, so the record of the token is that of its style and path.
    rw [record?_delimit, Option.some.injEq] at hr
    exact ⟨hmem, s, path, hread, hr.symm⟩
  · rintro ⟨hmem, s, path, hread, rfl⟩
    exact ⟨_, Directive.hit_mem_segments_iff.mpr ⟨hmem, s, path, hread, rfl⟩,
      m.record?_delimit file line s path⟩

/-! ### Lines that stay the same -/

/-- A line does not stay the same if and only if its record alters it. -/
theorem Records.reviseLine_ne_self_iff (hr : m.Records file text line r) :
    m.reviseLine line ≠ line ↔ r.Alters line := by
  obtain ⟨hmem, s, path, hread, rfl⟩ := records_iff.mp hr
  have hne : line ≠ [] := (Lines.isLine_of_mem hmem).ne_nil
  simp only [reviseLine, hread, Record.Alters]
  cases m.outcomeOf s path with
  | kept => simp
  | removed => simp [hne.symm]
  | replaced new t => simp [eq_comm]

/-- An edit that does not alter its line replaces a path by itself, in the canonical form. Nothing else
that is written for the line can be the line. -/
theorem Records.not_alters_iff (hr : m.Records file text line r) : ¬r.Alters line ↔
    (r.isEdit = true → ∃ s, r.outcome = .replaced r.old s ∧ line = (s.render r.old).toList) := by
  obtain ⟨-, s, path, hread, rfl⟩ := records_iff.mp hr
  simp only [Record.Alters, Record.isEdit]
  cases m.outcomeOf s path with
  | kept => simp
  | removed => simp
  | replaced new t =>
    -- The canonical line of the new path is read as this path, so it is the old one.
    have hold : line = (t.render new).toList → String.ofList path = new := by
      rintro rfl
      rw [Style.render, String.toList_ofList, Directive.readLine?_line] at hread
      split at hread
      · cases hread
      · cases hread
        exact String.ofList_toList
    -- It is spared by being the line itself, and by no other outcome of an edit.
    simp only [reduceCtorEq, Outcome.replaced.injEq, false_or, not_exists, not_and, not_not]
    constructor
    · intro h _
      have hline := h new t ⟨rfl, rfl⟩
      obtain rfl := hold hline
      exact ⟨t, ⟨rfl, rfl⟩, hline⟩
    · rintro h _ _ ⟨rfl, rfl⟩
      obtain ⟨s, ⟨hnew, rfl⟩, hline⟩ := h rfl
      exact hnew ▸ hline

/-- **A text stays the same if and only if each of its lines does**, if the table writes no newline. -/
theorem revisedText_eq_self_iff (hm : m.KeepsLines) : m.revisedText text = text ↔
    ∀ line ∈ (Lines.of text.toList).terminated, m.reviseLine line = line := by
  refine ⟨fun h => ?_, revisedText_of_forall⟩
  have hlines := m.lines_revisedText hm text
  rw [h] at hlines
  exact forall_eq_of_filter_map_eq (congrArg Lines.terminated hlines).symm

/-- A text does not stay the same if and only if some record alters its line. Altered lines cannot make
up for each other, because each of them stays a line or goes. -/
theorem revisedText_ne_self_iff (hm : m.KeepsLines) (file : Path) : m.revisedText text ≠ text ↔
    ∃ line r, m.Records file text line r ∧ r.Alters line := by
  rw [Ne, revisedText_eq_self_iff hm]
  constructor
  · intro h
    -- Some line is altered, and it is that of a directive.
    obtain ⟨line, hmem, hline⟩ : ∃ line ∈ (Lines.of text.toList).terminated,
        m.reviseLine line ≠ line := by simpa using h
    cases hread : Directive.readLine? line with
    | none => exact absurd (reviseLine_of_readLine?_eq_none hread) hline
    | some found =>
      have hr : m.Records file text line _ := records_iff.mpr ⟨hmem, found.1, found.2, hread, rfl⟩
      exact ⟨line, _, hr, hr.reviseLine_ne_self_iff.mp hline⟩
  · rintro ⟨line, r, hr, halters⟩ h
    exact hr.reviseLine_ne_self_iff.mpr halters (h line (records_iff.mp hr).1)

-- With a newline in a path, the line that one directive loses is written by another.
example :
    let m : Moves := ⟨[("A", .gone), ("X", .moved "A\"\n#include \"X")]⟩
    let text := "#include \"A\"\n#include \"X\"\n"
    m.reviseLines ⟨[]⟩ text = ⟨⟨[]⟩, text,
      [⟨⟨[]⟩, "A", .removed, none⟩,
        ⟨⟨[]⟩, "X", .replaced "A\"\n#include \"X" .quoted, none⟩]⟩ := by
  decide

/-- A text without edits stays the same, whatever the table writes. -/
theorem revisedText_of_not_isModified (h : (m.revise file text).isModified = false) :
    m.revisedText text = text := by
  refine revisedText_of_forall fun line hmem => ?_
  cases hread : Directive.readLine? line with
  | none => exact reviseLine_of_readLine?_eq_none hread
  | some found =>
    have hr : m.Records file text line _ := records_iff.mpr ⟨hmem, found.1, found.2, hread, rfl⟩
    by_contra hline
    have hedit := (hr.reviseLine_ne_self_iff.mp hline).isEdit
    exact List.any_eq_false.mp h _ (mem_records_iff.mpr ⟨line, hr⟩) hedit

end Moves

/-! ### Files that are left as they are -/

namespace Project

variable {p : Project} {m : Moves} {w : Writing} {source : Path} {fs fs' : FileSystem} {r : Revision}

/-- **A file is left as it is if and only if its text stays the same.** -/
theorem reviseFile_eq_self_iff (hw : w.dry = false)
    (h : p.reviseFile m w source fs = (.ok r, fs')) :
    ∃ text, fs.readText (p.resolve source) = .ok text ∧ r = m.revise source text ∧
      (fs' = fs ↔ m.revisedText text = text) := by
  obtain ⟨text, htext, hr, hchange⟩ := reviseFile_ok h
  refine ⟨text, htext, hr, fun hfs => ?_, fun hsame => ?_⟩
  · rcases hchange with ⟨-, hsame⟩ | ⟨-, fault, hreplace⟩
    · exact hsame.resolve_left (by simp [hw])
    · exact absurd hfs (FileSystem.replaceFile_ne_self hreplace)
  · rw [reviseFile_of_same htext hsame] at h
    exact (Prod.mk.inj h).2.symm

end Project

namespace Moves

/-- **What the edits of a revision say about its text.** A text without edits stays the same. If the
table writes no newline, a text stays the same only if no directive is removed and each that is replaced
is replaced by the same line. So a file whose revision has edits is left as it is exactly if each of
them puts a path in its own place, in a line that was in its canonical form already. -/
theorem text_changes_with_edits (m : Moves) :
    (∀ file text, (m.revise file text).isModified = false → (m.revise file text).text = text) ∧
    (m.KeepsLines →
      (∀ file text, (m.revise file text).text ≠ text ↔
        ∃ line r, m.Records file text line r ∧ r.Alters line) ∧
      ∀ (p : Project) (w : Writing) (source : Path) (fs : FileSystem) (r : Revision)
        (fs' : FileSystem), w.dry = false → p.reviseFile m w source fs = (.ok r, fs') →
        ∃ text, fs.readText (p.resolve source) = .ok text ∧ r = m.revise source text ∧
          (fs' = fs ↔ ∀ line record, m.Records source text line record → record.isEdit = true →
            ∃ s, record.outcome = .replaced record.old s ∧
              line = (s.render record.old).toList)) := by
  refine ⟨fun file text => revisedText_of_not_isModified, fun hm =>
    ⟨fun file text => revisedText_ne_self_iff hm file, fun p w source fs r fs' hw h => ?_⟩⟩
  -- That the tree is left says the text is, and that is said line by line.
  obtain ⟨text, htext, hr, hsame⟩ := Project.reviseFile_eq_self_iff hw h
  refine ⟨text, htext, hr, hsame.trans ?_⟩
  -- Unchanged content means that no line is altered, and an edit spares the line that it renders.
  rw [← not_ne_iff, revisedText_ne_self_iff hm source]
  constructor
  · exact fun hnone line record hrecord =>
      hrecord.not_alters_iff.mp fun halters => hnone ⟨line, record, hrecord, halters⟩
  · rintro hown ⟨line, record, hrecord, halters⟩
    exact hrecord.not_alters_iff.mpr (hown line record hrecord) halters

/-- A table that moves one path to itself. -/
def selfMove : Moves :=
  ⟨[("A", .moved "A")]⟩

/-- Its project has one source, in its canonical form. -/
def canonicalTree : FileSystem where
  entries := [([(Path.ofString "a").bytes], .file ⟨1, 0o644, "#include <A>\n".toUTF8⟩)]
  cwd := []

/-- A text without edits, a line that is brought into its canonical form, and a file with an edit that
is left as it is. -/
theorem text_changes_with_edits_selfMove :
    let p : Project := ⟨.ofString "/", .ofString "/"⟩
    let r := selfMove.revise (.ofString "a") "#include <A>\n"
    selfMove.KeepsLines ∧
      (selfMove.revise (.ofString "a") "int x;\n").text = "int x;\n" ∧
      (∃ line r, selfMove.Records (.ofString "a") "#include  <A>\n" line r ∧ r.Alters line) ∧
      r.isModified = true ∧
      p.reviseFile selfMove ⟨false, fun _ => none⟩ (.ofString "a") canonicalTree
        = (.ok r, canonicalTree) ∧
      ∀ line record, selfMove.Records (.ofString "a") "#include <A>\n" line record →
        record.isEdit = true → ∃ s, record.outcome = .replaced record.old s ∧
          line = (s.render record.old).toList := by
  intro p r
  -- The only move is one to the same path.
  have hm : selfMove.KeepsLines := by
    intro path new h
    have hmem := FileSystem.mem_of_lookup_eq_some h
    simp only [selfMove, List.mem_singleton, Prod.mk.injEq, Move.moved.injEq] at hmem
    rw [hmem.2]
    decide
  obtain ⟨hkept, hedits⟩ := text_changes_with_edits selfMove
  obtain ⟨hlines, hfiles⟩ := hedits hm
  have htext : canonicalTree.readText (p.resolve (.ofString "a")) = .ok "#include <A>\n" :=
    FileSystem.readText_eq_ok.mpr
      ⟨[(Path.ofString "a").bytes], _, by decide +kernel, rfl, rfl, rfl⟩
  -- The directive is spelled as it would be written, so that nothing changes.
  have hsame : selfMove.revisedText "#include <A>\n" = "#include <A>\n" := by
    rw [revisedText, revise_eq_reviseLines]
    rfl
  have hstep := Project.reviseFile_of_same htext hsame ⟨false, fun _ => none⟩
  refine ⟨hm, hkept _ _ ?_, (hlines (.ofString "a") _).mp ?_, ?_, hstep, ?_⟩
  · rw [revise_eq_reviseLines]
    rfl
  · rw [revise_eq_reviseLines]
    decide
  · rw [show r = _ from revise_eq_reviseLines _ _ _]
    decide
  -- The step has left the tree as it was, and that is what its only edit says.
  · obtain ⟨text, hread, -, hunwritten⟩ := hfiles p _ _ _ r _ rfl hstep
    rw [htext, Except.ok.injEq] at hread
    exact hread ▸ hunwritten.mp rfl

end Moves

end IncludeMoves
