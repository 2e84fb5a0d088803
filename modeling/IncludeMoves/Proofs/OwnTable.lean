import IncludeMoves.Proofs.DryRun
import IncludeMoves.Proofs.Frame
import IncludeMoves.Proofs.JsonDocuments
import IncludeMoves.Proofs.JsonTexts

/-!
# A run and its own table

The table of a run may lie among its sources: it may have the name of a source and be in the target, or a
link there may lead to it. It is revised then like any other source. But what has been read as a table is
a JSON text, and a JSON text holds no directive, so the step on it writes nothing, and no other step gets
to its file. This holds for every file with a JSON text, whatever the table says.

* `FileSystem.KeepsFile` is the same file at the end of a path, with its content and its permission bits,
  and its own way there;
* `Project.keepsFile_step` — a step keeps the file of a text that the table leaves as it is;
* `Project.keepsFile_run` — so does a run over any sources;
* `Moves.isText_of_parse` — what has been read as a table is a JSON text;
* `Invocation.run_spares_own_table` — a run leaves its table as it is, for itself and for later runs.
-/

namespace IncludeMoves

namespace FileSystem

variable {fs fs' fs'' : FileSystem} {q table : Path} {text : String} {moves : Moves}

namespace KeepsFile

theorem refl (fs : FileSystem) (q : Path) : KeepsFile fs fs q :=
  fun _ _ hres hfile => ⟨hres, hfile⟩

theorem trans (h : KeepsFile fs fs' q) (h' : KeepsFile fs' fs'' q) : KeepsFile fs fs'' q := by
  intro k f hres hfile
  obtain ⟨hres', hfile'⟩ := h k f hres hfile
  exact h' k f hres' hfile'

/-- A text that has been read is read again. -/
theorem readText_eq_ok (h : KeepsFile fs fs' q) (htext : fs.readText q = .ok text) :
    fs'.readText q = .ok text := by
  obtain ⟨k, f, hres, hfile, hread, hcontent⟩ := FileSystem.readText_eq_ok.mp htext
  obtain ⟨hres', hfile'⟩ := h k f hres hfile
  exact FileSystem.readText_eq_ok.mpr ⟨k, f, hres', hfile', hread, hcontent⟩

end KeepsFile

/-- A table is a text that can be read as one. -/
theorem exists_text_of_readMoves (h : fs.readMoves table = .ok moves) :
    ∃ text, fs.readText table = .ok text ∧ Moves.parse text = .ok moves := by
  rw [readMoves] at h
  split at h
  · cases h
  next text htext =>
    split at h
    · cases h
    next m hparse =>
      cases h
      exact ⟨text, htext, hparse⟩

theorem readMoves_of_readText (h : fs.readText table = .ok text) (h' : fs'.readText table = .ok text) :
    fs'.readMoves table = fs.readMoves table := by
  simp only [readMoves, h, h']

end FileSystem

namespace Moves

variable {m : Moves} {text : String}

/-- **What has been read as a table is a JSON text.** -/
theorem isText_of_parse (h : parse text = .ok m) : Json.IsText text.toList := by
  rw [parse] at h
  split at h
  · cases h
  next v hv => exact (Json.parse_eq_ok_iff.mp hv).isText

/-- Every table leaves a JSON text as it is. -/
theorem revisedText_of_isText (h : Json.IsText text.toList) (m : Moves) : m.revisedText text = text :=
  congrArg Revision.text (h.revise_eq.2 m default)

end Moves

namespace Project

variable {σ : Type} {p : Project} {moves : Moves} {w : Writing} {report : Reporter σ}
  {source q : Path} {sources : List Path} {fs fs' : FileSystem} {state state' : σ} {text : String}
  {result : Except Problem (List Revision)}

/-- **A step keeps the file of a text that the table leaves as it is.** Either it writes another file,
or it has nothing to write. -/
theorem keepsFile_step (hp : p.IsPlaced fs) (htext : fs.readText q = .ok text)
    (hsame : moves.revisedText text = text) :
    fs.KeepsFile (p.reviseFile moves w source fs).2 q := by
  cases hstep : p.reviseFile moves w source fs with
  | mk result fs' =>
    cases result with
    | error e =>
      rw [reviseFile_error hstep]
      exact .refl fs q
    | ok r =>
      intro k f hres hfile
      rcases resolve_reviseFile hp hstep hres hfile with hkept | ⟨hsource, -, -⟩
      · exact hkept
      · -- The step is on this file, so it has read the same text and had nothing to write.
        obtain ⟨k', f', hres', hfile', hread, hcontent⟩ := FileSystem.readText_eq_ok.mp htext
        cases hres.symm.trans hres'
        have hsourceText : fs.readText (p.resolve source) = .ok text :=
          FileSystem.readText_eq_ok.mpr ⟨k, f', hsource, hfile', hread, hcontent⟩
        cases (reviseFile_of_same hsourceText hsame w).symm.trans hstep
        exact ⟨hres, hfile⟩

/-- **A run keeps the file of such a text**, however it ends. -/
theorem keepsFile_run (hp : p.IsPlaced fs) (htext : fs.readText q = .ok text)
    (hsame : moves.revisedText text = text)
    (h : p.reviseAll moves w report sources fs state = (result, fs', state')) :
    fs.KeepsFile fs' q := by
  have hkept : p.IsPlaced fs' ∧ fs.KeepsFile fs' q :=
    reviseAll_induct (P := fun fs₁ => p.IsPlaced fs₁ ∧ fs.KeepsFile fs₁ q)
      (fun fs₁ source ⟨hp₁, hkeeps⟩ => ⟨hp₁.reviseFile moves w source,
        hkeeps.trans (keepsFile_step hp₁ (hkeeps.readText_eq_ok htext) hsame)⟩)
      ⟨hp, .refl fs q⟩ h
  exact hkept.2

end Project

namespace Invocation

variable {i : Invocation} {executable : Path} {colour : Bool} {faults : WriteFaults}
  {fs : FileSystem} {out : Output} {q : Path} {text : String}

/-- **Every JSON text that can be read is spared by every run.** -/
theorem keepsFile_of_isText (htext : fs.readText q = .ok text) (h : Json.IsText text.toList) :
    fs.KeepsFile (i.run executable colour faults fs out).files q := by
  rcases i.run_cases executable colour faults fs out with
    ⟨-, hfiles⟩ | ⟨format, p, moves, sources, result, out', hrevises, hall⟩
  · rw [hfiles]
    exact .refl fs q
  · obtain ⟨root, -, hproject⟩ := hrevises.project
    exact Project.keepsFile_run (Project.isPlaced_of_ofPaths hproject fs) htext
      (Moves.revisedText_of_isText h moves) hall

/-- **A run spares its own table.** What is read as a table is a JSON text; a JSON text, however it is laid
out and nested and whatever its strings say, holds no directive, and every table leaves it as it is and has
nothing to tell of it. So for every tree and every command line, however the run ends: the path of the
table leads to the same file as before, which is as it was, and the table is read again from there, or
fails in the same way. The same file is still at the end of all other paths to JSON texts, be it through
a link that is a source itself. -/
theorem run_spares_own_table (i : Invocation) (executable : Path) (colour : Bool) (faults : WriteFaults)
    (fs : FileSystem) (out : Output) :
    (∀ text m, Moves.parse text = .ok m → Json.IsText text.toList) ∧
    (∀ text : String, Json.IsText text.toList →
      Directive.segments text.toList = text.toList.map .plain ∧
        ∀ (m : Moves) (file : Path), m.revise file text = ⟨file, text, []⟩) ∧
    let after := (i.run executable colour faults fs out).files
    fs.KeepsFile after i.table ∧ after.readMoves i.table = fs.readMoves i.table ∧
      ∀ q text, fs.readText q = .ok text → Json.IsText text.toList →
        fs.KeepsFile after q ∧ after.readText q = .ok text := by
  -- The first two parts are about texts, and the last one about the run.
  refine ⟨fun text m => Moves.isText_of_parse, fun text => Json.IsText.revise_eq, ?_⟩
  intro after
  have hspared : ∀ q text, fs.readText q = .ok text → Json.IsText text.toList →
      fs.KeepsFile after q ∧ after.readText q = .ok text := by
    intro q text htext h
    have hkeeps : fs.KeepsFile after q := keepsFile_of_isText htext h
    exact ⟨hkeeps, hkeeps.readText_eq_ok htext⟩
  -- A run that has no table does nothing.
  have htable : fs.KeepsFile after i.table ∧ after.readMoves i.table = fs.readMoves i.table := by
    rcases i.run_cases executable colour faults fs out with
      ⟨-, hfiles⟩ | ⟨format, p, moves, sources, result, out', hrevises, -⟩
    · have hafter : after = fs := hfiles
      rw [hafter]
      exact ⟨.refl fs i.table, rfl⟩
    · obtain ⟨text, htext, hparse⟩ := FileSystem.exists_text_of_readMoves hrevises.moves
      obtain ⟨hkeeps, htext'⟩ := hspared i.table text htext (Moves.isText_of_parse hparse)
      exact ⟨hkeeps, FileSystem.readMoves_of_readText htext htext'⟩
  exact ⟨htable.1, htable.2, hspared⟩

/-- The text of a table: a directive as the name of a member, at the start of a line but for the quote.
Nearer to a directive a JSON text cannot come. -/
def ownTableText : String :=
  "\x7b\n\"A\":\"B\",\n\"#include \\\"A\\\"\\n\":null\x7d\n"

/-- The table of this text. -/
def ownMoves : Moves :=
  ⟨[("#include \"A\"\n", .gone), ("A", .moved "B")]⟩

/-- A table `src/moves.hpp`, a link `src/l.hpp` to it, and a source `src/z.hpp`. The run that reads the
table revises it by itself, twice. -/
def ownTableTree : FileSystem where
  entries := [
    ([(Path.ofString "src").bytes], .dir),
    ([(Path.ofString "l.hpp").bytes, (Path.ofString "src").bytes], .link (.ofString "moves.hpp")),
    ([(Path.ofString "moves.hpp").bytes, (Path.ofString "src").bytes],
      .file ⟨1, 0o644, ownTableText.toUTF8⟩),
    ([(Path.ofString "z.hpp").bytes, (Path.ofString "src").bytes],
      .file ⟨2, 0o644, "#include \"A\"\n".toUTF8⟩)]
  cwd := []

/-- The project of this tree. -/
def ownTableProject : Project :=
  ⟨.ofString "/", .ofString "/src"⟩

/-- The table is a source itself, and the link to it is another one. -/
def ownTableRun : Invocation :=
  ⟨.ofString "/src/moves.hpp", none, some (.ofString "/"), "text", false, false, false⟩

theorem parse_ownTableText : Moves.parse ownTableText = .ok ownMoves := by
  cbv

theorem readText_ownTableTree (q : Path)
    (hq : q = .ofString "/src/moves.hpp" ∨ q = .ofString "/src/l.hpp") :
    ownTableTree.readText q = .ok ownTableText := by
  rcases hq with rfl | rfl <;> cbv

/-- What the run revises: the table, the link to it, and the source behind them. -/
theorem revises_ownTableRun :
    ownTableRun.Revises (.ofString "/bin/fixup") ownTableTree .text ownTableProject ownMoves
      [.ofString "src/l.hpp", .ofString "src/moves.hpp", .ofString "src/z.hpp"] where
  format := rfl
  project := ⟨.ofString "/", rfl, rfl⟩
  moves := by
    have htext := readText_ownTableTree ownTableRun.table (.inl rfl)
    simp only [FileSystem.readMoves, htext, parse_ownTableText]
  sources := by cbv

/-- The step on the source writes it; those on the table and the link write nothing. -/
theorem files_ownTableRun :
    (ownTableRun.run (.ofString "/bin/fixup") false .none ownTableTree ⟨"", none⟩).files
      = ownTableTree.put [(Path.ofString "z.hpp").bytes, (Path.ofString "src").bytes]
          (.file ⟨3, 0o644, "#include \"B\"\n".toUTF8⟩) := by
  have hisText := Moves.isText_of_parse parse_ownTableText
  -- A path that leads to the table is read, and the table is left as it was.
  have hspared : ∀ source : Path,
      ownTableTree.readText (ownTableProject.resolve source) = .ok ownTableText →
      ownTableProject.reviseFile ownMoves ⟨false, .none⟩ source ownTableTree
        = (.ok ⟨source, ownTableText, []⟩, ownTableTree) := by
    intro source htext
    rw [Project.reviseFile_of_same htext (Moves.revisedText_of_isText hisText ownMoves),
      hisText.revise_eq.2]
  have hlink := hspared (.ofString "src/l.hpp") (readText_ownTableTree _ (.inr rfl))
  have htable := hspared (.ofString "src/moves.hpp") (readText_ownTableTree _ (.inl rfl))
  -- The third source is no table.
  have hsource : ownTableProject.reviseFile ownMoves ⟨false, .none⟩ (.ofString "src/z.hpp") ownTableTree
      = (.ok ⟨.ofString "src/z.hpp", "#include \"B\"\n",
          [⟨.ofString "src/z.hpp", "A", .replaced "B" .quoted, none⟩]⟩,
        ownTableTree.put [(Path.ofString "z.hpp").bytes, (Path.ofString "src").bytes]
          (.file ⟨3, 0o644, "#include \"B\"\n".toUTF8⟩)) := by
    simp only [Project.reviseFile, Moves.revise_eq_reviseLines]
    rfl
  rcases ownTableRun.run_cases (.ofString "/bin/fixup") false .none ownTableTree ⟨"", none⟩ with
    ⟨hnone, -⟩ | ⟨format, p, moves, sources, result, out, hrevises, hall⟩
  · exact absurd revises_ownTableRun (hnone _ _ _ _)
  · obtain ⟨rfl, rfl, rfl, rfl⟩ := revises_ownTableRun.unique hrevises
    -- The link and the table come first, in the order of the sources.
    rw [Project.reviseAll_cons_of_ok hlink rfl (Project.reviseAll_cons_of_ok htable rfl
      (Project.reviseAll_cons_of_ok hsource rfl rfl))] at hall
    exact (congrArg (fun done => done.2.1) hall).symm

/-- The run goes over the table, twice, and changes only the file behind it. -/
theorem run_spares_own_table_ownTableTree :
    let after := (ownTableRun.run (.ofString "/bin/fixup") false .none ownTableTree ⟨"", none⟩).files
    ownTableRun.Revises (.ofString "/bin/fixup") ownTableTree .text ownTableProject ownMoves
        [.ofString "src/l.hpp", .ofString "src/moves.hpp", .ofString "src/z.hpp"] ∧
      after.content? [(Path.ofString "z.hpp").bytes, (Path.ofString "src").bytes]
        = some "#include \"B\"\n".toUTF8 ∧
      after.readMoves (.ofString "/src/moves.hpp") = .ok ownMoves ∧
      ownTableTree.KeepsFile after (.ofString "/src/moves.hpp") ∧
      ownTableTree.KeepsFile after (.ofString "/src/l.hpp") := by
  intro after
  have hrevises := revises_ownTableRun
  have hcontent : after.content? [(Path.ofString "z.hpp").bytes, (Path.ofString "src").bytes]
      = some "#include \"B\"\n".toUTF8 := by
    have hafter : after = _ := files_ownTableRun
    rw [hafter]
    rfl
  obtain ⟨hisText, -, htable, hread, hspared⟩ := run_spares_own_table ownTableRun
    (.ofString "/bin/fixup") false .none ownTableTree ⟨"", none⟩
  -- The link leads to the table, and so it reads the same text.
  have hlink := hspared (.ofString "/src/l.hpp") _ (readText_ownTableTree _ (.inr rfl))
    (hisText _ _ parse_ownTableText)
  exact ⟨hrevises, hcontent, hread.trans hrevises.moves, htable, hlink.1⟩

end Invocation

end IncludeMoves
