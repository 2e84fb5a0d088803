import IncludeMoves.FileSystem.Replace
import IncludeMoves.Project
import IncludeMoves.Report

/-!
# Runs

A run reads a table of moves, finds the sources of a project, and revises them one after the other.
A changed file is written back before its revision is reported, and the first problem ends the run,
so that what has been reported has been done.

* `Project.reviseFile` — one file;
* `Project.reviseAll` — a list of files, each revision handed to a reporter;
* `Project.applyTable` — table, search and revision;
* `Project.run` — the same with reports on standard output.
-/

namespace IncludeMoves

/-- How files are written: not at all in a dry run, and with the write failures of the medium. A dry run
reports what a writing one would, though it cannot know of a write that fails. -/
structure Writing where
  dry : Bool
  faults : WriteFaults

/-- A reporter: takes a revision and changes a state, or stops the run. The revision has been carried
out when it is called, so stopping takes nothing back. -/
abbrev Reporter (σ : Type) := Revision → σ → Except Problem Unit × σ

/-- How a run ended: its result, the file system, the reporter's state, and the lines for standard
error. -/
structure Finished (σ α : Type) where
  result : Except RunError α
  files : FileSystem
  state : σ
  log : String

/-- Reads a table of moves from a file. Each way in which this fails is a problem about the path of the
table. -/
def FileSystem.readMoves (fs : FileSystem) (path : Path) : Except Problem Moves :=
  match fs.readText path with
  | .error e => .error (.io path e)
  | .ok text =>
    match Moves.parse text with
    | .error e => .error (.badTable path e)
    | .ok moves => .ok moves

namespace Project

/-- **Revises one source.** The file is written only if its text changes. So a file that cannot be
replaced is no problem as long as the table has nothing to change in it. -/
def reviseFile (p : Project) (moves : Moves) (w : Writing) (file : Path) (fs : FileSystem) :
    Except Problem Revision × FileSystem :=
  let path := p.resolve file
  match fs.readText path with
  | .error e => (.error (.io path e), fs)
  | .ok text =>
    let revision := moves.revise file text
    if w.dry ∨ revision.text = text then (.ok revision, fs)
    else
      match fs.replaceFile path revision.text.toUTF8 (w.faults path) with
      | (.ok (), fs) => (.ok revision, fs)
      | (.error (place, e), fs) => (.error (.io place e), fs)

/-- **Revises sources one after the other**, each reported as soon as it is done. The first problem,
with a file or with the report of one, ends the run; what comes behind is not touched, and what was done
before stays. -/
def reviseAll {σ : Type} (p : Project) (moves : Moves) (w : Writing) (report : Reporter σ) :
    List Path → FileSystem → σ → Except Problem (List Revision) × FileSystem × σ
  | [], fs, state => (.ok [], fs, state)
  | file :: files, fs, state =>
    match p.reviseFile moves w file fs with
    | (.error e, fs) => (.error e, fs, state)
    | (.ok revision, fs) =>
      -- The file is as the report says, even if the report does not get through.
      match report revision state with
      | (.error e, state) => (.error e, fs, state)
      | (.ok (), state) =>
        match p.reviseAll moves w report files fs state with
        | (.error e, fs, state) => (.error e, fs, state)
        | (.ok revisions, fs, state) => (.ok (revision :: revisions), fs, state)

/-- What a verbose run says before it starts. -/
def startLines (p : Project) (moves : Moves) (sources : List Path) : String :=
  "root: " ++ p.root.normalized ++ "\ntarget: " ++ p.target.normalized ++ "\n" ++
    toString moves.size ++ " fixups, " ++ toString sources.length ++ " source files\n"

/-- What a verbose run says at its end. -/
def endLines (revisions : List Revision) : String :=
  let modified := revisions.filter Revision.isModified
  String.join (modified.map fun r => "modified: " ++ r.file.normalized ++ "\n") ++
    (Tally.ofRevisions revisions).message ++ "\n"

/-- **Reads a table and applies it to all sources of the project.** A bad table stops the run before
anything is searched, a failed search before anything is read. -/
def applyTable {σ : Type} (p : Project) (table : Path) (w : Writing) (verbose : Bool)
    (report : Reporter σ) (fs : FileSystem) (state : σ) : Finished σ (List Revision) :=
  match fs.readMoves table with
  | .error e => ⟨.error (.failed e), fs, state, ""⟩
  | .ok moves =>
    match p.sources fs with
    | .error e => ⟨.error (.scanFailed p.target e), fs, state, ""⟩
    | .ok sources =>
      let log := if verbose then p.startLines moves sources else ""
      let (result, fs, state) := p.reviseAll moves w report sources fs state
      ⟨result.mapError .failed, fs, state, log⟩

end Project

/-- Standard output: what it has taken, and how many bytes more it takes if there is a limit. With a
limit a run can fail because of its own reports. -/
structure Output where
  text : String
  room : Option Nat
  deriving DecidableEq, Repr, Inhabited

namespace Output

/-- The characters at the start of a text that fit into `room` bytes. -/
def fitting (room : Nat) : List Char → List Char
  | [] => []
  | c :: r => if c.utf8Size ≤ room then c :: fitting (room - c.utf8Size) r else []

/-- Writes a text, or as much of it as there is room for. A text that is cut off ends in a whole
character. -/
def write (o : Output) (text : String) : Except OsError Unit × Output :=
  match o.room with
  | none => (.ok (), ⟨o.text ++ text, none⟩)
  | some room =>
    if text.utf8ByteSize ≤ room then (.ok (), ⟨o.text ++ text, some (room - text.utf8ByteSize)⟩)
    else
      let taken := String.ofList (fitting room text.toList)
      (.error .noSpace, ⟨o.text ++ taken, some (room - taken.utf8ByteSize)⟩)

/-- The path under which problems with standard output are reported. -/
def path : Path := .ofString "<stdout>"

/-- The reporter that writes each revision to standard output. -/
def reporter (r : Report) : Reporter Output := fun revision o =>
  let (result, o) := o.write (r.output revision)
  (result.mapError fun e => .io path (.os e), o)

end Output

/-- **Runs a table on a project**, with reports on standard output. What is told on standard error for a
verbose run is kept apart from it. -/
def Project.run (p : Project) (table : Path) (report : Report) (verbose : Bool)
    (faults : WriteFaults) (fs : FileSystem) (out : Output) : Finished Output Tally :=
  let done := p.applyTable table ⟨false, faults⟩ verbose (Output.reporter report) fs out
  match done.result with
  | .error e => ⟨.error e, done.files, done.state, done.log⟩
  | .ok revisions =>
    ⟨.ok (Tally.ofRevisions revisions), done.files, done.state,
      done.log ++ if verbose then Project.endLines revisions else ""⟩

end IncludeMoves
