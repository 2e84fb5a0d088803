import IncludeMoves.CommandLine
import IncludeMoves.FileSystem.Edit

/-!
# The program

The outer layer: it takes a picture of the part of the disk that an invocation is about, lets the
library decide what happens to it, and carries that out. A picture holds the entries on the way to
each path of the command line and all that is below the project's root, with links as they resolve.

Of permission bits only that can be found out what they allow this process: a directory is listed and
looked into, and a file is read. What is not allowed is in the picture as something that is there and
not allowed, so that the library comes to the refusal by itself.

What the library decides is carried out in its order. If a write fails, the library is asked again, with
the failure, so that nothing is reported that has not been done.
-/

namespace IncludeMoves

namespace Shell

/-- The help text. -/
def usage : String :=
  "Usage: fixup-headers [OPTIONS] <FIXUP_FILE> [TARGET_DIR]\n\n" ++
  "Options:\n" ++
  "      --root <ROOT>      Project root that discovered files are reported relative to\n" ++
  "      --format <FORMAT>  Output format (text/jsonl)\n" ++
  "      --no-color         Disable colored output\n" ++
  "  -q, --quiet            Quiet mode (no notices)\n" ++
  "  -v, --verbose          Verbose mode (root, target and totals on stderr)\n" ++
  "  -h, --help             Print help\n" ++
  "  -V, --version          Print version\n"

/-- The version line. -/
def version : String := "fixup-headers 0.1.0\n"

/-- What is wrong with a command line, in one line. -/
def complaint : UsageError → String
  | .missingArgument => "error: the following required arguments were not provided: <FIXUP_FILE>"
  | .unknownArgument => "error: unexpected argument found"
  | .invalidValue => "error: a value is required but none was supplied"
  | .repeatedOption => "error: an argument cannot be used multiple times"
  | .tooManyValues => "error: unexpected value found; no more were expected"
  | .invalidText => "error: invalid UTF-8 was detected in one or more arguments"
  | .helpWanted => usage
  | .versionWanted => version

/-- An error with its causes. -/
def explain (e : RunError) : String :=
  match e.chain with
  | [] => "Error:\n"
  | [message] => "Error: " ++ message ++ "\n"
  | [message, cause] => "Error: " ++ message ++ "\n\nCaused by:\n    " ++ cause ++ "\n"
  | message :: causes =>
    "Error: " ++ message ++ "\n\nCaused by:\n" ++
      String.join (causes.zipIdx.map fun (c, i) => "    " ++ toString i ++ ": " ++ c ++ "\n")

/-- A path of the library as the system takes it. -/
def textOf (p : Path) : String := p.display

/-- The names in an absolute path. -/
def namesOf (path : String) : List String :=
  (path.splitOn "/").filter (· != "")

/-- The path of the entry `name` of the directory `dir`. -/
def entryOf (dir name : String) : String :=
  if dir == "/" then dir ++ name else dir ++ "/" ++ name

/-- An absolute path as the system's functions take it. -/
def pathOf (path : String) := (IO.FS.DirEntry.mk "/" path).path

/-- The location of an absolute path without links. -/
def locationOf (path : String) : Location :=
  (namesOf path).reverse.map fun n => (Path.ofString n).bytes

/-! ### What the system says -/

/-- The number of a failure, `0` if the system has given none. -/
def numberOf : IO.Error → Nat
  | .alreadyExists _ n _ | .invalidArgument _ n _ | .permissionDenied _ n _ | .resourceExhausted _ n _
  | .inappropriateType _ n _ | .noSuchThing _ n _ | .interrupted _ n _ | .noFileOrDirectory _ n _
  | .otherError n _ | .resourceBusy n _ | .resourceVanished n _ | .unsupportedOperation n _
  | .hardwareFault n _ | .unsatisfiedConstraints n _ | .illegalOperation n _ | .protocolError n _
  | .timeExpired n _ => n.toNat
  | .unexpectedEof | .userError _ => 0

/-- The refusal that a failure is, a wrong argument if the library knows no better one. -/
def refusalOf (e : IO.Error) : OsError :=
  let known : List OsError := [.notFound, .accessDenied, .busy, .notDirectory, .isDirectory, .noSpace,
    .nameTooLong, .tooManyLinks]
  (known.find? fun refusal => refusal.code == numberOf e).getD .invalidArgument

/-- Whether the system allows an action. -/
def allows {α : Type} (action : IO α) : IO Bool := do
  match ← action.toBaseIO with
  | .error (.permissionDenied ..) => return false
  | _ => return true

/-- The path without links, if it leads somewhere. -/
def realPath? (path : String) : IO (Option String) := do
  match ← (IO.FS.realPath (pathOf path)).toBaseIO with
  | .ok real => return some real.toString
  | .error _ => return none

/-- Whether there is no entry at a path. -/
def isMissing (path : String) : IO Bool := do
  match ← (pathOf path).symlinkMetadata.toBaseIO with
  | .error (.noFileOrDirectory ..) | .error (.inappropriateType ..) => return true
  | _ => return false

/-! ### The picture -/

/-- Adds a directory given without links, with the permission bits that it shows. -/
def addDirectory (dir : String) (fs : FileSystem) : IO FileSystem := do
  let l := locationOf dir
  let made := if l = [] then fs else fs.put l .dir
  let list ← allows (pathOf dir).readDir
  let search ← allows (pathOf (entryOf dir ".")).symlinkMetadata
  if list && search then return made
  return made.setDirectoryMode l (0o200 + (if list then 0o400 else 0) + if search then 0o100 else 0)

/-- Adds a file given without links, with its content if it may be read. -/
def addFile (path : String) (fs : FileSystem) : IO FileSystem := do
  let file : RegularFile ← match ← (IO.FS.readBinFile (pathOf path)).toBaseIO with
    | .ok content => pure ⟨fs.freshInode, 0o644, content⟩
    | .error _ => pure ⟨fs.freshInode, 0o200, .empty⟩
  return fs.put (locationOf path) (.file file)

/-- Adds the entry at a path whose directory is given without links and is in the picture. -/
def addEntry (path : String) (fs : FileSystem) : IO FileSystem := do
  match ← (pathOf path).symlinkMetadata.toBaseIO with
  -- Nothing is known of an entry that may not be looked up, and nobody will know more.
  | .error _ => return fs.put (locationOf path) (.file ⟨fs.freshInode, 0o200, .empty⟩)
  | .ok found =>
    match found.type with
    | .dir => addDirectory path fs
    | .symlink =>
      let target ← realPath? path
      return fs.addLink (Path.ofString path) (Path.ofString (target.getD ""))
    | .file | .other => addFile path fs

/-- Adds the entries on the way from a directory given without links, and where links among them
lead, as far as there are any. -/
partial def addPath (dir : String) (names : List String) (fs : FileSystem) : IO FileSystem := do
  match names with
  | [] => return fs
  | name :: rest =>
    let path := entryOf dir name
    if ← isMissing path then return fs
    -- No entry is called `.` or `..`, and where they lead is on the way already.
    let isDots := name == "." || name == ".."
    let added ← if isDots then pure fs else addEntry path fs
    match ← realPath? path with
    | none => return added
    | some real =>
      let followed ← if isDots || real == path then pure added else addPath "/" (namesOf real) added
      addPath real rest followed

/-- The names in a directory. One that may not be listed is in the picture as such. -/
def namesIn (dir : String) : IO (List String) := do
  match ← (pathOf dir).readDir.toBaseIO with
  | .ok entries => return entries.toList.map (·.fileName)
  | .error _ => return []

/-- Adds all that is below a directory given without links, and below the directories to which links
there lead. What is neither a file nor a directory nor a link is of no interest there. -/
partial def addTree (dir : String) (seen : List String) (fs : FileSystem) :
    IO (FileSystem × List String) := do
  if seen.contains dir then return (fs, seen)
  let mut picture := fs
  let mut visited := dir :: seen
  for name in ← namesIn dir do
    let path := entryOf dir name
    if let .ok found ← (pathOf path).symlinkMetadata.toBaseIO then
      if found.type == .other then continue
    picture ← addEntry path picture
    if let some real ← realPath? path then
      if real != path then picture ← addPath "/" (namesOf real) picture
      if ← (pathOf real).isDir then
        (picture, visited) ← addTree real visited picture
  return (picture, visited)

/-- The picture that an invocation needs. -/
def picture (i : Invocation) (executable : Path) : IO FileSystem := do
  let current := (← IO.currentDir).toString
  let absolute (p : Path) : String := textOf ((Path.ofString current).join p)
  let root := match i.root executable with
    | .ok root => root
    | .error _ => Path.ofString "."
  let target := i.target?.getD (Project.defaultTarget root)
  let mut fs ← addDirectory "/" FileSystem.empty
  fs ← addPath "/" (namesOf current) fs
  for p in [root, target, i.table] do
    fs ← addPath "/" (namesOf (absolute p)) fs
  if let some real ← realPath? (absolute target) then
    (fs, _) ← addTree real [] fs
  return { fs with cwd := locationOf current }

/-! ### What is carried out -/

/-- The files of `after` that have been put in place since `before`, in the order in which they have. -/
def newFiles (before after : FileSystem) : List (Location × RegularFile) :=
  let files := after.entries.filterMap fun (l, node) =>
    match node with
    | .file f => if before.freshInode ≤ f.inode then some (l, f) else none
    | _ => none
  files.mergeSort fun a b => a.2.inode ≤ b.2.inode

/-- The access rights that permission bits stand for. -/
def rightsOf (mode : Nat) : IO.FileRight where
  user := ⟨mode.testBit 8, mode.testBit 7, mode.testBit 6⟩
  group := ⟨mode.testBit 5, mode.testBit 4, mode.testBit 3⟩
  other := ⟨mode.testBit 2, mode.testBit 1, mode.testBit 0⟩

/-- An action whose failure is one of a step of a replacement. -/
def attempt (stage : ReplaceStage) (action : IO Unit) : ExceptT WriteFault IO Unit := do
  match ← action.toBaseIO with
  | .ok () => return
  | .error e => throw ⟨stage, refusalOf e⟩

/-- Whether a file has one name and may be written to. -/
def isSingle (path : String) : IO Bool := do
  match ← (pathOf path).symlinkMetadata.toBaseIO with
  | .ok found =>
    if found.type == .file && found.numLinks == 1 then
      allows (IO.FS.Handle.mk (pathOf path) .append)
    else return false
  | .error _ => return false

/-- Puts a file in the place of what has its name, by way of a temporary file. -/
def putInPlace (l : Location) (f : RegularFile) : ExceptT WriteFault IO Unit := do
  let path := textOf l.toPath
  let name := ".tmp" ++ toString (← IO.monoNanosNow)
  let temp := pathOf (entryOf (textOf (Location.toPath l.tail)) name)
  attempt .create do discard <| IO.FS.Handle.mk temp .writeNew
  try
    attempt .write (IO.FS.writeBinFile temp f.content)
    if ← isSingle path then
      -- The old bits are kept only by the old file. As it has no other name, that comes to the same.
      attempt .rename (IO.FS.writeBinFile (pathOf path) f.content)
      attempt .rename (IO.FS.removeFile temp)
    else
      attempt .setMode (IO.setAccessRights temp (rightsOf f.mode))
      attempt .rename (IO.FS.rename temp (pathOf path))
  catch fault =>
    discard (IO.FS.removeFile temp).toBaseIO
    throw fault

/-- The failure of the write that puts a file at a location: of that to a path which leads there, through
all links or without the last one. -/
def faultAt (fs : FileSystem) (l : Location) (fault : WriteFault) : WriteFaults := fun path =>
  let leadsThere := [Route.target, Route.entry].any fun route =>
    match fs.lookup route path with
    | .ok k => k = l
    | .error _ => false
  if leadsThere then some fault else none

/-- Puts the new files in their places, up to the first one for which that fails. -/
def carryOut (before after : FileSystem) : IO WriteFaults := do
  for (l, f) in newFiles before after do
    if let .error fault ← (putInPlace l f).run then return faultAt before l fault
  return WriteFaults.none

/-- Runs the program and gives its exit code. -/
def run (arguments : List String) : IO UInt32 := do
  let bytes (s : String) : Argument := (Path.ofString s).bytes
  let environment := (← IO.getEnv "FIXUP_HEADERS_ROOT").map bytes
  match CommandLine.parse (arguments.map bytes) environment with
  | .error e =>
    if e.exitCode = 0 then IO.print (complaint e) else IO.eprintln (complaint e)
    return e.exitCode.toUInt32
  | .ok i =>
    let executable := Path.ofString (← IO.appPath).toString
    let fs ← picture i executable
    let colour ← (← IO.getStdout).isTty
    let planned := i.run executable colour WriteFaults.none fs ⟨"", none⟩
    let faults ← carryOut fs planned.files
    let done := i.run executable colour faults fs ⟨"", none⟩
    IO.print done.state.text
    IO.eprint done.log
    match done.result with
    | .ok _ => return 0
    | .error e =>
      IO.eprint (explain e)
      return 1

end Shell

end IncludeMoves

/-- The program. -/
def main (arguments : List String) : IO UInt32 :=
  IncludeMoves.Shell.run arguments
