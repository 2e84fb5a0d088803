import IncludeMoves.Path.Order
import IncludeMoves.Problem

/-!
# Projects and their sources

A project is a root directory and the directory below it that is searched for sources, both free of
links. A source is a file with one of three extensions, known by its path from the root.

* `Project.ofPaths` — the project of a root and a target that a user names;
* `Project.sources` — its sources, in the order in which they are revised.
-/

namespace IncludeMoves

/-- **A project.** Both paths are free of links: the root is the directory from which sources are named,
and the target, inside the root, is the one that is searched. -/
structure Project where
  root : Path
  target : Path
  deriving DecidableEq, Repr, Inhabited

/-- The extensions of sources: headers, sources, and headers with template bodies. -/
def sourceExtensions : List Name :=
  ["hpp", "cpp", "tpp"].map fun e => Utf8.encode e.toList

/-- Whether a path has the name of a source. Only the last component counts, and of it what stands
behind the last dot; a name that begins with its only dot has no extension. -/
def Path.isSource (p : Path) : Bool :=
  match p.extension? with
  | some e => sourceExtensions.contains e
  | none => false

/-- The sources among the files of a walk, from `root`, put into the set `found`. The first failure
ends the collection. -/
def collectSources (root : Path) :
    (found : List Path) → List (Except WalkError Path) → Except Problem (List Path)
  | found, [] => .ok found
  | _, .error e :: _ => .error (.walk e)
  | found, .ok path :: rest =>
    if path.isSource then
      match path.relativeTo? root with
      | some source => collectSources root (source.insert found) rest
      | none => .error (.outsideRoot path root)
    else collectSources root found rest

/-- All sources below a directory, by their paths from `root`. The first failure of the walk is the
answer, even if sources have been found before it. -/
def FileSystem.sources (fs : FileSystem) (root dir : Path) : Except Problem (List Path) :=
  collectSources root [] (fs.walk dir)

namespace Project

/-- The directory that is searched if none is named. -/
def defaultTarget (root : Path) : Path :=
  root.join (.ofString "src")

/-- The root of the project in which a tool is installed: the directory above the tool's own. -/
def rootOfExecutable? (executable : Path) : Option Path :=
  executable.parent?.bind Path.parent?

/-- **The project of a root and a target.** The target has to be a directory inside the root. The first
of the conditions that fails gives the problem, and the paths in it are as given or without links, as
the condition is. -/
def ofPaths (fs : FileSystem) (root : Path) (target? : Option Path) : Except Problem Project :=
  match fs.canonicalize root with
  | .error e => .error (.io root e)
  | .ok root =>
    let target := target?.getD (defaultTarget root)
    if !fs.isDirectory target then .error (.invalidTarget target)
    else
      match fs.canonicalize target with
      | .error e => .error (.io target e)
      | .ok target =>
        -- Both are free of links here, so a link cannot lead out of the root.
        if fs.isWithin target root then .ok ⟨root, target⟩ else .error (.outsideRoot target root)

/-- The place of a source. -/
def resolve (p : Project) (source : Path) : Path :=
  p.root.join source

/-- The sources of the project. -/
def sources (p : Project) (fs : FileSystem) : Except Problem (List Path) :=
  fs.sources p.root p.target

end Project

end IncludeMoves
