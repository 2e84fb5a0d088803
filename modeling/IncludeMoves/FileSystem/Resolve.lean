import IncludeMoves.FileSystem.Basic
import IncludeMoves.FileSystem.Error

/-!
# From paths to locations

A path is followed name by name from the root or the current directory. A link on the way is
replaced by its target; one lookup follows at most `maxLinks` of them. What has to be searched has
to be a directory that may be searched. A path that ends in a separator names a directory, but nothing
is looked up in there.

A path that the system is asked for has to be shorter than `maxPath`. It is either the path itself,
whatever its links lead to, or, step by step, the absolute path of each place on the way: `Route`
tells which. Step by step, `.` and `..` are only cut off, so that they ask for no permission, but each
name is sought from the root.

* `FileSystem.locate` — where a path leads;
* `FileSystem.resolve` — the same, if something is there;
* `FileSystem.canonicalize` — the path without links, `.` and `..`;
* `FileSystem.readText` — the content of a file.
-/

namespace IncludeMoves

/-- The number of links that one lookup may follow. -/
def maxLinks : Nat := 40

/-- The number of bytes that a name may have. -/
def maxName : Nat := 255

/-- The number of bytes below which a path has to stay in a request to the system. -/
def maxPath : Nat := 4096

/-- Whether a path has too many bytes for a request. The byte that ends a path counts, so 4095 bytes are
the most a path may have. -/
def Path.isTooLong (p : Path) : Bool :=
  maxPath ≤ p.bytes.length

/-- **How a path is looked up**: in one request, for the entry itself or for what the entry leads to
if it is a link, or in a request for each place on the way, through all links. -/
inductive Route where
  | entry
  | target
  | stepwise
  deriving DecidableEq, Repr

namespace Route

/-- Whether a link at the very end is followed. -/
def follows : Route → Bool
  | entry => false
  | _ => true

/-- Whether the path itself is short enough, on the routes that ask for it. -/
def accepts : Route → Path → Bool
  | stepwise, _ => true
  | _, p => !p.isTooLong

/-- Whether the path of a place on the way is short enough, on the route that asks for it. -/
def reaches : Route → Location → Bool
  | stepwise, l => !l.toPath.isTooLong
  | _, _ => true

/-- Whether `.` and `..` may be looked up in a directory, on the routes that ask for them. -/
def takesDots (fs : FileSystem) : Route → Location → Bool
  | stepwise, _ => true
  | _, l => fs.maySearch l

/-- Whether a name may be looked up in a directory, where the lookup has come to or from the root. -/
def takesNames (fs : FileSystem) : Route → Location → Bool
  | stepwise, l => fs.maySearch l && fs.maySearchAbove l
  | _, l => fs.maySearch l

/-- Whether a path can be looked up from the current directory. Step by step the absolute path of that
is needed. The system gives one that is short enough; to find out a longer one, each directory on the
way up is listed. -/
def starts (fs : FileSystem) : Route → Path → Bool
  | stepwise, p =>
    p.isAbsolute || !fs.cwd.toPath.isTooLong ||
      (fs.maySearch fs.cwd && fs.maySearchAbove fs.cwd && fs.mayListAbove fs.cwd)
  | _, _ => true

end Route

/-- The names of a path in order, `.` and `..` among them. Behind a final separator stands an empty
name. -/
def Path.steps (p : Path) : List Name :=
  let names := (Path.chunks p.bytes).filter fun n => n ≠ []
  if names ≠ [] ∧ p.bytes.getLast? = some separator then names ++ [[]] else names

/-- The end of a lookup: something is there, or only the directory in which it would be. -/
inductive Spot where
  | found (l : Location)
  | absent (parent : Location) (n : Name)
  deriving DecidableEq, Repr

namespace FileSystem

/-- How far a lookup gets without following a link: to its end, or to a link in a directory `parent`,
with the names of `rest` still to come behind the target of the link. -/
inductive Progress where
  | arrived (s : Spot)
  | atLink (parent : Location) (target : Path) (rest : List Name)

/-- The lookup of a sequence of names, up to the first link that has to be followed. An empty name is a
separator at the end of the path, and asks for a directory as `.` does. -/
def advance (fs : FileSystem) (route : Route) : Location → List Name → Except OsError Progress
  | l, [] => .ok (.arrived (.found l))
  | l, n :: rest =>
    if n = [] then
      if fs.isDir l then fs.advance route l rest else .error .notDirectory
    else if n = [dot] then
      if !fs.isDir l then .error .notDirectory
      else if !route.takesDots fs l then .error .accessDenied
      else fs.advance route l rest
    else if n = [dot, dot] then
      if !fs.isDir l then .error .notDirectory
      else if !route.takesDots fs l then .error .accessDenied
      else fs.advance route l.tail rest
    -- The length of a path is looked at before anything else.
    else if !route.reaches (n :: l) then .error .nameTooLong
    else if !fs.isDir l then .error .notDirectory
    else if !route.takesNames fs l then .error .accessDenied
    else if n.length > maxName then .error .nameTooLong
    else
      match fs.node? (n :: l) with
      | none => if rest = [] then .ok (.arrived (.absent l n)) else .error .notFound
      | some (.link target) =>
        if rest = [] ∧ !route.follows then .ok (.arrived (.found (n :: l)))
        else .ok (.atLink l target rest)
      | some _ => fs.advance route (n :: l) rest

/-- Where a sequence of names leads from a location, if it needs at most `budget` links. The recursion
is on the budget: each link brings new names, so their number says nothing. -/
def locateFrom (fs : FileSystem) (route : Route) (budget : Nat) (l : Location) (names : List Name) :
    Except OsError Spot :=
  match fs.advance route l names with
  | .error e => .error e
  | .ok (.arrived s) => .ok s
  | .ok (.atLink parent target rest) =>
    match budget with
    | 0 => .error .tooManyLinks
    | budget + 1 =>
      if target.bytes = [] then .error .notFound
      else
        -- The target takes the place of the link; a relative one starts where the link is.
        fs.locateFrom route budget (if target.isAbsolute then [] else parent)
          (target.steps ++ rest)

/-- The location at which the lookup of a path starts. -/
def origin (fs : FileSystem) (p : Path) : Location :=
  if p.isAbsolute then [] else fs.cwd

/-- Where a path leads. What can be said of the path alone is checked first, and only then is anything
looked up. -/
def locate (fs : FileSystem) (route : Route) (p : Path) : Except IoError Spot :=
  if p.bytes.contains 0 then .error .nulInName
  else if p.bytes = [] then .error (.os .notFound)
  else if !route.accepts p then .error (.os .nameTooLong)
  else if !route.starts fs p then .error (.os .accessDenied)
  else (fs.locateFrom route maxLinks (fs.origin p) p.steps).mapError .os

/-- The location of what a path leads to. -/
def lookup (fs : FileSystem) (route : Route) (p : Path) : Except IoError Location :=
  match fs.locate route p with
  | .error e => .error e
  | .ok (.absent _ _) => .error (.os .notFound)
  | .ok (.found l) => .ok l

/-- **The location of what a path leads to through all links.** -/
def resolve (fs : FileSystem) (p : Path) : Except IoError Location :=
  fs.lookup .target p

/-- The absolute path, free of links, of what a path leads to. Every place on the way is asked for by
its own absolute path, so that this can fail where `resolve` does not. -/
def canonicalize (fs : FileSystem) (p : Path) : Except IoError Path :=
  (fs.lookup .stepwise p).map Location.toPath

/-- Whether a path leads to a directory. -/
def isDirectory (fs : FileSystem) (p : Path) : Bool :=
  match fs.resolve p with
  | .ok l => fs.isDir l
  | .error _ => false

/-- Whether a path leads to a place inside `root`, both taken without links. A path that leads nowhere,
or to a place that cannot be asked for, is not inside. -/
def isWithin (fs : FileSystem) (p root : Path) : Bool :=
  match fs.canonicalize p, fs.canonicalize root with
  | .ok p, .ok root => p.isWithin root
  | _, _ => false

/-- The bytes of the file that a path leads to. The bits of the file decide whether it may be read,
those of the directories whether it can be reached. -/
def readBytes (fs : FileSystem) (p : Path) : Except IoError ByteArray :=
  match fs.resolve p with
  | .error e => .error e
  | .ok l =>
    match fs.file? l with
    | some f => if f.isReadable then .ok f.content else .error (.os .accessDenied)
    -- A directory can be opened, but not read.
    | none => .error (.os (if fs.mayList l then .isDirectory else .accessDenied))

/-- The text of the file that a path leads to. -/
def readText (fs : FileSystem) (p : Path) : Except IoError String :=
  match fs.readBytes p with
  | .error e => .error e
  | .ok bytes =>
    match String.fromUTF8? bytes with
    | some text => .ok text
    | none => .error .notText

end FileSystem

end IncludeMoves
