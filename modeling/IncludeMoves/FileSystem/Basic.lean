import IncludeMoves.Path.Basic

/-!
# A file system

A file system is a finite list of entries, each at its *location*: the names on the way from the
root to it. An entry is a directory, a symbolic link, or a name of a regular file. Names of one file
share its inode number, and with it content and permission bits. The permission bits of directories
stand beside the entries, since the root has them too and is no entry.

The process owns all files and directories and has no privileges, so the bits of the owner decide what
it may do.

* `FileSystem.node?` — what is at a location; every operation is stated by what it does to this;
* `FileSystem.mayList`, `FileSystem.mayChange`, `FileSystem.maySearch` — what a directory admits;
* `FileSystem.children` — the names in a directory, in the order in which the system lists them;
* `FileSystem.put`, `FileSystem.erase` — a changed or a removed entry;
* `FileSystem.updateFile` — a change of a file, seen through all its names.
-/

namespace IncludeMoves

/-- **A location**: the names on the way from the root, the innermost one first. The root directory
is the empty location. -/
abbrev Location := List Name

/-- A regular file as one of its names shows it. Two names of one file show the same number, and then
also the same mode and content; `SharesFiles` is this as a property of a tree. -/
structure RegularFile where
  inode : Nat
  mode : Nat
  content : ByteArray
  deriving Inhabited

instance : DecidableEq RegularFile := fun a b =>
  decidable_of_iff (a.inode = b.inode ∧ a.mode = b.mode ∧ a.content.data = b.content.data) <| by
    obtain ⟨_, _, ⟨_⟩⟩ := a
    obtain ⟨_, _, ⟨_⟩⟩ := b
    simp

/-- Whether the owner may read the file. The bit counts even for the owner: a file without it cannot be
opened, though the owner could give it back. -/
def RegularFile.isReadable (f : RegularFile) : Bool :=
  f.mode.testBit 8

/-- Whether the owner may write to the file. -/
def RegularFile.isWritable (f : RegularFile) : Bool :=
  f.mode.testBit 7

/-- An entry of a directory. -/
inductive Node where
  | dir
  | link (target : Path)
  | file (f : RegularFile)
  deriving DecidableEq, Inhabited

/-- The permission bits of a directory about which nothing else is known. They allow its owner
everything. -/
def newDirectoryMode : Nat := 0o755

/-- **A file system**, as a process sees it whose relative paths start at `cwd`. The order of the
entries is the order in which directories are listed, and means nothing else. -/
structure FileSystem where
  entries : List (Location × Node)
  cwd : Location
  /-- The permission bits of directories that do not have those of a new one. -/
  directoryModes : List (Location × Nat) := []
  deriving DecidableEq, Inhabited

namespace Location

/-- The absolute path of a location. -/
def toPath : Location → Path
  | [] => ⟨[separator]⟩
  | l => ⟨l.reverse.flatMap fun n => separator :: n⟩

end Location

namespace FileSystem

/-- What is at a location. The root is always a directory, so it has no entry; anywhere else the first
entry for the location counts. -/
def node? (fs : FileSystem) (l : Location) : Option Node :=
  if l = [] then some .dir else fs.entries.lookup l

/-- Whether a location is a directory. -/
def isDir (fs : FileSystem) (l : Location) : Bool :=
  fs.node? l == some .dir

/-- The regular file at a location. -/
def file? (fs : FileSystem) (l : Location) : Option RegularFile :=
  match fs.node? l with
  | some (.file f) => some f
  | _ => none

/-- The permission bits that a directory at a location has. -/
def directoryMode (fs : FileSystem) (l : Location) : Nat :=
  (fs.directoryModes.lookup l).getD newDirectoryMode

/-- Whether the names in a directory may be listed. This tells the names and the kinds of its entries,
but not what is in them: for that they have to be looked up (`maySearch`). -/
def mayList (fs : FileSystem) (l : Location) : Bool :=
  (fs.directoryMode l).testBit 8

/-- Whether entries of a directory may be added and removed, if they may be looked up. -/
def mayChange (fs : FileSystem) (l : Location) : Bool :=
  (fs.directoryMode l).testBit 7

/-- Whether entries of a directory may be looked up. -/
def maySearch (fs : FileSystem) (l : Location) : Bool :=
  (fs.directoryMode l).testBit 6

/-- Whether all directories that a location lies in may be searched, so that it can be looked up from the
root. -/
def maySearchAbove (fs : FileSystem) : Location → Bool
  | [] => true
  | _ :: l => fs.maySearch l && fs.maySearchAbove l

/-- Whether all directories that a location lies in may be listed. -/
def mayListAbove (fs : FileSystem) : Location → Bool
  | [] => true
  | _ :: l => fs.mayList l && fs.mayListAbove l

/-- The names in a directory, in the order of the entries. Nothing about this order is promised to a
program that lists a directory. -/
def children (fs : FileSystem) (l : Location) : List Name :=
  fs.entries.filterMap fun (k, _) =>
    match k with
    | [] => none
    | n :: parent => if parent = l then some n else none

/-- The locations of all directories. -/
def directories (fs : FileSystem) : List Location :=
  [] :: fs.entries.filterMap fun (k, node) => if node = .dir then some k else none

/-- The length of the longest location. -/
def depth (fs : FileSystem) : Nat :=
  fs.entries.foldr (fun e d => max e.1.length d) 0

/-- The file system with `node` at `l`: in the place of what was there, or behind all entries. So a file
that is replaced keeps its place in the listing of its directory. -/
def put (fs : FileSystem) (l : Location) (node : Node) : FileSystem :=
  if (fs.entries.lookup l).isSome then
    { fs with entries := fs.entries.map fun e => if e.1 = l then (l, node) else e }
  else { fs with entries := fs.entries ++ [(l, node)] }

/-- The file system without the entry at `l`. -/
def erase (fs : FileSystem) (l : Location) : FileSystem :=
  { fs with entries := fs.entries.filter fun e => e.1 ≠ l }

/-- The inode number of an entry, `0` if it is no regular file. -/
def Node.inode : Node → Nat
  | .file f => f.inode
  | _ => 0

/-- An inode number that no entry has. A file that is made gets it, and so shares nothing with the files
there are. -/
def freshInode (fs : FileSystem) : Nat :=
  fs.entries.foldr (fun e m => max (Node.inode e.2) m) 0 + 1

/-- The file with number `inode` changed by `f`, under all its names. This is writing in place, where
`put` is a new file under an old name. -/
def updateFile (fs : FileSystem) (inode : Nat) (f : RegularFile → RegularFile) : FileSystem :=
  { fs with
    entries := fs.entries.map fun e =>
      match e.2 with
      | .file r => if r.inode = inode then (e.1, .file (f r)) else e
      | _ => e }

end FileSystem

end IncludeMoves
