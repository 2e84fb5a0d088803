import IncludeMoves.FileSystem.Resolve

/-!
# Building file systems

The plain operations by which a tree comes to be: directories and their permission bits, files written
in place, symbolic and hard links, removal. Each makes the directories that its path needs, and gives the
file system as it was if the path leads nowhere or a directory may not be changed. `FileSystem.below`
lists a tree again.
-/

namespace IncludeMoves

namespace FileSystem

/-- The file system without anything in it, seen from the root. -/
def empty : FileSystem := { entries := [], cwd := [] }

/-- Gives a directory other permission bits. -/
def setDirectoryMode (fs : FileSystem) (l : Location) (mode : Nat) : FileSystem :=
  { fs with directoryModes := (l, mode) :: fs.directoryModes }

/-- The directories along a sequence of names from a location, made where they are missing, and the
location of the last one. -/
def makeDirsFrom (fs : FileSystem) (l : Location) :
    List Name → Except OsError (FileSystem × Location)
  | [] => .ok (fs, l)
  | n :: rest =>
    match fs.locateFrom .target maxLinks l [n] with
    | .error e => .error e
    | .ok (.absent parent n) =>
      if fs.mayChange parent then (fs.put (n :: parent) .dir).makeDirsFrom (n :: parent) rest
      else .error .accessDenied
    | .ok (.found l) => if fs.isDir l then fs.makeDirsFrom l rest else .error .notDirectory

/-- Makes a directory and all that lead to it. If that fails on the way nothing has been made. -/
def makeDirs (fs : FileSystem) (p : Path) : FileSystem :=
  if p.bytes.contains 0 then fs
  else
    match fs.makeDirsFrom (fs.origin p) p.steps with
    | .ok (made, _) => made
    | .error _ => fs

/-- Makes the directory of a path, if it has one. -/
def makeParent (fs : FileSystem) (p : Path) : FileSystem :=
  match p.parent? with
  | some d => fs.makeDirs d
  | none => fs

/-- Writes a file in place, so that all its names show the new content, or creates it. A file that
may not be written to stays as it is. -/
def writeInPlace (fs : FileSystem) (p : Path) (content : ByteArray) (mode : Nat) : FileSystem :=
  let fs := fs.makeParent p
  match fs.locate .target p with
  | .ok (.found l) =>
    match fs.file? l with
    | some f =>
      if f.isWritable then
        fs.updateFile f.inode fun f => { f with content := content, mode := mode }
      else fs
    | none => fs
  | .ok (.absent parent n) =>
    if fs.mayChange parent then fs.put (n :: parent) (.file ⟨fs.freshInode, mode, content⟩) else fs
  | .error _ => fs

/-- Puts a node at a path at which there is nothing. -/
def addNode (fs : FileSystem) (p : Path) (node : Node) : FileSystem :=
  match fs.locate .entry p with
  | .ok (.absent parent n) => if fs.mayChange parent then fs.put (n :: parent) node else fs
  | _ => fs

/-- Makes a symbolic link. -/
def addLink (fs : FileSystem) (p target : Path) : FileSystem :=
  if target.bytes.contains 0 then fs else (fs.makeParent p).addNode p (.link target)

/-- Gives the file at `target` another name. A link gets another name itself, and a directory cannot
have one. -/
def addName (fs : FileSystem) (p target : Path) : FileSystem :=
  let fs := fs.makeParent p
  match fs.lookup .entry target with
  | .ok l =>
    match fs.node? l with
    | some node => if node = .dir then fs else fs.addNode p node
    | none => fs
  | .error _ => fs

/-- What is left of a file system at some of its locations. -/
def restrict (fs : FileSystem) (keeps : Location → Bool) : FileSystem :=
  { fs with
    entries := fs.entries.filter fun e => keeps e.1
    directoryModes := fs.directoryModes.filter fun e => keeps e.1 }

/-- Removes what is at a path, a directory with all below it. Links are removed themselves. -/
def remove (fs : FileSystem) (p : Path) : FileSystem :=
  match fs.lookup .entry p with
  | .ok l => if fs.mayChange l.tail then fs.restrict fun k => !l.isSuffixOf k else fs
  | .error _ => fs

/-- The entries below a location, each with its names from there on in outward order. -/
def below (fs : FileSystem) (l : Location) : List (List Name × Node) :=
  fs.entries.filterMap fun (k, node) =>
    if l.isSuffixOf k ∧ k ≠ l then some ((k.take (k.length - l.length)).reverse, node) else none

end FileSystem

end IncludeMoves
