import IncludeMoves.FileSystem.Resolve

/-!
# Replacing a file in one step

New content goes into a temporary file beside the old one, which then takes the old one's name. Up
to that last step nothing that was there before is touched, and if a step fails the temporary file
is removed again. Links on the way are followed first, so a link stays a link, and the old file
lives on under its other names.
-/

namespace IncludeMoves

/-- The steps that make the temporary file and work on it. Each of them can fail, and until the last one
has succeeded the old file is untouched. -/
inductive ReplaceStage where
  | create
  | write
  | setMode
  | rename
  deriving DecidableEq, Repr

/-- A failure of the medium: the step that it hits and what the system reports. -/
structure WriteFault where
  stage : ReplaceStage
  error : OsError
  deriving DecidableEq, Repr

/-- The write failures of a run, by the path of the file that is written. They are a parameter of every
run, so what is proved of a run holds whichever writes fail. -/
abbrev WriteFaults := Path → Option WriteFault

/-- No write fails. -/
def WriteFaults.none : WriteFaults := fun _ => Option.none

namespace FileSystem

/-- The mode of a file that has just been created: its owner may read and write it, and nobody else. -/
def newFileMode : Nat := 0o600

/-- How the names of temporary files begin. -/
def tempStem : Name := Utf8.encode ".tmp".toList

/-- What stands for the name of a temporary file that could not be made: its beginning and a
star. -/
def tempMask : Name := tempStem ++ Utf8.encode "*".toList

/-- The number of letters behind that beginning. They are of no importance but for the length of
paths. -/
def tempLetters : Nat := 6

/-- A name for a temporary file that is in no list of names used: it is longer than all of them. Which
name is chosen does not matter, only that it is a new one. -/
def tempName (used : List Name) : Name :=
  tempStem ++ List.replicate (used.foldr (fun n m => max n.length m) 0) 48

/-- The directory in which the replacement of `target` is prepared. -/
def workplace (target : Path) : Path :=
  match target.parent? with
  | some d => if d.bytes = [] then ⟨[dot]⟩ else d
  | none => ⟨[dot]⟩

/-- The absolute path of a temporary file in the directory `place`. -/
def tempPath (fs : FileSystem) (place : Path) (name : Name) : Path :=
  (fs.cwd.toPath.join place).child name

/-- The location of the directory in which a temporary file is made, if its path is not too long for
the name and the file may be made there. -/
def resolveWorkplace (fs : FileSystem) (place : Path) : Except IoError Location :=
  if place.bytes.contains 0 then .error .nulInName
  else if (fs.tempPath place (tempStem ++ List.replicate tempLetters 48)).isTooLong then
    .error (.os .nameTooLong)
  -- The path of the file is absolute, so it leads through the current directory from the root.
  else if !place.isAbsolute && !fs.maySearchAbove fs.cwd then .error (.os .accessDenied)
  else
    match fs.resolve place with
    | .error e => .error e
    | .ok l =>
      if !fs.isDir l then .error (.os .notDirectory)
      else if fs.maySearch l && fs.mayChange l then .ok l
      else .error (.os .accessDenied)

/-- The same, with the path that a failure is reported with: that of the temporary file, if an absolute
path can be found for it. -/
def openWorkplace (fs : FileSystem) (place : Path) : Except IoError Location :=
  if !Route.stepwise.starts fs place then .error (.os .accessDenied)
  else (fs.resolveWorkplace place).mapError fun e => .atPath e (fs.tempPath place tempMask)

/-- The location that a file moved to `p` gets. A link there is itself replaced, a directory is
not. -/
def destination (fs : FileSystem) (p : Path) : Except OsError Location :=
  if p.bytes.contains 0 then .error .invalidArgument
  else if p.bytes = [] then .error .notFound
  else if p.isTooLong then .error .nameTooLong
  else
    match ((Path.chunks p.bytes).filter fun n => n ≠ []).reverse with
    | [] => .error .busy
    | n :: before =>
      match fs.locateFrom .target maxLinks (fs.origin p) before.reverse with
      | .error e => .error e
      | .ok (.absent _ _) => .error .notFound
      | .ok (.found l) =>
        if !fs.isDir l then .error .notDirectory
        else if !fs.maySearch l then .error .accessDenied
        else if n = [dot] ∨ n = [dot, dot] then .error .busy
        else if n.length > maxName then .error .nameTooLong
        else if p.bytes.getLast? = some separator then .error .notDirectory
        else if !fs.mayChange l then .error .accessDenied
        else if fs.isDir (n :: l) then .error .isDirectory
        else .ok (n :: l)

/-- The permission bits of the file that a path leads to. -/
def mode? (fs : FileSystem) (p : Path) : Option Nat :=
  match fs.resolve p with
  | .ok l => (fs.file? l).map RegularFile.mode
  | .error _ => none

/-- The path to which new content for `path` is moved: the one without links, if it can be had. If it
cannot, the move is made to `path` itself, and takes the place of a link there. -/
def replacedPath (fs : FileSystem) (path : Path) : Path :=
  match fs.canonicalize path with
  | .ok p => p
  | .error _ => path

/-- **Replaces the content of the file that a path leads to**, keeping its permission bits, or
creates the file. An error comes with the path that it is reported for. -/
def replaceFile (fs : FileSystem) (path : Path) (content : ByteArray) (fault : Option WriteFault) :
    Except (Path × IoError) Unit × FileSystem :=
  let target := fs.replacedPath path
  let place := workplace target
  let failsAt (stage : ReplaceStage) : Option OsError :=
    match fault with
    | some f => if f.stage = stage then some f.error else none
    | none => none
  match fs.openWorkplace place with
  | .error e => (.error (place, e), fs)
  | .ok l =>
    match failsAt .create with
    | some e => (.error (place, .atPath (.os e) (fs.tempPath place tempMask)), fs)
    | none =>
      -- The temporary file is a new one, so no other name can show what is written to it.
      let name := tempName (fs.children l)
      let inode := fs.freshInode
      let created := fs.put (name :: l) (.file ⟨inode, newFileMode, .empty⟩)
      match failsAt .write with
      | some e => (.error (place.child name, .os e), created.erase (name :: l))
      | none =>
        let written := created.updateFile inode fun f => { f with content := content }
        match failsAt .setMode with
        | some e => (.error (place.child name, .os e), written.erase (name :: l))
        | none =>
          -- The bits are those of the file that is about to lose its name.
          let mode := (fs.mode? target).getD newFileMode
          let ready := written.updateFile inode fun f => { f with mode := mode }
          let moved : Except OsError Location :=
            match failsAt .rename with
            | some e => .error e
            | none => ready.destination target
          match moved with
          | .error e => (.error (target, .os e), ready.erase (name :: l))
          -- One step for everyone who looks: the old name shows the new file.
          | .ok d => (.ok (), (ready.erase (name :: l)).put d (.file ⟨inode, mode, content⟩))

end FileSystem

end IncludeMoves
