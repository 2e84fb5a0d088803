import IncludeMoves.Text.Utf8

/-!
# Paths

A path is a byte string. Its *components* are the root directory, a leading `.`, the steps `..`
up, and names; repeated separators and later `.`s are only spelling. Two paths are the same place by
their components, but what is printed is always the spelling.

* `Path.components` — the component view;
* `Path.relativeTo?` — the rest of a path below a root, in its own spelling;
* `Path.join` — a path seen from a directory;
* `Path.parent?`, `Path.fileName?`, `Path.extension?` — parts of a path.
-/

namespace IncludeMoves

/-- The name of a directory entry: any bytes without a separator. -/
abbrev Name := List UInt8

/-- The separator between names. -/
def separator : UInt8 := 47

/-- The byte `.`. -/
def dot : UInt8 := 46

/-- **A path**, as it is spelled. Different spellings can have the same components, and are the same
path for the order of paths and for containment, but not as texts. -/
structure Path where
  bytes : List UInt8
  deriving DecidableEq, Repr, Inhabited

/-- A step of a path. -/
inductive Component where
  | root
  | here
  | up
  | name (n : Name)
  deriving DecidableEq, Repr, Inhabited

namespace Path

/-- The path that a text spells. -/
def ofString (s : String) : Path :=
  ⟨Utf8.encode s.toList⟩

/-- The path as text; bytes that are no text are replaced. -/
def display (p : Path) : String :=
  String.ofList (Utf8.decodeLossy p.bytes)

/-- The path as text with `/` as its only separator. -/
def normalized (p : Path) : String :=
  String.ofList ((Utf8.decodeLossy p.bytes).map fun c => if c = '\\' then '/' else c)

/-- The parts of a byte string between separators. There is always one part more than there are
separators. -/
def chunks : List UInt8 → List Name
  | [] => [[]]
  | b :: r =>
    if b = separator then [] :: chunks r
    else
      match chunks r with
      | [] => [[b]]
      | c :: cs => (b :: c) :: cs

/-- A path is absolute if it starts with a separator. -/
def isAbsolute (p : Path) : Bool :=
  p.bytes.head? == some separator

/-- The component that a part stands for behind the first one: an empty part and `.` are only
spelling. -/
def component? (n : Name) : Option Component :=
  if n = [] then none
  else if n = [dot] then none
  else if n = [dot, dot] then some .up
  else some (.name n)

/-- A component and where it stands in the spelling: from `start` up to `stop`. Cutting a path at
components keeps the spelling of what is left. -/
structure Span where
  component : Component
  start : Nat
  stop : Nat
  deriving DecidableEq, Repr

/-- The components of a sequence of parts, of which the first stands at `start`. -/
def bodySpans (start : Nat) : List Name → List Span
  | [] => []
  | n :: ns =>
    let later := bodySpans (start + n.length + 1) ns
    match component? n with
    | none => later
    | some c => ⟨c, start, start + n.length⟩ :: later

/-- The components of a path with their places in its spelling. A `.` is a component only at the
very beginning. -/
def spans (p : Path) : List Span :=
  match p.bytes with
  | [] => []
  | b :: r =>
    if b = separator then ⟨.root, 0, 1⟩ :: bodySpans 1 (chunks r)
    else
      match chunks (b :: r) with
      | n :: ns =>
        if n = [dot] then ⟨.here, 0, 1⟩ :: bodySpans 2 ns else bodySpans 0 (n :: ns)
      | [] => []

/-- **The component view of a path.** Empty parts and `.` in the middle are spelling only; `..` is kept,
since a link may be in front of it. -/
def components (p : Path) : List Component :=
  p.spans.map Span.component

/-- The part of the spelling from the component with index `first` to the last one. -/
def dropComponents (p : Path) (first : Nat) : Path :=
  match p.spans.drop first with
  | [] => ⟨[]⟩
  | s :: ss => ⟨(p.bytes.take ((s :: ss).getLast (by simp)).stop).drop s.start⟩

/-- The rest of a path below `root`, if the components of `root` are the first of its own. It is cut out
of the spelling, so `root` itself gives the empty path. -/
def relativeTo? (p root : Path) : Option Path :=
  if root.components.isPrefixOf p.components then some (p.dropComponents root.components.length)
  else none

/-- Whether a path has the components of `root` as its first ones. -/
def isWithin (p root : Path) : Bool :=
  root.components.isPrefixOf p.components

/-- The path `q` seen from the directory `p`. An absolute path is the same from everywhere, and an empty
`p` adds no separator. -/
def join (p q : Path) : Path :=
  if q.isAbsolute then q
  else if p.bytes = [] then q
  else if p.bytes.getLast? = some separator then ⟨p.bytes ++ q.bytes⟩
  else ⟨p.bytes ++ separator :: q.bytes⟩

/-- The entry `n` of the directory `p`. -/
def child (p : Path) (n : Name) : Path :=
  p.join ⟨n⟩

/-- The path without its last component; the root and the empty path have no parent. What stands in
front of the component is cut off at the end of the one before it. -/
def parent? (p : Path) : Option Path :=
  match p.spans.reverse with
  | [] => none
  | ⟨.root, _, _⟩ :: _ => none
  | [_] => some ⟨[]⟩
  | _ :: s :: _ => some ⟨p.bytes.take s.stop⟩

/-- The last component, if it is a name. -/
def fileName? (p : Path) : Option Name :=
  match p.components.getLast? with
  | some (.name n) => some n
  | _ => none

/-- What stands behind the last `.` of a name, if something stands in front of it. -/
def nameExtension? (n : Name) : Option Name :=
  let reversed := n.reverse
  let behind := reversed.takeWhile (· != dot)
  match reversed.drop behind.length with
  | _ :: _ :: _ => some behind.reverse
  | _ => none

/-- The extension of the file that a path names. -/
def extension? (p : Path) : Option Name :=
  p.fileName?.bind nameExtension?

end Path

end IncludeMoves
