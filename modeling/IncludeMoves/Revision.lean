import IncludeMoves.Directive.Search
import IncludeMoves.Moves
import IncludeMoves.Path.Basic

/-!
# Revising the directives of a text

A revision applies a table of moves to a text: a directive whose path is in the table is removed or
replaced by the canonical line for the new path, all else stays as it is. There is one record for
each directive, also for those that stay.
-/

namespace IncludeMoves

/-- What a revision does with a directive: it stays as it is spelled, goes with its line, or is written
anew in the canonical form. -/
inductive Outcome where
  | kept
  | removed
  | replaced (path : String) (style : Style)
  deriving DecidableEq, Repr

/-- What became of one directive of a file. A token whose delimiters do not belong together is
reported with the record. -/
structure Record where
  file : Path
  old : String
  outcome : Outcome
  malformed : Option String
  deriving DecidableEq, Repr

/-- A record is an edit unless its directive was kept. A directive that is replaced by itself is an edit
too, though the text may stay the same. -/
def Record.isEdit (r : Record) : Bool :=
  r.outcome != .kept

/-- **A revised file**: its path from the root of the project, its new text, and what became of its
directives. -/
structure Revision where
  file : Path
  text : String
  records : List Record
  deriving DecidableEq, Repr

/-- Whether a directive of the file was removed or replaced. -/
def Revision.isModified (r : Revision) : Bool :=
  r.records.any Record.isEdit

namespace Moves

/-- What the table asks for a directive with the given token. The path of the token is looked up as it
is written, without any normalization. -/
def outcome (m : Moves) (token : List Char) : Outcome :=
  match m.get? (String.ofList (Token.bare token)) with
  | none => .kept
  | some .gone => .removed
  | some (.moved path) => .replaced path (Style.ofToken token)

/-- The text that takes the place of a segment. -/
def reviseSegment (m : Moves) : Pattern.Piece → List Char
  | .plain c => [c]
  | .hit line token =>
    match m.outcome token with
    | .kept => line
    | .removed => []
    | .replaced path style => style.line path.toList

/-- The record of a segment of `file`, if it is a directive. -/
def record? (m : Moves) (file : Path) : Pattern.Piece → Option Record
  | .plain _ => none
  | .hit _ token =>
    let outcome := m.outcome token
    -- A directive that stays or goes needs no style, so its delimiters do not matter.
    let malformed :=
      match outcome with
      | .replaced _ _ => if Token.isMalformed token then some (String.ofList token) else none
      | _ => none
    some ⟨file, String.ofList (Token.bare token), outcome, malformed⟩

/-- **Applies a table of moves to the text of a file.** New text and records come from the same cut of
the text into segments, so they cannot disagree about where the directives are. -/
def revise (m : Moves) (file : Path) (text : String) : Revision :=
  let segments := Directive.segments text.toList
  { file := file
    text := String.ofList (segments.flatMap m.reviseSegment)
    records := segments.filterMap (m.record? file) }

end Moves

/-- The totals of a run. The first two count files, the other ones records. -/
structure Tally where
  scanned : Nat
  modified : Nat
  removed : Nat
  replaced : Nat
  warnings : Nat
  deriving DecidableEq, Repr, Inhabited

namespace Tally

/-- The number of records with a property in a list of revisions. -/
def count (p : Record → Bool) (revisions : List Revision) : Nat :=
  (revisions.flatMap Revision.records).countP p

/-- **The totals of a list of revisions.** A kept directive counts for nothing but its file. -/
def ofRevisions (revisions : List Revision) : Tally :=
  { scanned := revisions.length
    modified := revisions.countP Revision.isModified
    removed := count (fun r => r.outcome == .removed) revisions
    replaced := count (fun r => match r.outcome with | .replaced _ _ => true | _ => false) revisions
    warnings := count (fun r => r.malformed.isSome) revisions }

/-- The totals as one line. -/
def message (t : Tally) : String :=
  toString t.scanned ++ " files scanned, " ++ toString t.modified ++ " modified (" ++
    toString t.replaced ++ " replaced, " ++ toString t.removed ++ " removed, " ++
    toString t.warnings ++ " warnings)"

end Tally

end IncludeMoves
