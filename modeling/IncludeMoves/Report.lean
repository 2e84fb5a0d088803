import IncludeMoves.Json.Writer
import IncludeMoves.Revision

/-!
# Reports

What a run says about each file: notices for the reader, one for each edit, or one JSON object per
line for other programs, one for each directive.
-/

namespace IncludeMoves

/-- The form of the output. -/
inductive Format where
  | text
  | jsonLines
  deriving DecidableEq, Repr, Inhabited

/-- The format of a name, in capitals or not. Only the ASCII letters have a capital form here: no
other letter is the capital of one of these names' letters. -/
def Format.ofName? (name : String) : Option Format :=
  let lower := name.toList.map Char.toLower
  if lower = "text".toList then some .text
  else if lower = "jsonl".toList then some .jsonLines
  else none

namespace Record

/-- The notice of an edit. -/
def notice? (r : Record) : Option String :=
  match r.outcome with
  | .kept => none
  | .removed => some (r.file.normalized ++ ": " ++ r.old ++ " -> (removed)")
  | .replaced path _ => some (r.file.normalized ++ ": " ++ r.old ++ " -> " ++ path)

/-- The mark in front of a warning, bold and yellow if colours are wanted. -/
def warningMark (colour : Bool) : String :=
  if colour then "\x1b[1;33mWARNING:\x1b[0m" else "WARNING:"

/-- The warning of a record with a malformed token. -/
def warning? (colour : Bool) (r : Record) : Option String :=
  r.malformed.map fun token =>
    warningMark colour ++ " Invalid quoted form: " ++ token ++ " in file " ++
      r.file.normalized ++ "."

/-- The lines for the reader; a warning comes before the notice of its edit. -/
def textLines (colour : Bool) (r : Record) : List String :=
  (r.warning? colour).toList ++ r.notice?.toList

/-- The word for a style in the output. -/
def styleName : Style → String
  | .quoted => "local"
  | .angled => "system"

/-- The members that tell the outcome. -/
def outcomeMembers : Outcome → List (String × String)
  | .kept => [("kind", "kept")]
  | .removed => [("kind", "removed")]
  | .replaced path style => [("kind", "replaced"), ("new", path), ("style", styleName style)]

/-- The record as the members of an object. Paths of files are written with `/`; included paths are
written as they stand in the text. -/
def members (r : Record) : List (String × String) :=
  [("file", r.file.normalized), ("old", r.old)] ++ outcomeMembers r.outcome ++
    r.malformed.toList.map fun token => ("malformed", token)

/-- The record as an object on one line. -/
def jsonLine (r : Record) : String :=
  String.ofList (Json.writeObject r.members)

end Record

/-- How revisions are reported. Without a report of its own an edit still is carried out, so `quiet`
only concerns the output. -/
structure Report where
  format : Format
  quiet : Bool
  colour : Bool
  deriving DecidableEq, Repr, Inhabited

namespace Report

/-- The lines for a revision; none if the report is quiet. Texts are for readers and name edits only,
objects are for programs and name every directive. -/
def lines (p : Report) (r : Revision) : List String :=
  if p.quiet then []
  else
    match p.format with
    | .text => r.records.flatMap (Record.textLines p.colour)
    | .jsonLines => r.records.map Record.jsonLine

/-- The lines for a revision, with line breaks between them. -/
def render (p : Report) (r : Revision) : String :=
  "\n".intercalate (p.lines r)

/-- What is written for a revision: its lines with a line break behind them, or nothing. -/
def output (p : Report) (r : Revision) : String :=
  let rendered := p.render r
  if rendered = "" then "" else rendered ++ "\n"

end Report

end IncludeMoves
