import IncludeMoves.FileSystem.Walk
import IncludeMoves.Moves

/-!
# What stops a run

`Problem` lists the causes, each with the path that it is about; `RunError` adds what the run was
doing. `RunError.chain` gives the texts from the outermost to the innermost cause.
-/

namespace IncludeMoves

/-- The text of what is wrong with a table. -/
def TableError.message : TableError → String
  | .notJson f => f.message
  | .notObject => "not an object"
  | .badValue v => "invalid type: " ++ v.describe ++ ", expected a string"

/-- **A problem.** -/
inductive Problem where
  | invalidTarget (path : Path)
  | outsideRoot (path root : Path)
  | badTable (path : Path) (cause : TableError)
  | io (path : Path) (cause : IoError)
  | walk (cause : WalkError)

namespace Problem

/-- The text of a problem. -/
def message : Problem → String
  | invalidTarget path => "Invalid target directory: " ++ path.display
  | outsideRoot path root =>
    path.display ++ " is not inside the project root " ++ root.display
  | badTable path .notObject =>
    "Fixup file " ++ path.display ++ " must contain a JSON object at the top level"
  | badTable path cause => "Failed to parse fixup file " ++ path.display ++ ": " ++ cause.message
  | io path cause => "I/O error on " ++ path.display ++ ": " ++ cause.message
  | walk cause => "Failed to walk source tree: " ++ cause.message

/-- The texts of the causes behind a problem. -/
def causes : Problem → List String
  | invalidTarget _ => []
  | outsideRoot _ _ => []
  | badTable _ .notObject => []
  | badTable _ cause => [cause.message]
  | io _ cause => [cause.message]
  | walk (.io path e) => [(WalkError.io path e).message, e.message]
  | walk (.unopened e) => [(WalkError.unopened e).message, e.message]
  | walk (.loop link ancestor) => [(WalkError.loop link ancestor).message]

end Problem

/-- Why a run ended early. -/
inductive RunError where
  | unknownFormat (name : String)
  | noRoot (executable : Path)
  | scanFailed (target : Path) (problem : Problem)
  | failed (problem : Problem)

namespace RunError

/-- The problem behind the error, if there is one. -/
def problem? : RunError → Option Problem
  | unknownFormat _ => none
  | noRoot _ => none
  | scanFailed _ p => some p
  | failed p => some p

/-- The texts of the error and its causes, the outermost first. -/
def chain : RunError → List String
  | unknownFormat name => ["Unknown format: " ++ name]
  | noRoot executable => ["Cannot derive a project root from " ++ executable.display]
  | scanFailed target p => ("Failed to scan " ++ target.display) :: p.message :: p.causes
  | failed p => p.message :: p.causes

/-- The outermost text. -/
def message (e : RunError) : String :=
  e.chain.headD ""

/-- **The problem is told in full**, whatever the run says of what it was doing. -/
theorem chain_of_problem? {e : RunError} {p : Problem} (h : e.problem? = some p) :
    ∃ doing, e.chain = doing ++ p.message :: p.causes := by
  cases e with
  | unknownFormat name => cases h
  | noRoot executable => cases h
  | scanFailed target p' =>
    cases h
    exact ⟨["Failed to scan " ++ target.display], rfl⟩
  | failed p' =>
    cases h
    exact ⟨[], rfl⟩

end RunError

end IncludeMoves
