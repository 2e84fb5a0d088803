import IncludeMoves.Json.Reader

/-!
# Tables of moves

A table tells what became of included files: a path moved to another one, or is gone. It is written
as a JSON object from old paths to new ones, with `null` for those that are gone.

* `Moves.get?` — what the table says of a path, compared as it is spelled;
* `Moves.ofJson` — the table of a value;
* `Moves.parse` — the table of a text.
-/

namespace IncludeMoves

/-- What became of an included file: it has a new path, or there is nothing left to include. -/
inductive Move where
  | moved (path : String)
  | gone
  deriving DecidableEq, Repr

/-- **A table of moves**, one for each path, in ascending order of the paths. A path without an entry is
not affected. -/
structure Moves where
  entries : List (String × Move)
  deriving DecidableEq, Repr, Inhabited

/-- Why a text is no table of moves: it is no document, the document is no object, or a value in it is
neither a text nor `null`. -/
inductive TableError where
  | notJson (failure : Json.Failure)
  | notObject
  | badValue (value : Json)

namespace Move

/-- The move that a value stands for, if it stands for one. -/
def ofJson? : Json → Option Move
  | .null => some gone
  | .string path => some (moved path)
  | _ => none

end Move

namespace Moves

/-- The table without moves. -/
def empty : Moves := ⟨[]⟩

/-- What became of a path. -/
def get? (m : Moves) (path : String) : Option Move :=
  m.entries.lookup path

/-- The number of paths in the table. -/
def size (m : Moves) : Nat :=
  m.entries.length

/-- Whether the table is empty. -/
def isEmpty (m : Moves) : Bool :=
  m.entries.isEmpty

/-- The moves of a table of values. The first value that is none is reported, and the values are in
ascending order of their paths, not in the order of the document. -/
def ofValues : List (String × Json) → Except Json (List (String × Move))
  | [] => .ok []
  | (path, value) :: rest =>
    match Move.ofJson? value with
    | none => .error value
    | some move =>
      match ofValues rest with
      | .error v => .error v
      | .ok moves => .ok ((path, move) :: moves)

/-- The table that a value stands for. -/
def ofJson : Json → Except TableError Moves
  | .object members =>
    match ofValues (tableOf members) with
    | .error v => .error (.badValue v)
    | .ok entries => .ok ⟨entries⟩
  | _ => .error .notObject

/-- **Reads a table of moves.** The whole text has to be a document before any part of it is looked at
as a table. -/
def parse (text : String) : Except TableError Moves :=
  match Json.parse text with
  | .error f => .error (.notJson f)
  | .ok v => ofJson v

end Moves

end IncludeMoves
