import IncludeMoves.Decimal.Shortest

/-!
# JSON values

A document's value as it is written: the members of an object keep their order and may repeat a
name. `Json.members` is the object as a table, in which the last value of a name counts.
-/

namespace IncludeMoves

/-- **A JSON value.** A number is an integer if it is written as one and fits into 64 bits. -/
inductive Json where
  | null
  | bool (b : Bool)
  | integer (n : Int)
  | real (negative : Bool) (magnitude : Binary64)
  | string (s : String)
  | array (items : List Json)
  | object (members : List (String × Json))
  deriving Repr, Inhabited

/-- A table by names in ascending order: `v` for the name `k`, in the place of what it had. -/
def insertKey {α : Type} (k : String) (v : α) : List (String × α) → List (String × α)
  | [] => [(k, v)]
  | (k', v') :: es =>
    if k < k' then (k, v) :: (k', v') :: es
    else if k = k' then (k, v) :: es
    else (k', v') :: insertKey k v es

/-- The table of a list of pairs, in ascending order of the names. The last value of a name
counts. -/
def tableOf {α : Type} (pairs : List (String × α)) : List (String × α) :=
  pairs.foldl (fun t e => insertKey e.1 e.2 t) []

namespace Json

/-- How numbers are written in messages: with an exponent below `10 ^ -5` and from `10 ^ 16` on. -/
def numbers : Notation := ⟨-5, 16⟩

/-- What a value is, in the words of messages. -/
def describe : Json → String
  | null => "null"
  | bool b => "boolean `" ++ (if b then "true" else "false") ++ "`"
  | integer n => "integer `" ++ toString n ++ "`"
  | real negative x =>
    let sign := if negative then ['-'] else []
    "floating point `" ++ String.ofList (sign ++ numbers.render x) ++ "`"
  | string _ => "string"
  | array _ => "sequence"
  | object _ => "map"

end Json

end IncludeMoves
