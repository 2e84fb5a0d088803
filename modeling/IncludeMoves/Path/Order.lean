import IncludeMoves.Path.Basic

/-!
# The order of paths

Paths are ordered by their components, one after the other: the root directory comes before a
leading `.`, that before `..`, that before the names, and names go by their bytes. A path comes
before every longer path that it begins. Sets of paths are kept in this order, each place once.
-/

namespace IncludeMoves

/-- Lexicographic order by `cmp`; a list comes before every list that it begins. -/
def compareLists {α : Type} (cmp : α → α → Ordering) : List α → List α → Ordering
  | [], [] => .eq
  | [], _ :: _ => .lt
  | _ :: _, [] => .gt
  | a :: as, b :: bs =>
    match cmp a b with
    | .eq => compareLists cmp as bs
    | o => o

namespace Component

/-- The place of a component's kind in the order. -/
def rank : Component → Nat
  | root => 0
  | here => 1
  | up => 2
  | name _ => 3

/-- The order of components: by kind, and names by their bytes. -/
def compare : Component → Component → Ordering
  | name a, name b => compareLists Ord.compare a b
  | a, b => Ord.compare a.rank b.rank

end Component

namespace Path

/-- **The order of paths**, component by component. It is not the order of the spellings: a separator
comes before every byte of a name here. -/
def compare (p q : Path) : Ordering :=
  compareLists Component.compare p.components q.components

/-- A path put into an ordered list. A path that is there already, however it is spelled, stays as
it is. -/
def insert (p : Path) : List Path → List Path
  | [] => [p]
  | q :: qs =>
    match p.compare q with
    | .lt => p :: q :: qs
    | .eq => q :: qs
    | .gt => q :: insert p qs

/-- The set of the paths of a list, in order, each with the spelling that came first. Paths with the
same components are one element. -/
def sorted (ps : List Path) : List Path :=
  ps.foldl (fun set p => insert p set) []

end Path

end IncludeMoves
