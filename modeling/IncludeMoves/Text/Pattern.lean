/-!
# Patterns over lines of text

A small pattern language with the usual search discipline: of two matches the leftmost wins, a
repetition takes as much as it can and gives back one character at a time, and the search goes on
where the last match ended.

* `Pattern.endings` — every way to match at a place, in order of preference;
* `Pattern.first?` — the preferred one;
* `Pattern.pieces` — a whole text cut into its matches and the characters between them.
-/

namespace IncludeMoves

/-- A set of characters: a single one, or all but one. -/
inductive CharClass where
  | only (c : Char)
  | except (c : Char)
  deriving DecidableEq, Repr

/-- Whether a character belongs to the class. -/
def CharClass.contains : CharClass → Char → Bool
  | .only c, x => x == c
  | .except c, x => x != c

/-- **A pattern.** `many` is the greedy repetition of one class, `either` prefers its left side,
and `group` marks the part of the match that is reported by itself. -/
inductive Pattern where
  | empty
  | lineStart
  | one (k : CharClass)
  | many (k : CharClass)
  | seq (a b : Pattern)
  | either (a b : Pattern)
  | group (a : Pattern)
  deriving DecidableEq, Repr

/-- A place in a text: how many characters lie between it and the place where the matching began,
the character in front of it, if there is one, and the text that follows. -/
structure Place where
  offset : Nat
  before : Option Char
  rest : List Char
  deriving DecidableEq, Repr

/-- A place starts a line if nothing or a newline stands in front of it. -/
def Place.startsLine (p : Place) : Bool :=
  match p.before with
  | none => true
  | some c => c == '\n'

/-- The place behind the first character `c` of the text at a place, of which `r` is left. -/
def Place.next (p : Place) (c : Char) (r : List Char) : Place :=
  ⟨p.offset + 1, some c, r⟩

/-- The text between a place and a later one. -/
def Place.upTo (p q : Place) : List Char :=
  p.rest.take (q.offset - p.offset)

/-- Where a match ends, and the bounds of the group that it has seen last. There is one ending for each
way of matching, so one place can be in several of them. -/
structure Ending where
  place : Place
  group : Option (Place × Place)
  deriving DecidableEq, Repr

/-- The text of the group, empty if the match has seen none. -/
def Ending.captured (e : Ending) : List Char :=
  match e.group with
  | none => []
  | some (start, stop) => start.upTo stop

namespace Pattern

/-- The pattern of a fixed word. -/
def word (cs : List Char) : Pattern :=
  cs.foldr (fun c p => seq (one (.only c)) p) empty

/-- One or more characters of a class, as many as possible. -/
def oneOrMore (k : CharClass) : Pattern :=
  seq (one k) (many k)

/-- The patterns of a list, one after the other. -/
def sequence (ps : List Pattern) : Pattern :=
  ps.foldr seq empty

/-- The places that a run of characters of the class `k` can reach from a place in front of the
given text, the farthest first, in front of the places already `found`. -/
def runs (k : CharClass) (found : List Place) (p : Place) : List Char → List Place
  | [] => p :: found
  | c :: r => if k.contains c then runs k (p :: found) (p.next c r) r else p :: found

/-- Every way in which a pattern can match at a place, in order of preference. A search takes the first
one, so the order is the greediness of the pattern: `many` has the longest run first. -/
def endings : Pattern → Place → List Ending
  | empty, p => [⟨p, none⟩]
  -- Nothing is taken.
  | lineStart, p => if p.startsLine then [⟨p, none⟩] else []
  | one k, p =>
    match p.rest with
    | [] => []
    | c :: r => if k.contains c then [⟨p.next c r, none⟩] else []
  | many k, p => (runs k [] p p.rest).map fun q => ⟨q, none⟩
  | seq a b, p =>
    (a.endings p).flatMap fun e =>
      -- Of several groups the last one counts.
      (b.endings e.place).map fun f => ⟨f.place, f.group.or e.group⟩
  | either a b, p => a.endings p ++ b.endings p
  -- The bounds are those of the whole match of `a`.
  | group a, p => (a.endings p).map fun e => ⟨e.place, some (p, e.place)⟩

/-- The preferred match at a place. -/
def first? (p : Pattern) (here : Place) : Option Ending :=
  (p.endings here).head?

/-- A part of a searched text: a character outside every match, or a match with its group. The texts of
the pieces, one after the other, are the text that was searched. -/
inductive Piece where
  | plain (c : Char)
  | hit (matched captured : List Char)
  deriving DecidableEq, Repr

/-- The text that a piece stands for. -/
def Piece.text : Piece → List Char
  | .plain c => [c]
  | .hit matched _ => matched

/-- The pieces of the text behind a character, after those already `found` (the last one first). A
match has to take at least one character. -/
def piecesFrom (p : Pattern) (found : List Piece) (before : Option Char) :
    List Char → List Piece
  | [] => found.reverse
  | c :: r =>
    match p.first? ⟨0, before, c :: r⟩ with
    | none => piecesFrom p (.plain c :: found) (some c) r
    | some e =>
      -- An empty match would be found again and again at the same place.
      if e.place.offset = 0 then piecesFrom p (.plain c :: found) (some c) r
      else
        piecesFrom p (.hit ((c :: r).take e.place.offset) e.captured :: found) e.place.before
          ((c :: r).drop e.place.offset)
termination_by text => text.length
decreasing_by
  all_goals simp only [List.length_drop, List.length_cons]
  all_goals omega

/-- A text cut into the matches of a pattern and the characters between them: each match is the
leftmost one from where the last one ended. -/
def pieces (p : Pattern) (text : List Char) : List Piece :=
  p.piecesFrom [] none text

end Pattern

end IncludeMoves
