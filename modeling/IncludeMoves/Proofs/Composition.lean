import IncludeMoves.Proofs.DirectiveGrammar
import IncludeMoves.Proofs.Revising
import IncludeMoves.Proofs.Tables

/-!
# Two revisions are one

A text that has been revised by one table may be revised by another one. What the first revision has
written is read again by the second: a removed line is gone with its newline, so no lines run together;
a canonical line is the directive that was meant, of the same style, unless its path is empty; and a
line that was kept is as it was. So the two revisions are the revision by one table.

* `Moves.compose` — that table, and what it says of a path (`Moves.get?_compose`);
* `Lines.of_flatten_append` — the lines of a text that is put together of lines;
* `Moves.reviseLine_compose` — the two revisions of one line;
* `Moves.revisions_compose` — the two revisions of a text, and any number of them by one table.

The one condition is that the first table writes no newline (`Moves.KeepsLines`): a path with a newline
would make two lines of one.
-/

namespace IncludeMoves

/-- The new path of a move. -/
def Move.new? : Move → Option String
  | .gone => none
  | .moved path => some path

/-- What a move makes of a directive line. -/
def Move.line (s : Style) : Move → List Char
  | .gone => []
  | .moved path => s.line path.toList

namespace Moves

/-- What becomes of a file by `n` after a move. A path that has become empty is no path of a directive
any more. -/
def follow (n : Moves) : Move → Move
  | .gone => .gone
  | .moved path => if path = "" then .moved path else (n.get? path).getD (.moved path)

/-- **The table of two revisions**, first by `m` and then by `n`. What `m` moves, `n` may move on; what
`m` does not know is left to `n`. -/
def compose (m n : Moves) : Moves :=
  ⟨tableOf ((m.entries.map fun e => (e.1, n.follow e.2)) ++ n.entries).reverse⟩

/-- The second table says what becomes of a file that the first one moves or does not know. -/
theorem get?_compose (m n : Moves) (path : String) :
    (m.compose n).get? path = ((m.get? path).map n.follow).or (n.get? path) := by
  rw [get?, compose, lookup_tableOf, List.reverse_reverse, List.lookup_append,
    FileSystem.lookup_map_snd]
  rfl

/-- No new path in the table has a newline. Otherwise what is written for a directive is two lines, and
a second revision reads other lines than the first one has written. -/
def KeepsLines (m : Moves) : Prop :=
  ∀ path new, m.get? path = some (.moved new) → '\n' ∉ new.toList

/-- What holds of each new path among the entries holds of each that the table gives. -/
theorem forall_moved {m : Moves} {P : String → Prop}
    (h : ∀ e ∈ m.entries, ∀ new ∈ e.2.new?, P new) (path new : String)
    (hmove : m.get? path = some (.moved new)) : P new :=
  h _ (FileSystem.mem_of_lookup_eq_some hmove) new rfl

end Moves

/-! ### Lines -/

namespace Lines

/-- **The lines of a text that is put together of lines** are these lines. Where nothing was put, there
is no line. -/
theorem of_flatten_append {ls : List (List Char)} {tail : List Char}
    (hls : ∀ l ∈ ls, IsLine l ∨ l = []) (htail : '\n' ∉ tail) :
    of (ls.flatten ++ tail) = ⟨ls.filter (· ≠ []), tail⟩ := by
  induction ls with
  | nil => exact of_of_not_mem htail
  | cons l ls ih =>
    have ih := ih fun k hk => hls k (List.mem_cons_of_mem _ hk)
    rw [List.flatten_cons, List.append_assoc]
    -- A line keeps its newline, and so it is one of the lines of the text. An empty one leaves no trace.
    rcases hls l List.mem_cons_self with ⟨w, hw, rfl⟩ | rfl
    · rw [List.append_assoc, List.singleton_append, of_append hw, ih,
        List.filter_cons_of_pos (by simp)]
    · rw [List.nil_append, ih, List.filter_cons_of_neg (by simp)]

end Lines

namespace Directive

/-- The canonical line of a path is a layout. -/
theorem line_eq_layout (s : Style) (path : List Char) :
    s.line path = Layout.line ⟨0, 0, 1, 0⟩ s path :=
  rfl

/-- The canonical line of a path is a directive of it, or none if the path is empty. -/
theorem readLine?_line (s : Style) (path : List Char) :
    readLine? (s.line path) = if path = [] then none else some (s, path) := by
  split
  · next hpath =>
    -- Without a path there is no directive, since no layout of another path looks like that.
    subst hpath
    cases hread : readLine? (s.line []) with
    | none => rfl
    | some found =>
      obtain ⟨hne, y, hy⟩ := readLine?_eq_some_iff.mp hread
      rw [line_eq_layout] at hy
      exact absurd (Layout.line_inj hy).2.2.symm hne
  · next hpath => exact readLine?_eq_some_iff.mpr ⟨hpath, _, line_eq_layout s path⟩

end Directive

/-! ### Revising twice -/

namespace Moves

variable {m n : Moves}

theorem toList_revisedText (m : Moves) (text : String) :
    (m.revisedText text).toList
      = (Lines.of text.toList).terminated.flatMap m.reviseLine ++ (Lines.of text.toList).tail := by
  rw [revisedText, revise_eq_reviseLines, reviseLines, String.toList_ofList]

/-- A text whose lines all stay the same stays the same. -/
theorem revisedText_of_forall {text : String}
    (h : ∀ line ∈ (Lines.of text.toList).terminated, m.reviseLine line = line) :
    m.revisedText text = text := by
  apply String.toList_injective
  rw [toList_revisedText, List.flatMap_def, List.map_congr_left h, List.map_id', Lines.flatten_of]

theorem reviseLine_nil (m : Moves) : m.reviseLine [] = [] :=
  rfl

theorem reviseLine_of_readLine?_eq_none {line : List Char}
    (h : Directive.readLine? line = none) : m.reviseLine line = line := by
  rw [reviseLine, h]

/-- A directive becomes what the table says of its path. -/
theorem reviseLine_of_readLine?_eq_some {line path : List Char} {s : Style}
    (h : Directive.readLine? line = some (s, path)) :
    m.reviseLine line = ((m.get? (String.ofList path)).map (Move.line s)).getD line := by
  rw [reviseLine, h]
  cases hmove : m.get? (String.ofList path) with
  | none => simp only [outcomeOf, hmove, Option.map_none, Option.getD_none]
  | some move =>
    -- The text is that of the new directive, without a layout of its own.
    cases move with
    | gone => simp only [outcomeOf, hmove, Option.map_some, Option.getD_some, Move.line]
    | moved new =>
      simp only [outcomeOf, hmove, Option.map_some, Option.getD_some, Move.line, Style.render,
        String.toList_ofList]

/-- What takes the place of a line is a line, or nothing. So a revised text has the revised lines as its
lines, without those that are gone. -/
theorem KeepsLines.isLine_reviseLine (h : m.KeepsLines) {line : List Char}
    (hline : Lines.IsLine line) : Lines.IsLine (m.reviseLine line) ∨ m.reviseLine line = [] := by
  cases hread : Directive.readLine? line with
  | none => exact .inl (by rwa [reviseLine_of_readLine?_eq_none hread])
  | some found =>
    rw [reviseLine_of_readLine?_eq_some hread]
    cases hmove : m.get? (String.ofList found.2) with
    | none => exact .inl hline
    | some move =>
      -- A directive that is moved takes a line, since its new path has no newline.
      cases move with
      | gone => exact .inr rfl
      | moved new =>
        left
        change Lines.IsLine (found.1.line new.toList)
        rw [Directive.line_eq_layout]
        exact Directive.Layout.isLine_line_iff.mpr (h _ _ hmove)

/-- What the first revision has written is read again by the second one. If the new path is empty
nothing is read, and so `follow` does not look it up. -/
theorem reviseLine_line (n : Moves) (s : Style) (move : Move) :
    n.reviseLine (move.line s) = (n.follow move).line s := by
  cases move with
  | gone => exact n.reviseLine_nil
  | moved path =>
    have hread := Directive.readLine?_line s path.toList
    rw [follow]
    by_cases hpath : path = ""
    · -- A directive with an empty path is none.
      subst hpath
      exact reviseLine_of_readLine?_eq_none hread
    · have hne : path.toList ≠ [] := by simpa using hpath
      rw [if_neg hne] at hread
      rw [if_neg hpath, Move.line, reviseLine_of_readLine?_eq_some hread, String.ofList_toList]
      cases n.get? path with
      | none => rfl
      | some next => rfl

/-- **The two revisions of a line** are its revision by the one table. -/
theorem reviseLine_compose (m n : Moves) (line : List Char) :
    n.reviseLine (m.reviseLine line) = (m.compose n).reviseLine line := by
  cases hread : Directive.readLine? line with
  | none =>
    rw [reviseLine_of_readLine?_eq_none hread, reviseLine_of_readLine?_eq_none hread,
      reviseLine_of_readLine?_eq_none hread]
  | some found =>
    rw [reviseLine_of_readLine?_eq_some hread (m := m), reviseLine_of_readLine?_eq_some hread,
      get?_compose]
    -- What the first table leaves alone is left to the second one.
    cases m.get? (String.ofList found.2) with
    | none => exact reviseLine_of_readLine?_eq_some hread
    | some move => exact n.reviseLine_line found.1 move

theorem flatMap_filter_ne_nil {f : List Char → List Char} (hf : f [] = []) (ls : List (List Char)) :
    (ls.filter (· ≠ [])).flatMap f = ls.flatMap f := by
  induction ls with
  | nil => rfl
  | cons l ls ih =>
    rw [List.flatMap_cons, ← ih]
    by_cases hl : l = []
    · rw [List.filter_cons_of_neg (by simp [hl]), hl, hf, List.nil_append]
    · rw [List.filter_cons_of_pos (by simp [hl]), List.flatMap_cons]

/-- The lines of the new text are what the old lines have become, as far as they are still there. -/
theorem lines_revisedText (hm : m.KeepsLines) (text : String) :
    Lines.of (m.revisedText text).toList
      = ⟨((Lines.of text.toList).terminated.map m.reviseLine).filter (· ≠ []),
          (Lines.of text.toList).tail⟩ := by
  rw [toList_revisedText, List.flatMap_def]
  refine Lines.of_flatten_append (fun l hl => ?_) (Lines.newline_not_mem_tail _)
  obtain ⟨line, hline, rfl⟩ := List.mem_map.mp hl
  exact hm.isLine_reviseLine (Lines.isLine_of_mem hline)

/-- **The two revisions of a text** are its revision by the one table. -/
theorem revisedText_compose (hm : m.KeepsLines) (n : Moves) (text : String) :
    n.revisedText (m.revisedText text) = (m.compose n).revisedText text := by
  apply String.toList_injective
  rw [toList_revisedText, lines_revisedText hm, toList_revisedText]
  simp only
  rw [flatMap_filter_ne_nil n.reviseLine_nil, List.flatMap_map]
  simp only [reviseLine_compose]

/-! ### Any number of revisions -/

theorem revisedText_empty (text : String) : empty.revisedText text = text := by
  refine revisedText_of_forall fun line _ => ?_
  cases hread : Directive.readLine? line with
  | none => exact reviseLine_of_readLine?_eq_none hread
  | some found => exact reviseLine_of_readLine?_eq_some hread

/-- **Any number of revisions by one table are one**, by the table that follows each path that many
times. -/
theorem iterate_revisedText (hm : m.KeepsLines) (count : Nat) (text : String) :
    m.revisedText^[count] text = (m.compose^[count] empty).revisedText text := by
  -- The first of the revisions is the first part of the table.
  induction count generalizing text with
  | zero => exact (revisedText_empty text).symm
  | succ count ih =>
    rw [Function.iterate_succ_apply, ih, Function.iterate_succ_apply', revisedText_compose hm]

/-- **Two revisions are one.** If the first table writes no newline, the text that two revisions leave
is that of one revision, by the table in which the second one has the last word on each path that the
first one has written or has left alone, a path that is empty by now apart. Any number of revisions by
the same table are one as well. -/
theorem revisions_compose (m n : Moves) (hm : m.KeepsLines) (text : String) :
    (∀ path, (m.compose n).get? path =
      match m.get? path with
      | none => n.get? path
      | some .gone => some .gone
      | some (.moved new) =>
        if new = "" then some (.moved new) else some ((n.get? new).getD (.moved new))) ∧
    (∀ first second once : Path,
      (n.revise second (m.revise first text).text).text = ((m.compose n).revise once text).text) ∧
    ∀ count, m.revisedText^[count] text = (m.compose^[count] empty).revisedText text := by
  refine ⟨fun path => ?_, fun first second once => ?_, fun count => iterate_revisedText hm count text⟩
  · rw [get?_compose]
    cases m.get? path with
    | none => rfl
    -- The second table has its say on a path to which the first one moves.
    | some move =>
      cases move with
      | gone => rfl
      | moved new =>
        simp only [Option.map_some, Option.some_or, follow]
        exact apply_ite some _ _ _
  -- Of a revision only the text counts here.
  · rw [text_revise, text_revise, text_revise]
    exact revisedText_compose hm n text

/-- A table that moves a file, leaves another without a path, and removes a third. -/
def firstMoves : Moves :=
  ⟨[("a", .moved "b"), ("e", .moved ""), ("r", .gone)]⟩

/-- A table that moves on what the first one has moved, and knows the paths that it writes. -/
def secondMoves : Moves :=
  ⟨[("", .gone), ("b", .moved "c"), ("k", .moved "l")]⟩

/-- A text with a line for each of their paths. -/
def fourIncludes : String :=
  "#include \"a\"\n # include <e>\n#include \"r\"\n#include <k>\n"

/-- The two tables on this text. -/
theorem revisions_compose_fourIncludes :
    firstMoves.KeepsLines ∧
      (secondMoves.revise ⟨[]⟩ (firstMoves.revise ⟨[]⟩ fourIncludes).text).text
        = ((firstMoves.compose secondMoves).revise ⟨[]⟩ fourIncludes).text ∧
      ((firstMoves.compose secondMoves).revise ⟨[]⟩ fourIncludes).text
        = "#include \"c\"\n#include <>\n#include <l>\n" := by
  have hm : firstMoves.KeepsLines := by
    intro path new h
    have hmem := FileSystem.mem_of_lookup_eq_some h
    -- Of the three moves two are to a new path, and neither has a newline in it.
    simp only [firstMoves, List.mem_cons, Prod.mk.injEq, List.not_mem_nil, or_false] at hmem
    rcases hmem with ⟨-, h⟩ | ⟨-, h⟩ | ⟨-, h⟩
    · cases h
      decide
    · cases h
      decide
    · cases h
  refine ⟨hm, (revisions_compose firstMoves secondMoves hm fourIncludes).2.1 _ _ _, ?_⟩
  rw [revise_eq_reviseLines]
  rfl

end Moves

end IncludeMoves
