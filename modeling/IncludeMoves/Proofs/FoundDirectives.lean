import IncludeMoves.Proofs.Composition
import IncludeMoves.Proofs.DirectiveGrammar

/-!
# The directives of a text

What the search finds in a text is a list of directives, each with the style and the path that its token
shows. A revision can be read off this list: its records are those of the directives, and the directives
of the new text are what the records say of the old ones. So nothing that a revision writes is taken for
something else when it is searched again, whatever the paths look like; the two exceptions are the empty
path, which no directive can have, and a path with a newline, which would be cut.

* `Directive.found` — the directives of a text, in order;
* `Moves.records_revise` — the records of a revision, one for each of them;
* `Moves.found_revisedText` — the directives of the new text;
* `Directive.segments_render_iff` — the paths whose canonical line is found again;
* `Directive.rendered_is_found_again` — rendering and search, for one line and in any text.
-/

namespace IncludeMoves

open Pattern (Piece)

theorem Lines.of_of_isLine {l : List Char} (h : Lines.IsLine l) : Lines.of l = ⟨[l], []⟩ := by
  obtain ⟨w, hw, rfl⟩ := h
  exact Lines.of_append hw

namespace Directive

/-! ### What the search finds -/

/-- The style and the path that the token of a match shows. -/
def ofPiece? : Piece → Option (Style × String)
  | .plain _ => none
  | .hit _ token => some (Style.ofToken token, String.ofList (Token.bare token))

/-- **The directives of a text**, as the search finds them. They are given as style and path, without
their layouts. -/
def found (text : String) : List (Style × String) :=
  (segments text.toList).filterMap ofPiece?

/-- The directive of a line, if it is one. -/
def ofLine? (line : List Char) : Option (Style × String) :=
  (readLine? line).map fun d => (d.1, String.ofList d.2)

variable {line : List Char} {s : Style} {path : String}

theorem ofPiece?_delimit (line : List Char) (s : Style) (path : List Char) :
    ofPiece? (.hit line (s.delimit path)) = some (s, String.ofList path) := by
  rw [ofPiece?, Style.ofToken, Style.ofToken?_delimit, Option.getD_some, Style.bare_delimit]

theorem ofLine?_of_readLine?_eq_none (h : readLine? line = none) : ofLine? line = none := by
  rw [ofLine?, h, Option.map_none]

theorem ofLine?_eq_some_iff : ofLine? line = some (s, path) ↔ IsDirective line s path.toList := by
  rw [← readLine?_eq_some_iff, ofLine?, Option.map_eq_some_iff]
  constructor
  · rintro ⟨d, hd, h⟩
    cases h
    rw [hd, String.toList_ofList]
  · intro h
    exact ⟨_, h, by rw [String.ofList_toList]⟩

theorem filterMap_ofPiece?_plain (cs : List Char) : (cs.map Piece.plain).filterMap ofPiece? = [] := by
  rw [List.filterMap_map]
  exact List.filterMap_eq_nil_iff.mpr fun c _ => rfl

theorem filterMap_ofPiece?_linePieces (line : List Char) :
    (linePieces line).filterMap ofPiece? = (ofLine? line).toList := by
  rw [linePieces, ofLine?]
  cases readLine? line with
  | none => exact filterMap_ofPiece?_plain line
  | some d => rw [List.filterMap_cons_some (ofPiece?_delimit line d.1 d.2)]; rfl

/-- **The directives of a text are those of its lines.** -/
theorem found_eq (text : String) :
    found text = (Lines.of text.toList).terminated.filterMap ofLine? := by
  rw [found, segments_eq_pieces, List.filterMap_append, filterMap_ofPiece?_plain, List.append_nil,
    List.filterMap_flatMap, List.filterMap_eq_flatMap_toList]
  simp only [filterMap_ofPiece?_linePieces]

/-! ### Canonical lines -/

theorem toList_render (s : Style) (path : String) : (s.render path).toList = s.line path.toList := by
  rw [Style.render, String.toList_ofList]

theorem isLine_line_iff {path : List Char} : Lines.IsLine (s.line path) ↔ '\n' ∉ path := by
  rw [line_eq_layout]
  exact Layout.isLine_line_iff

/-- The canonical line of a path is its directive, unless the path is empty. -/
theorem ofLine?_line (s : Style) (path : String) :
    ofLine? (s.line path.toList) = if path = "" then none else some (s, path) := by
  rw [ofLine?, readLine?_line]
  by_cases hpath : path = ""
  · subst hpath
    rfl
  · have hne : path.toList ≠ [] := by simpa using hpath
    rw [if_neg hne, if_neg hpath, Option.map_some, String.ofList_toList]

/-- **A canonical line is found again**, as one match with all of it and with the token as its group, if
and only if its path is one that a directive can have. -/
theorem segments_render_iff {token : List Char} :
    segments (s.render path).toList = [.hit (s.render path).toList token] ↔
      path ≠ "" ∧ '\n' ∉ path.toList ∧ token = s.delimit path.toList := by
  rw [toList_render]
  constructor
  · intro h
    have hmem : Piece.hit (s.line path.toList) token ∈ segments (s.line path.toList) := by
      rw [h]
      exact List.mem_singleton_self _
    -- A match is a line of the text and a directive, here the one for which the line was written.
    obtain ⟨hline, t, other, hread, rfl⟩ := hit_mem_segments_iff.mp hmem
    rw [readLine?_line] at hread
    split at hread
    · cases hread
    · next hne =>
      cases hread
      exact ⟨by simpa using hne, isLine_line_iff.mp (Lines.isLine_of_mem hline), rfl⟩
  · rintro ⟨hpath, hnewline, rfl⟩
    -- The line that was written is the only one of its text, and it is a directive.
    have hne : path.toList ≠ [] := by simpa using hpath
    have hdirective : IsDirective (s.line path.toList) s path.toList :=
      ⟨hne, _, line_eq_layout s path.toList⟩
    have hlines := Lines.of_of_isLine ((isLine_line_iff (s := s)).mpr hnewline)
    rw [segments_eq_pieces, hlines, List.flatMap_singleton, linePieces_of_isDirective hdirective]
    rfl

end Directive

/-! ### Revisions by their directives -/

namespace Moves

variable {m : Moves}

/-- The record of a directive of `file`. -/
def recordOf (m : Moves) (file : Path) (d : Style × String) : Record :=
  ⟨file, d.2, m.outcomeOf d.1 d.2.toList, none⟩

theorem lineRecord?_eq (m : Moves) (file : Path) (line : List Char) :
    m.lineRecord? file line = (Directive.ofLine? line).map (m.recordOf file) := by
  rw [lineRecord?, Directive.ofLine?]
  cases Directive.readLine? line with
  | none => rfl
  | some d => simp [recordOf]

/-- **The records of a revision** are those of the directives, in order. -/
theorem records_revise (m : Moves) (file : Path) (text : String) :
    (m.revise file text).records = (Directive.found text).map (m.recordOf file) := by
  rw [revise_eq_reviseLines, Directive.found_eq, List.map_filterMap]
  exact List.filterMap_congr fun line _ => m.lineRecord?_eq file line

/-- No record of a revision is malformed. -/
theorem malformed_of_mem_records {file : Path} {text : String} {record : Record}
    (h : record ∈ (m.revise file text).records) : record.malformed = none := by
  rw [records_revise] at h
  obtain ⟨d, -, rfl⟩ := List.mem_map.mp h
  rfl

/-- What a revision leaves of a directive: the directive, one for the new path in the same style, or
nothing. A directive with an empty path is none. -/
def redirect? (m : Moves) (d : Style × String) : Option (Style × String) :=
  match m.get? d.2 with
  | none => some d
  | some .gone => none
  | some (.moved new) => if new = "" then none else some (d.1, new)

/-- What is read from a revised line is what the table makes of the directive that was there. Only an
empty new path leaves a line in which nothing is read. -/
theorem ofLine?_reviseLine (m : Moves) (line : List Char) :
    Directive.ofLine? (m.reviseLine line) = (Directive.ofLine? line).bind m.redirect? := by
  cases hread : Directive.readLine? line with
  | none =>
    rw [reviseLine_of_readLine?_eq_none hread, Directive.ofLine?_of_readLine?_eq_none hread]
    rfl
  -- What has been read is written again, or it is looked up and left as it is.
  | some d =>
    have hline : Directive.ofLine? line = some (d.1, String.ofList d.2) := by
      rw [Directive.ofLine?, hread, Option.map_some]
    rw [reviseLine_of_readLine?_eq_some hread, hline, Option.bind_some, redirect?]
    cases m.get? (String.ofList d.2) with
    | none => exact hline
    | some move =>
      cases move with
      | gone => rfl
      | moved new => exact Directive.ofLine?_line d.1 new

/-- **The directives of the new text** are what the revision has left of the old ones. -/
theorem found_revisedText (hm : m.KeepsLines) (text : String) :
    Directive.found (m.revisedText text) = (Directive.found text).filterMap m.redirect? := by
  rw [Directive.found_eq, Directive.found_eq, lines_revisedText hm, List.filterMap_filterMap]
  -- A line that was removed is no directive, so it may as well be there.
  have hnil : ∀ l : List Char, (if l ≠ [] then Directive.ofLine? l else none) = Directive.ofLine? l := by
    intro l
    split
    · rfl
    · next hl => rw [not_not.mp hl]; rfl
  rw [List.filterMap_filter, List.filterMap_map]
  refine List.filterMap_congr fun line _ => ?_
  rw [Function.comp_apply, ← ofLine?_reviseLine]
  simpa using hnil (m.reviseLine line)

/-- Each new path in the table is one that a directive can have. For such tables the directives of the
new text are known from those of the old one. -/
def WritesDirectives (m : Moves) : Prop :=
  ∀ path new, m.get? path = some (.moved new) → new ≠ "" ∧ '\n' ∉ new.toList

theorem WritesDirectives.keepsLines (h : m.WritesDirectives) : m.KeepsLines :=
  fun path new hmove => (h path new hmove).2

end Moves

/-- What a record says about where its directive is now, if that had the style `s`: the old path or the
new one in that style, or nothing if it was removed. -/
def Record.remaining? (r : Record) (s : Style) : Option (Style × String) :=
  match r.outcome with
  | .kept => some (s, r.old)
  | .removed => none
  | .replaced new _ => some (s, new)

namespace Moves

variable {m : Moves}

/-- What a table leaves of a directive is what the record says. -/
theorem WritesDirectives.redirect?_eq (h : m.WritesDirectives) (file : Path) (d : Style × String) :
    m.redirect? d = (m.recordOf file d).remaining? d.1 := by
  rw [redirect?, recordOf, Record.remaining?]
  simp only [outcomeOf, String.ofList_toList]
  cases hmove : m.get? d.2 with
  | none => rfl
  | some move =>
    cases move with
    | gone => rfl
    | moved new => exact if_neg (h d.2 new hmove).1

/-- A directive that is replaced keeps its style. -/
theorem style_of_recordOf {file : Path} {d : Style × String} {new : String} {s : Style}
    (h : (m.recordOf file d).outcome = .replaced new s) : s = d.1 := by
  rw [recordOf, outcomeOf] at h
  split at h
  · cases h
  · cases h
  · cases h
    rfl

end Moves

namespace Directive

/-- **What is rendered is found again.** The canonical line of a path is matched as a whole, and as one
match, if and only if the path is not empty and has no newline; then the token shows the path and the
style, however many delimiters, spaces or tabs the path has. So in any text, if a table writes only such
paths, the directives of the new text are those that the records tell of, in order and with the styles
that they had: the old path of each that was kept, and the new one of each that was replaced. -/
theorem rendered_is_found_again :
    (∀ (s : Style) (path : String),
      let line := (s.render path).toList
      ((∃ token, segments line = [.hit line token]) ↔ path ≠ "" ∧ '\n' ∉ path.toList) ∧
      ∀ token, segments line = [.hit line token] →
        String.ofList (Token.bare token) = path ∧ Style.ofToken token = s ∧
          Token.isMalformed token = false) ∧
    ∀ (m : Moves) (file : Path) (text : String), m.WritesDirectives →
      let r := m.revise file text
      List.Forall₂ (fun d record => record.old = d.2 ∧
          ∀ new s, record.outcome = .replaced new s → s = d.1) (found text) r.records ∧
      found r.text = ((found text).zip r.records).filterMap fun e => e.2.remaining? e.1.1 := by
  refine ⟨fun s path => ⟨?_, fun token h => ?_⟩, fun m file text hm => ⟨?_, ?_⟩⟩
  -- A line is a hit if the token is found between its marks.
  · simp only [segments_render_iff]
    exact ⟨fun ⟨_, hpath, hnewline, _⟩ => ⟨hpath, hnewline⟩,
      fun ⟨hpath, hnewline⟩ => ⟨_, hpath, hnewline, rfl⟩⟩
  · obtain ⟨-, -, rfl⟩ := segments_render_iff.mp h
    refine ⟨?_, ?_, Moves.isMalformed_delimit s path.toList⟩
    · rw [Style.bare_delimit, String.ofList_toList]
    · rw [Style.ofToken, Style.ofToken?_delimit, Option.getD_some]
  -- The records are those of the directives that were found, in the same order,
  · rw [Moves.records_revise, List.forall₂_map_right_iff, List.forall₂_same]
    exact fun d _ => ⟨rfl, fun new s h => Moves.style_of_recordOf h⟩
  -- and what is found afterwards is what they leave.
  · rw [Moves.text_revise, Moves.found_revisedText hm.keepsLines, Moves.records_revise,
      List.zip_eq_zipWith, List.zipWith_map_right, List.zipWith_self, List.filterMap_map]
    exact List.filterMap_congr fun d _ => hm.redirect?_eq file d

/-- A path with delimiters, a tab, and spaces at both ends. -/
def oddPath : String :=
  " a>\"\t<b\" "

/-- A table that moves `A` there. -/
def oddMoves : Moves :=
  ⟨[("A", .moved oddPath), ("B", .gone)]⟩

/-- The line of this path is found again, and so is the directive that gets it, behind one that is
removed and in front of one that is kept. -/
theorem rendered_is_found_again_oddPath :
    let line := (Style.angled.render oddPath).toList
    let text := "#include <B>\n # include <A>\nint x;\n#include \"C\"\n"
    (∃ token, segments line = [.hit line token] ∧ String.ofList (Token.bare token) = oddPath ∧
      Style.ofToken token = .angled ∧ Token.isMalformed token = false) ∧
      oddMoves.WritesDirectives ∧
      found (oddMoves.revise ⟨[]⟩ text).text = [(.angled, oddPath), (.quoted, "C")] := by
  intro line text
  obtain ⟨hlines, htexts⟩ := rendered_is_found_again
  obtain ⟨hfound, hshows⟩ := hlines .angled oddPath
  obtain ⟨token, htoken⟩ := hfound.mpr ⟨by decide, by decide⟩
  have hm : oddMoves.WritesDirectives := Moves.forall_moved (by decide)
  refine ⟨⟨token, htoken, hshows token htoken⟩, hm, ?_⟩
  -- The middle one is the only one that is moved.
  have hold : found text = [(.angled, "B"), (.angled, "A"), (.quoted, "C")] := by
    rw [found_eq]
    decide
  rw [(htexts oddMoves ⟨[]⟩ text hm).2, Moves.records_revise, hold]
  rfl

end Directive

end IncludeMoves
