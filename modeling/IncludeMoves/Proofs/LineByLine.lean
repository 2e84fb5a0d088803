import IncludeMoves.Proofs.DirectiveLines
import IncludeMoves.Proofs.Endings
import IncludeMoves.Revision

/-!
# The search for directives goes line by line

`Directive.segments` knows nothing of lines: it looks for the leftmost match and goes on where that
ends. Still each place from which it goes on is the start of a line or lies inside a line, where no
match can start (`Directive.pattern` asks for a line start first). So a line that is a directive is
one match and any other line is none, whatever stands around it:

* `Directive.mem_endings_pattern` — the endings of the pattern are the layouts of a directive;
* `Directive.piecesFrom_line` — the search over one line;
* `Directive.segments_eq_pieces` — the search over a text.

`Moves.reviseLines` is the revision of a text that goes through its lines and looks at each by
itself. It is what `Moves.revise` computes.
-/

namespace IncludeMoves

open Pattern (Piece)

namespace Directive

/-! ### What the parts of the pattern read -/

theorem reads_spaces {w : List Char} : spaces.Reads w ↔ ∃ n, w = blanks n := by
  constructor
  · intro h
    exact ⟨w.length, List.eq_replicate_iff.mpr ⟨rfl, fun c hc => by
      simpa [CharClass.contains] using h c hc⟩⟩
  · rintro ⟨n, rfl⟩ c hc
    simpa [CharClass.contains] using List.eq_of_mem_replicate hc

theorem reads_only {c : Char} {w : List Char} :
    (Pattern.one (.only c)).Reads w ↔ w = [c] := by
  simp [Pattern.Reads, CharClass.contains]

/-- The words for the path of a directive: some characters, and no newline among them. -/
theorem reads_oneOrMore {w : List Char} :
    (Pattern.oneOrMore (.except '\n')).Reads w ↔ w ≠ [] ∧ '\n' ∉ w := by
  constructor
  · rintro ⟨_, v, ⟨c, hc, rfl⟩, hv, rfl⟩
    -- The character in front and those behind are all of the same class.
    refine ⟨by simp, fun h => ?_⟩
    rcases List.mem_append.mp h with h | h
    · obtain rfl : '\n' = c := by simpa using h
      simp [CharClass.contains] at hc
    · simpa [CharClass.contains] using hv _ h
  · rintro ⟨hw, hnl⟩
    obtain ⟨c, v, rfl⟩ := List.exists_cons_of_ne_nil hw
    have hne : ∀ x ∈ c :: v, (CharClass.except '\n').contains x = true := by
      intro x hx
      simp only [CharClass.contains, bne_iff_ne]
      rintro rfl
      exact hnl hx
    exact ⟨[c], v, ⟨c, hne c (by simp), rfl⟩, fun x hx => hne x (by simp [hx]), rfl⟩

theorem reads_token {s : Style} {w : List Char} :
    (token s).Reads w ↔ ∃ path, path ≠ [] ∧ '\n' ∉ path ∧ w = s.delimit path := by
  constructor
  · rintro ⟨_, _, ho, ⟨path, _, hpath, ⟨_, _, hc, rfl, rfl⟩, rfl⟩, rfl⟩
    obtain ⟨hne, hnl⟩ := reads_oneOrMore.mp hpath
    rw [reads_only.mp ho, reads_only.mp hc]
    exact ⟨path, hne, hnl, by simp [Style.delimit]⟩
  · rintro ⟨path, hne, hnl, rfl⟩
    exact ⟨[s.opening], path ++ [s.closing], reads_only.mpr rfl,
      ⟨path, [s.closing], reads_oneOrMore.mpr ⟨hne, hnl⟩,
        ⟨[s.closing], [], reads_only.mpr rfl, rfl, rfl⟩, rfl⟩, rfl⟩

/-- Either token: of some style. -/
theorem reads_tokens {w : List Char} :
    (Pattern.either (token .angled) (token .quoted)).Reads w ↔
      ∃ s path, path ≠ [] ∧ '\n' ∉ path ∧ w = Style.delimit s path := by
  constructor
  · rintro (h | h)
    · exact ⟨.angled, reads_token.mp h⟩
    · exact ⟨.quoted, reads_token.mp h⟩
  · rintro ⟨s, h⟩
    cases s with
    | quoted => exact .inr (reads_token.mpr h)
    | angled => exact .inl (reads_token.mpr h)

/-- The parts of the pattern in front of the token. -/
def frontParts : List Pattern :=
  [spaces, .one (.only '#'), spaces, .word "include".toList, spaces]

/-- The parts of the pattern behind the token. -/
def backParts : List Pattern :=
  [spaces, .one (.only '\n')]

theorem isPlain_of_mem_frontParts : ∀ a ∈ frontParts, a.isPlain = true := by
  decide

/-- The words in front of the token are the fronts of layouts. Each number of spaces is that of one part
of the pattern. -/
theorem reads_frontParts {w : List Char} :
    (Pattern.sequence frontParts).Reads w ↔ ∃ a b c, w = (Layout.mk a b c 0).front := by
  constructor
  -- Blanks, the mark, blanks, the keyword, and blanks again.
  · rintro ⟨_, _, ha, ⟨_, _, hm, ⟨_, _, hb, ⟨_, _, hk, ⟨_, _, hc, rfl, rfl⟩, rfl⟩, rfl⟩, rfl⟩, rfl⟩
    obtain ⟨a, rfl⟩ := reads_spaces.mp ha
    obtain ⟨b, rfl⟩ := reads_spaces.mp hb
    obtain ⟨c, rfl⟩ := reads_spaces.mp hc
    rw [reads_only.mp hm, Pattern.reads_word.mp hk, List.append_nil]
    exact ⟨a, b, c, rfl⟩
  · rintro ⟨a, b, c, rfl⟩
    exact ⟨blanks a, _, reads_spaces.mpr ⟨a, rfl⟩, ⟨['#'], _, reads_only.mpr rfl,
      ⟨blanks b, _, reads_spaces.mpr ⟨b, rfl⟩, ⟨keyword, _, Pattern.reads_word.mpr rfl,
        ⟨blanks c, [], reads_spaces.mpr ⟨c, rfl⟩, rfl, (List.append_nil _).symm⟩, rfl⟩, rfl⟩, rfl⟩,
      rfl⟩

theorem reads_backParts {w : List Char} :
    (Pattern.sequence backParts).Reads w ↔ ∃ n, w = blanks n ++ ['\n'] := by
  constructor
  · rintro ⟨_, _, hn, ⟨_, _, hl, rfl, rfl⟩, rfl⟩
    obtain ⟨n, rfl⟩ := reads_spaces.mp hn
    exact ⟨n, by rw [reads_only.mp hl, List.append_nil]⟩
  · rintro ⟨n, rfl⟩
    exact ⟨blanks n, ['\n'], reads_spaces.mpr ⟨n, rfl⟩, ⟨['\n'], [], reads_only.mpr rfl, rfl, rfl⟩,
      rfl⟩

/-! ### The pattern at a place -/

/-- The place of the token in a line. -/
def Layout.tokenBounds (y : Layout) (p : Place) (s : Style) (path : List Char) : Place × Place :=
  (p.skip y.front, (p.skip y.front).skip (s.delimit path))

/-- **The pattern ends exactly behind the layouts of a directive**, at the start of a line. The parts
around the token are plain, so the group has the bounds that the layout gives. -/
theorem mem_endings_pattern {p : Place} {e : Ending} :
    e ∈ pattern.endings p ↔
      p.startsLine = true ∧ ∃ (y : Layout) (s : Style) (path r : List Char),
        path ≠ [] ∧ '\n' ∉ path ∧ p.rest = y.line s path ++ r ∧
          e = ⟨p.skip (y.line s path), some (y.tokenBounds p s path)⟩ := by
  have htokens : (Pattern.either (token .angled) (token .quoted)).isPlain = true := rfl
  have hback : (Pattern.sequence backParts).isPlain = true := rfl
  -- The pattern is a line start, plain parts, a group of plain patterns, and plain parts again.
  change e ∈ (Pattern.seq .lineStart (.sequence (frontParts ++
    .group (.either (token .angled) (token .quoted)) :: backParts))).endings p ↔ _
  rw [Pattern.mem_endings_lineStart_seq,
    Pattern.mem_endings_sequence_append isPlain_of_mem_frontParts]
  refine and_congr_right fun _ => ?_
  change (∃ u r, _ ∧ _ ∧ e ∈ (Pattern.seq (.group (.either (token .angled) (token .quoted)))
    (.sequence backParts)).endings (p.skip u)) ↔ _
  simp only [Pattern.mem_endings_group_seq htokens hback, reads_frontParts, reads_tokens,
    reads_backParts]
  -- The parts that have been read make up the line, and a line falls into them again.
  constructor
  · rintro ⟨_, _, hp, ⟨a, b, c, rfl⟩, _, _, r, hrest, ⟨s, path, hne, hnl, rfl⟩, ⟨d, rfl⟩, rfl⟩
    rw [Place.rest_skip hp] at hrest
    refine ⟨⟨a, b, c, d⟩, s, path, r, hne, hnl, ?_, ?_⟩
    · rw [hp, hrest]
      simp [Layout.line, Layout.front]
    · simp only [Layout.line, Place.skip_append]
      rfl
  · rintro ⟨⟨a, b, c, d⟩, s, path, r, hne, hnl, hp, rfl⟩
    have hp : p.rest = (Layout.mk a b c 0).front ++
        (s.delimit path ++ (blanks d ++ ['\n'] ++ r)) := by
      rw [hp]
      simp [Layout.line, Layout.front]
    refine ⟨_, _, hp, ⟨a, b, c, rfl⟩, _, _, r, Place.rest_skip hp, ⟨s, path, hne, hnl, rfl⟩,
      ⟨d, rfl⟩, ?_⟩
    simp only [Layout.line, Place.skip_append]
    rfl

/-! ### The pattern at a line -/

theorem newline_not_mem_blanks (n : Nat) : '\n' ∉ blanks n := by
  simp [blanks]

theorem newline_not_mem_front (y : Layout) : '\n' ∉ y.front := by
  simp [Layout.front, keyword_eq, newline_not_mem_blanks]

theorem newline_not_mem_delimit {s : Style} {path : List Char} :
    '\n' ∉ s.delimit path ↔ '\n' ∉ path := by
  cases s <;> simp [Style.delimit, Style.opening, Style.closing]

theorem Layout.line_eq (y : Layout) (s : Style) (path : List Char) :
    y.line s path = (y.front ++ (s.delimit path ++ blanks y.trailing)) ++ ['\n'] := by
  simp [Layout.line]

/-- A directive is a line exactly if there is no newline in its path. -/
theorem Layout.isLine_line_iff {y : Layout} {s : Style} {path : List Char} :
    Lines.IsLine (y.line s path) ↔ '\n' ∉ path := by
  rw [y.line_eq, ← newline_not_mem_delimit (s := s)]
  constructor
  · rintro ⟨w, hw, h⟩
    obtain ⟨rfl, -⟩ := List.append_inj' h rfl
    exact fun hmem => hw (by simp [hmem])
  · intro h
    exact ⟨_, by simp [newline_not_mem_front, newline_not_mem_blanks, h], rfl⟩

/-- The endings at a line: only where the whole line is a directive, and then behind it. There is no
newline in the path, so a match cannot go beyond the line. -/
theorem mem_endings_pattern_line {p : Place} {e : Ending} {line r : List Char}
    (hline : Lines.IsLine line) (hp : p.rest = line ++ r) :
    e ∈ pattern.endings p ↔
      p.startsLine = true ∧ ∃ (y : Layout) (s : Style) (path : List Char),
        path ≠ [] ∧ line = y.line s path ∧
          e = ⟨p.skip line, some (y.tokenBounds p s path)⟩ := by
  rw [mem_endings_pattern]
  refine and_congr_right fun _ => ⟨?_, ?_⟩
  · rintro ⟨y, s, path, r', hne, hnl, hp', rfl⟩
    -- Both are the first line of what follows.
    have hsame : line = y.line s path :=
      hline.eq_of_append (Layout.isLine_line_iff.mpr hnl) (hp.symm.trans hp')
    exact ⟨y, s, path, hne, hsame, by rw [hsame]⟩
  · rintro ⟨y, s, path, hne, rfl, rfl⟩
    exact ⟨y, s, path, r, hne, Layout.isLine_line_iff.mp hline, hp, rfl⟩

/-- The token is what the group shows. -/
theorem captured_tokenBounds {p q : Place} {y : Layout} {s : Style} {path r : List Char}
    (hp : p.rest = y.line s path ++ r) :
    Ending.captured ⟨q, some (y.tokenBounds p s path)⟩ = s.delimit path :=
  Place.upTo_skip_append (r := blanks y.trailing ++ ['\n'] ++ r) (by simp [hp, Layout.line])

/-- At a directive the pattern matches the whole line, and its group is the token. -/
theorem first?_directive {p : Place} {line r : List Char} {s : Style} {path : List Char}
    (hline : Lines.IsLine line) (hp : p.rest = line ++ r) (hstart : p.startsLine = true)
    (h : IsDirective line s path) :
    ∃ e, pattern.first? p = some e ∧ e.place = p.skip line ∧ e.captured = s.delimit path := by
  obtain ⟨hne, y, hy⟩ := h
  have hmem := (mem_endings_pattern_line hline hp).mpr ⟨hstart, y, s, path, hne, hy, rfl⟩
  obtain ⟨e, he, hfirst⟩ := Pattern.exists_first?_eq_some hmem
  -- The preferred ending may come from another layout, but of the same line, style and path.
  obtain ⟨-, z, t, other, hother, hz, rfl⟩ := (mem_endings_pattern_line hline hp).mp he
  obtain ⟨rfl, rfl⟩ := IsDirective.unique ⟨hne, y, hy⟩ ⟨hother, z, hz⟩
  exact ⟨_, hfirst, rfl, captured_tokenBounds (hz ▸ hp)⟩

/-- At a line that is no directive nothing matches. -/
theorem first?_line_eq_none {p : Place} {line r : List Char} (hline : Lines.IsLine line)
    (hp : p.rest = line ++ r) (h : ∀ s path, ¬ IsDirective line s path) :
    pattern.first? p = none := by
  refine Pattern.first?_eq_none fun e he => ?_
  obtain ⟨-, y, s, path, hne, hy, -⟩ := (mem_endings_pattern_line hline hp).mp he
  exact h s path ⟨hne, y, hy⟩

/-- Inside a line nothing matches. -/
theorem first?_eq_none_of_not_startsLine {p : Place} (h : p.startsLine = false) :
    pattern.first? p = none := by
  refine Pattern.first?_eq_none fun e he => ?_
  rw [mem_endings_pattern, h] at he
  exact absurd he.1 (by simp)

/-- Behind the last newline nothing matches. -/
theorem first?_eq_none_of_newline_not_mem {p : Place} (h : '\n' ∉ p.rest) :
    pattern.first? p = none := by
  refine Pattern.first?_eq_none fun e he => ?_
  obtain ⟨-, y, s, path, r, -, -, hp, -⟩ := mem_endings_pattern.mp he
  rw [hp, y.line_eq] at h
  simp at h

/-! ### The search -/

/-- The pieces of a line: one match if it is a directive, else its characters. There is nothing in
between, for a match never is a part of a line only. -/
def linePieces (line : List Char) : List Piece :=
  match readLine? line with
  | some (s, path) => [.hit line (s.delimit path)]
  | none => line.map .plain

theorem linePieces_of_isDirective {line : List Char} {s : Style} {path : List Char}
    (h : IsDirective line s path) : linePieces line = [.hit line (s.delimit path)] := by
  rw [linePieces, readLine?_eq_some_iff.mpr h]

/-- The search over a text without a newline finds nothing. -/
theorem piecesFrom_tail {before : Option Char} {t : List Char} (h : '\n' ∉ t) :
    pattern.piecesFrom [] before t = t.map .plain := by
  induction t generalizing before with
  | nil => simp [Pattern.piecesFrom]
  | cons c t ih =>
    rw [Pattern.piecesFrom_of_first?_eq_none (first?_eq_none_of_newline_not_mem h),
      ih (fun ht => h (by simp [ht]))]
    rfl

/-- The search from inside a line passes over the rest of it. Nothing there stands at the start of a
line. -/
theorem piecesFrom_inside {before : Option Char} {u r : List Char} (hu : '\n' ∉ u)
    (hbefore : ∃ c, before = some c ∧ c ≠ '\n') :
    pattern.piecesFrom [] before (u ++ '\n' :: r) =
      (u ++ ['\n']).map .plain ++ pattern.piecesFrom [] (some '\n') r := by
  obtain ⟨b, rfl, hb⟩ := hbefore
  induction u generalizing b with
  | nil =>
    -- Only at the start of a line can there be a match, and this is none.
    exact Pattern.piecesFrom_of_first?_eq_none
      (first?_eq_none_of_not_startsLine (by simp [Place.startsLine, hb]))
  | cons c u ih =>
    obtain ⟨hc, hu⟩ : c ≠ '\n' ∧ '\n' ∉ u := by simpa [eq_comm] using hu
    rw [List.cons_append, Pattern.piecesFrom_of_first?_eq_none
      (first?_eq_none_of_not_startsLine (by simp [Place.startsLine, hb])), ih hu c hc]
    rfl

/-- **The search over a line**, from its start: the pieces of the line, and on from the next one. Either
the line is a directive and is matched, or the search goes through it character by character. -/
theorem piecesFrom_line {before : Option Char} {line r : List Char} (hline : Lines.IsLine line)
    (hbefore : before = none ∨ before = some '\n') :
    pattern.piecesFrom [] before (line ++ r) =
      linePieces line ++ pattern.piecesFrom [] (some '\n') r := by
  have hstart : (Place.mk 0 before (line ++ r)).startsLine = true := by
    rcases hbefore with rfl | rfl <;> rfl
  by_cases h : ∃ s path, IsDirective line s path
  · -- A directive is matched as a whole, and the search resumes at the next line.
    obtain ⟨s, path, h⟩ := h
    obtain ⟨e, hfirst, hplace, hcaptured⟩ := first?_directive hline rfl hstart h
    obtain ⟨w, -, rfl⟩ := hline
    rw [Pattern.piecesFrom_of_first?_eq_some (by simp) hfirst hplace, hcaptured,
      linePieces_of_isDirective h, List.getLast?_concat]
    rfl
  · -- Nothing matches at the start of the line because it is no directive, nor further inside.
    have hnone : ∀ s path, ¬ IsDirective line s path := by simpa using h
    have hread : readLine? line = none := by
      cases hr : readLine? line with
      | none => rfl
      | some found => exact absurd (readLine?_eq_some_iff.mp hr) (hnone _ _)
    have hfirst := first?_line_eq_none (p := ⟨0, before, line ++ r⟩) hline rfl hnone
    -- Nothing being found at its start, the line is one piece of text.
    rw [linePieces, hread]
    obtain ⟨w, hw, rfl⟩ := hline
    cases w with
    | nil => exact Pattern.piecesFrom_of_first?_eq_none hfirst
    | cons c w =>
      obtain ⟨hc, hw⟩ : c ≠ '\n' ∧ '\n' ∉ w := by simpa [eq_comm] using hw
      simp only [List.cons_append, List.append_assoc, List.nil_append] at hfirst ⊢
      rw [Pattern.piecesFrom_of_first?_eq_none hfirst, piecesFrom_inside hw ⟨c, rfl, hc⟩]
      rfl

/-- **The search over a text**: the pieces of its lines in order, and the characters of its tail. With
this the search is gone for good, and everything is said by lines. -/
theorem segments_eq_pieces (text : List Char) :
    segments text = (Lines.of text).terminated.flatMap linePieces ++
      (Lines.of text).tail.map .plain := by
  -- Each line is searched from its start: nothing stands in front of it, or a newline. That is what
  -- the induction over the lines carries.
  suffices h : ∀ before, before = none ∨ before = some '\n' →
      pattern.piecesFrom [] before text = (Lines.of text).terminated.flatMap linePieces ++
        (Lines.of text).tail.map .plain from h none (.inl rfl)
  induction text using Lines.induct with
  | tail t h =>
    intro before _
    rw [piecesFrom_tail h, Lines.of_of_not_mem h]
    rfl
  | line w r h ih =>
    intro before hbefore
    have hline := piecesFrom_line (r := r) ⟨w, h, rfl⟩ hbefore
    rw [List.append_assoc, List.singleton_append] at hline
    rw [hline, ih _ (.inr rfl), Lines.of_append h, List.flatMap_cons, List.append_assoc]

/-- The one match in a line that is a directive is the line. -/
theorem hit_mem_linePieces_iff {line l token : List Char} : Piece.hit line token ∈ linePieces l ↔
    line = l ∧ ∃ s path, readLine? l = some (s, path) ∧ token = s.delimit path := by
  rw [linePieces]
  cases readLine? l with
  | none => simp
  | some found =>
    simp only [List.mem_singleton, Piece.hit.injEq, Option.some.injEq]
    refine and_congr_right fun _ => ⟨fun h => ⟨_, _, rfl, h⟩, ?_⟩
    rintro ⟨s, path, rfl, h⟩
    exact h

/-- The matches in a text are its lines in which a directive can be read. -/
theorem hit_mem_segments_iff {line token text : List Char} : Piece.hit line token ∈ segments text ↔
    line ∈ (Lines.of text).terminated ∧
      ∃ s path, readLine? line = some (s, path) ∧ token = s.delimit path := by
  have htail : Piece.hit line token ∉ (Lines.of text).tail.map Piece.plain := by simp
  rw [segments_eq_pieces, List.mem_append, or_iff_left htail, List.mem_flatMap]
  simp only [hit_mem_linePieces_iff]
  constructor
  · rintro ⟨l, hl, rfl, hread⟩
    exact ⟨hl, hread⟩
  · rintro ⟨hl, hread⟩
    exact ⟨line, hl, rfl, hread⟩

end Directive

/-! ### Revising by lines -/

namespace Moves

/-- What the table asks for a directive of a style and a path. -/
def outcomeOf (m : Moves) (s : Style) (path : List Char) : Outcome :=
  match m.get? (String.ofList path) with
  | none => .kept
  | some .gone => .removed
  | some (.moved new) => .replaced new s

/-- The text that takes the place of a line. -/
def reviseLine (m : Moves) (line : List Char) : List Char :=
  match Directive.readLine? line with
  | none => line
  | some (s, path) =>
    match m.outcomeOf s path with
    | .kept => line
    | .removed => []
    | .replaced new style => (style.render new).toList

/-- The record of a line of `file`, if it is a directive. -/
def lineRecord? (m : Moves) (file : Path) (line : List Char) : Option Record :=
  match Directive.readLine? line with
  | none => none
  | some (s, path) => some ⟨file, String.ofList path, m.outcomeOf s path, none⟩

/-- **The revision of a text by its lines.** Each line is looked at for itself, so what becomes of it
depends on nothing else in the text. -/
def reviseLines (m : Moves) (file : Path) (text : String) : Revision :=
  let lines := Lines.of text.toList
  { file := file
    text := String.ofList (lines.terminated.flatMap m.reviseLine ++ lines.tail)
    records := lines.terminated.filterMap (m.lineRecord? file) }

theorem outcome_delimit (m : Moves) (s : Style) (path : List Char) :
    m.outcome (s.delimit path) = m.outcomeOf s path := by
  rw [outcome, Style.bare_delimit, Style.ofToken, Style.ofToken?_delimit, Option.getD_some]
  rfl

theorem isMalformed_delimit (s : Style) (path : List Char) :
    Token.isMalformed (s.delimit path) = false := by
  simp [Token.isMalformed]

theorem flatMap_reviseSegment_plain (m : Moves) (cs : List Char) :
    (cs.map Piece.plain).flatMap m.reviseSegment = cs := by
  induction cs with
  | nil => rfl
  | cons c cs ih =>
    rw [List.map_cons, List.flatMap_cons, ih]
    rfl

theorem filterMap_record?_plain (m : Moves) (file : Path) (cs : List Char) :
    (cs.map Piece.plain).filterMap (m.record? file) = [] := by
  simp [List.filterMap_eq_nil_iff, record?]

theorem flatMap_reviseSegment_linePieces (m : Moves) (line : List Char) :
    (Directive.linePieces line).flatMap m.reviseSegment = m.reviseLine line := by
  simp only [Directive.linePieces, reviseLine]
  cases Directive.readLine? line with
  | none => exact m.flatMap_reviseSegment_plain line
  | some found =>
    simp only [List.flatMap_cons, List.flatMap_nil, List.append_nil, reviseSegment, Style.render,
      String.toList_ofList]
    exact m.outcome_delimit found.1 found.2 ▸ rfl

/-- The record of a directive. -/
theorem record?_delimit (m : Moves) (file : Path) (line : List Char) (s : Style)
    (path : List Char) : m.record? file (.hit line (s.delimit path))
      = some ⟨file, String.ofList path, m.outcomeOf s path, none⟩ := by
  simp only [record?, outcome_delimit, isMalformed_delimit, Style.bare_delimit]
  cases m.outcomeOf s path <;> rfl

theorem filterMap_record?_linePieces (m : Moves) (file : Path) (line : List Char) :
    (Directive.linePieces line).filterMap (m.record? file) = (m.lineRecord? file line).toList := by
  simp only [Directive.linePieces, lineRecord?]
  cases Directive.readLine? line with
  | none => exact m.filterMap_record?_plain file line
  | some found =>
    simp only [List.filterMap_cons, List.filterMap_nil, record?_delimit, Option.toList_some]

/-- The two revisions are the same. Both cut the text in the same way, and for each piece they do the
same. -/
theorem revise_eq_reviseLines (m : Moves) (file : Path) (text : String) :
    m.revise file text = m.reviseLines file text := by
  -- The pieces of the text are those of its lines, so that each line can be looked at alone.
  have htext : ∀ ls : List (List Char),
      (ls.flatMap Directive.linePieces).flatMap m.reviseSegment = ls.flatMap m.reviseLine := by
    intro ls
    simp only [List.flatMap_assoc, flatMap_reviseSegment_linePieces]
  have hrecords : ∀ ls : List (List Char),
      (ls.flatMap Directive.linePieces).filterMap (m.record? file)
        = ls.filterMap (m.lineRecord? file) := by
    intro ls
    induction ls with
    | nil => rfl
    | cons l ls ih =>
      rw [List.flatMap_cons, List.filterMap_append, ih, filterMap_record?_linePieces]
      cases hl : m.lineRecord? file l with
      | none => rw [List.filterMap_cons_none hl]; rfl
      | some r => rw [List.filterMap_cons_some hl]; rfl
  simp only [revise, reviseLines, Directive.segments_eq_pieces, List.flatMap_append,
    List.filterMap_append, htext, hrecords, flatMap_reviseSegment_plain, filterMap_record?_plain,
    List.append_nil]

/-- **The revision of a text looks at each line by itself.** The text falls into lines and a tail;
the matches of the search are the lines that are directives, each as a whole and in order; and the
new text and the records are those of the lines. -/
theorem revise_line_by_line (m : Moves) (file : Path) (text : String) :
    let lines := Lines.of text.toList
    (lines.terminated.flatten ++ lines.tail = text.toList ∧
      (∀ l ∈ lines.terminated, Lines.IsLine l) ∧ '\n' ∉ lines.tail) ∧
    (∀ l s path, Directive.readLine? l = some (s, path) ↔ Directive.IsDirective l s path) ∧
    Directive.segments text.toList =
      lines.terminated.flatMap Directive.linePieces ++ lines.tail.map .plain ∧
    m.revise file text =
      { file := file
        text := String.ofList (lines.terminated.flatMap m.reviseLine ++ lines.tail)
        records := lines.terminated.filterMap (m.lineRecord? file) } :=
  ⟨⟨Lines.flatten_of _, fun _ => Lines.isLine_of_mem, Lines.newline_not_mem_tail _⟩,
    fun _ _ _ => Directive.readLine?_eq_some_iff, Directive.segments_eq_pieces _,
    m.revise_eq_reviseLines file text⟩

end Moves

end IncludeMoves
