import IncludeMoves.Proofs.LineByLine
import Mathlib.Data.List.DropRight

/-!
# The grammar of directive lines

`Directive.pattern` is written with greedy repetitions, and its token may hold delimiters and spaces
of its own, so that a line could be cut in several ways. It cannot: the first character of a line that
is no space, the first delimiter, and the last character in front of the newline that is no space are
where they are, and each of them is fixed by the layout of a directive.

* `Directive.Layout.line_inj` — a line has one layout, one style and one path;
* `Directive.tokenSpan` — the part of a line that is its token, wherever it has other delimiters;
* `Directive.pattern_accepts_grammar` — the pattern at a line: what matches, how, and what does not.
-/

namespace IncludeMoves

namespace Directive

/-! ### Cutting at the first or the last character of a kind -/

/-- Two texts that are cut at their first character of a kind are cut at the same place. By this a line
is taken apart from the left, part by part. -/
theorem append_cons_inj {k : Char → Bool} {u v r s : List Char} {c d : Char}
    (hu : ∀ x ∈ u, k x = false) (hv : ∀ x ∈ v, k x = false) (hc : k c = true) (hd : k d = true)
    (h : u ++ c :: r = v ++ d :: s) : u = v ∧ c = d ∧ r = s := by
  -- What is in front of the cut is the longest part without a character of the kind.
  have hfront : ∀ {w : List Char} {x : Char} {t : List Char}, (∀ y ∈ w, k y = false) → k x = true →
      (w ++ x :: t).takeWhile (!k ·) = w := by
    intro w x t hw hx
    have hall : ∀ y ∈ w, (!k y) = true := fun y hy => by rw [hw y hy]; rfl
    rw [List.takeWhile_append_of_pos hall, List.takeWhile_cons_of_neg (by simp [hx]),
      List.append_nil]
  have huv : u = v := by
    rw [← hfront hu hc (t := r), h, hfront hv hd]
  subst huv
  obtain ⟨rfl, rfl⟩ : c = d ∧ r = s := by simpa using h
  exact ⟨rfl, rfl, rfl⟩

/-- Whether a character is none of the spaces around the parts of a directive. -/
def isInk (c : Char) : Bool :=
  c != ' '

theorem isInk_of_mem_blanks {n : Nat} : ∀ x ∈ blanks n, isInk x = false := by
  intro x hx
  rw [List.eq_of_mem_replicate hx]
  rfl

theorem blanks_inj {m n : Nat} (h : blanks m = blanks n) : m = n := by
  simpa [blanks] using congrArg List.length h

/-- Two texts that start with spaces start with the same number of them. -/
theorem blanks_append_cons_inj {m n : Nat} {c d : Char} {r s : List Char} (hc : isInk c = true)
    (hd : isInk d = true) (h : blanks m ++ c :: r = blanks n ++ d :: s) :
    m = n ∧ c = d ∧ r = s := by
  obtain ⟨hblanks, hrest⟩ := append_cons_inj isInk_of_mem_blanks isInk_of_mem_blanks hc hd h
  exact ⟨blanks_inj hblanks, hrest⟩

/-- Two lines have the same last character that is no space, and the same number of spaces behind
it. -/
theorem append_ink_inj {u v : List Char} {c d : Char} {m n : Nat} (hc : isInk c = true)
    (hd : isInk d = true)
    (h : u ++ c :: (blanks m ++ ['\n']) = v ++ d :: (blanks n ++ ['\n'])) :
    u = v ∧ c = d ∧ m = n := by
  have hreverse := congrArg List.reverse h
  simp only [List.reverse_append, List.reverse_cons, reverse_blanks, List.append_assoc,
    List.reverse_nil, List.nil_append, List.cons_append, List.cons.injEq, true_and] at hreverse
  obtain ⟨hmn, hcd, huv⟩ := blanks_append_cons_inj hc hd hreverse
  exact ⟨List.reverse_injective huv, hcd, hmn⟩

/-- Whether a character opens a token. -/
def isOpening (c : Char) : Bool :=
  c == '"' || c == '<'

theorem isOpening_opening (s : Style) : isOpening s.opening = true := by
  cases s <;> rfl

theorem isInk_closing (s : Style) : isInk s.closing = true := by
  cases s <;> rfl

theorem opening_inj {s t : Style} (h : s.opening = t.opening) : s = t := by
  cases s <;> cases t <;> simp_all [Style.opening]

theorem closing_inj {s t : Style} (h : s.closing = t.closing) : s = t := by
  cases s <;> cases t <;> simp_all [Style.closing]

/-! ### A directive has one layout -/

namespace Layout

variable {y z : Layout} {s t : Style} {path other : List Char}

/-- The characters in front of the token: spaces, `#` and the keyword. -/
theorem mem_front {x : Char} (h : x ∈ y.front) : x = ' ' ∨ x = '#' ∨ x ∈ keyword := by
  simp only [front, List.mem_append, List.mem_cons] at h
  rcases h with h | h | h | h | h
  · exact .inl (List.eq_of_mem_replicate h)
  · exact .inr (.inl h)
  · exact .inl (List.eq_of_mem_replicate h)
  · exact .inr (.inr h)
  · exact .inl (List.eq_of_mem_replicate h)

theorem isOpening_of_mem_front {x : Char} (h : x ∈ y.front) : isOpening x = false := by
  have hkeyword : ∀ c ∈ keyword, isOpening c = false := by
    rw [keyword_eq]
    simp [isOpening]
  rcases mem_front h with rfl | rfl | h
  · rfl
  · rfl
  · exact hkeyword x h

theorem not_isOpening_of_mem_front {x : Char} (h : x ∈ y.front) : (!isOpening x) = true := by
  rw [isOpening_of_mem_front h]
  rfl

theorem tab_not_mem_front (y : Layout) : '\t' ∉ y.front := by
  have hkeyword : '\t' ∉ keyword := by decide
  intro h
  rcases mem_front h with h | h | h
  · cases h
  · cases h
  · exact hkeyword h

/-- A directive around its first delimiter. -/
theorem line_eq_opening (y : Layout) (s : Style) (path : List Char) :
    y.line s path = y.front ++ s.opening :: (path ++ s.closing :: (blanks y.trailing ++ ['\n'])) := by
  simp [line, Style.delimit]

/-- A directive around its last character that is no space. -/
theorem line_eq_closing (y : Layout) (s : Style) (path : List Char) :
    y.line s path
      = (y.front ++ s.opening :: path) ++ s.closing :: (blanks y.trailing ++ ['\n']) := by
  simp [line, Style.delimit]

/-- What stands in front of the token shows where its spaces are. -/
theorem front_inj (h : y.front = z.front) :
    y.indent = z.indent ∧ y.behindMark = z.behindMark ∧ y.behindWord = z.behindWord := by
  obtain ⟨hindent, -, h⟩ := blanks_append_cons_inj rfl rfl h
  -- The keyword starts with a letter, which ends the spaces behind the mark.
  change blanks _ ++ 'i' :: (keyword.tail ++ blanks _)
    = blanks _ ++ 'i' :: (keyword.tail ++ blanks _) at h
  obtain ⟨hmark, -, h⟩ := blanks_append_cons_inj rfl rfl h
  have hword : blanks y.behindWord = blanks z.behindWord := List.append_cancel_left h
  exact ⟨hindent, hmark, blanks_inj hword⟩

/-- **A line has one layout, one style and one path.** From the left the parts up to the token are cut
off, and from the right the spaces behind it. -/
theorem line_inj (h : y.line s path = z.line t other) : y = z ∧ s = t ∧ path = other := by
  have hlast := h
  rw [line_eq_opening, line_eq_opening] at h
  rw [line_eq_closing, line_eq_closing] at hlast
  -- The first delimiter ends the front, the last character that is no space ends the token.
  obtain ⟨hfront, hopening, -⟩ := append_cons_inj (fun x => isOpening_of_mem_front)
    (fun x => isOpening_of_mem_front) (isOpening_opening s) (isOpening_opening t) h
  obtain ⟨htoken, -, htrailing⟩ := append_ink_inj (isInk_closing s) (isInk_closing t) hlast
  obtain ⟨hindent, hmark, hword⟩ := front_inj hfront
  obtain ⟨-, hpath⟩ : s.opening = t.opening ∧ path = other := by
    rw [hfront] at htoken
    simpa using htoken
  refine ⟨?_, opening_inj hopening, hpath⟩
  cases y
  cases z
  simp_all

end Layout

/-! ### The token in its line -/

/-- **From the first delimiter of a line to its last character that is no space.** In a directive this
is the token, whatever is in its path. -/
def tokenSpan (line : List Char) : List Char :=
  (line.dropLast.dropWhile (!isOpening ·)).rdropWhile (!isInk ·)

theorem rdropWhile_append_blanks {w : List Char} {n : Nat} {c : Char} (hc : isInk c = true) :
    ((w ++ [c]) ++ blanks n).rdropWhile (!isInk ·) = w ++ [c] := by
  rw [List.rdropWhile, List.reverse_append, List.reverse_append, reverse_blanks,
    List.dropWhile_append_of_pos fun x hx => by rw [isInk_of_mem_blanks x hx]; rfl]
  simp [hc]

/-- In a directive, that is the token. -/
theorem tokenSpan_line (y : Layout) (s : Style) (path : List Char) :
    tokenSpan (y.line s path) = s.delimit path := by
  calc tokenSpan (y.line s path)
      = ((y.front ++ s.opening :: (path ++ s.closing :: blanks y.trailing)).dropWhile
          (!isOpening ·)).rdropWhile (!isInk ·) := by
        rw [tokenSpan, y.line_eq, List.dropLast_concat]
        simp [Style.delimit]
    _ = ((s.opening :: path ++ [s.closing]) ++ blanks y.trailing).rdropWhile (!isInk ·) := by
        rw [List.dropWhile_append_of_pos fun _ => Layout.not_isOpening_of_mem_front]
        simp [isOpening_opening]
    _ = s.delimit path := rdropWhile_append_blanks (isInk_closing s)

/-! ### Lines that are no directives -/

/-- The first delimiter of a directive and its last character that is no space belong together. So a
line in which they do not is no directive. -/
theorem IsDirective.delimiters {line u w : List Char} {s : Style} {path : List Char} {c d : Char}
    {n : Nat} (h : IsDirective line s path) (hu : ∀ x ∈ u, isOpening x = false)
    (hc : isOpening c = true) (hd : isInk d = true)
    (hline : line = u ++ c :: (w ++ d :: (blanks n ++ ['\n']))) :
    c = s.opening ∧ d = s.closing := by
  obtain ⟨-, y, hy⟩ := h
  -- The first mark that opens a token and the last character of the line are told apart from all others.
  have hopening := hline.symm.trans (hy.trans (y.line_eq_opening s path))
  have hclosing := hline.symm.trans (hy.trans (y.line_eq_closing s path))
  obtain ⟨-, hfirst, -⟩ := append_cons_inj hu (fun x => Layout.isOpening_of_mem_front) hc
    (isOpening_opening s) hopening
  rw [← List.cons_append, ← List.append_assoc] at hclosing
  obtain ⟨-, hlast, -⟩ := append_ink_inj hd (isInk_closing s) hclosing
  exact ⟨hfirst, hlast⟩

/-- There is no tab in front of the token of a directive. -/
theorem IsDirective.tab_not_mem {line : List Char} {s : Style} {path : List Char}
    (h : IsDirective line s path) : '\t' ∉ line.takeWhile (!isOpening ·) := by
  obtain ⟨-, y, rfl⟩ := h
  rw [y.line_eq_opening,
    List.takeWhile_append_of_pos fun _ => Layout.not_isOpening_of_mem_front,
    List.takeWhile_cons_of_neg (by rw [isOpening_opening]; decide), List.append_nil]
  exact y.tab_not_mem_front

/-- The last character of a directive that is no space closes its token. -/
theorem IsDirective.closing {line u : List Char} {s : Style} {path : List Char} {x : Char} {n : Nat}
    (h : IsDirective line s path) (hx : isInk x = true)
    (hline : line = u ++ x :: (blanks n ++ ['\n'])) : x = s.closing := by
  obtain ⟨-, y, hy⟩ := h
  exact (append_ink_inj hx (isInk_closing s)
    (hline.symm.trans (hy.trans (y.line_eq_closing s path)))).2.1

/-! ### The pattern at a line -/

theorem upTo_skip {p : Place} {w r : List Char} (h : p.rest = w ++ r) : p.upTo (p.skip w) = w := by
  rw [Place.upTo, h]
  simp [Place.skip]

/-- At a directive, all ways to match are one. -/
theorem mem_endings_directive {p : Place} {e : Ending} {y : Layout} {s : Style}
    {path rest : List Char} (hline : Lines.IsLine (y.line s path))
    (hp : p.rest = y.line s path ++ rest) (hstart : p.startsLine = true) (hne : path ≠ []) :
    e ∈ pattern.endings p ↔ e = ⟨p.skip (y.line s path), some (y.tokenBounds p s path)⟩ := by
  rw [mem_endings_pattern_line hline hp]
  constructor
  · rintro ⟨-, z, t, other, -, hz, rfl⟩
    obtain ⟨rfl, rfl, rfl⟩ := Layout.line_inj hz
    rfl
  · intro he
    exact ⟨hstart, y, s, path, hne, rfl, he⟩

/-- The pattern matches at a line exactly if that is a directive. -/
theorem isSome_first?_iff {p : Place} {line rest : List Char} (hline : Lines.IsLine line)
    (hp : p.rest = line ++ rest) (hstart : p.startsLine = true) :
    (pattern.first? p).isSome = true ↔
      ∃ (y : Layout) (s : Style) (path : List Char),
        path ≠ [] ∧ '\n' ∉ path ∧ line = y.line s path := by
  constructor
  · intro h
    obtain ⟨e, he⟩ := Option.isSome_iff_exists.mp h
    have hmem : e ∈ pattern.endings p := List.mem_of_mem_head? he
    -- Every way to match takes the line apart as a directive,
    obtain ⟨-, y, s, path, hne, rfl, -⟩ := (mem_endings_pattern_line hline hp).mp hmem
    exact ⟨y, s, path, hne, Layout.isLine_line_iff.mp hline, rfl⟩
  · rintro ⟨y, s, path, hne, -, hy⟩
    -- and a directive is matched.
    obtain ⟨e, he, -⟩ := first?_directive hline hp hstart ⟨hne, y, hy⟩
    rw [he]
    rfl

/-- **What the pattern accepts at the start of a line.** Whatever follows, it matches exactly if the
line is laid out as a directive. Then there is one layout, one style and one path; every way to match
takes the whole line, and the group is the token, which shows its style and its path. A tab in front
of the token, anything but spaces behind the closing delimiter, or delimiters that do not belong
together leave no match. -/
theorem pattern_accepts_grammar {p : Place} {line rest : List Char} (hline : Lines.IsLine line)
    (hp : p.rest = line ++ rest) (hstart : p.startsLine = true) :
    ((pattern.first? p).isSome = true ↔
      ∃ (y : Layout) (s : Style) (path : List Char),
        path ≠ [] ∧ '\n' ∉ path ∧ line = y.line s path) ∧
    (∀ (y : Layout) (s : Style) (path : List Char), path ≠ [] → line = y.line s path →
      (∀ (z : Layout) (t : Style) (other : List Char),
        line = z.line t other → z = y ∧ t = s ∧ other = path) ∧
      (∃ e, pattern.first? p = some e ∧ (∀ f ∈ pattern.endings p, f = e) ∧
        p.upTo e.place = line ∧ e.captured = s.delimit path) ∧
      tokenSpan line = s.delimit path ∧ Token.bare (s.delimit path) = path ∧
      Style.ofToken (s.delimit path) = s ∧ Token.isMalformed (s.delimit path) = false) ∧
    ('\t' ∈ line.takeWhile (!isOpening ·) → pattern.first? p = none) ∧
    (∀ (u : List Char) (x : Char) (n : Nat), line = u ++ x :: (blanks n ++ ['\n']) →
      x ≠ ' ' → x ≠ '"' → x ≠ '>' → pattern.first? p = none) ∧
    (∀ (u w : List Char) (s t : Style) (n : Nat),
      line = u ++ s.opening :: (w ++ t.closing :: (blanks n ++ ['\n'])) →
      (∀ x ∈ u, isOpening x = false) → s ≠ t → pattern.first? p = none) := by
  -- A line that is no directive is refused, so the last parts speak of directives only.
  have hrefuse : (∀ s path, ¬IsDirective line s path) → pattern.first? p = none :=
    first?_line_eq_none hline hp
  refine ⟨isSome_first?_iff hline hp hstart,
    fun y s path hne hy => ⟨fun z t other hz => ?_, ?_, ?_, ?_, ?_, ?_⟩,
    fun htab => ?_, fun u x n hu hblank hquote hangle => ?_, fun u w s t n hdelimiters hu hst => ?_⟩
  · obtain ⟨rfl, rfl, rfl⟩ := Layout.line_inj (hy.symm.trans hz)
    exact ⟨rfl, rfl, rfl⟩
  -- The endings at the line are one, whatever is tried first.
  · subst hy
    have hall := fun f => mem_endings_directive (e := f) hline hp hstart hne
    obtain ⟨e, he, hfirst⟩ := Pattern.exists_first?_eq_some ((hall _).mpr rfl)
    obtain rfl := (hall e).mp he
    exact ⟨_, hfirst, fun f hf => (hall f).mp hf, upTo_skip hp, captured_tokenBounds hp⟩
  · rw [hy, tokenSpan_line]
  · exact s.bare_delimit path
  · rw [Style.ofToken, Style.ofToken?_delimit, Option.getD_some]
  · exact Moves.isMalformed_delimit s path
  -- Before the first delimiter there are only spaces, the mark and the keyword.
  · refine hrefuse fun s path h => ?_
    exact h.tab_not_mem htab
  -- The last character of a directive that is no space is a closing delimiter,
  · refine hrefuse fun s path h => ?_
    have hclosing := h.closing (by simpa [isInk] using hblank) hu
    cases s
    · exact hquote hclosing
    · exact hangle hclosing
  -- and the first opening one is of the same style.
  · refine hrefuse fun r path h => ?_
    obtain ⟨hopening, hclosing⟩ :=
      h.delimiters hu (isOpening_opening s) (isInk_closing t) hdelimiters
    exact hst ((opening_inj hopening).trans (closing_inj hclosing).symm)

/-- A line whose token holds a bracket, a quote and a space. -/
def nestedLine : List Char :=
  " #include \"a> \"b\"  \n".toList

/-- It is matched as a whole, behind another line and in front of more text. -/
theorem pattern_accepts_grammar_nestedLine :
    let p : Place := ⟨0, some '\n', nestedLine ++ "int x;".toList⟩
    Lines.IsLine nestedLine ∧ p.rest = nestedLine ++ "int x;".toList ∧ p.startsLine = true ∧
      (pattern.first? p).isSome = true ∧
      ∃ e, pattern.first? p = some e ∧ (∀ f ∈ pattern.endings p, f = e) ∧
        p.upTo e.place = nestedLine ∧ e.captured = "\"a> \"b\"".toList := by
  intro p
  have hline : Lines.IsLine nestedLine := ⟨nestedLine.dropLast, by decide, rfl⟩
  obtain ⟨hsome, hdirective, -⟩ := pattern_accepts_grammar (p := p) hline rfl rfl
  -- Of the marks in the line, only the outermost ones count.
  have hlayout : nestedLine = Layout.line ⟨1, 0, 1, 2⟩ .quoted "a> \"b".toList := rfl
  refine ⟨hline, rfl, rfl, ?_, ?_⟩
  · exact hsome.mpr ⟨_, _, _, by decide, by decide, hlayout⟩
  · exact (hdirective _ _ _ (by decide) hlayout).2.1

end Directive

end IncludeMoves
