import IncludeMoves.Directive.Style

/-!
# Lines of a text and directives on them

A text is cut behind its newlines (`Lines.of`): what is left behind the last one is its tail. A line
is a directive if it is laid out as one (`Directive.Layout`): the token, and any number of spaces at
four places around it. `Directive.readLine?` reads the style and the path off a line, and reads off
exactly what the layout says (`Directive.readLine?_eq_some_iff`).

Nothing here searches. That the search of `Directive.segments` comes to the same is shown in
`Proofs/LineByLine.lean`.
-/

namespace IncludeMoves

/-! ### Lines -/

/-- **A text by lines**: the lines that end in a newline, and what stands behind the last of them. The
tail is not a line, and no directive is ever found in it. -/
structure Lines where
  terminated : List (List Char)
  tail : List Char
  deriving DecidableEq, Repr

namespace Lines

/-- The lines of a text. -/
def of : List Char → Lines
  | [] => ⟨[], []⟩
  | c :: r =>
    if c = '\n' then ⟨[c] :: (of r).terminated, (of r).tail⟩
    else
      match (of r).terminated with
      | [] => ⟨[], c :: (of r).tail⟩
      | l :: ls => ⟨(c :: l) :: ls, (of r).tail⟩

/-- A line ends in a newline and has no other. The newline belongs to it, so a text is its lines and its
tail, one after the other. -/
def IsLine (l : List Char) : Prop :=
  ∃ w, '\n' ∉ w ∧ l = w ++ ['\n']

theorem IsLine.ne_nil {l : List Char} (h : IsLine l) : l ≠ [] := by
  obtain ⟨w, -, rfl⟩ := h
  exact List.concat_ne_nil _ _

theorem of_newline_cons (r : List Char) :
    of ('\n' :: r) = ⟨['\n'] :: (of r).terminated, (of r).tail⟩ := by
  rw [of, if_pos rfl]

theorem of_of_not_mem {t : List Char} (h : '\n' ∉ t) : of t = ⟨[], t⟩ := by
  induction t with
  | nil => rfl
  | cons c t ih =>
    obtain ⟨hc, ht⟩ : c ≠ '\n' ∧ '\n' ∉ t := by simpa [eq_comm] using h
    rw [of, if_neg hc, ih ht]

theorem of_append {w r : List Char} (h : '\n' ∉ w) :
    of (w ++ '\n' :: r) = ⟨(w ++ ['\n']) :: (of r).terminated, (of r).tail⟩ := by
  induction w with
  | nil => exact of_newline_cons r
  | cons c w ih =>
    obtain ⟨hc, hw⟩ : c ≠ '\n' ∧ '\n' ∉ w := by simpa [eq_comm] using h
    rw [List.cons_append, of, if_neg hc, ih hw]
    rfl

/-- Where two texts begin with lines, the lines are the same if the texts are. -/
theorem IsLine.eq_of_append {l k r s : List Char} (hl : IsLine l) (hk : IsLine k)
    (h : l ++ r = k ++ s) : l = k := by
  obtain ⟨u, hu, rfl⟩ := hl
  obtain ⟨v, hv, rfl⟩ := hk
  rw [List.append_assoc, List.append_assoc, List.singleton_append, List.singleton_append] at h
  -- Both are the first line of the same text.
  have hlines := (of_append (r := r) hu).symm.trans ((congrArg of h).trans (of_append hv))
  simpa using congrArg (fun t => t.terminated.head?) hlines

/-- Up to the first newline a text is a line, and without one it is a tail. -/
theorem eq_append_newline_or_not_mem (text : List Char) :
    (∃ w r, '\n' ∉ w ∧ text = w ++ '\n' :: r) ∨ '\n' ∉ text := by
  by_cases h : '\n' ∈ text
  · obtain ⟨w, r, rfl, hw⟩ := List.eq_append_cons_of_mem h
    exact .inl ⟨w, r, hw, rfl⟩
  · exact .inr h

/-- Induction over a text line by line. -/
theorem induct {P : List Char → Prop} (tail : ∀ t, '\n' ∉ t → P t)
    (line : ∀ w r, '\n' ∉ w → P r → P (w ++ '\n' :: r)) (text : List Char) : P text := by
  -- What stands behind a newline is shorter than the text.
  induction hn : text.length using Nat.strongRecOn generalizing text with
  | ind n ih =>
    rcases eq_append_newline_or_not_mem text with ⟨w, r, hw, rfl⟩ | h
    · refine line w r hw (ih r.length ?_ r rfl)
      simp only [← hn, List.length_append, List.length_cons]
      omega
    · exact tail text h

/-- The lines and the tail, one after the other, are the text again. -/
theorem flatten_of (text : List Char) :
    (of text).terminated.flatten ++ (of text).tail = text := by
  induction text using induct with
  | tail t h => simp [of_of_not_mem h]
  | line w r h ih => simp [of_append h, ih]

theorem isLine_of_mem {text l : List Char} (hl : l ∈ (of text).terminated) : IsLine l := by
  induction text using induct with
  | tail t h => simp [of_of_not_mem h] at hl
  | line w r h ih =>
    rw [of_append h, List.mem_cons] at hl
    rcases hl with rfl | hl
    · exact ⟨w, h, rfl⟩
    · exact ih hl

theorem newline_not_mem_tail (text : List Char) : '\n' ∉ (of text).tail := by
  induction text using induct with
  | tail t h => rwa [of_of_not_mem h]
  | line w r h ih => rwa [of_append h]

end Lines

/-! ### Tokens -/

namespace Style

@[simp] theorem ofToken?_delimit (s : Style) (path : List Char) :
    ofToken? (s.delimit path) = some s := by
  cases s <;> simp [ofToken?, delimit, opening, closing, List.getLast?_cons]

@[simp] theorem bare_delimit (s : Style) (path : List Char) :
    Token.bare (s.delimit path) = path := by
  simp [Token.bare, delimit]

/-- A token of more than two characters whose delimiters belong together is a delimited path. With two
characters there is no path, and with one the delimiters are one and the same. -/
theorem eq_delimit_of_ofToken? {s : Style} {token : List Char} (h : ofToken? token = some s)
    (hlength : 2 < token.length) :
    token = s.delimit (Token.bare token) ∧ Token.bare token ≠ [] := by
  obtain ⟨c, r, rfl⟩ := List.exists_cons_of_length_pos (Nat.lt_of_le_of_lt (Nat.zero_le 2) hlength)
  have hr : r ≠ [] := by
    rintro rfl
    simp at hlength
  -- A first and a last character, with something between them.
  obtain ⟨path, d, rfl⟩ : ∃ path d, r = path ++ [d] :=
    ⟨r.dropLast, r.getLast hr, (List.dropLast_concat_getLast hr).symm⟩
  -- The two of them show the style.
  have hends : c = s.opening ∧ d = s.closing := by
    simp only [ofToken?, ← List.cons_append, List.getLast?_concat] at h
    split at h
    · obtain rfl : quoted = s := by simpa using h
      simp_all [opening, closing]
    · obtain rfl : angled = s := by simpa using h
      simp_all [opening, closing]
    · simp at h
  have hpath : path ≠ [] := by
    rintro rfl
    simp at hlength
  simp [Token.bare, delimit, hends, hpath]

end Style

/-! ### Directives -/

namespace Directive

/-- The word behind the `#`. -/
def keyword : List Char := "include".toList

theorem keyword_eq : keyword = ['i', 'n', 'c', 'l', 'u', 'd', 'e'] :=
  rfl

/-- **How a directive is laid out**: the numbers of spaces in front of the `#`, behind it, behind
the keyword, and behind the token. -/
structure Layout where
  indent : Nat
  behindMark : Nat
  behindWord : Nat
  trailing : Nat
  deriving DecidableEq, Repr

/-- A number of spaces. -/
def blanks (n : Nat) : List Char := List.replicate n ' '

/-- What stands in front of the token. -/
def Layout.front (y : Layout) : List Char :=
  blanks y.indent ++ '#' :: (blanks y.behindMark ++ (keyword ++ blanks y.behindWord))

/-- The line of a directive, its newline included. -/
def Layout.line (y : Layout) (s : Style) (path : List Char) : List Char :=
  y.front ++ (s.delimit path ++ (blanks y.trailing ++ ['\n']))

/-- **A line is a directive** of a style and a path if it is laid out as one. This is the grammar,
without any search: four numbers of spaces, a style and a path. -/
def IsDirective (line : List Char) (s : Style) (path : List Char) : Prop :=
  path ≠ [] ∧ ∃ y : Layout, line = y.line s path

/-- A text without its first spaces. -/
def skipBlanks (cs : List Char) : List Char :=
  cs.dropWhile (· == ' ')

/-- Reads the token off what stands behind the keyword and the spaces there. It is read from the back:
the delimiters are the first character and the last one that is no space. -/
def readToken? (cs : List Char) : Option (Style × List Char) :=
  match cs.reverse with
  | '\n' :: back =>
    let token := (skipBlanks back).reverse
    match Style.ofToken? token with
    | some s => if 2 < token.length then some (s, Token.bare token) else none
    | none => none
  | _ => none

/-- **Reads a line**: the style and the path of the directive, if it is one. It goes along the line
once, where the pattern tries out all ways to match. -/
def readLine? (line : List Char) : Option (Style × List Char) :=
  match skipBlanks line with
  | '#' :: r =>
    if keyword.isPrefixOf (skipBlanks r) then
      readToken? (skipBlanks ((skipBlanks r).drop keyword.length))
    else none
  | _ => none

theorem skipBlanks_blanks_append {n : Nat} {cs : List Char} (h : cs.head? ≠ some ' ') :
    skipBlanks (blanks n ++ cs) = cs := by
  rw [skipBlanks, blanks, List.dropWhile_append_of_pos (by simp)]
  cases cs with
  | nil => rfl
  | cons c cs =>
    have hc : c ≠ ' ' := by simpa using h
    simp [hc]

theorem exists_blanks_append (cs : List Char) : ∃ n, cs = blanks n ++ skipBlanks cs := by
  refine ⟨(cs.takeWhile (· == ' ')).length, ?_⟩
  have hblanks : cs.takeWhile (· == ' ') = blanks (cs.takeWhile (· == ' ')).length :=
    List.eq_replicate_iff.mpr ⟨rfl, fun c hc => by
      simpa using List.all_eq_true.mp List.all_takeWhile c hc⟩
  rw [← hblanks, skipBlanks, List.takeWhile_append_dropWhile]

theorem reverse_blanks (n : Nat) : (blanks n).reverse = blanks n :=
  List.reverse_replicate ..

/-- The token is read if and only if a delimited path with spaces and a newline behind it stands there.
What is in the path does not matter, delimiters included. -/
theorem readToken?_eq_some_iff {cs : List Char} {s : Style} {path : List Char} :
    readToken? cs = some (s, path) ↔
      path ≠ [] ∧ ∃ n, cs = s.delimit path ++ (blanks n ++ ['\n']) := by
  constructor
  · intro h
    simp only [readToken?] at h
    split at h
    -- The line ends with a newline. In front of it are blanks, and in front of them the token.
    · next back hback =>
      split at h
      · next t ht =>
        split at h
        · next hlength =>
          obtain ⟨rfl, rfl⟩ : t = s ∧ Token.bare (skipBlanks back).reverse = path := by
            simpa using h
          obtain ⟨htoken, hpath⟩ := Style.eq_delimit_of_ofToken? ht hlength
          obtain ⟨n, hn⟩ := exists_blanks_append back
          refine ⟨hpath, n, ?_⟩
          -- Put together in the order in which they stand in the line:
          have hcs : cs = ('\n' :: back).reverse := by rw [← hback, List.reverse_reverse]
          have hreverse : back.reverse = (skipBlanks back).reverse ++ blanks n := by
            rw [← reverse_blanks n, ← List.reverse_append, ← hn]
          rw [hcs, ← htoken, List.reverse_cons, hreverse, List.append_assoc]
        · simp at h
      · simp at h
    · simp at h
  · rintro ⟨hpath, n, rfl⟩
    -- A token ends with its closing mark, so the blanks behind it go no further.
    have htoken : skipBlanks (blanks n ++ (s.delimit path).reverse) = (s.delimit path).reverse :=
      skipBlanks_blanks_append (by cases s <;> simp [Style.delimit, Style.closing])
    have hlength : 2 < (s.delimit path).length := by
      have := List.length_pos_iff.mpr hpath
      simp only [Style.delimit, List.length_append, List.length_cons, List.length_nil]
      omega
    simp only [readToken?, List.reverse_append, reverse_blanks, List.reverse_singleton,
      List.cons_append, List.nil_append, htoken, List.reverse_reverse,
      Style.ofToken?_delimit, hlength, if_true, Style.bare_delimit]

/-- **Reading finds exactly the directives**, and of each its style and its path. So whether a line is a
directive can be decided, and there is at most one way to see it. -/
theorem readLine?_eq_some_iff {line : List Char} {s : Style} {path : List Char} :
    readLine? line = some (s, path) ↔ IsDirective line s path := by
  constructor
  · intro h
    simp only [readLine?] at h
    split at h
    -- Each part is what is left when the spaces in front of it are skipped.
    · next r hr =>
      split at h
      · next hword =>
        obtain ⟨hpath, d, hd⟩ := readToken?_eq_some_iff.mp h
        obtain ⟨rest, hrest⟩ := List.isPrefixOf_iff_prefix.mp hword
        rw [← hrest, List.drop_left] at hd
        -- The spaces that were skipped are those of a layout.
        obtain ⟨a, ha⟩ := exists_blanks_append line
        obtain ⟨b, hb⟩ := exists_blanks_append r
        obtain ⟨c, hc⟩ := exists_blanks_append rest
        refine ⟨hpath, ⟨a, b, c, d⟩, ?_⟩
        rw [ha, hr, hb, ← hrest, hc, hd]
        simp [Layout.line, Layout.front]
      · simp at h
    · simp at h
  · rintro ⟨hpath, ⟨a, b, c, d⟩, rfl⟩
    -- Neither the token nor the keyword starts with a space, so no more is skipped than there was.
    have hrest : (s.delimit path ++ (blanks d ++ ['\n'])).head? ≠ some ' ' := by
      cases s <;> simp [Style.delimit, Style.opening]
    have hword : ∀ cs, (keyword ++ cs).head? ≠ some ' ' := by
      intro cs
      rw [keyword_eq, List.cons_append, List.head?_cons]
      decide
    simp only [readLine?, Layout.line, Layout.front, List.append_assoc, List.cons_append]
    rw [skipBlanks_blanks_append (by simp)]
    simp only
    rw [skipBlanks_blanks_append (hword _),
      if_pos (List.isPrefixOf_iff_prefix.mpr (List.prefix_append ..)), List.drop_left,
      skipBlanks_blanks_append hrest]
    exact readToken?_eq_some_iff.mpr ⟨hpath, d, rfl⟩

/-- A line is a directive of no more than one style and path. -/
theorem IsDirective.unique {line : List Char} {s t : Style} {path other : List Char}
    (h : IsDirective line s path) (h' : IsDirective line t other) : s = t ∧ path = other := by
  rw [← readLine?_eq_some_iff] at h h'
  simpa using h.symm.trans h'

end Directive

end IncludeMoves
