import IncludeMoves.Proofs.JsonGrammar
import Mathlib.Data.List.TakeWhile
import Mathlib.Tactic.IntervalCases

/-!
# Reading blanks, words and strings

A reader *takes* a value off the front of a text and leaves the rest (`Json.Takes`). The readers of the
lexemes take just what the grammar spells: a reader that takes something has found a spelling of it
there, and where a spelling stands, it is taken, whatever follows.

* `Json.eq_append_of_expect`, `Json.expect_append` — fixed words;
* `Json.takes_readHex`, `Json.takes_readUnit`, `Json.takes_readEscape` — what stands behind a backslash;
* `Json.takes_readString` — strings.
-/

namespace IncludeMoves

namespace Json

variable {α : Type} {s rest : List Char} {c e : Char} {n : Nat}

/-- **What a reader takes** off the front of a text, and what it leaves. It hides the bound that comes
with what is left, so that the text itself can be rewritten. -/
def Takes (read : Reader α) (s : List Char) (x : α) (rest : List Char) : Prop :=
  ∃ r : Rest s, read s = .ok (x, r) ∧ r.text = rest

@[simp]
theorem Rest.widen_text {r : List Char} (x : Rest r) (h : r.length ≤ s.length) :
    (x.widen h).text = x.text :=
  rfl

@[simp]
theorem Rest.cons_text (c : Char) (x : Rest s) : (x.cons c).text = x.text :=
  rfl

/-! ### Blanks -/

theorem AreBlanks.nil : AreBlanks [] :=
  fun _ hc => absurd hc List.not_mem_nil

theorem AreBlanks.append {t : List Char} (hs : AreBlanks s) (ht : AreBlanks t) :
    AreBlanks (s ++ t) :=
  fun c hc => (List.mem_append.mp hc).elim (hs c) (ht c)

theorem skipBlanks_append (hs : AreBlanks s) (rest : List Char) :
    skipBlanks (s ++ rest) = skipBlanks rest :=
  List.dropWhile_append_of_pos hs

theorem skipBlanks_cons (hc : isBlank c = false) (rest : List Char) :
    skipBlanks (c :: rest) = c :: rest :=
  List.dropWhile_cons_of_neg (by simp [hc])

/-- Blanks are skipped, and nothing behind them. -/
theorem skipBlanks_append_cons (hs : AreBlanks s) (hc : isBlank c = false) (rest : List Char) :
    skipBlanks (s ++ c :: rest) = c :: rest := by
  rw [skipBlanks_append hs, skipBlanks_cons hc]

theorem skipBlanks_eq_nil (hs : AreBlanks s) : skipBlanks s = [] := by
  rw [← List.append_nil s, skipBlanks_append hs]
  rfl

/-- The blanks in front of a text. -/
theorem exists_blanks {t : List Char} (h : skipBlanks s = t) :
    ∃ before, AreBlanks before ∧ s = before ++ t :=
  ⟨s.takeWhile isBlank, fun _ hc => List.mem_takeWhile_imp hc,
    h ▸ List.takeWhile_append_dropWhile.symm⟩

/-! ### Words -/

/-- If the word is what comes next, it is what has been taken. -/
theorem eq_append_of_expect {word : List Char} {r : Remainder s} (h : expect word s = .ok r) :
    s = word ++ r.1 := by
  induction word generalizing s with
  | nil =>
    cases h
    rfl
  | cons w word ih =>
    cases s with
    | nil => cases h
    | cons c s =>
      rw [expect] at h
      split at h
      -- The first characters are equal, and the others are so by induction.
      · next hc =>
        split at h
        · next q hq hexpect =>
          cases h
          exact congrArg₂ List.cons hc (ih hexpect)
        · cases h
      · cases h

theorem expect_append (word rest : List Char) :
    ∃ h, expect word (word ++ rest) = .ok ⟨rest, h⟩ := by
  induction word with
  | nil => exact ⟨Nat.le_refl _, rfl⟩
  | cons w word ih =>
    obtain ⟨h, hexpect⟩ := ih
    refine ⟨Nat.le_succ_of_le h, ?_⟩
    show expect (w :: word) (w :: (word ++ rest)) = _
    rw [expect, if_pos rfl, hexpect]

/-! ### Strings -/

/-- The ranges of characters of the reader are the digits of the grammar. There are few enough of them
to go through, once the range is known. -/
theorem hexDigit?_eq_some_iff : hexDigit? c = some n ↔ IsHexDigit c n := by
  constructor
  · intro h
    have hc : c = Char.ofNat c.toNat := (Char.ofNat_toNat c).symm
    have hle : ∀ a b : Char, a ≤ b ↔ a.toNat ≤ b.toNat := fun _ _ => Iff.rfl
    -- The digit is in one of three rows of characters.
    have hrow : (48 ≤ c.toNat ∧ c.toNat ≤ 57 ∧ n = c.toNat - 48) ∨
        (97 ≤ c.toNat ∧ c.toNat ≤ 102 ∧ n = c.toNat - 97 + 10) ∨
        (65 ≤ c.toNat ∧ c.toNat ≤ 70 ∧ n = c.toNat - 65 + 10) := by
      unfold hexDigit? at h
      simp only [hle] at h
      split at h
      · next hd => exact .inl ⟨hd.1, hd.2, (Option.some.inj h).symm⟩
      split at h
      · next hd => exact .inr (.inl ⟨hd.1, hd.2, (Option.some.inj h).symm⟩)
      split at h
      · next hd => exact .inr (.inr ⟨hd.1, hd.2, (Option.some.inj h).symm⟩)
      · cases h
    -- In a row there are few enough digits to try them all.
    generalize c.toNat = k at hc hrow
    subst hc
    rcases hrow with ⟨hlow, hhigh, rfl⟩ | ⟨hlow, hhigh, rfl⟩ | ⟨hlow, hhigh, rfl⟩ <;>
      interval_cases k <;> (unfold IsHexDigit; decide)
  · rintro ⟨hn, h⟩
    interval_cases n <;> rcases h with rfl | rfl <;> rfl

theorem shortEscape?_eq_some_iff : shortEscape? e = some c ↔ (e, c) ∈ shortEscapes := by
  unfold shortEscape? shortEscapes
  split <;> simp_all [eq_comm]

/-- Four digits are read as the unit that they spell. What follows does not matter, for the four are
taken by their number. -/
theorem takes_readHex : Takes readHex s n rest ↔ ∃ ds, SpellsUnit ds n ∧ s = ds ++ rest := by
  constructor
  · rintro ⟨r, h, rfl⟩
    unfold readHex at h
    split at h
    · next a b c d t =>
      -- Four characters, and each of them is a digit.
      split at h
      · next i j k l ha hb hc hd =>
        cases h
        exact ⟨[a, b, c, d], .mk (hexDigit?_eq_some_iff.mp ha) (hexDigit?_eq_some_iff.mp hb)
          (hexDigit?_eq_some_iff.mp hc) (hexDigit?_eq_some_iff.mp hd), rfl⟩
      · cases h
    · split at h <;> cases h
  · rintro ⟨ds, hds, rfl⟩
    cases hds with
    | mk ha hb hc hd =>
      simp only [Takes, readHex, List.cons_append, List.nil_append, hexDigit?_eq_some_iff.mpr ha,
        hexDigit?_eq_some_iff.mpr hb, hexDigit?_eq_some_iff.mpr hc, hexDigit?_eq_some_iff.mpr hd]
      exact ⟨_, rfl, rfl⟩

theorem isLowSurrogate_iff : isLowSurrogate n = true ↔ 0xDC00 ≤ n ∧ n ≤ 0xDFFF := by
  simp [isLowSurrogate]

theorem isHighSurrogate_iff : isHighSurrogate n = true ↔ 0xD800 ≤ n ∧ n ≤ 0xDBFF := by
  simp [isHighSurrogate]

/-- What is read as a character spells it, as one unit or as the two halves of a pair. The cases are
those of the reader; all but two of them are errors. -/
theorem exists_codePoint_of_readUnit {r : Rest s} (h : readUnit s = .ok (c, r)) :
    ∃ ds, SpellsCodePoint ds c ∧ s = ds ++ r.text := by
  unfold readUnit at h
  split at h
  · cases h
  next n r' hread =>
  obtain ⟨ds, hds, hs⟩ := takes_readHex.mp ⟨r', hread, rfl⟩
  -- A low half alone spells nothing.
  split at h
  · cases h
  next hlow =>
  split at h
  -- A high half needs a low one behind it, in an escape of its own.
  · next hhigh =>
    split at h
    · cases h
    · cases h
    · next q hr' =>
      split at h
      · cases h
      next m t hread' =>
      obtain ⟨es, hes, hq⟩ := takes_readHex.mp ⟨t, hread', rfl⟩
      split at h
      · next hlow' =>
        obtain ⟨rfl, rfl⟩ := Prod.mk.inj (Except.ok.inj h)
        obtain ⟨hn, hn'⟩ := isHighSurrogate_iff.mp hhigh
        -- The two halves are one number.
        obtain ⟨hm, hm'⟩ := isLowSurrogate_iff.mp hlow'
        refine ⟨ds ++ '\\' :: 'u' :: es, .pair hds hes hn hn' hm hm', ?_⟩
        calc s = ds ++ r'.text := hs
          _ = ds ++ '\\' :: 'u' :: q := by rw [hr']
          _ = ds ++ '\\' :: 'u' :: (es ++ t.text) := congrArg (ds ++ '\\' :: 'u' :: ·) hq
          _ = (ds ++ '\\' :: 'u' :: es) ++ t.text := by simp
      · cases h
    · cases h
    · cases h
  -- A unit that is no half stands for itself.
  · next hhigh =>
    cases h
    rw [isLowSurrogate_iff] at hlow
    rw [isHighSurrogate_iff] at hhigh
    exact ⟨ds, .one hds (by omega), hs⟩

/-- The two halves of a pair are read as one character. -/
theorem takes_readUnit_pair {ds es : List Char} {n m : Nat} (hds : SpellsUnit ds n)
    (hes : SpellsUnit es m) (hhigh : isHighSurrogate n = true) (hlow : isLowSurrogate m = true) :
    Takes readUnit (ds ++ '\\' :: 'u' :: (es ++ rest))
      (Char.ofNat (0x10000 + (n - 0xD800) * 0x400 + (m - 0xDC00))) rest := by
  obtain ⟨r, hread, hr⟩ := takes_readHex.mpr ⟨ds, hds, rfl⟩
  obtain ⟨t, hread', ht⟩ := takes_readHex.mpr ⟨es, hes, rfl⟩
  -- The first half is not taken for a second one.
  have hnotlow : isLowSurrogate n = false := by
    rw [isHighSurrogate_iff] at hhigh
    simp [isLowSurrogate]
    omega
  unfold Takes readUnit
  rw [hread]
  -- The first unit asks for a second one, and of all texts that one with an escape stands behind it.
  simp only [hnotlow, hhigh, if_true, Bool.false_eq_true, if_false]
  split
  · next h => cases hr.symm.trans h
  · next h => cases hr.symm.trans h
  · next q h =>
    cases hr.symm.trans h
    rw [hread']
    simp only [hlow, if_true]
    exact ⟨_, rfl, ht⟩
  · next q hne h =>
    cases hr.symm.trans h
    exact absurd rfl (hne _)
  · next hne => exact absurd hr (hne _)

/-- One unit or two are read as the character that they spell. The grammar and the reader split the
units in the same three ways: low halves, high halves, and others. -/
theorem takes_readUnit : Takes readUnit s c rest ↔ ∃ ds, SpellsCodePoint ds c ∧ s = ds ++ rest := by
  constructor
  · rintro ⟨r, h, rfl⟩
    exact exists_codePoint_of_readUnit h
  · rintro ⟨ds, hds, rfl⟩
    cases hds with
    | @one ds n hds hn =>
      obtain ⟨r, hread, hr⟩ := takes_readHex.mpr ⟨ds, hds, rfl⟩
      refine ⟨r, ?_, hr⟩
      -- Only one unit is read, since it is none of the two halves.
      have hlow : isLowSurrogate n = false := by simp [isLowSurrogate]; omega
      have hhigh : isHighSurrogate n = false := by simp [isHighSurrogate]; omega
      simp only [readUnit, hread, hlow, hhigh, Bool.false_eq_true, if_false]
    | pair hds hes hn hn' hm hm' =>
      rw [List.append_assoc, List.cons_append, List.cons_append]
      exact takes_readUnit_pair hds hes (isHighSurrogate_iff.mpr ⟨hn, hn'⟩)
        (isLowSurrogate_iff.mpr ⟨hm, hm'⟩)

/-- What stands behind a backslash is read as the character that it spells with it. -/
theorem takes_readEscape :
    Takes readEscape s c rest ↔ ∃ e, SpellsChar ('\\' :: e) c ∧ s = e ++ rest := by
  constructor
  · rintro ⟨r, h, rfl⟩
    unfold readEscape at h
    split at h
    · cases h
    next b t =>
    split at h
    -- Behind a `u` stands a number, behind any other letter nothing.
    · next hb =>
      split at h
      · next x q hread =>
        cases h
        obtain ⟨ds, hds, ht⟩ := takes_readUnit.mp ⟨q, hread, rfl⟩
        exact ⟨'u' :: ds, .number hds, congrArg₂ List.cons hb ht⟩
      · cases h
    · split at h
      · next x hshort =>
        cases h
        exact ⟨[b], .short (shortEscape?_eq_some_iff.mp hshort), rfl⟩
      · cases h
  -- The letter tells how the character is spelled.
  · rintro ⟨e, he, rfl⟩
    cases he with
    | plain _ hne _ => exact absurd rfl hne
    | @short b c hshort =>
      -- None of the letters of the short escapes is a `u`.
      have hb : b ≠ 'u' := by
        rintro rfl
        simp [shortEscapes] at hshort
      simp only [Takes, List.cons_append, List.nil_append, readEscape, if_neg hb,
        shortEscape?_eq_some_iff.mpr hshort]
      exact ⟨_, rfl, rfl⟩
    | @number ds c hds =>
      have htakes : Takes readUnit (ds ++ rest) c rest := takes_readUnit.mpr ⟨ds, hds, rfl⟩
      obtain ⟨r, hread, hr⟩ := htakes
      refine ⟨r.cons 'u', ?_, hr⟩
      simp only [List.cons_append, readEscape, if_true, hread]

/-- The rest of a string is read as its characters, behind those that were found before. The induction
is on the text that is left, which gets shorter with each character. -/
theorem readStringFrom_eq_ok {found : List Char} {str : String} {r : Rest s}
    (h : readStringFrom found s = .ok (str, r)) :
    ∃ body cs, SpellsText body cs ∧ str = String.ofList (found.reverse ++ cs) ∧
      s = body ++ '"' :: r.text := by
  fun_induction readStringFrom found s generalizing str with
  | case1 => cases h
  | case2 found t =>
    cases h
    refine ⟨[], [], .nil, by simp, rfl⟩
  | case3 => cases h
  | case4 found t x q hread str' u hrest _ ih =>
    cases h
    -- An escape, and the rest of the string behind it.
    obtain ⟨body, cs, hbody, rfl, hq⟩ := ih hrest
    obtain ⟨e, he, ht⟩ := takes_readEscape.mp ⟨q, hread, rfl⟩
    refine ⟨('\\' :: e) ++ body, x :: cs, .cons he hbody, by simp, ?_⟩
    calc '\\' :: t = '\\' :: (e ++ q.text) := congrArg ('\\' :: ·) ht
      _ = '\\' :: (e ++ (body ++ '"' :: u.text)) := congrArg (fun x => '\\' :: (e ++ x)) hq
      _ = ('\\' :: e) ++ body ++ '"' :: u.text := by simp
  | case5 => cases h
  | case6 => cases h
  | case7 found c t hquote hescape hcontrol str' u hrest ih =>
    cases h
    -- A character that stands for itself, and the rest of the string behind it.
    obtain ⟨body, cs, hbody, rfl, hq⟩ := ih hrest
    refine ⟨_, _, .cons (.plain hquote hescape (Nat.le_of_not_lt hcontrol)) hbody, by simp, ?_⟩
    exact congrArg (c :: ·) hq
  | case8 => cases h

/-- And what spells characters is read as them, up to the quote. Here the induction is on the spelling.
-/
theorem readStringFrom_append {body cs : List Char} (hbody : SpellsText body cs)
    (found rest : List Char) :
    ∃ r, readStringFrom found (body ++ '"' :: rest) = .ok (String.ofList (found.reverse ++ cs), r) ∧
      -- On how the body is spelled. What has been found grows in front of it, backwards.
      r.text = rest := by
  induction hbody generalizing found with
  | nil =>
    rw [List.nil_append, readStringFrom, List.append_nil]
    exact ⟨_, rfl, rfl⟩
  | @cons e body cs c he _ ih =>
    have ih := ih (c :: found)
    rw [List.reverse_cons, List.append_assoc, List.singleton_append] at ih
    -- A character stands for itself, or for another one behind a backslash.
    have hescaped : ∀ e', SpellsChar ('\\' :: e') c →
        ∃ r, readStringFrom found (('\\' :: e') ++ body ++ '"' :: rest)
          = .ok (String.ofList (found.reverse ++ c :: cs), r) ∧ r.text = rest := by
      intro e' he'
      have htakes : Takes readEscape (e' ++ (body ++ '"' :: rest)) c (body ++ '"' :: rest) :=
        takes_readEscape.mpr ⟨e', he', rfl⟩
      obtain ⟨q, hread, hq⟩ := htakes
      rw [← hq] at ih
      obtain ⟨r, hrest, hr⟩ := ih
      rw [List.cons_append, List.cons_append, List.append_assoc, readStringFrom]
      simp only [hread, hrest]
      exact ⟨_, rfl, hr⟩
    cases he with
    | plain hquote hbackslash hcontrol =>
      obtain ⟨r, hrest, hr⟩ := ih
      rw [List.singleton_append, List.cons_append, readStringFrom, if_neg hquote, if_neg hbackslash,
        if_neg (Nat.not_lt.mpr hcontrol)]
      simp only [hrest]
      -- Of the plain ones the reader has to rule out the quote, the backslash and control characters.
      exact ⟨_, rfl, hr⟩
    | short hshort => exact hescaped _ (.short hshort)
    | number hds => exact hescaped _ (.number hds)

/-- **A string is read as what it spells.** -/
theorem takes_readString {str : String} :
    Takes readString s str rest ↔ ∃ body cs, SpellsText body cs ∧ str = String.ofList cs ∧
      s = body ++ '"' :: rest := by
  constructor
  · rintro ⟨r, h, rfl⟩
    exact readStringFrom_eq_ok h
  · rintro ⟨body, cs, hbody, rfl, rfl⟩
    exact readStringFrom_append hbody [] rest

end Json

end IncludeMoves
