import IncludeMoves.Proofs.JsonNumbers

/-!
# Reading documents

The reader of documents and the grammar say the same: `Json.parse_eq_ok_iff`.

Items of lists and objects are read by `readSequence`, whatever they are. So what is asked of a reader
of items is named (`Json.Sound`, `Json.Complete`), and shown to pass from the reader of values one level
further in, over members and sequences, to the reader of values. Both directions are inductions: what is
read is spelled by induction on the depth, what is spelled is read by induction on the spelling.

A number is longer than it should be if more of it follows. So a reader is complete only in front of what
may stand behind a value: blanks and a comma, a closing bracket or the end (`Json.EndsValue`).
-/

namespace IncludeMoves

namespace Json

variable {α : Type} {item : Reader α} {R : List Char → α → Prop} {b : Brackets}
  {value : Reader Json} {V : List Char → Json → Prop} {s t rest : List Char} {x : α}
  {found xs : List α} {c : Char} {depth : Nat}

/-- What may stand behind a value. It also ends a number, so that a value can be read without knowing in
which list or object it stands. -/
def EndsValue (rest : List Char) : Prop :=
  ∀ c, (skipBlanks rest).head? = some c → c = ',' ∨ c = ']' ∨ c = '\x7d'

/-- **Whatever is read is spelled**, behind blanks. Together with `Complete` this is what is known of
the reader of an item when the reader of the sequence is looked at. -/
def Sound (read : Reader α) (R : List Char → α → Prop) : Prop :=
  ∀ ⦃s x rest⦄, Takes read s x rest → ∃ before t, AreBlanks before ∧ R t x ∧ s = before ++ (t ++ rest)

/-- **Whatever is spelled is read**, in front of what may follow. The text behind it is arbitrary but
for its first character that is no blank. -/
def Complete (read : Reader α) (R : List Char → α → Prop) : Prop :=
  ∀ ⦃t x⦄, R t x → ∀ rest, EndsValue rest → Takes read (t ++ rest) x rest

/-- Spellings start with a character that is no blank and closes no bracket. So a reader can tell an
item from the end of the sequence. -/
def Opens (R : List Char → α → Prop) : Prop :=
  ∀ ⦃t x⦄, R t x → ∃ c q, t = c :: q ∧ isBlank c = false ∧ c ≠ ']' ∧ c ≠ '\x7d'

/-- The brackets of a list or of an object. -/
def Brackets.IsKnown (b : Brackets) : Prop :=
  b.closing = ']' ∨ b.closing = '\x7d'

theorem Brackets.IsKnown.not_isBlank (hb : b.IsKnown) : isBlank b.closing = false := by
  rcases hb with h | h <;> rw [h] <;> rfl

theorem Brackets.IsKnown.ne_comma (hb : b.IsKnown) : ',' ≠ b.closing := by
  rcases hb with h | h <;> rw [h] <;> decide

theorem Brackets.IsKnown.ne_of_opens (hb : b.IsKnown) (hlist : c ≠ ']') (hobject : c ≠ '\x7d') :
    c ≠ b.closing := by
  rcases hb with h | h <;> rwa [h]

/-! ### What may stand behind a value -/

theorem endsValue_of_skipBlanks (h : skipBlanks rest = []) : EndsValue rest := by
  simp [EndsValue, h]

theorem endsValue_append {after : List Char} (hafter : AreBlanks after) (hblank : isBlank c = false)
    (hc : c = ',' ∨ c = ']' ∨ c = '\x7d') (rest : List Char) : EndsValue (after ++ c :: rest) := by
  intro d hd
  rw [skipBlanks_append_cons hafter hblank] at hd
  cases hd
  exact hc

/-- What may stand behind a value makes no number longer. -/
theorem EndsValue.endsNumber (h : EndsValue rest) : EndsNumber rest := by
  intro c hc
  by_cases hblank : isBlank c = true
  -- A blank ends a number. Else it is a comma or a bracket, if there is anything.
  · have hcases : c = ' ' ∨ c = '\t' ∨ c = '\n' ∨ c = '\r' := by
      simpa [isBlank, or_assoc] using hblank
    rcases hcases with rfl | rfl | rfl | rfl <;> decide
  · cases rest with
    | nil => cases hc
    | cons d q =>
      cases hc
      rw [EndsValue, skipBlanks_cons (by simpa using hblank)] at h
      rcases h c rfl with rfl | rfl | rfl <;> decide

/-! ### Sequences -/

theorem takes_readItems_close (hb : b.IsKnown) {after : List Char} (hafter : AreBlanks after)
    (found : List α) (rest : List Char) :
    Takes (readItems b item found) (after ++ b.closing :: rest) found.reverse rest := by
  have hskip := skipBlanks_append_cons hafter hb.not_isBlank rest
  -- The proof that less is left depends on the text, so that is named before the reader is opened.
  unfold Takes
  generalize after ++ b.closing :: rest = s at hskip ⊢
  unfold readItems
  split
  · next h => cases hskip.symm.trans h
  · next c r h =>
    obtain ⟨rfl, rfl⟩ := List.cons.inj (hskip.symm.trans h)
    rw [if_pos rfl]
    exact ⟨_, rfl, rfl⟩

theorem takes_readItems_more (hb : b.IsKnown) (hopens : Opens R) (hitem : Complete item R)
    {after before : List Char} (hafter : AreBlanks after) (hbefore : AreBlanks before) (hx : R t x)
    (hs : EndsValue s) (hrest : Takes (readItems b item (x :: found)) s xs rest) :
    Takes (readItems b item found) (after ++ ',' :: (before ++ (t ++ s))) xs rest := by
  -- The item starts with a character that no blank and no bracket is.
  obtain ⟨d, q, rfl, hblank, hlist, hobject⟩ := hopens hx
  have hskip := skipBlanks_append_cons (c := ',') hafter rfl (before ++ (d :: q ++ s))
  have hskip' : skipBlanks (before ++ (d :: q ++ s)) = d :: (q ++ s) :=
    skipBlanks_append_cons hbefore hblank (q ++ s)
  -- The item ends where `s` starts, and there the reading goes on.
  obtain ⟨u, hread, hu⟩ := hitem hx s hs
  rw [← hu] at hrest
  obtain ⟨w, hreads, hw⟩ := hrest
  unfold Takes
  -- The proof that less is left depends on the text, so that is named before the reader is opened.
  generalize after ++ ',' :: (before ++ (d :: q ++ s)) = z at hskip ⊢
  unfold readItems
  split
  · next h => cases hskip.symm.trans h
  next c r h =>
  obtain ⟨rfl, rfl⟩ := List.cons.inj (hskip.symm.trans h)
  -- The comma separates, and what comes behind it is no closing bracket.
  rw [if_neg hb.ne_comma, if_pos rfl]
  split
  · next h => cases hskip'.symm.trans h
  next d' q' h =>
  obtain ⟨rfl, rfl⟩ := List.cons.inj (hskip'.symm.trans h)
  have hread : item (d :: (q ++ s)) = .ok (x, u) := hread
  simp only [if_neg (hb.ne_of_opens hlist hobject), hread, hreads]
  exact ⟨_, rfl, hw⟩

/-- The items behind another one are read as they are spelled. The induction is on the spelling, with
the items that were read before as an accumulator. -/
theorem takes_readItems (hb : b.IsKnown) (hopens : Opens R) (hitem : Complete item R) {body : List Char}
    (hbody : SpellsItems R body xs) (found : List α) {after : List Char} (hafter : AreBlanks after)
    (rest : List Char) :
    Takes (readItems b item found) (after ++ ',' :: (body ++ b.closing :: rest)) (found.reverse ++ xs)
      rest := by
  induction hbody generalizing found after with
  | @last before t after' x hbefore hx hafter' =>
    -- The last item, with the closing bracket behind it.
    have hs : EndsValue (after' ++ b.closing :: rest) :=
      endsValue_append hafter' hb.not_isBlank (.inr hb) rest
    have hclose : Takes (readItems b item (x :: found)) (after' ++ b.closing :: rest) (x :: found).reverse
        rest := takes_readItems_close hb hafter' (x :: found) rest
    have hmore := takes_readItems_more hb hopens hitem hafter hbefore hx hs hclose
    simpa using hmore
  | @more before t after' body x xs hbefore hx hafter' _ ih =>
    -- An item with another comma behind it.
    have hs : EndsValue (after' ++ ',' :: (body ++ b.closing :: rest)) :=
      endsValue_append hafter' rfl (.inl rfl) _
    have hmore := takes_readItems_more hb hopens hitem hafter hbefore hx hs (ih (x :: found) hafter')
    simpa using hmore

/-- **What is read behind an item** is the end of the sequence, or a comma and items. The induction is
on the text that is left. -/
theorem eq_append_of_readItems (hitem : Sound item R) {r : Rest s}
    (h : readItems b item found s = .ok (xs, r)) :
    ∃ after, AreBlanks after ∧ ((xs = found.reverse ∧ s = after ++ b.closing :: r.text) ∨
      ∃ body ys, SpellsItems R body ys ∧ xs = found.reverse ++ ys ∧
        s = after ++ ',' :: (body ++ b.closing :: r.text)) := by
  fun_induction readItems b item found s generalizing xs with
  | case1 => cases h
  | case2 found s r hs hle =>
    -- The sequence ends here.
    cases h
    obtain ⟨after, hafter, htext⟩ := exists_blanks hs
    exact ⟨after, hafter, .inl ⟨rfl, htext⟩⟩
  | case3 => cases h
  | case4 => cases h
  | case5 => cases h
  | case6 => cases h
  | case7 found s r d q hr _ _ x t hread ys u hreads hs _ _ ih =>
    cases h
    -- Blanks, a comma and an item, and behind it the end or more items.
    obtain ⟨after, hafter, hcomma⟩ := exists_blanks hs
    obtain ⟨before, hbefore, hblanks⟩ := exists_blanks hr
    obtain ⟨before', tx, hbefore', hx, hdq⟩ := hitem ⟨t, hread, rfl⟩
    obtain ⟨after', hafter', hend⟩ := ih hreads
    have htext : s = after ++ ',' :: (before ++ (before' ++ (tx ++ t.text))) := by
      rw [hcomma, hblanks, ← hdq]
    refine ⟨after, hafter, .inr ?_⟩
    rcases hend with ⟨rfl, ht⟩ | ⟨body, zs, hbody, rfl, ht⟩
    · refine ⟨_, [x], .last (hbefore.append hbefore') hx hafter', by simp, ?_⟩
      simpa [ht] using htext
    · refine ⟨_, x :: zs, .more (hbefore.append hbefore') hx hafter' hbody, by simp, ?_⟩
      simpa [ht] using htext
  | case8 => cases h

/-- A sequence that is read is spelled, with its closing bracket behind it. -/
theorem eq_append_of_readSequence (hitem : Sound item R)
    (h : Takes (readSequence b item) s xs rest) :
    ∃ body, SpellsSequence R body xs ∧ s = body ++ b.closing :: rest := by
  obtain ⟨r, h, rfl⟩ := h
  unfold readSequence at h
  split at h
  · cases h
  next c t hs =>
  obtain ⟨before, hbefore, htext⟩ := exists_blanks hs
  -- Either the bracket closes at once, or a first item is read.
  split at h
  · next hclose =>
    cases h
    exact ⟨before, .empty hbefore, hclose ▸ htext⟩
  split at h
  · cases h
  next x u hread =>
  split at h
  · cases h
  next ys w hreads =>
  cases h
  obtain ⟨before', tx, hbefore', hx, hct⟩ := hitem ⟨u, hread, rfl⟩
  obtain ⟨after, hafter, hend⟩ := eq_append_of_readItems hitem hreads
  have htext : s = before ++ (before' ++ (tx ++ u.text)) := by rw [htext, ← hct]
  -- Behind the first item the sequence closes, or there are others.
  rcases hend with ⟨rfl, hu⟩ | ⟨body, zs, hbody, rfl, hu⟩
  · refine ⟨_, .items (.last (hbefore.append hbefore') hx hafter), ?_⟩
    simpa [hu] using htext
  · refine ⟨_, .items (.more (hbefore.append hbefore') hx hafter hbody), ?_⟩
    simpa [hu] using htext

theorem takes_readSequence_empty (hb : b.IsKnown) {before : List Char} (hbefore : AreBlanks before)
    (rest : List Char) : Takes (readSequence b item) (before ++ b.closing :: rest) [] rest := by
  have hskip := skipBlanks_append_cons hbefore hb.not_isBlank rest
  unfold Takes
  generalize before ++ b.closing :: rest = s at hskip ⊢
  unfold readSequence
  split
  · next h => cases hskip.symm.trans h
  · next c r h =>
    obtain ⟨rfl, rfl⟩ := List.cons.inj (hskip.symm.trans h)
    rw [if_pos rfl]
    exact ⟨_, rfl, rfl⟩

theorem takes_readSequence_items (hb : b.IsKnown) (hopens : Opens R) (hitem : Complete item R)
    {before : List Char} (hbefore : AreBlanks before) (hx : R t x) (hs : EndsValue s)
    (hrest : Takes (readItems b item [x]) s xs rest) :
    Takes (readSequence b item) (before ++ (t ++ s)) xs rest := by
  -- The first item starts with a character that does not close the sequence.
  obtain ⟨d, q, rfl, hblank, hlist, hobject⟩ := hopens hx
  have hskip : skipBlanks (before ++ (d :: q ++ s)) = d :: (q ++ s) :=
    skipBlanks_append_cons hbefore hblank (q ++ s)
  obtain ⟨u, hread, hu⟩ := hitem hx s hs
  rw [← hu] at hrest
  obtain ⟨w, hreads, hw⟩ := hrest
  unfold Takes
  -- As above, the text is named because the proof that less is left depends on it.
  generalize before ++ (d :: q ++ s) = z at hskip ⊢
  unfold readSequence
  split
  · next h => cases hskip.symm.trans h
  next c r h =>
  obtain ⟨rfl, rfl⟩ := List.cons.inj (hskip.symm.trans h)
  have hread : item (d :: (q ++ s)) = .ok (x, u) := hread
  simp only [if_neg (hb.ne_of_opens hlist hobject), hread, hreads]
  exact ⟨_, rfl, hw⟩

/-- A sequence that is spelled is read. -/
theorem takes_readSequence (hb : b.IsKnown) (hopens : Opens R) (hitem : Complete item R)
    {body : List Char} (hbody : SpellsSequence R body xs) (rest : List Char) :
    Takes (readSequence b item) (body ++ b.closing :: rest) xs rest := by
  cases hbody with
  | empty hbefore => exact takes_readSequence_empty hb hbefore rest
  | items hitems =>
    cases hitems with
    -- One item only.
    | @last before t after x hbefore hx hafter =>
      have hs : EndsValue (after ++ b.closing :: rest) :=
        endsValue_append hafter hb.not_isBlank (.inr hb) rest
      have hsequence := takes_readSequence_items hb hopens hitem hbefore hx hs
        (takes_readItems_close hb hafter [x] rest)
      simpa using hsequence
    -- A first item, with a comma behind it.
    | @more before t after body x xs hbefore hx hafter hitems =>
      have hs : EndsValue (after ++ ',' :: (body ++ b.closing :: rest)) :=
        endsValue_append hafter rfl (.inl rfl) _
      have hsequence := takes_readSequence_items hb hopens hitem hbefore hx hs
        (takes_readItems hb hopens hitem hitems [x] hafter rest)
      simpa using hsequence

/-! ### Members -/

/-- What is read as a member is one: a name, a colon and a value, with blanks around the colon. -/
theorem sound_readMember (hvalue : Sound value V) : Sound (readMember value) (SpellsMember V) := by
  rintro s m rest ⟨r, h, rfl⟩
  unfold readMember at h
  split at h
  · cases h
  -- A name in quotes, a colon, and a value; each may fail.
  next c t =>
  split at h
  · next hquote =>
    split at h
    · cases h
    next name q hname =>
    split at h
    · cases h
    next d u hq =>
    split at h
    · next hcolon =>
      split at h
      · cases h
      next v w hv =>
      cases h
      -- What has been read is put together again, with the blanks between the parts.
      obtain ⟨body, cs, hbody, rfl, ht⟩ := takes_readString.mp ⟨q, hname, rfl⟩
      obtain ⟨before, hbefore, hblanks⟩ := exists_blanks hq
      obtain ⟨after, tv, hafter, hv, hu⟩ := hvalue ⟨w, hv, rfl⟩
      refine ⟨[], _, .nil, .mk (.mk hbody) hbefore hafter hv, ?_⟩
      calc c :: t = '"' :: (body ++ '"' :: (before ++ ':' :: (after ++ (tv ++ w.text)))) := by
            rw [ht, hblanks, hquote, hcolon, ← hu]
        _ = _ := by simp
    · cases h
  · cases h

/-- A member that is spelled is read. Its value comes behind blanks, so here the reader of values has to
pass over them. -/
theorem complete_readMember (hvalue : ∀ ⦃t v⦄, V t v → ∀ before, AreBlanks before → ∀ rest,
      EndsValue rest → Takes value (before ++ (t ++ rest)) v rest) :
    Complete (readMember value) (SpellsMember V) := by
  intro t m hm rest hrest
  cases hm with
  | @mk name before after t str v hname hbefore hafter hv =>
    cases hname with
    | @mk body cs hbody =>
      -- The name is read up to its quote, and behind the blanks there is the colon.
      have hname := takes_readString.mpr
        ⟨body, cs, hbody, rfl, rfl (a := body ++ '"' :: (before ++ ':' :: (after ++ (t ++ rest))))⟩
      obtain ⟨q, hread, hq⟩ := hname
      have hskip : skipBlanks q.text = ':' :: (after ++ (t ++ rest)) := by
        rw [hq, skipBlanks_append_cons hbefore rfl]
      obtain ⟨u, hreadv, hu⟩ := hvalue hv after hafter rest hrest
      have htext : ('"' :: (body ++ ['"'])) ++ before ++ ':' :: (after ++ t) ++ rest
          = '"' :: (body ++ '"' :: (before ++ ':' :: (after ++ (t ++ rest)))) := by simp
      rw [htext]
      -- From here on the reader does what has just been said of its parts.
      unfold Takes readMember
      simp only [if_true, hread]
      split
      · next h => cases hskip.symm.trans h
      next d z h =>
      obtain ⟨rfl, rfl⟩ := List.cons.inj (hskip.symm.trans h)
      simp only [if_true, hreadv]
      exact ⟨_, rfl, hu⟩

theorem opens_spellsMember : Opens (SpellsMember V) := by
  rintro t m ⟨⟨hbody⟩, hbefore, hafter, hv⟩
  exact ⟨'"', _, rfl, by decide⟩

/-! ### Values -/

/-- A number starts with its sign or with a digit. -/
theorem Numeral.IsWritten.exists_head {n : Numeral} (hn : n.IsWritten) :
    ∃ c q, n.text = c :: q ∧ (c = '-' ∨ isDigit c = true) := by
  obtain ⟨c, q, hwhole⟩ := List.exists_cons_of_ne_nil hn.whole.ne_nil
  have hdigit : isDigit c = true := hn.whole.digits c (hwhole ▸ List.mem_cons_self)
  unfold Numeral.text Numeral.signText
  rw [hwhole]
  split
  · exact ⟨'-', _, rfl, .inl rfl⟩
  · exact ⟨c, _, rfl, .inr hdigit⟩

theorem ne_of_isDigit {d : Char} (hc : c = '-' ∨ isDigit c = true) (hminus : d ≠ '-')
    (hd : isDigit d = false) : c ≠ d := by
  rintro rfl
  rcases hc with rfl | hc
  · exact hminus rfl
  · exact absurd hc (by simp [hd])

/-- Values begin with a character that is no blank and closes no bracket: a letter, a digit, a minus, a
quote or an opening bracket. -/
theorem opens_spells : Opens (Spells depth) := by
  intro t v h
  cases h with
  | null => exact ⟨'n', _, rfl, by decide⟩
  | true => exact ⟨'t', _, rfl, by decide⟩
  | false => exact ⟨'f', _, rfl, by decide⟩
  | number hn =>
    -- A number starts with a digit or a minus, and neither of them is a blank.
    obtain ⟨c, q, htext, hc⟩ := hn.exists_head
    refine ⟨c, q, htext, ?_, ne_of_isDigit hc (by decide) rfl, ne_of_isDigit hc (by decide) rfl⟩
    have hne : ∀ d, d ≠ '-' → isDigit d = false → (c == d) = false :=
      fun d hminus hd => beq_eq_false_iff_ne.mpr (ne_of_isDigit hc hminus hd)
    simp only [isBlank, hne ' ' (by decide) rfl, hne '\t' (by decide) rfl, hne '\n' (by decide) rfl,
      hne '\r' (by decide) rfl, Bool.or_false]
  | string hs =>
    obtain ⟨hbody⟩ := hs
    exact ⟨'"', _, rfl, by decide⟩
  | array => exact ⟨'[', _, rfl, by decide⟩
  | object => exact ⟨'\x7b', _, rfl, by decide⟩

theorem eq_append_of_readWord {word r : List Char} {v w : Json} {q : Rest (c :: r)}
    (h : readWord word v c r = .ok (w, q)) : w = v ∧ c :: r = c :: word ++ q.text := by
  unfold readWord at h
  split at h
  · cases h
  · next z hz hexpect =>
    cases h
    exact ⟨rfl, congrArg (c :: ·) (eq_append_of_expect hexpect)⟩

theorem readWord_append (word : List Char) (v : Json) (c : Char) (rest : List Char) :
    ∃ q, readWord word v c (word ++ rest) = .ok (v, q) ∧ q.text = rest := by
  obtain ⟨h, hexpect⟩ := expect_append word rest
  unfold readWord
  simp only [hexpect]
  exact ⟨_, rfl, rfl⟩

theorem eq_append_of_readNested {make : List α → Json} {r : List Char} {v : Json} {q : Rest (c :: r)}
    (hitem : Sound item R) (h : readNested b item make c r = .ok (v, q)) :
    ∃ body xs, SpellsSequence R body xs ∧ v = make xs ∧
      c :: r = c :: (body ++ [b.closing]) ++ q.text := by
  unfold readNested at h
  split at h
  · cases h
  · next xs z hread =>
    cases h
    obtain ⟨body, hbody, htext⟩ := eq_append_of_readSequence hitem ⟨z, hread, rfl⟩
    exact ⟨body, xs, hbody, rfl, by simpa using congrArg (c :: ·) htext⟩

theorem readNested_append {make : List α → Json} (hb : b.IsKnown) (hopens : Opens R)
    (hitem : Complete item R) {body : List Char} (hbody : SpellsSequence R body xs) (c : Char)
    (rest : List Char) :
    ∃ q, readNested b item make c (body ++ b.closing :: rest) = .ok (make xs, q) ∧ q.text = rest := by
  obtain ⟨z, hread, hz⟩ := takes_readSequence hb hopens hitem hbody rest
  unfold readNested
  simp only [hread]
  exact ⟨_, rfl, hz⟩

/-- What is read as a value at its first character is a spelling of it. The first character decides
which kind of value it is, so the cases are those characters. -/
theorem eq_append_of_readValueAt {nested : Option (Reader Json)} {r : List Char} {v : Json}
    {q : Rest (c :: r)}
    (hnested : ∀ value, nested = some value → ∃ d, depth = d + 1 ∧ Sound value (Spells d))
    (h : readValueAt nested c r = .ok (v, q)) : ∃ t, Spells depth t v ∧ c :: r = t ++ q.text := by
  -- The first character decides what kind of value this is. First the three words.
  unfold readValueAt at h
  split at h
  · next hc =>
    subst hc
    obtain ⟨rfl, htext⟩ := eq_append_of_readWord h
    exact ⟨_, .null, htext⟩
  split at h
  · next hc =>
    subst hc
    obtain ⟨rfl, htext⟩ := eq_append_of_readWord h
    exact ⟨_, .true, htext⟩
  split at h
  · next hc =>
    subst hc
    obtain ⟨rfl, htext⟩ := eq_append_of_readWord h
    exact ⟨_, .false, htext⟩
  -- A string,
  split at h
  · next hc =>
    subst hc
    split at h
    · cases h
    next str z hread =>
    cases h
    obtain ⟨body, cs, hbody, rfl, hr⟩ := takes_readString.mp ⟨z, hread, rfl⟩
    exact ⟨_, .string (.mk hbody), by simpa using congrArg ('"' :: ·) hr⟩
  -- a number,
  split at h
  · obtain ⟨n, hn, hv, htext⟩ := eq_append_of_readNumber h
    exact ⟨_, .number hn hv, htext⟩
  -- a list, if there may be another level,
  split at h
  · next hc =>
    subst hc
    split at h
    · cases h
    next value =>
    obtain ⟨d, rfl, hvalue⟩ := hnested value rfl
    obtain ⟨body, xs, hbody, rfl, htext⟩ := eq_append_of_readNested hvalue h
    exact ⟨_, .array (fun _ _ hs => hs) hbody, htext⟩
  -- or an object, likewise. Nothing else starts a value.
  split at h
  · next hc =>
    subst hc
    split at h
    · cases h
    next value =>
    obtain ⟨d, rfl, hvalue⟩ := hnested value rfl
    obtain ⟨body, xs, hbody, rfl, htext⟩ := eq_append_of_readNested (sound_readMember hvalue) h
    exact ⟨_, .object (fun _ _ hs => hs) hbody, htext⟩
  · cases h

/-- A value behind blanks is read as what it spells, whatever the blanks are. -/
theorem sound_readValueWith {nested : Option (Reader Json)}
    (hnested : ∀ value, nested = some value → ∃ d, depth = d + 1 ∧ Sound value (Spells d)) :
    Sound (readValueWith nested) (Spells depth) := by
  rintro s v rest ⟨r, h, rfl⟩
  unfold readValueWith at h
  split at h
  · cases h
  next c q hs =>
  obtain ⟨before, hbefore, htext⟩ := exists_blanks hs
  -- The value itself starts where the blanks end.
  split at h
  · cases h
  next w z hread =>
  cases h
  obtain ⟨t, ht, hcq⟩ := eq_append_of_readValueAt hnested hread
  exact ⟨before, t, hbefore, ht, htext.trans (congrArg (before ++ ·) hcq)⟩

/-- **What is read as a value is a spelling of it**, nested no deeper than allowed. -/
theorem sound_readValue (depth : Nat) : Sound (readValue depth) (Spells depth) := by
  induction depth with
  | zero => exact sound_readValueWith fun value h => nomatch h
  | succ depth ih =>
    refine sound_readValueWith fun value h => ⟨depth, rfl, ?_⟩
    cases h
    exact ih

theorem takes_readValueWith {nested : Option (Reader Json)} {before r : List Char} {v : Json}
    (hbefore : AreBlanks before) (hc : isBlank c = false)
    (h : ∃ q, readValueAt nested c r = .ok (v, q) ∧ q.text = rest) :
    Takes (readValueWith nested) (before ++ c :: r) v rest := by
  obtain ⟨q, hread, hq⟩ := h
  -- Only the value stands behind the blanks.
  have hskip := skipBlanks_append_cons hbefore hc r
  unfold Takes
  generalize before ++ c :: r = s at hskip ⊢
  unfold readValueWith
  split
  · next h => cases hskip.symm.trans h
  next d z h =>
  obtain ⟨rfl, rfl⟩ := List.cons.inj (hskip.symm.trans h)
  simp only [hread]
  exact ⟨_, rfl, hq⟩

theorem exists_nested (depth : Nat) : ∃ nested, readValue depth = readValueWith nested := by
  cases depth <;> exact ⟨_, rfl⟩

theorem readValueAt_number {nested : Option (Reader Json)} (hc : c = '-' ∨ isDigit c = true)
    (r : List Char) : readValueAt nested c r = readNumber (c :: r) := by
  unfold readValueAt
  rw [if_neg (ne_of_isDigit hc (by decide) rfl), if_neg (ne_of_isDigit hc (by decide) rfl),
    if_neg (ne_of_isDigit hc (by decide) rfl), if_neg (ne_of_isDigit hc (by decide) rfl), if_pos hc]

/-- **What is spelled is read as a value**, behind blanks. The induction is on the spelling, and each
level of nesting takes one of the depth. -/
theorem takes_readValue {v : Json} (ht : Spells depth t v) {before : List Char}
    (hbefore : AreBlanks before) (rest : List Char) (hrest : EndsValue rest) :
    Takes (readValue depth) (before ++ (t ++ rest)) v rest := by
  induction ht generalizing before rest with
  -- The three words,
  | @null depth =>
    obtain ⟨nested, hread⟩ := exists_nested depth
    rw [hread]
    exact takes_readValueWith hbefore rfl (readWord_append "ull".toList .null 'n' rest)
  | @true depth =>
    obtain ⟨nested, hread⟩ := exists_nested depth
    rw [hread]
    exact takes_readValueWith hbefore rfl (readWord_append "rue".toList (.bool Bool.true) 't' rest)
  | @false depth =>
    obtain ⟨nested, hread⟩ := exists_nested depth
    rw [hread]
    exact takes_readValueWith hbefore rfl (readWord_append "alse".toList (.bool Bool.false) 'f' rest)
  | @number depth n v hn hv =>
    -- a number, of which the first character has to show that it is one,
    obtain ⟨nested, hread⟩ := exists_nested depth
    obtain ⟨c, q, htext, hc⟩ := hn.exists_head
    obtain ⟨_, _, hopen, hblank, -⟩ := opens_spells (show Spells depth n.text v from .number hn hv)
    obtain ⟨rfl, rfl⟩ := List.cons.inj (htext.symm.trans hopen)
    have hnumber := takes_readNumber hn hv hrest.endsNumber
    rw [htext, List.cons_append] at hnumber ⊢
    rw [hread]
    refine takes_readValueWith hbefore hblank ?_
    rwa [readValueAt_number hc]
  | @string depth s str hs =>
    -- a string between its quotes,
    obtain ⟨nested, hread⟩ := exists_nested depth
    cases hs with
    | @mk body cs hbody =>
      have hstring : Takes readString (body ++ '"' :: rest) (String.ofList cs) rest :=
        takes_readString.mpr ⟨body, cs, hbody, rfl, rfl⟩
      obtain ⟨q, hstring, hq⟩ := hstring
      rw [hread, List.cons_append, List.append_assoc]
      refine takes_readValueWith hbefore rfl ⟨q.cons '"', ?_, hq⟩
      have hstring : readString (body ++ (['"'] ++ rest)) = .ok (String.ofList cs, q) := hstring
      unfold readValueAt
      simp only [Char.reduceEq, if_false, if_true, hstring]
  | @array depth value body vs hvalue hbody ih =>
    -- What the items are read as is known by induction, and how they begin from their spellings.
    have hitem : Complete (readValue depth) value := fun t v ht rest hrest => ih t v ht .nil rest hrest
    have hopens : Opens value := fun t v ht => opens_spells (hvalue t v ht)
    rw [List.cons_append, List.append_assoc]
    exact takes_readValueWith hbefore rfl
      (readNested_append (b := .list) (.inl rfl) hopens hitem hbody '[' rest)
  | @object depth value body ms hvalue hbody ih =>
    have hitem : Complete (readMember (readValue depth)) (SpellsMember value) :=
      complete_readMember fun t v ht before hbefore rest hrest => ih t v ht hbefore rest hrest
    rw [List.cons_append, List.append_assoc]
    exact takes_readValueWith hbefore rfl
      (readNested_append (b := .object) (.inr rfl) opens_spellsMember hitem hbody '\x7b' rest)

/-! ### Documents -/

/-- **A document is read if and only if it is spelled.** Behind the value there are blanks up to the
end, so nothing is left that could be read differently. -/
theorem readDocument_eq_ok_iff {s : List Char} {v : Json} :
    readDocument s = .ok v ↔ ∃ before t after, AreBlanks before ∧ Spells maxDepth t v ∧
      AreBlanks after ∧ s = before ++ t ++ after := by
  constructor
  · intro h
    -- One value is read, and only blanks are left.
    unfold readDocument at h
    split at h
    · cases h
    next w r hread =>
    split at h
    · next hskip =>
      cases h
      obtain ⟨before, t, hbefore, ht, htext⟩ := sound_readValue maxDepth ⟨r, hread, rfl⟩
      obtain ⟨after, hafter, hr⟩ := exists_blanks hskip
      refine ⟨before, t, after, hbefore, ht, hafter, ?_⟩
      rw [List.append_assoc, htext, hr, List.append_nil]
    · cases h
  · rintro ⟨before, t, after, hbefore, ht, hafter, rfl⟩
    -- From blanks alone nothing is left.
    have hskip : skipBlanks after = [] := skipBlanks_eq_nil hafter
    obtain ⟨r, hread, hr⟩ := takes_readValue ht hbefore after (endsValue_of_skipBlanks hskip)
    rw [← hr] at hskip
    unfold readDocument
    rw [List.append_assoc]
    simp only [hread, hskip]

/-- **The documents are read, each as its value, and nothing else is.** -/
theorem parse_eq_ok_iff {text : String} {v : Json} : parse text = .ok v ↔ IsDocument text v := by
  rw [IsDocument, ← readDocument_eq_ok_iff, parse]
  cases readDocument text.toList <;> simp [Except.mapError]

end Json

end IncludeMoves
