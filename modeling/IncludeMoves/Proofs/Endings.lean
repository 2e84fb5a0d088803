import IncludeMoves.Text.Pattern

/-!
# What a pattern reads

The endings of a pattern at a place are described without the order in which they are tried: by the
words that the pattern reads from there.

* `Pattern.Reads` — the words that a pattern reads, with line starts and groups left aside;
* `Pattern.mem_endings_iff` — a plain pattern, one without line start and group, ends exactly behind
  the words that it reads;
* `Pattern.mem_endings_sequence_append`, `Pattern.mem_endings_group_seq` — what plain patterns or a
  group in front of another pattern add.

Where all endings agree, the order of preference is of no importance, and
`Pattern.exists_first?_eq_some` says enough of the preferred one. The last section gives the steps
of a search, one lemma for a character outside all matches and one for a match.
-/

namespace IncludeMoves

namespace Place

/-- The place behind the text `w`, where that is what follows. -/
def skip (p : Place) (w : List Char) : Place :=
  ⟨p.offset + w.length, w.getLast?.or p.before, p.rest.drop w.length⟩

theorem skip_append (p : Place) (u v : List Char) : p.skip (u ++ v) = (p.skip u).skip v := by
  simp only [skip, List.length_append, List.getLast?_append, Option.or_assoc, List.drop_drop,
    Nat.add_assoc]

theorem rest_skip {p : Place} {w r : List Char} (h : p.rest = w ++ r) : (p.skip w).rest = r := by
  simp [skip, h]

theorem next_eq_skip {p : Place} {c : Char} {r : List Char} (h : p.rest = c :: r) :
    p.next c r = p.skip [c] := by
  simp [next, skip, h]

/-- The text between the place behind `u` and the one behind `u ++ v` is `v`. -/
theorem upTo_skip_append {p : Place} {u v r : List Char} (h : p.rest = u ++ (v ++ r)) :
    (p.skip u).upTo ((p.skip u).skip v) = v := by
  have hrest : (p.skip u).rest = v ++ r := rest_skip h
  rw [upTo, hrest]
  simp [skip]

end Place

namespace Pattern

/-! ### The words that a pattern reads -/

/-- **The words that a pattern reads.** A line start reads nothing, and a group what is in it. Unlike
endings this says nothing of where the word stands or which word is preferred. -/
def Reads : Pattern → List Char → Prop
  | empty, w => w = []
  | lineStart, w => w = []
  | one k, w => ∃ c, k.contains c = true ∧ w = [c]
  | many k, w => ∀ c ∈ w, k.contains c = true
  | seq a b, w => ∃ u v, a.Reads u ∧ b.Reads v ∧ w = u ++ v
  | either a b, w => a.Reads w ∨ b.Reads w
  | group a, w => a.Reads w

/-- A pattern is plain if it reads the same words everywhere and reports no group. All parts of the
directive pattern but two are plain, so only those two need an argument of their own. -/
def isPlain : Pattern → Bool
  | empty => true
  | lineStart => false
  | one _ => true
  | many _ => true
  | seq a b => a.isPlain && b.isPlain
  | either a b => a.isPlain && b.isPlain
  | group _ => false

theorem reads_word {cs w : List Char} : (word cs).Reads w ↔ w = cs := by
  induction cs generalizing w with
  | nil => exact Iff.rfl
  | cons c cs ih =>
    change (∃ u v, (one (.only c)).Reads u ∧ (word cs).Reads v ∧ w = u ++ v) ↔ w = c :: cs
    constructor
    · rintro ⟨u, v, ⟨x, hx, rfl⟩, hv, rfl⟩
      obtain rfl : x = c := by simpa [CharClass.contains] using hx
      rw [ih.mp hv, List.singleton_append]
    · rintro rfl
      exact ⟨[c], cs, ⟨c, by simp [CharClass.contains], rfl⟩, ih.mpr rfl, rfl⟩

/-! ### Endings -/

/-- A run ends behind each word of the class at the start of the text. The induction is on the text,
with the places that were found before as an accumulator. -/
theorem mem_runs {k : CharClass} {found : List Place} {p q : Place} {text : List Char}
    (h : p.rest = text) :
    q ∈ runs k found p text ↔
      q ∈ found ∨ ∃ w r, text = w ++ r ∧ (∀ c ∈ w, k.contains c = true) ∧ q = p.skip w := by
  -- Each character moves the start and adds an ending to those found, so both are free.
  induction text generalizing found p with
  | nil =>
    rw [runs, List.mem_cons, or_comm]
    refine or_congr_right ⟨?_, ?_⟩
    · rintro rfl
      exact ⟨[], [], rfl, by simp, rfl⟩
    · rintro ⟨w, r, hw, -, rfl⟩
      obtain ⟨rfl, -⟩ := List.append_eq_nil_iff.mp hw.symm
      rfl
  | cons c text ih =>
    rw [runs]
    split
    · next hc =>
      -- The class has `c`: a word ends in front of it, or begins with it.
      rw [ih (p := p.next c text) rfl, List.mem_cons, Place.next_eq_skip h, or_assoc]
      constructor
      · rintro (rfl | hq | ⟨w, r, rfl, hw, rfl⟩)
        · exact .inr ⟨[], c :: text, rfl, by simp, rfl⟩
        · exact .inl hq
        · exact .inr ⟨c :: w, r, rfl, by simpa [hc] using hw, (p.skip_append [c] w).symm⟩
      · rintro (hq | ⟨w, r, hw, hk, rfl⟩)
        · exact .inr (.inl hq)
        · cases w with
          | nil => exact .inl rfl
          | cons d w =>
            obtain ⟨rfl, rfl⟩ : c = d ∧ text = w ++ r := by simpa using hw
            exact .inr (.inr ⟨w, r, rfl, fun x hx => hk x (by simp [hx]), p.skip_append [c] w⟩)
    · next hc =>
      -- The class does not have `c`, so only the empty word is read.
      rw [List.mem_cons, or_comm]
      refine or_congr_right ⟨?_, ?_⟩
      · rintro rfl
        exact ⟨[], c :: text, rfl, by simp, rfl⟩
      · rintro ⟨w, r, hw, hk, rfl⟩
        cases w with
        | nil => rfl
        | cons d w =>
          obtain ⟨rfl, -⟩ : c = d ∧ text = w ++ r := by simpa using hw
          exact absurd (hk c (by simp)) hc

theorem mem_endings_seq {a b : Pattern} {p : Place} {e : Ending} :
    e ∈ (seq a b).endings p ↔
      ∃ f ∈ a.endings p, ∃ g ∈ b.endings f.place, e = ⟨g.place, g.group.or f.group⟩ := by
  simp only [endings, List.mem_flatMap, List.mem_map, eq_comm]

/-- **A plain pattern ends behind each word that it reads**, and nowhere else. So for plain patterns
matching is a question about words, without places and without an order. -/
theorem mem_endings_iff {a : Pattern} (ha : a.isPlain = true) {p : Place} {e : Ending} :
    e ∈ a.endings p ↔ ∃ w r, p.rest = w ++ r ∧ a.Reads w ∧ e = ⟨p.skip w, none⟩ := by
  -- On the pattern, at every place: the second part of a sequence starts where the first one ends.
  induction a generalizing p e with
  | empty =>
    simp only [endings, Reads, List.mem_singleton]
    exact ⟨fun h => ⟨[], p.rest, rfl, rfl, h⟩, fun ⟨w, _, _, hw, h⟩ => by rw [h, hw]; rfl⟩
  | lineStart => simp [isPlain] at ha
  | one k =>
    simp only [endings, Reads]
    split
    · next hp => simp [hp]
    · next c r hp =>
      constructor
      · intro h
        split at h
        · next hc =>
          exact ⟨[c], r, hp, ⟨c, hc, rfl⟩, by rw [← Place.next_eq_skip hp]; simpa using h⟩
        · simp at h
      · rintro ⟨w, r', hw, ⟨d, hd, rfl⟩, rfl⟩
        obtain ⟨rfl, rfl⟩ : c = d ∧ r = r' := by simpa [hp] using hw
        rw [if_pos hd, Place.next_eq_skip hp]
        exact List.mem_singleton_self _
  | many k =>
    simp only [endings, Reads, List.mem_map, mem_runs rfl, List.not_mem_nil, false_or]
    constructor
    · rintro ⟨q, ⟨w, r, hp, hw, rfl⟩, rfl⟩
      exact ⟨w, r, hp, hw, rfl⟩
    · rintro ⟨w, r, hp, hw, rfl⟩
      exact ⟨p.skip w, ⟨w, r, hp, hw, rfl⟩, rfl⟩
  | seq a b iha ihb =>
    obtain ⟨ha, hb⟩ : a.isPlain = true ∧ b.isPlain = true := by simpa [isPlain] using ha
    simp only [mem_endings_seq, iha ha, ihb hb, Reads]
    constructor
    · rintro ⟨_, ⟨u, r, hp, hu, rfl⟩, _, ⟨v, s, hr, hv, rfl⟩, rfl⟩
      -- What the two parts read, one behind the other, is one word.
      rw [Place.rest_skip hp] at hr
      exact ⟨u ++ v, s, by rw [hp, hr, List.append_assoc], ⟨u, v, hu, hv, rfl⟩,
        by rw [Place.skip_append]; rfl⟩
    · rintro ⟨_, s, hp, ⟨u, v, hu, hv, rfl⟩, rfl⟩
      rw [List.append_assoc] at hp
      exact ⟨_, ⟨u, v ++ s, hp, hu, rfl⟩, _, ⟨v, s, Place.rest_skip hp, hv, rfl⟩,
        by rw [Place.skip_append]; rfl⟩
  | either a b iha ihb =>
    obtain ⟨ha, hb⟩ : a.isPlain = true ∧ b.isPlain = true := by simpa [isPlain] using ha
    simp only [endings, List.mem_append, iha ha, ihb hb, Reads]
    constructor
    · rintro (⟨w, r, hp, hw, rfl⟩ | ⟨w, r, hp, hw, rfl⟩)
      · exact ⟨w, r, hp, .inl hw, rfl⟩
      · exact ⟨w, r, hp, .inr hw, rfl⟩
    · rintro ⟨w, r, hp, hw | hw, rfl⟩
      · exact .inl ⟨w, r, hp, hw, rfl⟩
      · exact .inr ⟨w, r, hp, hw, rfl⟩
  | group a _ => simp [isPlain] at ha

theorem mem_endings_lineStart_seq {b : Pattern} {p : Place} {e : Ending} :
    e ∈ (seq lineStart b).endings p ↔ p.startsLine = true ∧ e ∈ b.endings p := by
  by_cases hp : p.startsLine = true
  · simp [endings, hp]
  · simp [endings, hp]

/-- A plain pattern in front only moves the place from which the rest is read. -/
theorem mem_endings_seq_of_isPlain {a b : Pattern} (ha : a.isPlain = true) {p : Place}
    {e : Ending} :
    e ∈ (seq a b).endings p ↔
      ∃ u r, p.rest = u ++ r ∧ a.Reads u ∧ e ∈ b.endings (p.skip u) := by
  simp only [mem_endings_seq, mem_endings_iff ha]
  constructor
  · rintro ⟨_, ⟨u, r, hp, hu, rfl⟩, g, hg, rfl⟩
    exact ⟨u, r, hp, hu, by simpa using hg⟩
  · rintro ⟨u, r, hp, hu, he⟩
    exact ⟨_, ⟨u, r, hp, hu, rfl⟩, e, he, by simp⟩

/-- Plain patterns at the start of a sequence only move the place from which the rest is read. -/
theorem mem_endings_sequence_append {ps qs : List Pattern} (hps : ∀ a ∈ ps, a.isPlain = true)
    {p : Place} {e : Ending} :
    e ∈ (sequence (ps ++ qs)).endings p ↔
      ∃ u r, p.rest = u ++ r ∧ (sequence ps).Reads u ∧ e ∈ (sequence qs).endings (p.skip u) := by
  induction ps generalizing p with
  | nil =>
    constructor
    · exact fun h => ⟨[], p.rest, rfl, rfl, h⟩
    · rintro ⟨_, _, _, rfl, he⟩
      exact he
  | cons a ps ih =>
    -- The others are read from every place, so from that behind the first one as well.
    have ih := fun p => ih (p := p) fun b hb => hps b (by simp [hb])
    change e ∈ (seq a (sequence (ps ++ qs))).endings p ↔ _
    simp only [mem_endings_seq_of_isPlain (hps a (by simp)), ih]
    constructor
    -- The first pattern reads `u` and the others read `v`, so together they read both.
    · rintro ⟨u, r, hp, hu, v, s, hr, hv, he⟩
      rw [Place.rest_skip hp] at hr
      exact ⟨u ++ v, s, by rw [hp, hr, List.append_assoc], ⟨u, v, hu, hv, rfl⟩,
        by rwa [Place.skip_append]⟩
    · rintro ⟨_, s, hp, ⟨u, v, hu, hv, rfl⟩, he⟩
      rw [List.append_assoc] at hp
      rw [Place.skip_append] at he
      exact ⟨u, v ++ s, hp, hu, v, s, Place.rest_skip hp, hv, he⟩

/-- A group of a plain pattern, with a plain pattern behind it: the group is what the first one
reads. -/
theorem mem_endings_group_seq {a b : Pattern} (ha : a.isPlain = true) (hb : b.isPlain = true)
    {p : Place} {e : Ending} :
    e ∈ (seq (group a) b).endings p ↔
      ∃ t v r, p.rest = t ++ (v ++ r) ∧ a.Reads t ∧ b.Reads v ∧
        e = ⟨(p.skip t).skip v, some (p, p.skip t)⟩ := by
  -- The group reports the places in front of and behind the word.
  have hgroup : ∀ f : Ending, f ∈ (group a).endings p ↔
      ∃ t r, p.rest = t ++ r ∧ a.Reads t ∧ f = ⟨p.skip t, some (p, p.skip t)⟩ := by
    intro f
    simp only [endings, List.mem_map, mem_endings_iff ha]
    constructor
    · rintro ⟨_, ⟨t, r, hp, ht, rfl⟩, rfl⟩
      exact ⟨t, r, hp, ht, rfl⟩
    · rintro ⟨t, r, hp, ht, rfl⟩
      exact ⟨_, ⟨t, r, hp, ht, rfl⟩, rfl⟩
  -- And behind it the second pattern reads on.
  simp only [mem_endings_seq, mem_endings_iff hb, hgroup]
  constructor
  · rintro ⟨_, ⟨t, r, hp, ht, rfl⟩, _, ⟨v, s, hr, hv, rfl⟩, rfl⟩
    rw [Place.rest_skip hp] at hr
    exact ⟨t, v, s, by rw [hp, hr], ht, hv, rfl⟩
  · rintro ⟨t, v, r, hp, ht, hv, rfl⟩
    exact ⟨_, ⟨t, v ++ r, hp, ht, rfl⟩, _, ⟨v, r, Place.rest_skip hp, hv, rfl⟩, rfl⟩

/-! ### The preferred ending -/

theorem first?_eq_none {a : Pattern} {p : Place} (h : ∀ e, e ∉ a.endings p) :
    a.first? p = none := by
  rw [first?, List.eq_nil_iff_forall_not_mem.mpr h, List.head?_nil]

/-- Where there is an ending at all, one of the endings is the preferred one. -/
theorem exists_first?_eq_some {a : Pattern} {p : Place} {e : Ending} (he : e ∈ a.endings p) :
    ∃ f ∈ a.endings p, a.first? p = some f := by
  rw [first?]
  cases hs : a.endings p with
  | nil => simp [hs] at he
  | cons f fs => exact ⟨f, by simp, rfl⟩

/-! ### The steps of a search -/

/-- What the search has found before stands in front of what it finds from here. This is a well-founded
induction, since the search goes on behind a match, which may be long. -/
theorem piecesFrom_eq_append (a : Pattern) (found : List Piece) (before : Option Char)
    (text : List Char) :
    a.piecesFrom found before text = found.reverse ++ a.piecesFrom [] before text := by
  -- On the length, since a match takes any number of characters; each step adds to `found`.
  induction hn : text.length using Nat.strongRecOn generalizing found before text with
  | ind n ih =>
    cases text with
    | nil => simp [piecesFrom]
    | cons c r =>
      have hr : r.length < n := by simp [← hn]
      rw [piecesFrom, piecesFrom]
      split
      · rw [ih _ hr _ _ _ rfl, ih _ hr [.plain c] _ _ rfl]
        simp
      · next e _ =>
        split
        · rw [ih _ hr _ _ _ rfl, ih _ hr [.plain c] _ _ rfl]
          simp
        · next he =>
          -- A match that is not empty leaves less than the whole text.
          have hd : ((c :: r).drop e.place.offset).length < n := by
            rw [← hn, List.length_drop, List.length_cons]
            omega
          rw [ih _ hd _ _ _ rfl, ih _ hd [_] _ _ rfl]
          simp

/-- Where no match starts, one character is passed over. -/
theorem piecesFrom_of_first?_eq_none {a : Pattern} {before : Option Char} {c : Char}
    {r : List Char} (h : a.first? ⟨0, before, c :: r⟩ = none) :
    a.piecesFrom [] before (c :: r) = .plain c :: a.piecesFrom [] (some c) r := by
  rw [piecesFrom, h]
  exact piecesFrom_eq_append a [.plain c] (some c) r

/-- Where a match of the word `w` starts, the search goes on behind it. The word is not empty, so that
it goes on further behind. -/
theorem piecesFrom_of_first?_eq_some {a : Pattern} {before : Option Char} {w r : List Char}
    {e : Ending} (hw : w ≠ []) (h : a.first? ⟨0, before, w ++ r⟩ = some e)
    (he : e.place = Place.skip ⟨0, before, w ++ r⟩ w) :
    a.piecesFrom [] before (w ++ r) =
      .hit w e.captured :: a.piecesFrom [] w.getLast? r := by
  -- The search goes by the offset of the ending and the character in front of it.
  obtain ⟨c, w, rfl⟩ := List.exists_cons_of_ne_nil hw
  have hoffset : e.place.offset = (c :: w).length := by simp [he, Place.skip]
  have hbefore : e.place.before = (c :: w).getLast? := by
    simp [he, Place.skip, List.getLast?_cons]
  rw [List.cons_append] at h ⊢
  rw [piecesFrom, h]
  simp only [hoffset, List.length_cons, Nat.add_one_ne_zero, if_false, hbefore]
  rw [piecesFrom_eq_append]
  simp

end Pattern

end IncludeMoves
