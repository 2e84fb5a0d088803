import IncludeMoves.Proofs.JsonLexemes

/-!
# Reading numbers

A number is read in three parts, and every part changes what the digits come to so far. The changes are
`Json.Digits.ofWhole`, `Json.Digits.withFraction` and `Json.Digits.withExponent?`, and together they
make the value of the number as it is written (`Json.Numeral.value?_eq`).

A number has no mark at its end. The parts are taken as they are written only if nothing follows that
could belong to them, so `Json.takes_readNumber` asks for a text that `Json.EndsNumber`.
-/

namespace IncludeMoves

namespace Json

variable {α : Type} {s rest : List Char} {c : Char} {n : Nat}

/-! ### Digits -/

theorem decimalFrom_cons (n : Nat) (d : Char) (ds : List Char) :
    decimalFrom n (d :: ds) = decimalFrom (n * 10 + digitValue d) ds := by
  rw [decimalFrom, List.foldl_cons, decimalFrom]

theorem le_decimalFrom (n : Nat) (ds : List Char) : n ≤ decimalFrom n ds := by
  induction ds generalizing n with
  | nil => exact Nat.le_refl n
  | cons d ds ih =>
    have hle := ih (n * 10 + digitValue d)
    rw [decimalFrom_cons]
    omega

/-- **Digits are dropped if they do not fit**; if they all fit, they are read as they are. -/
theorem absorb_cases {limit : Nat} (hn : n < limit) (ds : List Char) :
    (decimalFrom n ds < limit ∧ absorb limit n ds = (decimalFrom n ds, [])) ∨
      (limit ≤ decimalFrom n ds ∧ (absorb limit n ds).2 ≠ []) := by
  induction ds generalizing n with
  | nil => exact .inl ⟨hn, rfl⟩
  | cons d ds ih =>
    rw [absorb, decimalFrom_cons]
    split
    · next hlt => exact ih hlt
    · next hle =>
      exact .inr ⟨Nat.le_trans (Nat.le_of_not_lt hle) (le_decimalFrom _ ds), List.cons_ne_nil d ds⟩

theorem absorb_snd_eq_nil {limit : Nat} (hn : n < limit) {ds : List Char} :
    (absorb limit n ds).2 = [] ↔ decimalFrom n ds < limit := by
  rcases absorb_cases hn ds with ⟨hlt, heq⟩ | ⟨hle, hne⟩
  · simp [heq, hlt]
  · simp [hne, hle]

theorem absorb_fst {limit : Nat} (hn : n < limit) {ds : List Char} (h : decimalFrom n ds < limit) :
    (absorb limit n ds).1 = decimalFrom n ds := by
  rcases absorb_cases hn ds with ⟨-, heq⟩ | ⟨hle, -⟩
  · rw [heq]
  · omega

theorem areDigits_digits (s : List Char) : AreDigits (digits s) :=
  fun _ hc => List.mem_takeWhile_imp hc

theorem digits_append_afterDigits (s : List Char) : digits s ++ afterDigits s = s :=
  List.takeWhile_append_dropWhile

theorem digits_append {ds : List Char} (hds : AreDigits ds) (hrest : digits rest = []) :
    digits (ds ++ rest) = ds := by
  rw [digits, List.takeWhile_append_of_pos hds]
  rw [digits] at hrest
  rw [hrest, List.append_nil]

theorem afterDigits_append {ds : List Char} (hds : AreDigits ds) (hrest : digits rest = []) :
    afterDigits (ds ++ rest) = rest := by
  have hall := digits_append_afterDigits (ds ++ rest)
  rw [digits_append hds hrest] at hall
  exact List.append_cancel_left hall

theorem digits_eq_nil (h : ∀ c, rest.head? = some c → isDigit c = false) : digits rest = [] := by
  cases rest with
  | nil => rfl
  | cons c rest => exact List.takeWhile_cons_of_neg (by simp [h c rfl])

/-! ### Parts of numbers -/

namespace Digits

/-- What the digits in front of the point come to. Those that do not fit any more are counted, as powers
of ten. -/
def ofWhole (ds : List Char) : Digits :=
  ⟨(absorb digitsLimit 0 ds).1, (absorb digitsLimit 0 ds).2.length, (absorb digitsLimit 0 ds).2 = []⟩

/-- The same with the digits behind the point. -/
def withFraction (d : Digits) (ds : List Char) : Digits :=
  if ds = [] then d
  else ⟨(absorb digitsLimit d.value ds).1,
    d.power - (ds.length - (absorb digitsLimit d.value ds).2.length : Nat), false⟩

/-- The same with an exponent, unless that is out of range. An exponent with too many digits to be kept
is as good as infinite: the number is zero or too large. -/
def withExponent? (d : Digits) : Option Exponent → Option Digits
  | none => some d
  | some x =>
    if decimal x.digits < exponentLimit then some ⟨d.value, d.power + x.value, false⟩
    else if d.value = 0 ∨ x.isNegative then some ⟨0, 0, false⟩
    else none

end Digits

/-- The digits in front of the point are read to their end. A leading zero is the only digit, and what
follows is no digit, or it would have been taken as well. -/
theorem takes_readWhole {d : Digits} :
    Takes readWhole s d rest ↔
      ∃ ds, Numeral.IsWhole ds ∧ digits rest = [] ∧ d = .ofWhole ds ∧ s = ds ++ rest := by
  constructor
  · rintro ⟨r, h, rfl⟩
    unfold readWhole at h
    split at h
    · cases h
    next c t =>
    -- A digit has to come first, and a zero has to be the only one.
    split at h
    · cases h
    next hc =>
    split at h
    · cases h
    next hzero =>
    cases h
    -- The number goes on as far as there are digits.
    have hall : t = digits t ++ afterDigits t := (digits_append_afterDigits t).symm
    refine ⟨c :: digits t, ⟨?_, List.cons_ne_nil _ _, fun h => ?_⟩, ?_, rfl, congrArg (c :: ·) hall⟩
    · intro x hx
      rcases List.mem_cons.mp hx with rfl | hx
      · simpa using hc
      · exact areDigits_digits t x hx
    · cases h
      rw [not_and_not_right] at hzero
      rw [hzero rfl]
    -- What is left does not start with a digit.
    · refine digits_eq_nil fun x hx => ?_
      have hhead := List.head?_dropWhile_not isDigit t
      have hx : (t.dropWhile isDigit).head? = some x := hx
      simpa [hx] using hhead
  · rintro ⟨ds, hds, hrest, rfl, rfl⟩
    obtain ⟨c, t, rfl⟩ := List.exists_cons_of_ne_nil hds.ne_nil
    have hc : isDigit c = true := hds.digits c List.mem_cons_self
    have ht : AreDigits t := fun x hx => hds.digits x (List.mem_cons_of_mem c hx)
    -- A zero in front has no other digit behind it.
    have hzero : ¬(c = '0' ∧ digits (t ++ rest) ≠ []) := by
      rintro ⟨rfl, hne⟩
      rw [digits_append ht hrest] at hne
      exact hne (List.cons.inj (hds.no_leading_zero rfl)).2
    unfold Takes
    rw [List.cons_append]
    unfold readWhole
    simp only [hc, Bool.not_true, Bool.false_eq_true, if_false, if_neg hzero]
    refine ⟨⟨afterDigits (t ++ rest), Nat.lt_succ_of_le (length_afterDigits_le _)⟩, ?_,
      afterDigits_append ht hrest⟩
    rw [digits_append ht hrest]
    rfl

/-! ### Fractions -/

theorem withFraction_nil (d : Digits) : d.withFraction [] = d :=
  if_pos rfl

/-- A fraction that is read is written with its point and digits. -/
theorem eq_append_of_readFraction {d d' : Digits} {r : Remainder s}
    (h : readFraction d s = .ok (d', r)) :
    ∃ ds, AreDigits ds ∧ d' = d.withFraction ds ∧ s = Numeral.fractionText ds ++ r.1 := by
  unfold readFraction at h
  split at h
  · next t =>
    -- There is a point. Without a digit behind it the reading fails.
    split at h
    · split at h <;> cases h
    · next hne =>
      cases h
      have hds : digits t ≠ [] := fun h => hne h
      refine ⟨digits t, areDigits_digits t, ?_, ?_⟩
      · rw [Digits.withFraction, if_neg hds]
      · rw [Numeral.fractionText, if_neg hds]
        exact congrArg ('.' :: ·) (digits_append_afterDigits t).symm
  -- There is no point.
  · cases h
    exact ⟨[], fun _ hc => absurd hc List.not_mem_nil, (withFraction_nil d).symm, rfl⟩

theorem readFraction_append {ds : List Char} (d : Digits) (hds : AreDigits ds)
    (hrest : digits rest = []) (hpoint : rest.head? ≠ some '.') :
    ∃ r, readFraction d (Numeral.fractionText ds ++ rest) = .ok (d.withFraction ds, r) ∧
      r.1 = rest := by
  -- Without digits the fraction has no point either.
  by_cases hne : ds = []
  · subst hne
    rw [Numeral.fractionText, if_pos rfl, withFraction_nil, List.nil_append]
    unfold readFraction
    split
    · exact absurd rfl hpoint
    · exact ⟨_, rfl, rfl⟩
  · rw [Numeral.fractionText, if_neg hne, List.cons_append, Digits.withFraction, if_neg hne]
    unfold readFraction
    simp only [digits_append hds hrest]
    exact ⟨_, rfl, afterDigits_append hds hrest⟩

/-! ### Exponents -/

/-- The sign in front of an exponent, if there is one. -/
theorem exists_sign (s : List Char) :
    ∃ sign : Option Char, (∀ c, sign = some c → c = '+' ∨ c = '-') ∧
      s = sign.toList ++ (exponentSign s).2 ∧ (exponentSign s).1 = (sign == some '-') := by
  unfold exponentSign
  split
  · exact ⟨some '+', by simp, rfl, rfl⟩
  · exact ⟨some '-', by simp, rfl, rfl⟩
  · exact ⟨none, by simp, rfl, rfl⟩

theorem exponentSign_append {sign : Option Char} (hsign : ∀ c, sign = some c → c = '+' ∨ c = '-')
    (hs : ∀ c, s.head? = some c → isDigit c = true) :
    exponentSign (sign.toList ++ s) = (sign == some '-', s) := by
  cases sign with
  | none =>
    -- Without a sign the exponent starts with a digit, and that is none.
    rw [Option.toList_none, List.nil_append]
    unfold exponentSign
    split
    · exact absurd (hs '+' rfl) (by decide)
    · exact absurd (hs '-' rfl) (by decide)
    · rfl
  | some c => rcases hsign c rfl with rfl | rfl <;> rfl

theorem exists_ok_eq_ok_iff {x y : α} {q : Remainder s} :
    (∃ r : Remainder s, (Except.ok (x, q) : Except Fault _) = .ok (y, r) ∧ r.1 = rest) ↔
      some x = some y ∧ q.1 = rest := by
  constructor
  · rintro ⟨r, h, rfl⟩
    cases h
    exact ⟨rfl, rfl⟩
  · rintro ⟨h, rfl⟩
    cases h
    exact ⟨q, rfl, rfl⟩

/-- An exponent that is there counts if it is in range. -/
theorem readExponent_mark {d d' : Digits} {e : Char} {t : List Char} {sign : Option Char}
    (hmark : e = 'e' ∨ e = 'E') (hdigits : digits (exponentSign t).2 ≠ [])
    (hsign : (exponentSign t).1 = (sign == some '-')) :
    (∃ r, readExponent d (e :: t) = .ok (d', r) ∧ r.1 = rest) ↔
      d.withExponent? (some ⟨e, sign, digits (exponentSign t).2⟩) = some d' ∧
        afterDigits (exponentSign t).2 = rest := by
  -- The first digit of the exponent is at hand.
  obtain ⟨c, q, hq, hc⟩ : ∃ c q, (exponentSign t).2 = c :: q ∧ isDigit c = true := by
    cases hq : (exponentSign t).2 with
    | nil => exact absurd (by rw [hq]; rfl) hdigits
    | cons c q =>
      refine ⟨c, q, rfl, ?_⟩
      by_contra hc
      exact hdigits (by rw [hq, digits, List.takeWhile_cons_of_neg hc])
  -- The digits fit exactly if their value stays below the limit.
  have hfits : (absorb exponentLimit 0 (digits (exponentSign t).2)).2 = [] ↔
      decimal (digits (exponentSign t).2) < exponentLimit := absorb_snd_eq_nil (by decide)
  unfold readExponent Digits.withExponent? Exponent.value Exponent.isNegative
  simp only [if_pos hmark, hsign]
  split
  · next h => cases hq.symm.trans h
  next c' q' h =>
  cases hq.symm.trans h
  rw [if_neg (by simp [hc])]
  -- An exponent that fits is taken; of another one only the sign counts.
  by_cases hlt : decimal (digits (exponentSign t).2) < exponentLimit
  · rw [if_pos (hfits.mpr hlt), if_pos hlt, absorb_fst (by decide) hlt]
    exact exists_ok_eq_ok_iff
  · rw [if_neg (fun h => hlt (hfits.mp h)), if_neg hlt]
    split
    · exact exists_ok_eq_ok_iff
    · simp

/-- An exponent that is read is written with its mark, a sign or none, and digits; or there is none, and
nothing has been taken. -/
theorem eq_append_of_readExponent {d d' : Digits} {r : Remainder s}
    (h : readExponent d s = .ok (d', r)) :
    ∃ x : Option Exponent, (∀ y, x = some y → y.IsWritten) ∧ d.withExponent? x = some d' ∧
      s = Exponent.text? x ++ r.1 := by
  -- Without a mark there is no exponent.
  have hnone : ∀ {s : List Char} {r : Remainder s}, (Except.ok (d, .all s) : Except Fault _) = .ok (d', r) →
      ∃ x : Option Exponent, (∀ y, x = some y → y.IsWritten) ∧ d.withExponent? x = some d' ∧
        s = Exponent.text? x ++ r.1 := by
    intro s r h
    cases h
    exact ⟨none, by simp, rfl, rfl⟩
  cases s with
  | nil => exact hnone h
  | cons e t =>
    by_cases hmark : e = 'e' ∨ e = 'E'
    -- With a mark there are digits behind the sign, or the reader would have failed.
    · obtain ⟨sign, hsign, ht, hnegative⟩ := exists_sign t
      have hdigits : digits (exponentSign t).2 ≠ [] := by
        intro hnil
        unfold readExponent at h
        simp only [if_pos hmark] at h
        split at h
        · cases h
        next c q hq =>
        split at h
        · cases h
        next hc =>
        rw [hq, digits, List.takeWhile_cons_of_pos (by simpa using hc)] at hnil
        cases hnil
      obtain ⟨hd, hr⟩ := (readExponent_mark hmark hdigits hnegative).mp ⟨r, h, rfl⟩
      refine ⟨some ⟨e, sign, digits (exponentSign t).2⟩, fun y hy => ?_, hd, ?_⟩
      · exact Option.some.inj hy ▸ ⟨hmark, hsign, areDigits_digits _, hdigits⟩
      · rw [← hr]
        show e :: t = e :: (sign.toList ++ digits (exponentSign t).2) ++ afterDigits (exponentSign t).2
        rw [List.cons_append, List.append_assoc, digits_append_afterDigits, ← ht]
    -- Any other character is left to what follows the numeral.
    · unfold readExponent at h
      simp only [if_neg hmark] at h
      exact hnone h

/-- And an exponent that is written so is read, if no digit follows. Without an exponent no mark may
follow, which would be read as the beginning of one. -/
theorem readExponent_append {d d' : Digits} {x : Option Exponent}
    (hx : ∀ y, x = some y → y.IsWritten) (hd : d.withExponent? x = some d')
    (hrest : digits rest = []) (hmark : rest.head? ≠ some 'e' ∧ rest.head? ≠ some 'E') :
    ∃ r, readExponent d (Exponent.text? x ++ rest) = .ok (d', r) ∧ r.1 = rest := by
  cases x with
  | none =>
    cases hd
    show ∃ r, readExponent d rest = .ok (d, r) ∧ r.1 = rest
    -- Without an exponent nothing is read. What follows must not look like the mark of one.
    cases rest with
    | nil => exact ⟨_, rfl, rfl⟩
    | cons c t =>
      have hne : ¬(c = 'e' ∨ c = 'E') := by
        rintro (rfl | rfl)
        · exact hmark.1 rfl
        · exact hmark.2 rfl
      refine ⟨.all (c :: t), ?_, rfl⟩
      unfold readExponent
      simp only [if_neg hne]
  | some y =>
    obtain ⟨hmark', hsign, hds, hne⟩ := hx y rfl
    obtain ⟨e, sign, ds⟩ := y
    -- Behind the mark stand the sign and at least one digit.
    -- The sign is cut off, since the digits behind it do not start with one.
    have htext : exponentSign (sign.toList ++ (ds ++ rest)) = (sign == some '-', ds ++ rest) := by
      refine exponentSign_append hsign fun c hc => ?_
      cases ds with
      | nil => exact absurd rfl hne
      | cons b bs =>
        cases hc
        exact hds _ List.mem_cons_self
    show ∃ r, readExponent d (e :: (sign.toList ++ ds) ++ rest) = .ok (d', r) ∧ r.1 = rest
    rw [List.cons_append, List.append_assoc]
    refine (readExponent_mark hmark' ?_ (congrArg Prod.fst htext)).mpr ?_
    · rw [htext, digits_append hds hrest]
      exact hne
    · rw [htext, digits_append hds hrest]
      exact ⟨hd, afterDigits_append hds hrest⟩

/-! ### Values of numbers -/

namespace Digits

/-- Digits that are in front of the point and all fit are an integer. -/
theorem ofWhole_whole (ds : List Char) : (ofWhole ds).whole = decide (decimal ds < digitsLimit) :=
  decide_eq_decide.mpr (absorb_snd_eq_nil (by decide))

theorem ofWhole_value {ds : List Char} (h : decimal ds < digitsLimit) :
    (ofWhole ds).value = decimal ds :=
  absorb_fst (by decide) h

theorem withFraction_whole (d : Digits) (ds : List Char) :
    (d.withFraction ds).whole = (decide (ds = []) && d.whole) := by
  unfold withFraction
  split <;> simp [*]

theorem withFraction_value (d : Digits) (ds : List Char) :
    (d.withFraction ds).value = (absorb digitsLimit d.value ds).1 := by
  unfold withFraction
  split
  · next h => rw [h, absorb]
  · rfl

theorem withFraction_power (d : Digits) (ds : List Char) :
    (d.withFraction ds).power
      = d.power - (ds.length - (absorb digitsLimit d.value ds).2.length : Nat) := by
  unfold withFraction
  split
  · next h => rw [h, absorb, List.length_nil, Nat.sub_zero, Int.ofNat_zero, Int.sub_zero]
  · rfl

/-- A number that is no integer is rounded. -/
theorem toJson?_of_not_whole {d : Digits} (h : d.whole = false) (negative : Bool) :
    d.toJson? negative = (Binary64.ofDecimal d.value d.power).map (.real negative) := by
  rw [toJson?, if_neg (by simp [h])]

end Digits

/-- **The digits of a number come to its value.** The reader collects significand and power on its way;
the grammar tells the value from the parts of the numeral. -/
theorem Numeral.value?_eq (n : Numeral) :
    (((Digits.ofWhole n.whole).withFraction n.fraction).withExponent? n.exponent).bind
      (fun d => d.toJson? n.negative) = n.value? := by
  obtain ⟨negative, whole, fraction, exponent⟩ := n
  -- What the digits add up to is known of each part, whatever the exponent.
  have hvalue : _ = (absorb digitsLimit (absorb digitsLimit 0 whole).1 fraction).1 :=
    Digits.withFraction_value (.ofWhole whole) fraction
  have hpower := Digits.withFraction_power (.ofWhole whole) fraction
  have hwhole := Digits.withFraction_whole (.ofWhole whole) fraction
  rw [Digits.ofWhole_whole] at hwhole
  cases exponent with
  | none =>
    -- Only digits that all stand in front of the point, and fit, can be an integer.
    show Digits.toJson? _ negative = _
    by_cases hfits : fraction = [] ∧ decimal whole < digitsLimit
    · obtain ⟨rfl, hfits⟩ := hfits
      have hdecimal := Digits.ofWhole_value hfits
      rw [withFraction_nil] at hwhole hvalue hpower ⊢
      have hinteger : ((Digits.ofWhole whole).whole ∧ (!negative ∨ (0 < (Digits.ofWhole whole).value ∧
          (Digits.ofWhole whole).value ≤ integerLimit))) ↔ IsInteger ⟨negative, whole, [], none⟩ := by
        cases negative <;> simp [IsInteger, hwhole, hdecimal, hfits]
      rw [Digits.toJson?, value?]
      simp only [hinteger]
      split
      · rw [hdecimal]
        rfl
      · rw [hvalue, hpower]
        rfl
    -- With a fraction or too many digits it is a float on both sides.
    · have hno : ¬IsInteger ⟨negative, whole, fraction, none⟩ := by
        rintro ⟨hfraction, -, hrange⟩
        refine hfits ⟨hfraction, ?_⟩
        have hlimit : integerLimit < digitsLimit := by decide
        cases negative with
        | false => exact hrange
        | true => exact Nat.lt_of_le_of_lt hrange.2 hlimit
      rw [Digits.toJson?_of_not_whole (by simpa [hwhole] using hfits), value?, if_neg hno, hvalue, hpower]
      rfl
  | some x =>
    -- An exponent makes it a float too, and one that is out of range makes it a fault.
    have hno : ¬IsInteger ⟨negative, whole, fraction, some x⟩ := fun h => nomatch h.2.1
    rw [value?, if_neg hno, Digits.withExponent?]
    simp only [magnitude?, hvalue, hpower]
    split_ifs
    · exact Digits.toJson?_of_not_whole rfl negative
    · exact Digits.toJson?_of_not_whole rfl negative
    · rfl

/-! ### Numbers -/

/-- What may follow a number: nothing that would make it longer. -/
def EndsNumber (rest : List Char) : Prop :=
  ∀ c, rest.head? = some c → isDigit c = false ∧ c ≠ '.' ∧ c ≠ 'e' ∧ c ≠ 'E'

theorem numberSign_cases (s : List Char) :
    s = Numeral.signText (numberSign s).1 ++ (numberSign s).2 := by
  unfold numberSign
  split <;> rfl

theorem numberSign_append {ds : List Char} (hds : Numeral.IsWhole ds) (negative : Bool)
    (rest : List Char) :
    numberSign (Numeral.signText negative ++ (ds ++ rest)) = (negative, ds ++ rest) := by
  cases negative with
  | true => rfl
  | false =>
    -- The first digit is no sign.
    obtain ⟨c, t, rfl⟩ := List.exists_cons_of_ne_nil hds.ne_nil
    show numberSign (c :: (t ++ rest)) = _
    unfold numberSign
    split
    · next h =>
      cases h
      exact absurd (hds.digits '-' List.mem_cons_self) (by decide)
    · rfl

/-- A number that is read is written as it should be. Sign, digits, fraction and exponent are those of
the four readers, one after the other. -/
theorem eq_append_of_readNumber {v : Json} {r : Rest s} (h : readNumber s = .ok (v, r)) :
    ∃ n : Numeral, n.IsWritten ∧ n.value? = some v ∧ s = n.text ++ r.text := by
  -- Every reader on the way has succeeded, and so has the conversion.
  unfold readNumber at h
  split at h
  · cases h
  next d₀ r₀ hwhole =>
  split at h
  · cases h
  next d₁ q hq hfraction =>
  split at h
  · cases h
  next d₂ t ht hexponent =>
  split at h
  · next v' hv =>
    cases h
    -- Each of the three parts is cut off where it ends, and together they are the numeral.
    obtain ⟨ds, hds, -, rfl, hs⟩ := takes_readWhole.mp ⟨r₀, hwhole, rfl⟩
    obtain ⟨fs, hfs, rfl, hr₀⟩ := eq_append_of_readFraction hfraction
    obtain ⟨x, hx, hd₂, hqx⟩ := eq_append_of_readExponent hexponent
    have hr₀ : r₀.text = Numeral.fractionText fs ++ q := hr₀
    refine ⟨⟨(numberSign s).1, ds, fs, x⟩, ⟨hds, hfs, hx⟩, ?_, ?_⟩
    · rw [← Numeral.value?_eq]
      simp only [hd₂, Option.bind_some, hv]
    · calc s = Numeral.signText (numberSign s).1 ++ (numberSign s).2 := numberSign_cases s
        _ = Numeral.signText (numberSign s).1 ++ (ds ++ (Numeral.fractionText fs ++
            (Exponent.text? x ++ t))) := by rw [hs, hr₀, hqx]
        _ = _ := by simp [Numeral.text]
  · cases h

theorem takes_readNumber_of_parts {d₀ d₁ d₂ : Digits} {v : Json} {r : Rest (numberSign s).2}
    {q : Remainder r.text} {t : Remainder q.1} (hwhole : readWhole (numberSign s).2 = .ok (d₀, r))
    (hfraction : readFraction d₀ r.text = .ok (d₁, q))
    (hexponent : readExponent d₁ q.1 = .ok (d₂, t))
    (hv : d₂.toJson? (numberSign s).1 = some v) : Takes readNumber s v t.1 := by
  unfold Takes readNumber
  simp only [hwhole, hfraction, hexponent, hv]
  exact ⟨_, rfl, rfl⟩

theorem head_fractionText {ds : List Char}
    (h : (Numeral.fractionText ds ++ rest).head? = some c) : c = '.' ∨ rest.head? = some c := by
  unfold Numeral.fractionText at h
  split at h
  · exact .inr h
  · exact .inl (Option.some.inj h).symm

theorem head_exponentText {x : Option Exponent} (hx : ∀ y, x = some y → y.IsWritten)
    (h : (Exponent.text? x ++ rest).head? = some c) :
    (c = 'e' ∨ c = 'E') ∨ rest.head? = some c := by
  cases x with
  | none => exact .inr h
  | some y => exact .inl (Option.some.inj h ▸ (hx y rfl).mark)

/-- A number is read if nothing follows that would make it longer. Each part ends where the next one
begins, since it begins with a character that the part cannot have. -/
theorem takes_readNumber {n : Numeral} {v : Json} (hn : n.IsWritten) (hv : n.value? = some v)
    (hrest : EndsNumber rest) : Takes readNumber (n.text ++ rest) v rest := by
  obtain ⟨d, hd, hjson⟩ := Option.bind_eq_some_iff.mp (n.value?_eq.trans hv)
  -- No part goes on into the next one.
  have hbehindFraction : ∀ c, (Exponent.text? n.exponent ++ rest).head? = some c →
      isDigit c = false ∧ c ≠ '.' := by
    intro c hc
    rcases head_exponentText hn.exponent hc with (rfl | rfl) | hc
    · decide
    · decide
    · exact ⟨(hrest c hc).1, (hrest c hc).2.1⟩
  have hbehindWhole :
      digits (Numeral.fractionText n.fraction ++ (Exponent.text? n.exponent ++ rest)) = [] := by
    refine digits_eq_nil fun c hc => ?_
    rcases head_fractionText hc with rfl | hc
    · rfl
    · exact (hbehindFraction c hc).1
  have hwhole := takes_readWhole.mpr ⟨n.whole, hn.whole, hbehindWhole, rfl, rfl⟩
  have hfraction := readFraction_append (.ofWhole n.whole) hn.fraction
    (digits_eq_nil fun c hc => (hbehindFraction c hc).1) fun h => (hbehindFraction '.' h).2 rfl
  have hexponent := readExponent_append hn.exponent hd (digits_eq_nil fun c hc => (hrest c hc).1)
    ⟨fun h => (hrest 'e' h).2.2.1 rfl, fun h => (hrest 'E' h).2.2.2 rfl⟩
  have hsign := numberSign_append hn.whole n.negative
    (Numeral.fractionText n.fraction ++ (Exponent.text? n.exponent ++ rest))
  -- The parts are read from what the readers before them have left.
  rw [Numeral.text, List.append_assoc, List.append_assoc, List.append_assoc]
  generalize Numeral.signText n.negative ++ (n.whole ++ (Numeral.fractionText n.fraction ++
    (Exponent.text? n.exponent ++ rest))) = s at hsign
  -- From here on every step only replaces what is left by what it is known to be.
  obtain ⟨hnegative, hbody⟩ := Prod.mk.inj hsign
  rw [← hbody] at hwhole
  obtain ⟨r, hr, hrtext⟩ := hwhole
  rw [← hrtext] at hfraction
  obtain ⟨q, hq, hqtext⟩ := hfraction
  rw [← hqtext] at hexponent
  obtain ⟨t, ht, httext⟩ := hexponent
  rw [← hnegative] at hjson
  rw [← httext]
  exact takes_readNumber_of_parts hr hq ht hjson

end Json

end IncludeMoves
