import IncludeMoves.Proofs.Composition
import IncludeMoves.Proofs.JsonLexemes

/-!
# JSON texts hold no directives

A raw newline in a JSON text stands outside of strings, and a `#` stands inside of one. So what stands
behind a newline and spaces is never a `#`, and no line of the text is a directive, whatever its strings
say and however it is laid out.

The grammar of `Json.Spells` has limits: texts that are nested too deeply, numbers out of range and
escapes for half a surrogate pair have no value. None of this is of importance here, so the texts are
described once more without values and limits.

* `Json.IsText` — JSON texts, whatever their values;
* `Json.HashesQuoted` — texts in which no `#` stands outside of quotes, and no newline inside;
* `Json.IsDocument.isText` — what has a value is a JSON text;
* `Json.HashesQuoted.of_isText` — JSON texts are such texts;
* `Json.HashesQuoted.readLine?_eq_none` — no line of such a text is a directive;
* `Json.IsText.revise_eq` — so a JSON text holds none, and every table leaves it as it is.
-/

namespace IncludeMoves

namespace Json

variable {s t body before after : List Char} {c : Char} {depth : Nat} {v : Json} {α β : Type}

/-! ### Texts without values -/

/-- What stands between the quotes of a string: characters as themselves and escapes. Here halves of
surrogate pairs may stand alone, for this is about texts and not about their values. -/
inductive IsStringBody : List Char → Prop
  | nil : IsStringBody []
  | plain {c : Char} {body : List Char} : c ≠ '"' → c ≠ '\\' → 0x20 ≤ c.toNat → IsStringBody body →
      IsStringBody (c :: body)
  | short {e : Char} {body : List Char} : e ∈ shortEscapes.map Prod.fst → IsStringBody body →
      IsStringBody ('\\' :: e :: body)
  | unit {ds body : List Char} {n : Nat} : SpellsUnit ds n → IsStringBody body →
      IsStringBody ('\\' :: 'u' :: (ds ++ body))

/-- A member of an object, its value a text of `value`. -/
inductive IsMemberText (value : List Char → Prop) : List Char → Prop
  | mk {name before after s : List Char} : IsStringBody name → AreBlanks before → AreBlanks after →
      value s → IsMemberText value ('"' :: (name ++ '"' :: (before ++ ':' :: (after ++ s))))

/-- **The text of a value**, nested to any depth and with numbers of any size. So texts that the reader
refuses for their depth or their numbers are JSON texts as well. -/
inductive IsValueText : List Char → Prop
  | word {s : List Char} : s ∈ ["null".toList, "true".toList, "false".toList] → IsValueText s
  | number {n : Numeral} : n.IsWritten → IsValueText n.text
  | string {body : List Char} : IsStringBody body → IsValueText ('"' :: (body ++ ['"']))
  | array {value : List Char → Prop} {body : List Char} {items : List Unit} :
      (∀ s, value s → IsValueText s) → SpellsSequence (fun s _ => value s) body items →
      IsValueText ('[' :: (body ++ [']']))
  | object {value : List Char → Prop} {body : List Char} {members : List Unit} :
      (∀ s, value s → IsValueText s) →
      SpellsSequence (fun s _ => IsMemberText value s) body members →
      IsValueText ('\x7b' :: (body ++ ['\x7d']))

/-- **A JSON text**: a value between blanks. Every document is one, and not every one is a document. -/
def IsText (s : List Char) : Prop :=
  ∃ before t after, AreBlanks before ∧ IsValueText t ∧ AreBlanks after ∧ s = before ++ t ++ after

/-! ### What has a value is a text -/

theorem IsStringBody.append (h : IsStringBody s) (ht : IsStringBody t) : IsStringBody (s ++ t) := by
  induction h with
  | nil => exact ht
  | plain hquote hescape hcontrol _ ih => exact .plain hquote hescape hcontrol ih
  | short he _ ih => exact .short he ih
  | @unit ds body n hunit _ ih =>
    rw [List.cons_append, List.cons_append, List.append_assoc]
    exact .unit hunit ih

theorem SpellsChar.isStringBody (h : SpellsChar s c) : IsStringBody s := by
  cases h with
  | plain hquote hescape hcontrol => exact .plain hquote hescape hcontrol .nil
  | short he => exact .short (List.mem_map_of_mem he) .nil
  | number hpoint =>
    cases hpoint with
    | one hunit _ =>
      have hbody := IsStringBody.unit hunit .nil
      rwa [List.append_nil] at hbody
    | pair hunit hunit' _ _ _ _ =>
      -- The halves of a surrogate pair are two units.
      have hbody := IsStringBody.unit hunit (.unit hunit' .nil)
      rwa [List.append_nil] at hbody

theorem SpellsText.isStringBody {cs : List Char} (h : SpellsText s cs) : IsStringBody s := by
  induction h with
  | nil => exact .nil
  | cons hchar _ ih => exact hchar.isStringBody.append ih

/-- Items of another kind, spelled by the same texts. -/
theorem SpellsSequence.map {R : List Char → α → Prop} {S : List Char → β → Prop} {xs : List α}
    (f : α → β) (hf : ∀ s x, R s x → S s (f x)) (h : SpellsSequence R s xs) :
    SpellsSequence S s (xs.map f) := by
  cases h with
  | empty hs => exact .empty hs
  | items hitems =>
    refine .items ?_
    induction hitems with
    | last hbefore hx hafter => exact .last hbefore (hf _ _ hx) hafter
    | more hbefore hx hafter _ ih => exact .more hbefore (hf _ _ hx) hafter ih

theorem SpellsMember.isMemberText {value : List Char → Json → Prop} {m : String × Json}
    (h : SpellsMember value s m) : IsMemberText (fun s => ∃ v, value s v) s := by
  obtain ⟨⟨hname⟩, hbefore, hafter, hv⟩ := h
  simpa using IsMemberText.mk hname.isStringBody hbefore hafter ⟨_, hv⟩

/-- What spells a value is the text of one, by induction on the spelling. -/
theorem Spells.isValueText (h : Spells depth s v) : IsValueText s := by
  induction h with
  | null => exact .word (by simp)
  | true => exact .word (by simp)
  | false => exact .word (by simp)
  | number hn _ => exact .number hn
  | string hs =>
    obtain ⟨hbody⟩ := hs
    exact .string hbody.isStringBody
  | @array depth value body vs _ hbody ih =>
    -- Of the values in the list only their spelling counts.
    have hitems : SpellsSequence (fun s (_ : Unit) => ∃ v, value s v) body (vs.map fun _ => ()) :=
      hbody.map _ fun s v hv => ⟨v, hv⟩
    exact .array (fun s ⟨v, hv⟩ => ih s v hv) hitems
  | @object depth value body ms _ hbody ih =>
    have hmembers : SpellsSequence (fun s (_ : Unit) => IsMemberText (fun s => ∃ v, value s v) s) body
        (ms.map fun _ => ()) :=
      hbody.map _ fun s m hm => hm.isMemberText
    exact .object (fun s ⟨v, hv⟩ => ih s v hv) hmembers

/-- **A document is a JSON text.** -/
theorem IsDocument.isText {text : String} (h : IsDocument text v) : IsText text.toList := by
  obtain ⟨before, s, after, hbefore, hs, hafter, htext⟩ := h
  exact ⟨before, s, after, hbefore, hs.isValueText, hafter, htext⟩

/-! ### Hashes and newlines -/

/-- **Texts in which hashes are quoted and newlines are not**: between two quotes there is no newline, and
outside of them no `#`. -/
inductive HashesQuoted : List Char → Prop
  | nil : HashesQuoted []
  | outside {c : Char} {s : List Char} : c ≠ '"' → c ≠ '#' → HashesQuoted s → HashesQuoted (c :: s)
  | quoted {body s : List Char} : '\n' ∉ body → HashesQuoted s →
      HashesQuoted ('"' :: (body ++ '"' :: s))

namespace HashesQuoted

theorem append (h : HashesQuoted s) (ht : HashesQuoted t) : HashesQuoted (s ++ t) := by
  induction h with
  | nil => exact ht
  | outside hquote hhash _ ih => exact .outside hquote hhash ih
  | quoted hbody _ ih =>
    rw [List.cons_append, List.append_assoc]
    exact .quoted hbody ih

theorem of_forall (h : ∀ c ∈ s, c ≠ '"' ∧ c ≠ '#') : HashesQuoted s := by
  induction s with
  | nil => exact .nil
  | cons c s ih =>
    obtain ⟨hquote, hhash⟩ := h c List.mem_cons_self
    exact .outside hquote hhash (ih fun d hd => h d (List.mem_cons_of_mem c hd))

theorem of_areBlanks (h : AreBlanks s) : HashesQuoted s := by
  refine of_forall fun c hc => ?_
  have hblank := h c hc
  constructor <;> rintro rfl <;> cases hblank

theorem of_areDigits (h : AreDigits s) : HashesQuoted s := by
  refine of_forall fun c hc => ?_
  have hdigit := h c hc
  constructor <;> rintro rfl <;> cases hdigit

theorem of_text? {x : Option Exponent} (h : ∀ e, x = some e → e.IsWritten) :
    HashesQuoted (Exponent.text? x) := by
  cases x with
  | none => exact .nil
  | some e =>
    obtain ⟨hmark, hsign, hdigits, -⟩ := h e rfl
    -- A mark and a sign, neither of them a hash.
    have hhead : HashesQuoted (e.mark :: e.sign.toList) := by
      refine of_forall fun c hc => ?_
      rcases List.mem_cons.mp hc with rfl | hc
      · rcases hmark with hc | hc <;> rw [hc] <;> decide
      · rcases hsign c (Option.mem_toList.mp hc) with rfl | rfl <;> decide
    exact hhead.append (of_areDigits hdigits)

theorem of_numeral {n : Numeral} (h : n.IsWritten) : HashesQuoted n.text := by
  have hsign : HashesQuoted (Numeral.signText n.negative) := by
    rw [Numeral.signText]
    split
    · exact .outside (by decide) (by decide) .nil
    · exact .nil
  have hfraction : HashesQuoted (Numeral.fractionText n.fraction) := by
    rw [Numeral.fractionText]
    split
    · exact .nil
    · exact .outside (by decide) (by decide) (of_areDigits h.fraction)
  -- The parts stand one behind the other, each without a hash.
  exact hsign.append ((of_areDigits h.whole.digits).append (hfraction.append (of_text? h.exponent)))

/-- There is no newline in a string: the escape for one is no newline. So a line cannot start within a
string. -/
theorem newline_not_mem_of_isStringBody (h : IsStringBody s) : '\n' ∉ s := by
  have hhex : ∀ c n, IsHexDigit c n → '\n' ≠ c := by
    rintro c n hdigit rfl
    cases hexDigit?_eq_some_iff.mpr hdigit
  induction h with
  | nil => exact List.not_mem_nil
  | plain _ _ hcontrol _ ih =>
    refine List.not_mem_cons_of_ne_of_not_mem ?_ ih
    rintro rfl
    exact absurd hcontrol (by decide)
  | short he _ ih =>
    refine List.not_mem_cons_of_ne_of_not_mem (by decide) (List.not_mem_cons_of_ne_of_not_mem ?_ ih)
    rintro rfl
    exact absurd he (by decide)
  -- A digit is no newline, and so the number of a character has none.
  | unit hunit _ ih =>
    obtain ⟨ha, hb, hc, hd⟩ := hunit
    simp [hhex _ _ ha, hhex _ _ hb, hhex _ _ hc, hhex _ _ hd, ih]

theorem of_isStringBody (hbody : IsStringBody body) (ht : HashesQuoted t) :
    HashesQuoted ('"' :: (body ++ '"' :: t)) :=
  .quoted (newline_not_mem_of_isStringBody hbody) ht

theorem of_spellsSequence {R : List Char → α → Prop} {xs : List α} (h : SpellsSequence R s xs)
    (hR : ∀ s x, R s x → HashesQuoted s) : HashesQuoted s := by
  cases h with
  | empty hs => exact of_areBlanks hs
  | items hitems =>
    induction hitems with
    | last hbefore hx hafter =>
      exact ((of_areBlanks hbefore).append (hR _ _ hx)).append (of_areBlanks hafter)
    | more hbefore hx hafter _ ih =>
      exact (((of_areBlanks hbefore).append (hR _ _ hx)).append (of_areBlanks hafter)).append
        (.outside (by decide) (by decide) ih)

theorem of_isMemberText {value : List Char → Prop} (hvalue : ∀ s, value s → HashesQuoted s)
    (h : IsMemberText value s) : HashesQuoted s := by
  obtain ⟨hname, hbefore, hafter, hv⟩ := h
  exact of_isStringBody hname ((of_areBlanks hbefore).append
    (.outside (by decide) (by decide) ((of_areBlanks hafter).append (hvalue _ hv))))

/-- In the text of a value every hash is in a string, by induction on the text. -/
theorem of_isValueText (h : IsValueText s) : HashesQuoted s := by
  induction h with
  | word hs =>
    refine of_forall ?_
    simp only [List.mem_cons, List.not_mem_nil, or_false] at hs
    rcases hs with rfl | rfl | rfl <;> simp
  | number hn => exact of_numeral hn
  | string hbody => exact of_isStringBody hbody .nil
  -- Neither bracket is a hash or a quote.
  | array _ hbody ih =>
    have hitems := of_spellsSequence hbody fun s _ => ih s
    exact .outside (by decide) (by decide) (hitems.append (.outside (by decide) (by decide) .nil))
  | object _ hbody ih =>
    have hmembers := of_spellsSequence hbody fun s _ => of_isMemberText ih
    exact .outside (by decide) (by decide) (hmembers.append (.outside (by decide) (by decide) .nil))

/-- **In a JSON text, hashes are quoted and newlines are not.** -/
theorem of_isText (h : IsText s) : HashesQuoted s := by
  obtain ⟨before, t, after, hbefore, ht, hafter, rfl⟩ := h
  exact ((of_areBlanks hbefore).append (of_isValueText ht)).append (of_areBlanks hafter)

/-! ### No directives -/

/-- **Behind a newline and spaces there is no hash.** A hash is inside quotes, and between its quote and
itself there is no newline. -/
theorem not_hash_at_line_start {w r : List Char} {n : Nat} (h : HashesQuoted s)
    (hw : w = [] ∨ w.getLast? = some '\n') : s ≠ w ++ (Directive.blanks n ++ '#' :: r) := by
  -- A line starts behind the first character of what stands in front of it, or further on.
  have hlater : ∀ d w, (d :: w).getLast? = some '\n' → w = [] ∨ w.getLast? = some '\n' := by
    intro d w hlast
    cases w with
    | nil => exact .inl rfl
    | cons e w => exact .inr (by rwa [List.getLast?_cons_cons] at hlast)
  -- On how the text is quoted, one piece at a time.
  induction h generalizing w n with
  | nil => simp
  | outside _ hhash _ ih =>
    intro heq
    cases w with
    | nil =>
      -- With no blanks the line would start with a hash outside of quotes.
      cases n with
      | zero => exact hhash (List.cons.inj heq).1
      | succ n => exact ih (.inl rfl) (List.cons.inj heq).2
    | cons d w => exact ih (hlater d w (hw.resolve_left (List.cons_ne_nil d w))) (List.cons.inj heq).2
  | @quoted body s hbody _ ih =>
    intro heq
    cases w with
    -- A string starts with its quote, which is no blank and no hash.
    | nil => cases n <;> exact absurd (List.cons.inj heq).1 (by decide)
    | cons d w =>
      obtain ⟨rfl, hrest⟩ := List.cons.inj heq
      have hlast := hw.resolve_left (List.cons_ne_nil _ w)
      have hmem : '\n' ∈ w :=
        (List.mem_cons.mp (List.mem_of_getLast? hlast)).resolve_left (by decide)
      -- The newline stands behind the closing quote.
      rcases List.append_eq_append_iff.mp hrest with ⟨u, rfl, hu⟩ | ⟨u, rfl, -⟩
      · cases u with
        | nil => exact hbody (by simpa using hmem)
        | cons e u =>
          rw [← List.cons_append, List.getLast?_append, List.getLast?_cons, Option.some_or,
            ← List.getLast?_cons] at hlast
          exact ih (hlater e u hlast) (List.cons.inj hu).2
      · exact hbody (List.mem_append_left _ hmem)

/-- **No line of such a text is a directive.** A directive has its hash behind spaces at the start of
its line. -/
theorem readLine?_eq_none {line : List Char} (h : HashesQuoted s)
    (hline : line ∈ (Lines.of s).terminated) : Directive.readLine? line = none := by
  refine Option.eq_none_iff_forall_ne_some.mpr fun ⟨style, path⟩ hread => ?_
  obtain ⟨-, y, hy⟩ := Directive.readLine?_eq_some_iff.mp hread
  obtain ⟨front, back, hlines⟩ := List.append_of_mem hline
  have htext := Lines.flatten_of s
  rw [hlines, List.flatten_append, List.flatten_cons, List.append_assoc, List.append_assoc, hy,
    Directive.Layout.line, Directive.Layout.front, List.append_assoc, List.append_assoc,
    List.cons_append] at htext
  -- In front of the line there is nothing, or a line with its newline.
  have hfront : front.flatten = [] ∨ front.flatten.getLast? = some '\n' := by
    rcases List.eq_nil_or_concat front with rfl | ⟨front, l, rfl⟩
    · exact .inl rfl
    · have hl : l ∈ (Lines.of s).terminated := by simp [hlines]
      obtain ⟨w, -, rfl⟩ := Lines.isLine_of_mem hl
      exact .inr (by simp)
  exact h.not_hash_at_line_start hfront htext.symm

end HashesQuoted

/-- **A JSON text holds no directive**: the search finds only characters, and every table leaves the text
as it is and has nothing to tell of it. -/
theorem IsText.revise_eq {text : String} (h : IsText text.toList) :
    Directive.segments text.toList = text.toList.map .plain ∧
      ∀ (m : Moves) (file : Path), m.revise file text = ⟨file, text, []⟩ := by
  -- A hash stands only in a string, so no line is a directive.
  have hread : ∀ line ∈ (Lines.of text.toList).terminated, Directive.readLine? line = none :=
    fun _ hline => (HashesQuoted.of_isText h).readLine?_eq_none hline
  have hlines := Lines.flatten_of text.toList
  refine ⟨?_, fun m file => ?_⟩
  · have hpieces : (Lines.of text.toList).terminated.flatMap Directive.linePieces
        = (Lines.of text.toList).terminated.flatten.map .plain := by
      rw [List.map_flatten, List.flatMap_def]
      refine congrArg List.flatten (List.map_congr_left fun line hline => ?_)
      rw [Directive.linePieces, hread line hline]
    rw [Directive.segments_eq_pieces, hpieces, ← List.map_append, hlines]
  -- Every line is left as it is, and none of them is recorded.
  · have htext : (Lines.of text.toList).terminated.flatMap m.reviseLine
        = (Lines.of text.toList).terminated.flatten := by
      rw [List.flatMap_def, List.map_congr_left fun line hline =>
        Moves.reviseLine_of_readLine?_eq_none (hread line hline), List.map_id']
    have hrecords : (Lines.of text.toList).terminated.filterMap (m.lineRecord? file) = [] := by
      refine List.filterMap_eq_nil_iff.mpr fun line hline => ?_
      rw [Moves.lineRecord?, hread line hline]
    rw [Moves.revise_eq_reviseLines, Moves.reviseLines]
    simp only [htext, hrecords, hlines, String.ofList_toList]

end Json

end IncludeMoves
