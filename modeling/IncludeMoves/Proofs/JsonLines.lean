import IncludeMoves.Proofs.JsonDocuments
import IncludeMoves.Report
import Mathlib.Data.List.Forall2

/-!
# Reports for other programs lose nothing

A report with one JSON object per line can be read back: no line has a line break in it, every line is a
document, and its members tell what the record says.

What is written is put into the grammar of documents (`Json.Spells`), and from there the reader takes it
back (`Json.parse_eq_ok_iff`); so the writer of strings and their reader need not be compared. A line break
in a string is written as an escape, so the line breaks of a report are those between its lines.

* `Json.spellsString_quote`, `Json.isDocument_writeObject` — what is written is spelled;
* `Record.Shows` — what the members of an object tell about a record;
* `Report.jsonLines_lossless` — the lines of a report, read back.
-/

namespace IncludeMoves

namespace Json

/-! ### What is written is spelled -/

theorem isHexDigit_hexChar {n : Nat} (hn : n < 16) : IsHexDigit (hexChar n) n :=
  ⟨hn, .inl rfl⟩

/-- **A character is written as it has to be.** The cases are those of the writer: the short escapes,
control characters by their number, and all others as themselves. -/
theorem spellsChar_escape (c : Char) : SpellsChar (escape c) c := by
  unfold escape
  split
  -- Seven characters have a short escape,
  · exact .short (by decide)
  · exact .short (by decide)
  · exact .short (by decide)
  · exact .short (by decide)
  · exact .short (by decide)
  · exact .short (by decide)
  · exact .short (by decide)
  -- other control characters a number, and the rest stand for themselves.
  · next hquote hbackslash _ _ _ _ _ =>
    split
    · next hcontrol =>
      have hunit : SpellsUnit ['0', '0', hexChar (c.toNat / 16), hexChar (c.toNat % 16)]
          (((0 * 16 + 0) * 16 + c.toNat / 16) * 16 + c.toNat % 16) :=
        .mk (isHexDigit_hexChar (by decide)) (isHexDigit_hexChar (by decide))
          (isHexDigit_hexChar (by omega)) (isHexDigit_hexChar (by omega))
      -- The four digits spell the number of the character.
      have hvalue : ((0 * 16 + 0) * 16 + c.toNat / 16) * 16 + c.toNat % 16 = c.toNat := by omega
      rw [hvalue] at hunit
      have hnumber := SpellsChar.number (.one hunit (by omega))
      rwa [Char.ofNat_toNat] at hnumber
    · next hplain => exact .plain hquote hbackslash (Nat.le_of_not_lt hplain)

theorem spellsText_escape (cs : List Char) : SpellsText (cs.flatMap escape) cs := by
  induction cs with
  | nil => exact .nil
  | cons c cs ih => exact .cons (spellsChar_escape c) ih

theorem spellsString_quote (s : String) : SpellsString (quote s.toList) s := by
  have hspells : SpellsString (quote s.toList) (String.ofList s.toList) := .mk (spellsText_escape _)
  rwa [String.ofList_toList] at hspells

theorem spellsMember_writeMember (depth : Nat) (m : String × String) :
    SpellsMember (Spells depth) (writeMember m) (m.1, .string m.2) := by
  have hvalue : Spells depth (quote m.2.toList) (.string m.2) := .string (spellsString_quote m.2)
  have hspells := SpellsMember.mk (spellsString_quote m.1) .nil .nil hvalue
  rwa [List.append_nil, List.nil_append] at hspells

/-- Members with strings as their values. -/
def ofStrings (members : List (String × String)) : List (String × Json) :=
  members.map fun m => (m.1, .string m.2)

/-- Members with commas between them spell the items of an object, without any blanks. -/
theorem spellsItems_writeMember (depth : Nat) {members : List (String × String)} (hne : members ≠ []) :
    SpellsItems (SpellsMember (Spells depth)) ([','].intercalate (members.map writeMember))
      (ofStrings members) := by
  induction members with
  | nil => exact absurd rfl hne
  | cons m members ih =>
    have hm := spellsMember_writeMember depth m
    cases members with
    | nil =>
      have hlast := SpellsItems.last .nil hm .nil
      simpa [ofStrings] using hlast
    -- Behind every member but the last one there is a comma.
    | cons m' members =>
      have hmore := SpellsItems.more .nil hm .nil (ih (List.cons_ne_nil m' members))
      simpa [ofStrings] using hmore

/-- **An object is written as it has to be.** -/
theorem isDocument_writeObject (members : List (String × String)) :
    IsDocument (String.ofList (writeObject members)) (.object (ofStrings members)) := by
  have hsequence : SpellsSequence (SpellsMember (Spells 126))
      ([','].intercalate (members.map writeMember)) (ofStrings members) := by
    cases members with
    | nil => exact .empty .nil
    | cons m members => exact .items (spellsItems_writeMember _ (List.cons_ne_nil m members))
  refine ⟨[], _, [], .nil, .object (fun _ _ hs => hs) hsequence, .nil, ?_⟩
  simp [writeObject]

/-! ### No line breaks -/

theorem hexChar_ne_newline {n : Nat} (hn : n < 16) : hexChar n ≠ '\n' := by
  interval_cases n <;> decide

/-- No character is written with a newline, the newline itself included. -/
theorem not_mem_escape (c : Char) : '\n' ∉ escape c := by
  unfold escape
  split
  -- The newline has a short escape, in which there is an `n`,
  · decide
  · decide
  · decide
  · decide
  · decide
  · decide
  · decide
  -- and of no other character is it a part.
  · next _ _ _ _ hnewline _ _ =>
    split
    · next hcontrol =>
      have hhigh := (hexChar_ne_newline (n := c.toNat / 16) (by omega)).symm
      have hlow := (hexChar_ne_newline (n := c.toNat % 16) (by omega)).symm
      simp [hhigh, hlow]
    · simpa using Ne.symm hnewline

theorem not_mem_quote (cs : List Char) : '\n' ∉ quote cs := by
  simp [quote, not_mem_escape]

theorem not_mem_intercalate {c d : Char} (hne : c ≠ d) {ls : List (List Char)}
    (hls : ∀ l ∈ ls, c ∉ l) : c ∉ [d].intercalate ls := by
  induction ls with
  | nil => exact List.not_mem_nil
  | cons l ls ih =>
    obtain ⟨hl, hls⟩ := List.forall_mem_cons.mp hls
    cases ls with
    | nil => simpa using hl
    | cons l' ls =>
      rw [List.intercalate_cons_cons, List.mem_append, List.mem_append, List.mem_singleton]
      -- A separator, or a character of the first piece or of one behind it.
      rintro ((h | h) | h)
      · exact hl h
      · exact hne h
      · exact ih hls h

/-- **No line break is written.** -/
theorem not_mem_writeObject (members : List (String × String)) : '\n' ∉ writeObject members := by
  have hmembers : '\n' ∉ [','].intercalate (members.map writeMember) :=
    not_mem_intercalate (by decide) fun l hl => by
      obtain ⟨m, -, rfl⟩ := List.mem_map.mp hl
      simp [writeMember, not_mem_quote]
  simp [writeObject, hmembers]

end Json

namespace Outcome

/-- The word for an outcome in the output. -/
def kindName : Outcome → String
  | .kept => "kept"
  | .removed => "removed"
  | .replaced _ _ => "replaced"

end Outcome

namespace Record

/-- **What the members of an object tell about a record**: each member is there if and only if the record
has it, with its value, and there is no other one and none twice. -/
structure Shows (members : List (String × Json)) (r : Record) : Prop where
  distinct : (members.map Prod.fst).Nodup
  file : ∀ v, ("file", v) ∈ members ↔ v = .string r.file.normalized
  old : ∀ v, ("old", v) ∈ members ↔ v = .string r.old
  kind : ∀ v, ("kind", v) ∈ members ↔ v = .string r.outcome.kindName
  new : ∀ v, ("new", v) ∈ members ↔ ∃ path style, r.outcome = .replaced path style ∧ v = .string path
  style : ∀ v, ("style", v) ∈ members ↔
    ∃ path style, r.outcome = .replaced path style ∧ v = .string (styleName style)
  malformed : ∀ v, ("malformed", v) ∈ members ↔ ∃ token, r.malformed = some token ∧ v = .string token
  known : ∀ name ∈ members.map Prod.fst, name ∈ ["file", "old", "kind", "new", "style", "malformed"]

theorem shows_members (r : Record) : Shows (Json.ofStrings r.members) r := by
  obtain ⟨file, old, outcome, malformed⟩ := r
  cases outcome <;> cases malformed <;> constructor <;>
    simp [Json.ofStrings, members, outcomeMembers, Outcome.kindName]

theorem eq_of_shows_string {members : List (String × Json)} {name a b : String}
    (ha : ∀ v, (name, v) ∈ members ↔ v = .string a) (hb : ∀ v, (name, v) ∈ members ↔ v = .string b) :
    a = b :=
  Json.string.inj ((hb _).mp ((ha _).mpr rfl))

/-- What a record tells: all of it, with its path as it is written. Two paths that differ in their
separators only are written alike. -/
def content (r : Record) : String × String × Outcome × Option String :=
  (r.file.normalized, r.old, r.outcome, r.malformed)

theorem styleName_injective : Function.Injective styleName := by
  intro a b h
  cases a <;> cases b <;> first | rfl | exact absurd h (by decide)

/-- Members that show two records show them with one outcome. The member `kind` tells which case it is,
and the others have what belongs to it. -/
theorem Shows.outcome_eq {members : List (String × Json)} {a b : Record} (ha : Shows members a)
    (hb : Shows members b) : a.outcome = b.outcome := by
  -- The kinds have different names. What a record was replaced by is shown as well.
  have hkind := eq_of_shows_string ha.kind hb.kind
  cases hoa : a.outcome with
  | replaced path style =>
    obtain ⟨path', _, hob, hpath⟩ := (hb.new _).mp ((ha.new _).mpr ⟨path, style, hoa, rfl⟩)
    obtain ⟨_, style', hob', hstyle⟩ := (hb.style _).mp ((ha.style _).mpr ⟨path, style, hoa, rfl⟩)
    cases hob.symm.trans hob'
    rw [hob, Json.string.inj hpath, styleName_injective (Json.string.inj hstyle)]
  | kept =>
    cases hob : b.outcome with
    | kept => rfl
    | removed => exact absurd hkind (by simp [hoa, hob, Outcome.kindName])
    | replaced path style => exact absurd hkind (by simp [hoa, hob, Outcome.kindName])
  | removed =>
    cases hob : b.outcome with
    | removed => rfl
    | kept => exact absurd hkind (by simp [hoa, hob, Outcome.kindName])
    | replaced path style => exact absurd hkind (by simp [hoa, hob, Outcome.kindName])

/-- **Records that the same members tell about say the same.** -/
theorem Shows.content_eq {members : List (String × Json)} {a b : Record} (ha : Shows members a)
    (hb : Shows members b) : a.content = b.content := by
  have hfile := eq_of_shows_string ha.file hb.file
  have hold := eq_of_shows_string ha.old hb.old
  have hmalformed : a.malformed = b.malformed := by
    refine Option.ext fun token => ?_
    have hiff := (ha.malformed (.string token)).symm.trans (hb.malformed (.string token))
    simpa using hiff
  rw [content, content, hfile, hold, ha.outcome_eq hb, hmalformed]

/-- A line is a document that shows its record. -/
theorem parse_jsonLine (r : Record) :
    ∃ members, Json.parse r.jsonLine = .ok (.object members) ∧ Shows members r :=
  ⟨_, Json.parse_eq_ok_iff.mpr (Json.isDocument_writeObject r.members), shows_members r⟩

theorem not_mem_jsonLine (r : Record) : '\n' ∉ r.jsonLine.toList := by
  rw [jsonLine, String.toList_ofList]
  exact Json.not_mem_writeObject r.members

theorem jsonLine_ne_empty (r : Record) : r.jsonLine.toList ≠ [] := by
  rw [jsonLine, String.toList_ofList]
  exact List.cons_ne_nil _ _

end Record

namespace Report

/-- A report with one object per line. -/
def jsonLines (colour : Bool) : Report :=
  ⟨.jsonLines, false, colour⟩

theorem toList_render_jsonLines (colour : Bool) (r : Revision) :
    ((jsonLines colour).render r).toList
      = ['\n'].intercalate (r.records.map fun record => record.jsonLine.toList) := by
  rw [render, String.toList_intercalate]
  simp [lines, jsonLines, Function.comp_def]

/-- The lines of the report, cut at the line breaks. -/
theorem splitOn_render_jsonLines (colour : Bool) {r : Revision} (hne : r.records ≠ []) :
    ((jsonLines colour).render r).toList.splitOn '\n'
      = r.records.map fun record => record.jsonLine.toList := by
  rw [toList_render_jsonLines]
  refine List.splitOn_intercalate '\n' (fun l hl => ?_) (by simpa using hne)
  obtain ⟨record, -, rfl⟩ := List.mem_map.mp hl
  exact record.not_mem_jsonLine

theorem render_jsonLines_eq_empty (colour : Bool) (r : Revision) :
    (jsonLines colour).render r = "" ↔ r.records = [] := by
  constructor
  · intro h
    by_contra hne
    have hsplit := splitOn_render_jsonLines colour hne
    obtain ⟨record, records, hrecords⟩ := List.exists_cons_of_ne_nil hne
    rw [h, hrecords] at hsplit
    exact record.jsonLine_ne_empty (List.cons.inj hsplit).1.symm
  · intro h
    simp [render, lines, jsonLines, h]

/-- A piece of a report that shows a record. It is read by the reader of documents, and not by one that
knows how it was written. -/
def PieceShows (piece : List Char) (record : Record) : Prop :=
  ∃ members, Json.parse (String.ofList piece) = .ok (.object members) ∧ Record.Shows members record

theorem PieceShows.content_eq {piece : List Char} {a b : Record} (ha : PieceShows piece a)
    (hb : PieceShows piece b) : a.content = b.content := by
  obtain ⟨members, hmembers, ha⟩ := ha
  obtain ⟨members', hmembers', hb⟩ := hb
  cases hmembers.symm.trans hmembers'
  exact ha.content_eq hb

/-- Each piece shows its record. -/
theorem forall₂_pieceShows (colour : Bool) {r : Revision} (hne : r.records ≠ []) :
    List.Forall₂ PieceShows (((jsonLines colour).render r).toList.splitOn '\n') r.records := by
  rw [splitOn_render_jsonLines colour hne, List.forall₂_map_left_iff, List.forall₂_same]
  intro record _
  rw [PieceShows, String.ofList_toList]
  exact record.parse_jsonLine

theorem map_content_eq {pieces : List (List Char)} {as bs : List Record}
    (ha : List.Forall₂ PieceShows pieces as) (hb : List.Forall₂ PieceShows pieces bs) :
    as.map Record.content = bs.map Record.content := by
  induction ha generalizing bs with
  | nil =>
    cases hb
    rfl
  | cons ha _ ih =>
    cases hb with
    | cons hb hbs => rw [List.map_cons, List.map_cons, ha.content_eq hb, ih hbs]

/-- **A report with one object per line loses nothing.** It is empty if there are no records. Else, cut
at the line breaks, it has one piece for each record, in order, and the piece is a document with an
object that shows the record. So revisions with the same report have records with the same contents. -/
theorem jsonLines_lossless (colour : Bool) (r : Revision) :
    ((jsonLines colour).render r = "" ↔ r.records = []) ∧
    (r.records ≠ [] →
      List.Forall₂ PieceShows (((jsonLines colour).render r).toList.splitOn '\n') r.records) ∧
    ∀ other : Revision, (jsonLines colour).render other = (jsonLines colour).render r →
      other.records.map Record.content = r.records.map Record.content := by
  have hempty := render_jsonLines_eq_empty colour
  refine ⟨hempty r, forall₂_pieceShows colour, fun other hsame => ?_⟩
  -- Nothing shows an empty report, and it is no other one's; a report that is shown can be read back.
  by_cases hne : r.records = []
  · rw [hne, (hempty other).mp (hsame.trans ((hempty r).mpr hne))]
  · have hne' : other.records ≠ [] := fun h => hne ((hempty r).mp (hsame.symm.trans ((hempty other).mpr h)))
    have hpieces := forall₂_pieceShows colour hne'
    rw [hsame] at hpieces
    exact map_content_eq hpieces (forall₂_pieceShows colour hne)

/-- A record with a quote, a backslash, a line break, a control character and a letter of two bytes. -/
def oddRecord : Record :=
  ⟨.ofString "./src/a.hpp", "b\"\\\n\x07.hpp", .replaced "ü.hpp" .angled, some "\"b>"⟩

/-- It is written on one line, and read back as it is. -/
theorem jsonLines_oddRecord :
    (jsonLines false).render ⟨oddRecord.file, "", [oddRecord]⟩ ≠ "" ∧
      ∃ piece, ((jsonLines false).render ⟨oddRecord.file, "", [oddRecord]⟩).toList.splitOn '\n' = [piece] ∧
        PieceShows piece oddRecord := by
  obtain ⟨hempty, hpieces, -⟩ := jsonLines_lossless false ⟨oddRecord.file, "", [oddRecord]⟩
  refine ⟨fun h => List.cons_ne_nil _ _ (hempty.mp h), ?_⟩
  have hpieces := hpieces (List.cons_ne_nil _ _)
  generalize ((jsonLines false).render ⟨oddRecord.file, "", [oddRecord]⟩).toList.splitOn '\n' = pieces
    at hpieces ⊢
  -- There is one piece for the only record.
  cases hpieces with
  | cons hpiece hrest =>
    cases hrest
    exact ⟨_, rfl, hpiece⟩

end Report

end IncludeMoves
