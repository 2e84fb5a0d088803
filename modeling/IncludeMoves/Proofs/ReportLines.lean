import IncludeMoves.Proofs.Composition
import IncludeMoves.Proofs.JsonLines

/-!
# The lines of a report

What is written for a revision is its lines, each ended by a newline, and nothing if there are none. So
whatever is written for any number of revisions can be cut into these lines again, if no line has a
newline of its own. A notice has none if the names in it have none; the name of a file is written as
text, in which what is no text is replaced, and that never makes a newline of other bytes.

* `Path.newline_not_mem_normalized` — a name without a newline is written without one;
* `Report.isOneLine_of_mem_lines` — the lines for records whose names have no newline;
* `Report.toList_output` — what is written for a revision, line by line;
* `Report.lines_of_outputs` — what is written for a list of revisions, cut into lines.
-/

namespace IncludeMoves

/-! ### Names as text -/

namespace Utf8

theorem eq_of_ofNat_eq_newline {n : Nat} (h : Char.ofNat n = '\n') : n = 10 := by
  have htoNat := congrArg Char.toNat h
  by_cases hvalid : n.isValidChar
  · rwa [Char.ofNat, dif_pos hvalid] at htoNat
  · rw [Char.ofNat, dif_neg hvalid] at htoNat
    exact absurd htoNat (by decide)

/-- **A character of more than one byte**, as far as it has been read: the bits that it has brought, or
those that the next byte has to bring, make it greater than any character of one byte. -/
structure Partial.IsLong (p : Partial) : Prop where
  low : 0x80 ≤ p.low.toNat
  value : 0 < p.value ∨ 0x80 < p.low.toNat ∧ 1 < p.missing

/-- What the byte at the start of a character can tell. -/
theorem start_cases (b : UInt8) : start b = .single (Char.ofNat b.toNat) ∨
    (∃ p, start b = .longer p ∧ p.IsLong) ∨ start b = .invalid := by
  unfold start
  simp only [UInt8.lt_iff_toNat_lt, ← UInt8.toNat_inj]
  split
  · exact .inl rfl
  · -- The other branches are characters of more than one byte, and two where there is none.
    right
    repeat' split
    all_goals first | exact .inr rfl | refine .inl ⟨_, rfl, ?_, ?_⟩
    all_goals simp_all <;> omega

namespace Partial.IsLong

variable {p : Partial} {b : UInt8}

/-- One more byte, and not the last one. -/
theorem next (h : p.IsLong) (hb : p.low ≤ b) (bytes : List UInt8) (missing : Nat) :
    IsLong ⟨bytes, p.value * 64 + (b.toNat - 0x80), missing, 0x80, 0xBF⟩ where
  low := le_rfl
  value := by
    have hlow : p.low.toNat ≤ b.toNat := hb
    have hvalue := h.value
    left
    show 0 < p.value * 64 + (b.toNat - 0x80)
    omega

/-- The last byte. -/
theorem ofNat_ne_newline (h : p.IsLong) (hmissing : p.missing ≤ 1) :
    Char.ofNat (p.value * 64 + (b.toNat - 0x80)) ≠ '\n' := by
  intro hnewline
  have hten := eq_of_ofNat_eq_newline hnewline
  have hvalue := h.value
  omega

end Partial.IsLong

/-- **No bytes but a newline are read as one**, also behind the beginning of a character. The induction
is that of the decoder, with what it knows of the character that it has begun. -/
theorem newline_not_mem_piecesFrom {q : Option Partial} {bytes : List UInt8}
    (hq : ∀ p, q = some p → p.IsLong) (h : 10 ∉ bytes) : Piece.char '\n' ∉ piecesFrom q bytes := by
  have hnone : ∀ p, (none : Option Partial) = some p → p.IsLong := fun p hp => by cases hp
  -- On the bytes, for every part of a character that may stand in front of them.
  induction bytes generalizing q with
  | nil => cases q <;> simp [piecesFrom]
  | cons b bytes ih =>
    obtain ⟨hb, hbytes⟩ : (10 : UInt8) ≠ b ∧ 10 ∉ bytes := by simpa using h
    -- A broken part ends in front of the byte that breaks it, which is then at the start of a character.
    have hstart : Piece.char '\n' ∉ piecesFrom none (b :: bytes) := by
      rw [piecesFrom]
      rcases start_cases b with hs | ⟨p, hs, hp⟩ | hs
      · have hc : '\n' ≠ Char.ofNat b.toNat := by
          intro hnewline
          exact hb (UInt8.toNat_inj.mp (eq_of_ofNat_eq_newline hnewline.symm)).symm
        simpa [hs, hc] using ih hnone hbytes
      · simpa [hs] using ih (fun _ hnext => Option.some.inj hnext ▸ hp) hbytes
      · simpa [hs] using ih hnone hbytes
    -- A part that goes on makes a character of its own, and that is no newline.
    cases q with
    | none => exact hstart
    | some p =>
      have hp := hq p rfl
      rw [piecesFrom]
      split
      · next hrange =>
        simp only
        split
        · next hmissing =>
          have hc := hp.ofNat_ne_newline (b := b) hmissing
          simpa [hc.symm] using ih hnone hbytes
        · exact ih (fun _ hnext => Option.some.inj hnext ▸ hp.next hrange.1 _ _) hbytes
      · simpa [piecesFrom] using hstart

theorem newline_not_mem_decodeLossy {bytes : List UInt8} (h : 10 ∉ bytes) :
    '\n' ∉ decodeLossy bytes := by
  intro hmem
  obtain ⟨piece, hpiece, hshown⟩ := List.mem_map.mp hmem
  cases piece with
  | char c =>
    obtain rfl : c = '\n' := hshown
    exact newline_not_mem_piecesFrom (fun p hp => by cases hp) h hpiece
  | broken bytes =>
    have hreplacement : replacement ≠ '\n' := by decide
    exact hreplacement hshown

end Utf8

/-- A name without a newline is written without one. -/
theorem Path.newline_not_mem_normalized {p : Path} (h : 10 ∉ p.bytes) :
    '\n' ∉ p.normalized.toList := by
  rw [normalized, String.toList_ofList]
  intro hmem
  obtain ⟨c, hc, hnewline⟩ := List.mem_map.mp hmem
  split at hnewline
  · exact absurd hnewline (by decide)
  · exact Utf8.newline_not_mem_decodeLossy h (hnewline ▸ hc)

/-! ### The lines for records -/

/-- **A text that is one line** once a newline is put behind it. Every line of a report has to be of
this kind for the reports to be cut into lines again. -/
structure IsOneLine (s : String) : Prop where
  ne_empty : s ≠ ""
  newline_not_mem : '\n' ∉ s.toList

namespace Record

/-- **A record whose names have no newline.** Nothing in the file system or in a table forbids them, so
this is a condition on both. -/
structure IsPlain (r : Record) : Prop where
  file : 10 ∉ r.file.bytes
  old : '\n' ∉ r.old.toList
  new : ∀ path style, r.outcome = .replaced path style → '\n' ∉ path.toList
  malformed : ∀ token, r.malformed = some token → '\n' ∉ token.toList

variable {r : Record} {colour : Bool} {line : String}

/-- A notice has no newline but for those in the names that it tells. -/
theorem IsPlain.isOneLine_notice (h : r.IsPlain) (hline : r.notice? = some line) :
    IsOneLine line := by
  have hfile := Path.newline_not_mem_normalized h.file
  have hold := h.old
  rw [notice?] at hline
  -- What is kept is not told of. Else the notice has no newline, since none of its parts has one.
  cases houtcome : r.outcome with
  | kept =>
    rw [houtcome] at hline
    cases hline
  | removed =>
    rw [houtcome] at hline
    cases hline
    constructor
    · simp
    · simp [hfile, hold]
  | replaced path style =>
    have hnew := h.new path style houtcome
    rw [houtcome] at hline
    cases hline
    constructor
    · simp
    · simp [hfile, hold, hnew]

theorem IsPlain.isOneLine_warning (h : r.IsPlain) (hline : r.warning? colour = some line) :
    IsOneLine line := by
  have hfile := Path.newline_not_mem_normalized h.file
  have hmark : '\n' ∉ (warningMark colour).toList := by cases colour <;> decide
  obtain ⟨token, htoken, rfl⟩ := Option.map_eq_some_iff.mp hline
  have htoken := h.malformed token htoken
  constructor
  · simp
  · simp [hfile, hmark, htoken]

theorem isOneLine_jsonLine (r : Record) : IsOneLine r.jsonLine where
  ne_empty := fun h => r.jsonLine_ne_empty (congrArg String.toList h)
  newline_not_mem := r.not_mem_jsonLine

end Record

/-! ### What is written -/

namespace Report

variable {report : Report} {r : Revision} {line : String}

/-- What is reported of records whose names have no newline is one line each. -/
theorem isOneLine_of_mem_lines (h : ∀ record ∈ r.records, record.IsPlain)
    (hline : line ∈ report.lines r) : IsOneLine line := by
  rw [lines] at hline
  split at hline
  · exact absurd hline List.not_mem_nil
  · split at hline
    -- As text, a record gives a warning and a notice; as an object it gives one line.
    · obtain ⟨record, hrecord, hline⟩ := List.mem_flatMap.mp hline
      rcases List.mem_append.mp hline with hline | hline
      · exact (h record hrecord).isOneLine_warning (Option.mem_toList.mp hline)
      · exact (h record hrecord).isOneLine_notice (Option.mem_toList.mp hline)
    · obtain ⟨record, -, rfl⟩ := List.mem_map.mp hline
      exact record.isOneLine_jsonLine

theorem render_eq_empty_iff (h : ∀ line ∈ report.lines r, line ≠ "") :
    report.render r = "" ↔ report.lines r = [] := by
  rw [render, ← String.toList_inj, String.toList_intercalate]
  cases hlines : report.lines r with
  | nil => simp
  | cons l ls =>
    have hl : l ≠ "" := h l (hlines ▸ List.mem_cons_self)
    cases ls <;> simp [List.intercalate_cons_cons, hl]

/-- Something is written exactly if there is a line to write. -/
theorem output_eq_empty_iff (h : ∀ line ∈ report.lines r, line ≠ "") :
    report.output r = "" ↔ report.lines r = [] := by
  rw [← render_eq_empty_iff h, output]
  split
  · next hempty => simp [hempty]
  · next hne => simp [hne]

/-- Lines with newlines between them and one behind the last are lines with a newline behind each. -/
theorem intercalate_append_newline {ls : List String} (hls : ls ≠ []) :
    ['\n'].intercalate (ls.map String.toList) ++ ['\n']
      = ls.flatMap fun line => line.toList ++ ['\n'] := by
  induction ls with
  | nil => exact absurd rfl hls
  | cons l ls ih =>
    cases ls with
    | nil => simp
    | cons l' ls =>
      rw [List.flatMap_cons, ← ih (List.cons_ne_nil l' ls)]
      simp [List.intercalate_cons_cons]

/-- **What is written for a revision** is its lines, each ended by a newline. -/
theorem toList_output (h : ∀ line ∈ report.lines r, line ≠ "") :
    (report.output r).toList = (report.lines r).flatMap fun line => line.toList ++ ['\n'] := by
  by_cases hnone : report.lines r = []
  · rw [(output_eq_empty_iff h).mpr hnone, hnone]
    rfl
  · have hrender := mt (render_eq_empty_iff h).mp hnone
    rw [output]
    simp only [if_neg hrender]
    rw [String.toList_append, render, String.toList_intercalate]
    exact intercalate_append_newline hnone

/-- **What is written for revisions, cut into lines**, is the lines of each, in order. The induction is
on the revisions; a newline ends each of their lines, the last one too. -/
theorem lines_of_outputs {revisions : List Revision}
    (h : ∀ r ∈ revisions, ∀ line ∈ report.lines r, IsOneLine line) :
    Lines.of (String.join (revisions.map report.output)).toList
      = ⟨(revisions.flatMap report.lines).map fun line => line.toList ++ ['\n'], []⟩ := by
  -- What is written is the lines, one after the other, each with a newline.
  have hwritten : (String.join (revisions.map report.output)).toList
      = ((revisions.flatMap report.lines).map fun line => line.toList ++ ['\n']).flatten := by
    calc (String.join (revisions.map report.output)).toList
        = revisions.flatMap fun r => (report.output r).toList := by
          rw [String.toList_join, List.flatMap_map]
      _ = revisions.flatMap fun r => (report.lines r).flatMap fun line => line.toList ++ ['\n'] :=
          List.flatMap_congr fun r hr => toList_output fun line hline => (h r hr line hline).ne_empty
      _ = ((revisions.flatMap report.lines).map fun line => line.toList ++ ['\n']).flatten := by
          rw [← List.flatMap_assoc, List.flatMap_def]
  -- And each of them is a line.
  have hlines : ∀ l ∈ (revisions.flatMap report.lines).map fun line => line.toList ++ ['\n'],
      Lines.IsLine l := by
    intro l hl
    obtain ⟨line, hline, rfl⟩ := List.mem_map.mp hl
    obtain ⟨r, hr, hline⟩ := List.mem_flatMap.mp hline
    exact ⟨_, (h r hr line hline).newline_not_mem, rfl⟩
  rw [hwritten, ← List.append_nil (List.flatten _),
    Lines.of_flatten_append (fun l hl => .inl (hlines l hl)) List.not_mem_nil,
    List.filter_eq_self.mpr]
  intro l hl
  obtain ⟨w, -, rfl⟩ := hlines l hl
  simp

end Report

end IncludeMoves
