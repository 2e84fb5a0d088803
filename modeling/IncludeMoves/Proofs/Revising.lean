import IncludeMoves.Proofs.Replacement
import IncludeMoves.Run
import Mathlib.Logic.Function.Iterate

/-!
# Revising one source

What one step of a run does to the tree. It reads the file to which a source leads, and nothing
changes but that file's entry, or, if a link is lost, the entry of the link.

* `Moves.revisedText`, `Moves.revisedBytes` — what a table makes of a text and of a file;
* `Project.reviseFile_error` — a step that fails changes nothing;
* `Project.reviseFile_ok` — what a step has read, what it returns, and what it changes;
* `Project.reviseFile_keeping` — a step that loses no link keeps the tree and revises one file.
-/

namespace IncludeMoves

namespace Moves

/-- What a table makes of a text, whatever file it is in. The name of the file only shows up in the
records. -/
def revisedText (m : Moves) (text : String) : String :=
  (m.revise ⟨[]⟩ text).text

theorem text_revise (m : Moves) (file : Path) (text : String) :
    (m.revise file text).text = m.revisedText text :=
  rfl

/-- What a table makes of the content of a file. What is no text stays as it is. This is a function on
contents, so it can be iterated. -/
def revisedBytes (m : Moves) (bytes : ByteArray) : ByteArray :=
  match String.fromUTF8? bytes with
  | some text => (m.revisedText text).toUTF8
  | none => bytes

end Moves

theorem fromUTF8?_eq_some {bytes : ByteArray} {text : String} :
    String.fromUTF8? bytes = some text ↔ bytes = text.toUTF8 := by
  unfold String.fromUTF8?
  constructor
  · intro h
    split at h
    · exact congrArg String.toByteArray (Option.some.inj h)
    · cases h
  · rintro rfl
    exact dif_pos text.isValidUTF8

namespace Moves

theorem revisedBytes_toUTF8 (m : Moves) (text : String) :
    m.revisedBytes text.toUTF8 = (m.revisedText text).toUTF8 := by
  rw [revisedBytes, fromUTF8?_eq_some.mpr rfl]

/-- Texts stay texts, however often a table is applied. -/
theorem iterate_revisedBytes_toUTF8 (m : Moves) (count : Nat) (text : String) :
    m.revisedBytes^[count] text.toUTF8 = (m.revisedText^[count] text).toUTF8 := by
  induction count generalizing text with
  | zero => rfl
  | succ count ih =>
    rw [Function.iterate_succ_apply, Function.iterate_succ_apply, revisedBytes_toUTF8, ih]

/-- What has become a text has been one. A content that is no text stays as it is and never becomes one.
-/
theorem exists_text_of_iterate {m : Moves} {count : Nat} {bytes : ByteArray} {text : String}
    (h : m.revisedBytes^[count] bytes = text.toUTF8) :
    ∃ original, bytes = original.toUTF8 ∧ m.revisedText^[count] original = text := by
  cases hbytes : String.fromUTF8? bytes with
  | none =>
    -- What is no text stays as it is for ever, so it would be no text in the end.
    have hfixed : m.revisedBytes bytes = bytes := by rw [revisedBytes, hbytes]
    rw [Function.iterate_fixed hfixed, ← fromUTF8?_eq_some, hbytes] at h
    cases h
  | some original =>
    rw [fromUTF8?_eq_some] at hbytes
    rw [hbytes, iterate_revisedBytes_toUTF8] at h
    exact ⟨original, hbytes, String.toByteArray_inj.mp h⟩

end Moves

namespace FileSystem

variable {fs fs' : FileSystem} {l k : Location} {path : Path}

/-- The content of the file at a location. Runs are described by it, since number and bits of a file may
be those of a new one. -/
def content? (fs : FileSystem) (l : Location) : Option ByteArray :=
  (fs.file? l).map RegularFile.content

theorem content?_put (fs : FileSystem) (hl : l ≠ []) (f : RegularFile) (k : Location) :
    (fs.put l (.file f)).content? k = if k = l then some f.content else fs.content? k := by
  rw [content?, file?_put fs hl]
  split
  · rfl
  · rfl

theorem readBytes_eq_ok {bytes : ByteArray} : fs.readBytes path = .ok bytes ↔
    ∃ k f, fs.resolve path = .ok k ∧ fs.file? k = some f ∧ f.isReadable = true ∧
      f.content = bytes := by
  unfold readBytes
  cases fs.resolve path with
  | error e => simp
  | ok k =>
    cases hfile : fs.file? k with
    | none => simp [hfile]
    | some f => by_cases hread : f.isReadable = true <;> simp [hfile, hread]

/-- A text that is read is the whole content of the file to which the path leads. -/
theorem readText_eq_ok {text : String} : fs.readText path = .ok text ↔
    ∃ k f, fs.resolve path = .ok k ∧ fs.file? k = some f ∧ f.isReadable = true ∧
      f.content = text.toUTF8 := by
  rw [← readBytes_eq_ok]
  unfold readText
  cases fs.readBytes path with
  | error e => simp
  | ok bytes =>
    simp only [Except.ok.injEq, ← fromUTF8?_eq_some]
    cases String.fromUTF8? bytes <;> simp

/-- A file with a new inode number is a change. -/
theorem put_ne_self {f : RegularFile} (hl : l ≠ []) (hinode : f.inode = fs.freshInode) :
    fs.put l (.file f) ≠ fs := by
  intro h
  have hnode := node?_put_self fs hl (.file f)
  rw [h, node?_of_ne_nil fs hl] at hnode
  exact inode_ne_freshInode (mem_of_lookup_eq_some hnode) hinode

/-- A replacement that succeeds is a change, also of a file that had this content. -/
theorem replaceFile_ne_self {content : ByteArray} {fault : Option WriteFault}
    (h : fs.replaceFile path content fault = (.ok (), fs')) : fs' ≠ fs := by
  obtain ⟨d, hdest, rfl⟩ := replaceFile_ok h
  obtain ⟨before, l, n, rfl, -⟩ := isDestination_of_destination hdest
  exact put_ne_self (List.cons_ne_nil n l) rfl

end FileSystem

namespace Project

variable {p : Project} {moves : Moves} {w : Writing} {source : Path} {fs fs' : FileSystem}
  {r : Revision} {e : Problem}

/-- **A step that fails changes nothing.** It fails while the source is read or while it is replaced,
and a replacement that fails leaves the tree alone. -/
theorem reviseFile_error (h : p.reviseFile moves w source fs = (.error e, fs')) : fs' = fs := by
  unfold reviseFile at h
  simp only at h
  split at h
  · exact (Prod.mk.inj h).2.symm
  split at h
  · cases (Prod.mk.inj h).1
  split at h
  · cases (Prod.mk.inj h).1
  -- Only the replacement is left to fail, and it does nothing then.
  · next hfail =>
    rw [← (Prod.mk.inj h).2]
    exact FileSystem.replaceFile_error hfail

/-- **A step that succeeds** returns the revision of the text that it has read. It changes nothing, as
in a dry run or if the text stays the same, or it replaces the file. -/
theorem reviseFile_ok (h : p.reviseFile moves w source fs = (.ok r, fs')) :
    ∃ text, fs.readText (p.resolve source) = .ok text ∧ r = moves.revise source text ∧
      ((fs' = fs ∧ (w.dry = true ∨ moves.revisedText text = text)) ∨
        (w.dry = false ∧ ∃ fault, fs.replaceFile (p.resolve source)
          (moves.revisedText text).toUTF8 fault = (.ok (), fs'))) := by
  unfold reviseFile at h
  simp only at h
  split at h
  · cases (Prod.mk.inj h).1
  next text htext =>
  refine ⟨text, htext, ?_⟩
  -- Nothing is to be written,
  split at h
  · next hsame =>
    obtain ⟨hr, hfs⟩ := Prod.mk.inj h
    exact ⟨(Except.ok.inj hr).symm, .inl ⟨hfs.symm, hsame⟩⟩
  next hchanged =>
  -- or the replacement has succeeded.
  split at h
  · next hdone =>
    obtain ⟨hr, rfl⟩ := Prod.mk.inj h
    have hdry : w.dry = false := by simpa using fun h => hchanged (.inl h)
    exact ⟨(Except.ok.inj hr).symm, .inr ⟨hdry, _, hdone⟩⟩
  · cases (Prod.mk.inj h).1

/-- A step on a text that stays the same changes nothing. -/
theorem reviseFile_of_same {text : String} (htext : fs.readText (p.resolve source) = .ok text)
    (hsame : moves.revisedText text = text) (w : Writing) :
    p.reviseFile moves w source fs = (.ok (moves.revise source text), fs) := by
  have hsame : (moves.revise source text).text = text := hsame
  rw [reviseFile, htext]
  simp only [hsame, or_true, if_true]

/-- The sources of the project lie at places of the tree, if the project itself does. For an absolute
root this is no condition at all (`isPlaced_of_ofPaths`). -/
def IsPlaced (p : Project) (fs : FileSystem) : Prop :=
  fs.IsPlace (fs.origin p.root)

theorem IsPlaced.origin_resolve (h : p.IsPlaced fs) (source : Path) :
    fs.IsPlace (fs.origin (p.resolve source)) := by
  -- On whether the source and the root are absolute.
  unfold IsPlaced at h
  unfold resolve Path.join
  split
  · -- An absolute source is looked up from the root of the tree.
    next habs =>
    rw [FileSystem.origin, if_pos habs]
    exact .root
  next hrel =>
  have hroot : p.root.isAbsolute = false ∨ p.root.bytes ≠ [] := by
    by_cases hempty : p.root.bytes = [] <;> simp [Path.isAbsolute, hempty]
  split
  · next hempty =>
    have hrel' : p.root.isAbsolute = false := by simp [Path.isAbsolute, hempty]
    rw [FileSystem.origin, if_neg (by simp [hrel'])] at h
    rwa [FileSystem.origin, if_neg hrel]
  next hne =>
  -- A path that is joined to the root is absolute if the root is.
  obtain ⟨b, bs, hbytes⟩ := List.exists_cons_of_ne_nil hne
  have key : ∀ cs, fs.origin ⟨p.root.bytes ++ cs⟩ = fs.origin p.root := by
    intro cs
    simp [FileSystem.origin, Path.isAbsolute, hbytes]
  split
  · rwa [key]
  · rwa [key]

/-- A project that was made from paths lies at a place of every tree. Its root is a canonical path, and
so absolute. -/
theorem isPlaced_of_ofPaths {root : Path} {target? : Option Path}
    (h : ofPaths fs root target? = .ok p) (fs' : FileSystem) :
    p.IsPlaced fs' := by
  have hroot : p.root.isAbsolute = true := by
    unfold ofPaths at h
    split at h
    · cases h
    next c hc =>
    simp only at h
    split at h
    · cases h
    split at h
    · cases h
    split at h
    · cases h
      exact FileSystem.isAbsolute_of_canonicalize hc
    -- What has been accepted as root is a canonical path.
    · cases h
  rw [IsPlaced, FileSystem.origin, if_pos hroot]
  exact .root

/-- **What a step has changed when it succeeds**: nothing, or one entry, at which there is now a file
with the revised text. -/
theorem reviseFile_changes (hp : p.IsPlaced fs)
    (h : p.reviseFile moves w source fs = (.ok r, fs')) :
    ∃ k f text, fs.resolve (p.resolve source) = .ok k ∧ fs.file? k = some f ∧
      f.isReadable = true ∧ f.content = text.toUTF8 ∧ r = moves.revise source text ∧
      ((fs' = fs ∧ (w.dry = true ∨ moves.revisedText text = text)) ∨
        ∃ d, w.dry = false ∧ d ≠ [] ∧
          fs' = fs.put d (.file ⟨fs.freshInode, f.mode, (moves.revisedText text).toUTF8⟩) ∧
          fs'.resolve (p.resolve source) = .ok d ∧
          ((fs.LosesLink (p.resolve source) ∧ fs.LinksTo d k) ∨
            (¬fs.LosesLink (p.resolve source) ∧ d = k))) := by
  obtain ⟨text, htext, hr, hchange⟩ := reviseFile_ok h
  obtain ⟨k, f, hres, hfile, hread, hcontent⟩ := FileSystem.readText_eq_ok.mp htext
  refine ⟨k, f, text, hres, hfile, hread, hcontent, hr, hchange.imp_right ?_⟩
  -- What was read is the file that is replaced.
  rintro ⟨hdry, fault, hreplace⟩
  obtain ⟨d, hd⟩ := FileSystem.replaceFile_of_resolve (hp.origin_resolve source) hres hfile hreplace
  exact ⟨d, hdry, hd⟩

/-- **A step that loses no link keeps the tree.** -/
theorem reviseFile_sameTree (hp : p.IsPlaced fs)
    (h : p.reviseFile moves w source fs = (.ok r, fs'))
    (hkeep : fs' ≠ fs → ¬fs.LosesLink (p.resolve source)) : fs.SameTree fs' := by
  obtain ⟨k, f, text, -, hfile, -, -, -, ⟨rfl, -⟩ | ⟨d, -, hd, rfl, -, hcase⟩⟩ :=
    reviseFile_changes hp h
  · exact .refl _
  · -- What has been written is new, so the step has changed something.
    rcases hcase with ⟨hlost, -⟩ | ⟨-, rfl⟩
    · exact absurd hlost (hkeep (FileSystem.put_ne_self hd rfl))
    · exact .put_file hfile rfl

/-- Whether a source leads to a location. Several sources may lead to one location, by links in the
project. -/
def leadsTo (p : Project) (fs : FileSystem) (l : Location) (source : Path) : Bool :=
  match fs.resolve (p.resolve source) with
  | .ok k => k == l
  | .error _ => false

theorem leadsTo_iff {l : Location} :
    p.leadsTo fs l source = true ↔ fs.resolve (p.resolve source) = .ok l := by
  unfold leadsTo
  cases fs.resolve (p.resolve source) <;> simp

/-- **A step that loses no link revises the file to which its source leads, and no other.** If the step
writes nothing, the table has nothing to change in the file, so the equation holds then as well. -/
theorem content?_reviseFile (hp : p.IsPlaced fs) (hw : w.dry = false)
    (h : p.reviseFile moves w source fs = (.ok r, fs'))
    (hkeep : fs' ≠ fs → ¬fs.LosesLink (p.resolve source)) (l : Location) :
    fs'.content? l = if p.leadsTo fs l source then (fs.content? l).map moves.revisedBytes
      else fs.content? l := by
  obtain ⟨k, f, text, hres, hfile, -, hcontent, -, hchange⟩ := reviseFile_changes hp h
  -- The source leads to `k` and to no other location.
  have hk : p.leadsTo fs l source = true ↔ l = k := by
    rw [leadsTo_iff, hres, Except.ok.injEq, eq_comm]
  -- What the step has read and revised is the whole content of the file.
  have hrevised : (fs.content? k).map moves.revisedBytes
      = some (moves.revisedText text).toUTF8 := by
    rw [FileSystem.content?, hfile, Option.map_some, Option.map_some, hcontent,
      Moves.revisedBytes_toUTF8]
  rcases hchange with ⟨rfl, hsame⟩ | ⟨d, -, hd, rfl, -, hcase⟩
  · -- Nothing is written only if the text stays the same.
    have htext : moves.revisedText text = text := hsame.resolve_left (by simp [hw])
    split
    · next hl =>
      rw [hk.mp hl, hrevised, htext, FileSystem.content?, hfile, Option.map_some, hcontent]
    · rfl
  · rcases hcase with ⟨hlost, -⟩ | ⟨-, rfl⟩
    · exact absurd hlost (hkeep (FileSystem.put_ne_self hd rfl))
    · rw [FileSystem.content?_put fs hd]
      by_cases hl : l = d
      · rw [if_pos hl, if_pos (hk.mpr hl), hl, hrevised]
      · rw [if_neg hl, if_neg fun h => hl (hk.mp h)]

/-- **After a step the source reads as the revised text**, whether or not a link was lost. -/
theorem readText_reviseFile (hp : p.IsPlaced fs) (hw : w.dry = false)
    (h : p.reviseFile moves w source fs = (.ok r, fs')) :
    fs'.readText (p.resolve source) = .ok r.text := by
  obtain ⟨k, f, text, hres, hfile, hread, hcontent, rfl, hchange⟩ := reviseFile_changes hp h
  rw [Moves.text_revise, FileSystem.readText_eq_ok]
  rcases hchange with ⟨rfl, hsame⟩ | ⟨d, -, hd, rfl, hresolve, -⟩
  · rw [hsame.resolve_left (by simp [hw])]
    exact ⟨k, f, hres, hfile, hread, hcontent⟩
  · refine ⟨d, ⟨fs.freshInode, f.mode, (moves.revisedText text).toUTF8⟩, hresolve, ?_, hread, rfl⟩
    rw [FileSystem.file?_put fs hd, if_pos rfl]

/-- Whatever a step does, it does to one entry, which was no directory and is a file afterwards. From
this everything follows that all steps keep. -/
theorem reviseFile_cases (p : Project) (moves : Moves) (w : Writing) (source : Path)
    (fs : FileSystem) :
    (p.reviseFile moves w source fs).2 = fs ∨ ∃ d f, d ≠ [] ∧ fs.isDir d = false ∧
      (p.reviseFile moves w source fs).2 = fs.put d (.file f) := by
  cases h : p.reviseFile moves w source fs with
  | mk result fs' =>
    cases result with
    | error e => exact .inl (reviseFile_error h)
    | ok r =>
      obtain ⟨text, -, -, ⟨hfs, -⟩ | ⟨-, fault, hreplace⟩⟩ := reviseFile_ok h
      · exact .inl hfs
      -- The new file takes the place of what is no directory.
      · obtain ⟨d, hdest, hfs⟩ := FileSystem.replaceFile_ok hreplace
        obtain ⟨before, l, n, rfl, hd⟩ := FileSystem.isDestination_of_destination hdest
        exact .inr ⟨n :: l, _, List.cons_ne_nil n l, hd.not_dir, hfs⟩

/-- No step makes or removes a directory, so a project stays at its place. -/
theorem IsPlaced.reviseFile (hp : p.IsPlaced fs) (moves : Moves) (w : Writing) (source : Path) :
    p.IsPlaced (p.reviseFile moves w source fs).2 := by
  rcases p.reviseFile_cases moves w source fs with h | ⟨d, f, hd, hdir, h⟩
  · rwa [h]
  · rw [h]
    unfold IsPlaced at hp ⊢
    rw [FileSystem.origin_put]
    exact hp.of_isDir (FileSystem.isDir_put_file hd hdir f)

/-- No step makes anything else of a file. -/
theorem isSome_file?_reviseFile {l : Location} (hl : (fs.file? l).isSome = true) :
    ((p.reviseFile moves w source fs).2.file? l).isSome = true := by
  rcases p.reviseFile_cases moves w source fs with h | ⟨d, f, hd, -, h⟩
  · rwa [h]
  · rw [h, FileSystem.file?_put fs hd]
    split
    · rfl
    · exact hl

/-- No step makes a link. -/
theorem link_of_reviseFile {l : Location} {t : Path}
    (hl : (p.reviseFile moves w source fs).2.node? l = some (.link t)) :
    fs.node? l = some (.link t) := by
  rcases p.reviseFile_cases moves w source fs with h | ⟨d, f, hd, -, h⟩
  · rwa [h] at hl
  · rw [h, FileSystem.node?_put fs hd] at hl
    split at hl
    · cases hl
    · exact hl

end Project

end IncludeMoves
