import IncludeMoves.Proofs.Revising
import Mathlib.Data.List.Perm.Basic

/-!
# What a step depends on

A step reads the file of its source, and looks at the tree for where the new file goes: at kinds of
entries, link targets and permission bits, at the names in one directory, for one that is longer than all
of them, and at the inode numbers in use, for one that is greater. Two trees that agree in these do the
same in the step.

* `FileSystem.SameShape` — the agreement;
* `FileSystem.SameShape.replaceFile` — the same replacement;
* `Project.reviseFile_of_sameShape` — the same step, if the source reads the same.
-/

namespace IncludeMoves

namespace FileSystem

variable {fs fs' : FileSystem}

theorem foldr_max_eq_of_perm {α : Type} (f : α → Nat) {as bs : List α} (h : as.Perm bs) :
    as.foldr (fun a m => max (f a) m) 0 = bs.foldr (fun a m => max (f a) m) 0 := by
  have hcomm : LeftCommutative fun a m => max (f a) m := ⟨fun a b m => Nat.max_left_comm _ _ _⟩
  exact h.foldr_eq 0

/-- The name of a temporary file does not depend on the order of those that are used. -/
theorem tempName_eq_of_perm {used used' : List Name} (h : used.Perm used') :
    tempName used = tempName used' := by
  rw [tempName, tempName, foldr_max_eq_of_perm List.length h]

/-- **The same shape**: the same outline, the same names in each directory, in some order, and the same
new inode number. -/
structure SameShape (fs fs' : FileSystem) : Prop extends SameOutline fs fs' where
  children : ∀ l, (fs'.children l).Perm (fs.children l)
  freshInode : fs'.freshInode = fs.freshInode

namespace SameOutline

theorem replacedPath (h : SameOutline fs fs') (path : Path) :
    fs'.replacedPath path = fs.replacedPath path := by
  rw [FileSystem.replacedPath, FileSystem.replacedPath, h.canonicalize]

theorem tempPath (h : SameOutline fs fs') (place : Path) (name : Name) :
    fs'.tempPath place name = fs.tempPath place name := by
  rw [FileSystem.tempPath, FileSystem.tempPath, h.cwd]

theorem resolveWorkplace (h : SameOutline fs fs') (place : Path) :
    fs'.resolveWorkplace place = fs.resolveWorkplace place := by
  simp only [FileSystem.resolveWorkplace, h.tempPath, h.resolve, h.isDir_eq, h.cwd,
    h.modes.maySearchAbove, h.modes.maySearch, h.modes.mayChange]

theorem openWorkplace (h : SameOutline fs fs') (place : Path) :
    fs'.openWorkplace place = fs.openWorkplace place := by
  simp only [FileSystem.openWorkplace, h.modes.starts h.cwd, h.resolveWorkplace, h.tempPath]

theorem destination (h : SameOutline fs fs') (path : Path) :
    fs'.destination path = fs.destination path := by
  simp only [FileSystem.destination, h.locateFrom, h.origin, h.isDir_eq, h.modes.maySearch,
    h.modes.mayChange]

theorem mode? (h : SameOutline fs fs') (path : Path) : fs'.mode? path = fs.mode? path := by
  rw [FileSystem.mode?, FileSystem.mode?, h.resolve]
  cases fs.resolve path with
  | error e => rfl
  | ok l =>
    rcases h.node?_cases l with hnode | ⟨f, f', hf, hf'⟩
    · simp only [file?, hnode]
    · have hfile := file?_eq_some.mpr hf
      obtain ⟨g, hg, hmode⟩ := h.mode_of_file? hfile
      simp only [hfile, hg, Option.map_some, hmode]

end SameOutline

namespace SameShape

theorem replacement (h : SameShape fs fs') (path : Path) (content : ByteArray) :
    fs'.replacement path content = fs.replacement path content := by
  rw [FileSystem.replacement, FileSystem.replacement, h.freshInode, h.replacedPath, h.mode?]

/-- The new file goes to the same place, or the replacement fails in the same way. -/
theorem replacementPlace (h : SameShape fs fs') (path : Path) (content : ByteArray)
    (fault : Option WriteFault) :
    fs'.replacementPlace path content fault = fs.replacementPlace path content fault := by
  have hdestination : ∀ l, (fs'.put (tempName (fs.children l) :: l)
        (.file (fs.replacement path content))).destination (fs.replacedPath path)
      = (fs.put (tempName (fs.children l) :: l)
        (.file (fs.replacement path content))).destination (fs.replacedPath path) := fun l =>
    (h.toSameOutline.put_file (List.cons_ne_nil _ _) rfl).destination _
  -- The temporary file gets the same name, since its directory has the same entries.
  have hname : ∀ l, tempName (fs'.children l) = tempName (fs.children l) :=
    fun l => tempName_eq_of_perm (h.children l)
  simp only [FileSystem.replacementPlace, h.replacedPath, h.openWorkplace, h.tempPath,
    h.replacement, hname, hdestination]

/-- **The same replacement**: a failure with the same error, or the same new file at the same place.
What is in the files plays no part in where the new one goes. -/
theorem replaceFile (h : SameShape fs fs') (path : Path) (content : ByteArray)
    (fault : Option WriteFault) :
    (∃ e, fs.replaceFile path content fault = (.error e, fs) ∧
        fs'.replaceFile path content fault = (.error e, fs')) ∨
      ∃ d f, fs.destination (fs.replacedPath path) = .ok d ∧ f.inode = fs.freshInode ∧
        fs.replaceFile path content fault = (.ok (), fs.put d (.file f)) ∧
        fs'.replaceFile path content fault = (.ok (), fs'.put d (.file f)) := by
  have hreplace' := fs'.replaceFile_eq path content fault
  rw [h.replacementPlace, h.replacement] at hreplace'
  have hreplace := fs.replaceFile_eq path content fault
  -- The place depends on the shape only, so that both succeed or both fail.
  cases hplace : fs.replacementPlace path content fault with
  | error e =>
    rw [hplace] at hreplace hreplace'
    exact .inl ⟨e, hreplace, hreplace'⟩
  | ok d =>
    rw [hplace] at hreplace hreplace'
    exact .inr ⟨d, fs.replacement path content, destination_of_replacementPlace hplace, rfl, hreplace,
      hreplace'⟩

end SameShape

end FileSystem

namespace Project

variable {source : Path} {fs fs' : FileSystem}

/-- **The same step**: it leaves both trees as they are, or puts the same new file at the same place,
which is no directory, of both. -/
theorem reviseFile_of_sameShape (p : Project) (moves : Moves) (w : Writing) (h : fs.SameShape fs')
    (htext : fs'.readText (p.resolve source) = fs.readText (p.resolve source)) :
    (∃ result, p.reviseFile moves w source fs = (result, fs) ∧
        p.reviseFile moves w source fs' = (result, fs')) ∨
      ∃ r d f, d ≠ [] ∧ fs.isDir d = false ∧ f.inode = fs.freshInode ∧
        p.reviseFile moves w source fs = (.ok r, fs.put d (.file f)) ∧
        p.reviseFile moves w source fs' = (.ok r, fs'.put d (.file f)) := by
  -- Both read the same text, and so both fail or revise it alike.
  simp only [reviseFile, htext]
  cases fs.readText (p.resolve source) with
  | error e => exact .inl ⟨_, rfl, rfl⟩
  | ok text =>
    simp only
    by_cases hsame : w.dry = true ∨ (moves.revise source text).text = text
    · rw [if_pos hsame, if_pos hsame]
      exact .inl ⟨_, rfl, rfl⟩
    rw [if_neg hsame, if_neg hsame]
    -- The same text is to be written, so the replacements agree.
    rcases h.replaceFile (p.resolve source) (moves.revise source text).text.toUTF8
        (w.faults (p.resolve source)) with
      ⟨⟨place, e⟩, hfail, hfail'⟩ | ⟨d, f, hdest, hinode, hdone, hdone'⟩
    · rw [hfail, hfail']
      exact .inl ⟨_, rfl, rfl⟩
    · obtain ⟨before, l, n, rfl, hd⟩ := FileSystem.isDestination_of_destination hdest
      rw [hdone, hdone']
      exact .inr ⟨_, n :: l, f, List.cons_ne_nil n l, hd.not_dir, hinode, rfl, rfl⟩

end Project

end IncludeMoves
