import IncludeMoves.Proofs.DeepTrees
import IncludeMoves.Proofs.Replacement

/-!
# A replacement does all or nothing

A replacement takes several steps, and each of them may fail. In the end there are two cases. It has
failed, and the file system is the one from before; or it has not, and there is a new file in the place
of one entry. All other entries are those from before: the links on the way, the other names of the old
file, and no temporary file is among them.

* `FileSystem.Replaces` — a file system with a new file in the place of one entry;
* `FileSystem.IsRefused` — what a replacement fails on;
* `FileSystem.replaceFile_all_or_nothing` — the two cases, for a path that leads to a file.

The entry is that of the file to which the path leads, unless the path loses a link
(`FileSystem.LosesLink`): then it is the entry of the link, and the old file stays. There are such paths:
`FileSystem.not_all_or_nothing_deepFileTree`.
-/

namespace IncludeMoves

namespace FileSystem

variable {fs fs' : FileSystem} {d k : Location} {node : Node} {path : Path} {content : ByteArray}
  {mode : Nat} {fault : Option WriteFault}

/-- **A new file in the place of one entry**: at `d` there is a file with the given content and
permission bits, which no entry has named before. The entries are the same otherwise, and there are no
more and no less of them; and the directories have their permission bits. -/
structure Replaces (fs fs' : FileSystem) (d : Location) (content : ByteArray) (mode : Nat) :
    Prop where
  entry : ∃ f, fs'.file? d = some f ∧ f.content = content ∧ f.mode = mode ∧
    ∀ e ∈ fs.entries, Node.inode e.2 ≠ f.inode
  others : ∀ l, l ≠ d → fs'.node? l = fs.node? l
  locations : fs'.entries.map Prod.fst = fs.entries.map Prod.fst
  modes : SameModes fs fs'
  cwd : fs'.cwd = fs.cwd

theorem replaces_put (hd : d ≠ []) (hnode : fs.node? d = some node) (content : ByteArray)
    (mode : Nat) : Replaces fs (fs.put d (.file ⟨fs.freshInode, mode, content⟩)) d content mode where
  entry := ⟨_, file?_eq_some.mpr (node?_put_self fs hd _), rfl, rfl, fun _ he => inode_ne_freshInode he⟩
  others _ hl := node?_put_of_ne fs hd _ hl
  locations := locations_put hd (by simp [hnode]) _
  modes := sameModes_put fs d _
  cwd := cwd_put fs d _

/-! ### What a replacement fails on -/

/-- **What a replacement fails on**: a step that fails, no directory in which the new file could be
prepared, one in which no file may be made, or a directory in the place where it would go. -/
inductive IsRefused (fs : FileSystem) (path : Path) (fault : Option WriteFault) : Prop
  | fault (h : fault ≠ none)
  | noWorkplace (h : fs.isDirectory (workplace (fs.replacedPath path)) = false)
  | locked {l : Location} (hplace : fs.resolve (workplace (fs.replacedPath path)) = .ok l)
      (h : fs.maySearch l = false ∨ fs.mayChange l = false)
  | directory (h : fs.isDirectory path = true) (hkeep : ¬fs.LosesLink path)

/-- A temporary file is made in a directory that may be changed. These are all the conditions there are
on it. -/
theorem resolve_of_openWorkplace {l : Location} (h : fs.openWorkplace path = .ok l) :
    fs.resolve path = .ok l ∧ fs.isDir l = true ∧ fs.maySearch l = true ∧ fs.mayChange l = true := by
  unfold openWorkplace at h
  -- The current directory can be found, and the name is one that can be asked for.
  split at h
  · cases h
  rw [mapError_eq_ok] at h
  unfold resolveWorkplace at h
  split at h
  · cases h
  split at h
  · cases h
  split at h
  · cases h
  split at h
  · cases h
  -- There is a directory in which files may be made.
  next l' hres =>
  split at h
  · cases h
  next hdir =>
  split at h
  · next hmay =>
    cases h
    rw [Bool.and_eq_true] at hmay
    exact ⟨hres, by simpa using hdir, hmay⟩
  · cases h

/-- A replacement that is not refused has found a directory for its temporary file, and no step has
failed. -/
theorem openWorkplace_of_replacementPlace (h : fs.replacementPlace path content fault = .ok d) :
    fault = none ∧ ∃ l, fs.openWorkplace (workplace (fs.replacedPath path)) = .ok l := by
  unfold replacementPlace at h
  simp only at h
  split at h
  · cases h
  next l hplace =>
  refine ⟨?_, l, hplace⟩
  -- No stage has failed.
  split at h
  · cases h
  · cases h
  · cases h
  · cases h
  · rfl

/-- **What is refused fails**, and changes nothing. The cases are the ways to be refused, and each of
them stops one of the steps. -/
theorem IsRefused.replaceFile (hfs : fs.IsTree) (h : fs.IsRefused path fault) (content : ByteArray) :
    ∃ e, fs.replaceFile path content fault = (.error e, fs) := by
  rw [replaceFile_eq]
  cases hplace : fs.replacementPlace path content fault with
  | error e => exact ⟨e, rfl⟩
  | ok d =>
    obtain ⟨hfault, l, hopen⟩ := openWorkplace_of_replacementPlace hplace
    obtain ⟨hres, hdir, hsearch, hchange⟩ := resolve_of_openWorkplace hopen
    exfalso
    -- If a place had been found, nothing of this could be the case.
    cases h with
    | fault h => exact h hfault
    | noWorkplace h => simp [isDirectory_iff.mpr ⟨l, hres, hdir⟩] at h
    | locked hres' h =>
      cases hres.symm.trans hres'
      simp [hsearch, hchange] at h
    | directory h hkeep =>
      obtain ⟨k, hres, hdir⟩ := isDirectory_iff.mp h
      have hdest := destination_of_replacementPlace hplace
      have hnode := isDir_eq_true.mp hdir
      -- The new file would go where the directory is, but a move does not take its place.
      have hcase := destination_of_resolve (hfs.isPlace_origin path) hres hnode hdest
      obtain ⟨-, rfl⟩ := hcase.resolve_left fun hlost => hkeep hlost.1
      obtain ⟨before, l, n, rfl, hd⟩ := isDestination_of_destination hdest
      exact Bool.false_ne_true (hd.not_dir.symm.trans hdir)

/-! ### The two cases -/

/-- **A replacement does all or nothing.** If it fails, as on all that is refused, nothing has changed.
If it succeeds on a path that leads to a file, there is a new file in the place of one entry, with the
new content and the old permission bits, and the path leads there. This is the entry of the old file,
or, if the path loses a link, that of a link to it. -/
theorem replaceFile_all_or_nothing (hfs : fs.IsTree) (path : Path) (content : ByteArray)
    (fault : Option WriteFault) :
    (∀ e fs', fs.replaceFile path content fault = (.error e, fs') → fs' = fs) ∧
    (fs.IsRefused path fault → ∃ e, fs.replaceFile path content fault = (.error e, fs)) ∧
    ∀ k f fs', fs.resolve path = .ok k → fs.file? k = some f →
      fs.replaceFile path content fault = (.ok (), fs') →
      ∃ d, fs.Replaces fs' d content f.mode ∧ fs'.resolve path = .ok d ∧
        ((¬fs.LosesLink path ∧ d = k) ∨ (fs.LosesLink path ∧ fs.LinksTo d k)) := by
  refine ⟨fun e fs' => replaceFile_error, fun h => h.replaceFile hfs content, ?_⟩
  intro k f fs' hres hfile h
  obtain ⟨d, hd, rfl, hback, hcase⟩ :=
    replaceFile_of_resolve (hfs.isPlace_origin path) hres hfile h
  -- Where there was a link or the old file, there is an entry already, so none is added.
  refine ⟨d, ?_, hback, ?_⟩
  · rcases hcase with ⟨-, t, -, hlink, -⟩ | ⟨-, rfl⟩
    · exact replaces_put hd hlink content f.mode
    · exact replaces_put hd (file?_eq_some.mp hfile) content f.mode
  · exact hcase.symm

/-- A file of two names, and a link that leads to one of them through another link. The replacement goes
through both links, and the second name keeps the old file. -/
def chainTree : FileSystem where
  entries := [
    ([(Path.ofString "d").bytes], .dir),
    ([(Path.ofString "f").bytes, (Path.ofString "d").bytes], .file ⟨1, 0o755, "old".toUTF8⟩),
    ([(Path.ofString "g").bytes], .file ⟨1, 0o755, "old".toUTF8⟩),
    ([(Path.ofString "a").bytes], .link (.ofString "d/f")),
    ([(Path.ofString "b").bytes], .link (.ofString "a"))]
  cwd := [(Path.ofString "d").bytes]

/-- The file is replaced where its one name is; its other name and the links stay. A directory is not
replaced, nor a file that cannot be moved, and none is created in a directory that is not there. -/
theorem replaceFile_all_or_nothing_chainTree :
    let f : Location := [(Path.ofString "f").bytes, (Path.ofString "d").bytes]
    let g : Location := [(Path.ofString "g").bytes]
    let a : Location := [(Path.ofString "a").bytes]
    let new := "new".toUTF8
    (∃ fs', chainTree.replaceFile (.ofString "../b") new none = (.ok (), fs') ∧
      chainTree.Replaces fs' f new 0o755 ∧ fs'.resolve (.ofString "../b") = .ok f ∧
      fs'.file? g = chainTree.file? g ∧ fs'.node? a = some (.link (.ofString "d/f"))) ∧
    (∃ e, chainTree.replaceFile (.ofString "/d") new none = (.error e, chainTree)) ∧
    (∃ e, chainTree.replaceFile (.ofString "x/y") new none = (.error e, chainTree)) ∧
    ∀ fault : WriteFault,
      ∃ e, chainTree.replaceFile (.ofString "f") new (some fault) = (.error e, chainTree) := by
  intro f g a new
  have hfs : chainTree.IsTree := by decide
  have hkeep : ¬chainTree.LosesLink (.ofString "../b") :=
    not_losesLink_of_canonicalize (c := .ofString "/d/f") (by decide)
  have hkeep' : ¬chainTree.LosesLink (.ofString "/d") :=
    not_losesLink_of_canonicalize (c := .ofString "/d") (by decide)
  refine ⟨?_, ?_, ?_, fun fault => ?_⟩
  -- The link leads through another one to the file, which gets the new content.
  · obtain ⟨fs', hstep⟩ : ∃ fs', chainTree.replaceFile (.ofString "../b") new none = (.ok (), fs') :=
      ⟨_, Prod.ext (by decide) rfl⟩
    obtain ⟨d, hd, hback, hcase⟩ := (replaceFile_all_or_nothing hfs _ new none).2.2 f
      ⟨1, 0o755, "old".toUTF8⟩ fs' (by decide) (by decide) hstep
    obtain ⟨-, rfl⟩ := hcase.resolve_right fun h => hkeep h.1
    -- The other entries are those that were there before.
    refine ⟨fs', hstep, hd, hback, ?_, ?_⟩
    · rw [file?, file?, hd.others g (by decide)]
    · rw [hd.others a (by decide)]
      decide
  · exact (replaceFile_all_or_nothing hfs _ new none).2.1 (.directory (by decide) hkeep')
  · exact (replaceFile_all_or_nothing hfs _ new none).2.1 (.noWorkplace (by decide))
  · exact (replaceFile_all_or_nothing hfs _ new (some fault)).2.1 (.fault (by simp))

/-! ### A link that is lost -/

/-- A file in the sixteenth directory, and a link that leads to it over another link. The path of the
link is short, but that of the file is too long to be asked for. -/
def deepFileTree : FileSystem :=
  Project.deepTreeWith 16 [Project.deepLink,
    ((Path.ofString "f").bytes :: Project.longLocation 16, .file ⟨1, 0o644, "old".toUTF8⟩),
    ([(Path.ofString "x").bytes], .link (Project.overLink [(Path.ofString "f").bytes]).toPath)] []

/-- **A link can be lost.** The file can be asked for, but it has no canonical path. The replacement
succeeds and does not touch the file, and where there was a link there is a file. -/
theorem not_all_or_nothing_deepFileTree :
    let k := (Path.ofString "f").bytes :: Project.longLocation 16
    let new := "new".toUTF8
    deepFileTree.IsTree ∧ deepFileTree.resolve (.ofString "/x") = .ok k ∧
      ∃ old fs', deepFileTree.file? k = some old ∧
        deepFileTree.replaceFile (.ofString "/x") new none = (.ok (), fs') ∧
        ¬deepFileTree.Replaces fs' k new old.mode ∧ fs'.file? k = some old ∧
        ∃ d t f, deepFileTree.node? d = some (.link t) ∧ fs'.file? d = some f := by
  intro k new
  have hfs : deepFileTree.IsTree := by decide +kernel
  have hres : deepFileTree.resolve (.ofString "/x") = .ok k := by decide +kernel
  have hold : deepFileTree.file? k = some ⟨1, 0o644, "old".toUTF8⟩ := by decide +kernel
  -- The file has no canonical path, and its name is a link.
  have hlost : deepFileTree.LosesLink (.ofString "/x") := by
    have hcanonical : deepFileTree.canonicalize (.ofString "/x") = .error (.os .nameTooLong) := by
      decide +kernel
    have hlink : deepFileTree.lookup .entry (.ofString "/x") = .ok [(Path.ofString "x").bytes] ∧
        deepFileTree.node? [(Path.ofString "x").bytes]
          = some (.link (Project.overLink [(Path.ofString "f").bytes]).toPath) := by
      decide +kernel
    exact ⟨⟨_, hcanonical⟩, _, _, hlink⟩
  -- Still the step succeeds.
  obtain ⟨fs', hstep⟩ : ∃ fs', deepFileTree.replaceFile (.ofString "/x") new none = (.ok (), fs') := by
    have hok : (deepFileTree.replaceFile (.ofString "/x") new none).1 = .ok () := by decide +kernel
    generalize deepFileTree.replaceFile (.ofString "/x") new none = step at hok ⊢
    exact ⟨step.2, Prod.ext hok rfl⟩
  -- So the new file is at the entry of a link.
  obtain ⟨d, hd, rfl, -, hcase⟩ := replaceFile_of_resolve (hfs.isPlace_origin _) hres hold hstep
  obtain ⟨-, t, -, hlink, -⟩ := hcase.resolve_right fun h => h.1 hlost
  -- The entry of the link is not that of the file.
  have hne : k ≠ d := by
    rintro rfl
    cases hlink.symm.trans (file?_eq_some.mp hold)
  have hkept : (deepFileTree.put d (.file ⟨deepFileTree.freshInode, 0o644, new⟩)).file? k
      = some ⟨1, 0o644, "old".toUTF8⟩ := by
    rw [file?_put _ hd, if_neg hne, hold]
  have hlost : (deepFileTree.put d (.file ⟨deepFileTree.freshInode, 0o644, new⟩)).file? d
      = some ⟨deepFileTree.freshInode, 0o644, new⟩ := by
    rw [file?_put _ hd, if_pos rfl]
  -- And the file is not replaced: it has its old content.
  refine ⟨hfs, hres, _, _, hold, hstep, fun hreplaces => ?_, hkept, d, t, _, hlink, hlost⟩
  obtain ⟨f, hf, hcontent, -⟩ := hreplaces.entry
  obtain rfl := Option.some.inj (hkept.symm.trans hf)
  exact absurd hcontent (by decide)

end FileSystem

end IncludeMoves
