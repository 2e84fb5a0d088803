import IncludeMoves.Proofs.KeptWays
import IncludeMoves.Proofs.SameShape

/-!
# Files changed in place

A file that is given another text in place shows it under all its names, and nothing else changes. If it
was no text before, no step that succeeds has read it, under whatever name; so a run does the same before
and after the change, and the change may as well be made behind the run.

* `FileSystem.node?_updateFile` — what is where, after a change in place;
* `FileSystem.SameShape.updateFile` — a change of the content keeps the shape of the tree;
* `FileSystem.LacksText` — a file that is no text, under any of its names;
* `Project.reviseAll_updateFile` — a run and a change of such a file in either order.
-/

namespace IncludeMoves

/-- What a change of the file with the number `inode` makes of an entry. All names of the file show the
change, and nothing else does. -/
def Node.updated (inode : Nat) (g : RegularFile → RegularFile) : Node → Node
  | .file f => if f.inode = inode then .file (g f) else .file f
  | node => node

/-- The file with another text. -/
def RegularFile.withText (text : String) (f : RegularFile) : RegularFile :=
  { f with content := text.toUTF8 }

theorem Node.outline_updated {inode : Nat} {g : RegularFile → RegularFile}
    (hmode : ∀ f, (g f).mode = f.mode) (node : Node) :
    (node.updated inode g).outline = node.outline := by
  cases node with
  | file f => by_cases hf : f.inode = inode <;> simp [updated, outline, hf, hmode]
  | dir => rfl
  | link t => rfl

namespace FileSystem

variable {fs fs₁ : FileSystem} {inode : Nat} {g : RegularFile → RegularFile} {l k d : Location}
  {q : Path} {f : RegularFile} {text : String}

/-! ### A change in place -/

theorem updateFile_eq (fs : FileSystem) (inode : Nat) (g : RegularFile → RegularFile) :
    fs.updateFile inode g
      = { fs with entries := fs.entries.map fun e => (e.1, e.2.updated inode g) } := by
  -- Both change the entries one by one.
  refine congrArg (fun es => { fs with entries := es }) (List.map_congr_left fun e _ => ?_)
  obtain ⟨l, node⟩ := e
  cases node with
  | file f => by_cases hf : f.inode = inode <;> simp [Node.updated, hf]
  | dir => rfl
  | link t => rfl

/-- **What is where after a change in place.** -/
theorem node?_updateFile (fs : FileSystem) (inode : Nat) (g : RegularFile → RegularFile)
    (l : Location) :
    (fs.updateFile inode g).node? l = (fs.node? l).map (Node.updated inode g) := by
  by_cases hl : l = []
  · rw [hl, node?_nil, node?_nil]
    rfl
  · rw [node?_of_ne_nil _ hl, node?_of_ne_nil _ hl, updateFile_eq]
    exact lookup_map_snd _ _ _

/-- Other files stay as they are. -/
theorem file?_updateFile_of_ne (h : fs.file? l = some f) (hf : f.inode ≠ inode) :
    (fs.updateFile inode g).file? l = some f := by
  rw [file?_eq_some] at h ⊢
  rw [node?_updateFile, h, Option.map_some, Node.updated, if_neg hf]

theorem SameTree.updateFile (hmode : ∀ f, (g f).mode = f.mode) :
    SameTree fs (fs.updateFile inode g) where
  cwd := rfl
  modes _ := rfl
  locations := by
    rw [updateFile_eq, List.map_map]
    rfl
  outline l := by
    rw [node?_updateFile, Option.map_map]
    exact congrArg (fun outline => (fs.node? l).map outline)
      (funext fun node => Node.outline_updated hmode node)

theorem freshInode_updateFile (hinode : ∀ f, (g f).inode = f.inode) :
    (fs.updateFile inode g).freshInode = fs.freshInode := by
  have hsame : ∀ node : Node, Node.inode (node.updated inode g) = Node.inode node := by
    intro node
    cases node with
    | file f => by_cases hf : f.inode = inode <;> simp [Node.updated, Node.inode, hf, hinode]
    | dir => rfl
    | link t => rfl
  rw [updateFile_eq, freshInode, freshInode, List.foldr_map]
  simp only [hsame]

/-- **A change of the content keeps the shape of the tree.** -/
theorem SameShape.updateFile (hmode : ∀ f, (g f).mode = f.mode)
    (hinode : ∀ f, (g f).inode = f.inode) : SameShape fs (fs.updateFile inode g) where
  toSameOutline := (SameTree.updateFile hmode).sameOutline
  children l := .of_eq ((SameTree.updateFile hmode).children l)
  freshInode := freshInode_updateFile hinode

/-- A change of one file and another file at some place, in either order. -/
theorem updateFile_put_of_ne (hf : f.inode ≠ inode) :
    (fs.put d (.file f)).updateFile inode g = (fs.updateFile inode g).put d (.file f) := by
  have hnew : (Node.file f).updated inode g = .file f := if_neg hf
  have hlookup : ((fs.updateFile inode g).entries.lookup d).isSome
      = (fs.entries.lookup d).isSome := by
    rw [updateFile_eq, lookup_map_snd, Option.isSome_map]
  rw [put, put, hlookup]
  split
  · -- The entry at the place is replaced before or after the others are changed.
    simp only [updateFile_eq, List.map_map]
    refine congrArg (fun es => { fs with entries := es }) (List.map_congr_left fun e _ => ?_)
    by_cases he : e.1 = d <;> simp [he, hnew]
  · simp only [updateFile_eq, List.map_append, List.map_cons, List.map_nil, hnew]

/-- **Gives the file to which a path leads another text**, in place. This is how a file is repaired by
hand: under all its names, and with the same number. -/
def setText (fs : FileSystem) (path : Path) (text : String) : FileSystem :=
  match fs.resolve path with
  | .error _ => fs
  | .ok l =>
    match fs.file? l with
    | none => fs
    | some f => fs.updateFile f.inode (.withText text)

theorem setText_of_resolve (hres : fs.resolve q = .ok k) (hfile : fs.file? k = some f) :
    fs.setText q text = fs.updateFile f.inode (.withText text) := by
  rw [setText, hres]
  simp only [hfile]

/-! ### Files that are no texts -/

theorem lookup_ne_notText (fs : FileSystem) (route : Route) (q : Path) :
    fs.lookup route q ≠ .error .notText := by
  unfold lookup locate
  split
  · -- The refusals in the order in which they are made.
    next e h =>
    intro he
    cases he
    split at h
    · cases h
    split at h
    · cases h
    split at h
    · cases h
    split at h
    · cases h
    cases hfrom : fs.locateFrom route maxLinks (fs.origin q) q.steps with
    | error e => rw [hfrom] at h; cases h
    | ok s => rw [hfrom] at h; cases h
  · simp
  · simp

theorem readBytes_ne_notText (fs : FileSystem) (q : Path) : fs.readBytes q ≠ .error .notText := by
  have hresolve : fs.resolve q ≠ .error .notText := fs.lookup_ne_notText .target q
  unfold readBytes
  cases hres : fs.resolve q with
  | error e => simpa [hres] using hresolve
  | ok k =>
    cases hfile : fs.file? k with
    | none => simp [hfile]
    | some f => by_cases hread : f.isReadable = true <;> simp [hfile, hread]

/-- What is no text is a file that can be read. So there is something to repair, and it is known where.
-/
theorem exists_of_readText_eq_notText (h : fs.readText q = .error .notText) :
    ∃ k f, fs.resolve q = .ok k ∧ fs.file? k = some f ∧
      ∀ text : String, f.content ≠ text.toUTF8 := by
  rw [readText] at h
  cases hbytes : fs.readBytes q with
  | error e =>
    -- The system does not know what a text is.
    rw [hbytes] at h
    cases h
    exact absurd hbytes (fs.readBytes_ne_notText q)
  | ok bytes =>
    obtain ⟨k, f, hres, hfile, -, rfl⟩ := readBytes_eq_ok.mp hbytes
    refine ⟨k, f, hres, hfile, fun text htext => ?_⟩
    simp [hbytes, fromUTF8?_eq_some.mpr htext] at h

/-- **Names of one file show the same file.** Every tree that is built up by the operations on file
systems has this. -/
def SharesFiles (fs : FileSystem) : Prop :=
  ∀ l k f g, fs.file? l = some f → fs.file? k = some g → f.inode = g.inode → f = g

/-- **A file that is no text**, under any of its names. Its number is in use, so that no new file of a
run can get it. -/
structure LacksText (fs : FileSystem) (inode : Nat) : Prop where
  used : inode < fs.freshInode
  lacks : ∀ l f, fs.file? l = some f → f.inode = inode → ∀ text : String, f.content ≠ text.toUTF8

theorem SharesFiles.lacksText (h : fs.SharesFiles) (hfile : fs.file? k = some f)
    (hf : ∀ text : String, f.content ≠ text.toUTF8) : fs.LacksText f.inode where
  used := inode_lt_freshInode
    (mem_entries (ne_nil_of_file?_eq_some hfile) (file?_eq_some.mp hfile))
  lacks l g hg hinode := by
    rw [h l k g f hg hfile hinode]
    exact hf

namespace LacksText

/-- A file with a new number is another one. So a replacement leaves a file that is no text as it is. -/
theorem put (h : fs.LacksText inode) (hd : d ≠ []) (hf : f.inode = fs.freshInode) :
    (fs.put d (.file f)).LacksText inode where
  used := by
    -- The number of the new file is larger than that of the old one.
    have hmem := mem_entries hd (node?_put_self fs hd (.file f))
    calc inode < fs.freshInode := h.used
      _ = f.inode := hf.symm
      _ < (fs.put d (.file f)).freshInode := inode_lt_freshInode hmem
  lacks l f' hf' hinode := by
    rw [file?_put fs hd] at hf'
    split at hf'
    · cases hf'
      exact absurd (hinode.symm.trans hf) (Nat.ne_of_lt h.used)
    · exact h.lacks l f' hf' hinode

/-- What can be read as text is another file. -/
theorem readText_updateFile (h : fs.LacksText inode) (hmode : ∀ f, (g f).mode = f.mode)
    (hread : fs.readText q = .ok text) : (fs.updateFile inode g).readText q = .ok text := by
  obtain ⟨k, f, hres, hfile, hreadable, hcontent⟩ := readText_eq_ok.mp hread
  have hne : f.inode ≠ inode := fun hf => h.lacks k f hfile hf text hcontent
  exact readText_eq_ok.mpr ⟨k, f, ((SameTree.updateFile hmode).resolve q).trans hres,
    file?_updateFile_of_ne hfile hne, hreadable, hcontent⟩

end LacksText

end FileSystem

namespace Project

variable {σ : Type} {p : Project} {moves : Moves} {w : Writing} {report : Reporter σ}
  {source q : Path} {sources : List Path} {fs fs' : FileSystem} {state state' : σ} {r : Revision}
  {result : Except Problem (List Revision)} {revisions : List Revision} {inode : Nat}
  {g : RegularFile → RegularFile} {k : Location} {f : RegularFile}

/-! ### Runs and changes in place -/

/-- **A step and a change of a file that is no text**, in either order. A step that succeeds has not
read this file, so it cannot have depended on it. -/
theorem reviseFile_updateFile (hno : fs.LacksText inode) (hmode : ∀ f, (g f).mode = f.mode)
    (hinode : ∀ f, (g f).inode = f.inode)
    (h : p.reviseFile moves w source fs = (.ok r, fs')) :
    fs'.LacksText inode ∧
      p.reviseFile moves w source (fs.updateFile inode g) = (.ok r, fs'.updateFile inode g) := by
  obtain ⟨text, htext, -⟩ := reviseFile_ok h
  have htext' := (hno.readText_updateFile hmode htext).trans htext.symm
  rcases reviseFile_of_sameShape p moves w (.updateFile hmode hinode) htext' with
    ⟨result, hstep, hstep'⟩ | ⟨r', d, f, hd, -, hf, hstep, hstep'⟩
  · cases h.symm.trans hstep
    exact ⟨hno, hstep'⟩
  · cases h.symm.trans hstep
    -- The new file has a number that no file had before, so it is not the one that is changed.
    refine ⟨hno.put hd hf, ?_⟩
    rw [FileSystem.updateFile_put_of_ne (hf ▸ Nat.ne_of_gt hno.used)]
    exact hstep'

/-- **A run and a change of a file that is no text**, in either order. The steps are gone through one by
one, and each keeps that the file is no text. -/
theorem reviseAll_updateFile (hno : fs.LacksText inode) (hmode : ∀ f, (g f).mode = f.mode)
    (hinode : ∀ f, (g f).inode = f.inode)
    (h : p.reviseAll moves w report sources fs state = (.ok revisions, fs', state')) :
    p.reviseAll moves w report sources (fs.updateFile inode g) state
      = (.ok revisions, fs'.updateFile inode g, state') := by
  induction sources generalizing fs state revisions with
  | nil =>
    cases h
    rfl
  | cons source sources ih =>
    -- The change is put off behind the first step, and then behind the others.
    obtain ⟨r, rs, fs₁, state₁, rfl, hstep, hreport, hrest⟩ := reviseAll_cons_ok h
    obtain ⟨hno₁, hstep'⟩ := reviseFile_updateFile hno hmode hinode hstep
    exact reviseAll_cons_of_ok hstep' hreport (ih hno₁ hrest)

/-- **What a run does to the file at the end of a path**: nothing, or what is read there is a text. For
a run only writes texts. -/
theorem resolve_reviseAll (hp : p.IsPlaced fs) (hres : fs.resolve q = .ok k)
    (hfile : fs.file? k = some f)
    (h : p.reviseAll moves w report sources fs state = (result, fs', state')) :
    (fs'.resolve q = .ok k ∧ fs'.file? k = some f) ∨ ∃ text, fs'.readText q = .ok text := by
  -- Both are kept by each step: that sources lie at places, and what is known of the file.
  have hkept : p.IsPlaced fs' ∧
      ((fs'.resolve q = .ok k ∧ fs'.file? k = some f) ∨ ∃ text, fs'.readText q = .ok text) := by
    refine reviseAll_induct (P := fun fs₁ => p.IsPlaced fs₁ ∧
      ((fs₁.resolve q = .ok k ∧ fs₁.file? k = some f) ∨ ∃ text, fs₁.readText q = .ok text))
      (fun fs₁ source ⟨hp₁, hcases⟩ => ⟨hp₁.reviseFile moves w source, ?_⟩)
      ⟨hp, .inl ⟨hres, hfile⟩⟩ h
    cases hstep : p.reviseFile moves w source fs₁ with
    | mk result fs₂ =>
      cases result with
      | error e =>
        rw [reviseFile_error hstep]
        exact hcases
      | ok r =>
        -- From a text on, there is always a text.
        rcases hcases with ⟨hres₁, hfile₁⟩ | ⟨text, htext⟩
        · rcases resolve_reviseFile hp₁ hstep hres₁ hfile₁ with hsame | ⟨-, -, htext⟩
          · exact .inl hsame
          · exact .inr ⟨_, htext⟩
        · rcases readText_cases hp₁ hstep htext with htext₂ | htext₂
          · exact .inr ⟨text, htext₂⟩
          · exact .inr ⟨r.text, htext₂⟩
  exact hkept.2

end Project

end IncludeMoves
