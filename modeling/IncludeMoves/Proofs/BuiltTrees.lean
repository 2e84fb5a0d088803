import IncludeMoves.FileSystem.Edit
import IncludeMoves.Proofs.Frame
import IncludeMoves.Proofs.InPlace
import IncludeMoves.Proofs.Tables
import IncludeMoves.Proofs.Trees
import Mathlib.Data.List.Nodup

/-!
# How trees come to be

What is supposed of a file system elsewhere, that it is a tree and that names of one file show the same
file, is what every operation on one keeps. So it holds of all that comes to be, from a file system
without anything in it, by making directories, writing files in place, making and removing names, and
running the program.

* `FileSystem.IsProper` — a tree whose entries are told apart, and its links and files as they have to be;
* `FileSystem.IsProper.put` — a new entry, or one that takes the place of a file or a link;
* `FileSystem.IsBuilt` — what comes to be by operations;
* `FileSystem.IsBuilt.isProper` — it is a proper tree;
* `FileSystem.IsProper.mem_below_iff` — the list of all that is below a directory shows what is there.
-/

namespace IncludeMoves

namespace FileSystem

/-- **A proper tree**: a tree with one entry for each location, whose links can be followed as far as
their spelling goes, and whose names of one file show the same file. -/
structure IsProper (fs : FileSystem) : Prop extends IsTree fs where
  distinct : (fs.entries.map Prod.fst).Nodup
  targets : ∀ e ∈ fs.entries, ∀ t, e.2 = .link t → 0 ∉ t.bytes
  shares : fs.SharesFiles

variable {fs fs' : FileSystem} {route : Route} {l k d : Location} {names : List Name} {n : Name}
  {node : Node} {q : Path} {inode : Nat} {g : RegularFile → RegularFile}

theorem isProper_empty : IsProper .empty where
  names := by simp [empty]
  parents := by simp [empty]
  cwd := by decide
  distinct := List.nodup_nil
  targets := by simp [empty]
  shares l k f f' hf _ _ := by
    have hl := ne_nil_of_file?_eq_some hf
    rw [file?_eq_some, node?_of_ne_nil _ hl] at hf
    cases hf

/-! ### Changed entries -/

theorem eq_or_mem_of_mem_put {e : Location × Node} (he : e ∈ (fs.put d node).entries) :
    e = (d, node) ∨ e ∈ fs.entries := by
  unfold put at he
  split at he
  · obtain ⟨e', he', rfl⟩ := List.mem_map.mp he
    split
    · exact .inl rfl
    · exact .inr he'
  · exact (List.mem_append.mp he).symm.imp_left List.mem_singleton.mp

/-- A change of what is no directory closes no directory. -/
theorem isDir_put (hd : d ≠ []) (hdir : fs.isDir d = false) (hk : fs.isDir k = true) :
    (fs.put d node).isDir k = true := by
  have hne : k ≠ d := by
    rintro rfl
    rw [hdir] at hk
    cases hk
  rwa [isDir, node?_put_of_ne fs hd node hne]

theorem nodup_locations_put (h : (fs.entries.map Prod.fst).Nodup) (hd : d ≠ []) :
    ((fs.put d node).entries.map Prod.fst).Nodup := by
  by_cases hnode : fs.node? d = none
  · rw [node?_of_ne_nil fs hd, List.lookup_eq_none_iff] at hnode
    have hnew : ∀ e ∈ fs.entries, e.1 ≠ d := fun e he => Ne.symm (by simpa using hnode e he)
    rw [put_of_forall_ne hnew, List.map_append, List.nodup_append]
    refine ⟨h, List.nodup_singleton d, fun k hk k' hk' => ?_⟩
    obtain ⟨e, he, rfl⟩ := List.mem_map.mp hk
    exact List.mem_singleton.mp hk' ▸ hnew e he
  · rwa [locations_put hd hnode]

/-- **What may be put into a tree**: a directory, a link that can be followed as far as its spelling goes,
or a file that is another one than all that are there, or the same. -/
structure Fits (fs : FileSystem) (node : Node) : Prop where
  target : ∀ t, node = .link t → 0 ∉ t.bytes
  shares : ∀ f, node = .file f → ∀ k f', fs.file? k = some f' → f.inode = f'.inode → f = f'

theorem fits_dir (fs : FileSystem) : fs.Fits .dir :=
  ⟨nofun, nofun⟩

theorem fits_link {t : Path} (ht : 0 ∉ t.bytes) : fs.Fits (.link t) :=
  ⟨fun _ h => Node.link.inj h ▸ ht, nofun⟩

/-- A file with a new number is another one than all that are there. -/
theorem fits_file {f : RegularFile} (hf : f.inode = fs.freshInode) : fs.Fits (.file f) where
  target := nofun
  shares f' hf' k f'' hk hinode := by
    cases hf'
    have hlt : f''.inode < fs.freshInode :=
      inode_lt_freshInode (mem_entries (ne_nil_of_file?_eq_some hk) (file?_eq_some.mp hk))
    exact absurd (hinode.symm.trans hf) (Nat.ne_of_lt hlt)

namespace IsProper

theorem zero_not_mem_target {t : Path} (h : fs.IsProper) (hnode : fs.node? l = some (.link t)) :
    0 ∉ t.bytes := by
  have hl : l ≠ [] := by
    rintro rfl
    cases hnode
  exact h.targets _ (mem_entries hl hnode) t rfl

/-- What is there may be there once more. -/
theorem fits_node (h : fs.IsProper) (hnode : fs.node? l = some node) : fs.Fits node where
  target _ ht := h.zero_not_mem_target (ht ▸ hnode)
  shares f hf k f' hk := h.shares l k f f' (file?_eq_some.mpr (hf ▸ hnode)) hk

/-- **A new entry in a directory**, or one that takes the place of a file or a link. Nothing that is in
the tree is below the entry, so no other location loses its directory. -/
theorem put (h : fs.IsProper) (hdir : fs.isDir l = true) (hn : IsEntryName n ∧ 0 ∉ n)
    (hnot : fs.isDir (n :: l) = false) (hfits : fs.Fits node) : (fs.put (n :: l) node).IsProper := by
  have hne : n :: l ≠ [] := List.cons_ne_nil n l
  have hnames : Location.AreNames (n :: l) := .cons hn (h.areNames (isDir_eq_true.mp hdir))
  refine
    { names := fun e he => ?_
      parents := fun e he => ?_
      cwd := by rw [cwd_put]; exact isDir_put hne hnot h.cwd
      distinct := nodup_locations_put h.distinct hne
      targets := fun e he => ?_
      shares := fun k k' f f' hk hk' hinode => ?_ }
  -- Every entry is the new one or an old one.
  · rcases eq_or_mem_of_mem_put he with rfl | he
    · exact hnames
    · exact h.names e he
  · refine isDir_put hne hnot ?_
    rcases eq_or_mem_of_mem_put he with rfl | he
    · exact hdir
    · exact h.parents e he
  · rcases eq_or_mem_of_mem_put he with rfl | he
    · exact hfits.target
    · exact h.targets e he
  · -- Each of the two names is the new one or an old one.
    rw [file?_eq_some, node?_put fs hne] at hk hk'
    split at hk <;> split at hk'
    · cases hk.symm.trans hk'
      rfl
    · exact hfits.shares f (Option.some.inj hk) k' f' (file?_eq_some.mpr hk') hinode
    · exact (hfits.shares f' (Option.some.inj hk') k f (file?_eq_some.mpr hk) hinode.symm).symm
    · exact h.shares k k' f f' (file?_eq_some.mpr hk) (file?_eq_some.mpr hk') hinode

end IsProper

theorem file?_updateFile (fs : FileSystem) (inode : Nat) (g : RegularFile → RegularFile) (l : Location) :
    (fs.updateFile inode g).file? l
      = (fs.file? l).map fun f => if f.inode = inode then g f else f := by
  rw [file?, file?, node?_updateFile]
  cases fs.node? l with
  | none => rfl
  | some node =>
    cases node with
    | dir => rfl
    | link t => rfl
    | file f => by_cases hf : f.inode = inode <;> simp [Node.updated, hf]

theorem isDir_updateFile (fs : FileSystem) (inode : Nat) (g : RegularFile → RegularFile) (l : Location) :
    (fs.updateFile inode g).isDir l = fs.isDir l := by
  rw [isDir, isDir, node?_updateFile]
  cases fs.node? l with
  | none => rfl
  | some node =>
    cases node with
    | dir => rfl
    | link t => rfl
    | file f => by_cases hf : f.inode = inode <;> simp [Node.updated, hf]

/-- **A file changed in place** stays one file. All its names are changed, so they still show the same.
-/
theorem IsProper.updateFile (h : fs.IsProper) (hg : ∀ f, (g f).inode = f.inode) :
    (fs.updateFile inode g).IsProper := by
  have hentry : ∀ e' ∈ (fs.updateFile inode g).entries,
      ∃ e ∈ fs.entries, e' = (e.1, e.2.updated inode g) := by
    intro e' he'
    rw [updateFile_eq] at he'
    obtain ⟨e, he, heq⟩ := List.mem_map.mp he'
    exact ⟨e, he, heq.symm⟩
  refine
    { names := fun e' he' => ?_
      parents := fun e' he' => ?_
      cwd := (isDir_updateFile fs inode g _).trans h.cwd
      distinct := ?_
      targets := fun e' he' t ht => ?_
      shares := fun k k' f f' hk hk' hinode => ?_ }
  -- Every entry has the place of an old one.
  · obtain ⟨e, he, rfl⟩ := hentry e' he'
    exact h.names e he
  · obtain ⟨e, he, rfl⟩ := hentry e' he'
    exact (isDir_updateFile fs inode g _).trans (h.parents e he)
  · rw [updateFile_eq, List.map_map]
    exact h.distinct
  · obtain ⟨⟨k, node⟩, he, rfl⟩ := hentry e' he'
    cases node with
    | dir => cases ht
    | link t' => exact h.targets _ he t ht
    | file f => by_cases hf : f.inode = inode <;> simp [Node.updated, hf] at ht
  · -- The change keeps the numbers, so both names showed the same file before.
    have hkept : ∀ f : RegularFile, (if f.inode = inode then g f else f).inode = f.inode := by
      intro f
      split
      · exact hg f
      · rfl
    rw [file?_updateFile, Option.map_eq_some_iff] at hk hk'
    obtain ⟨f₀, hf₀, rfl⟩ := hk
    obtain ⟨f₁, hf₁, rfl⟩ := hk'
    rw [hkept, hkept] at hinode
    rw [h.shares k k' f₀ f₁ hf₀ hf₁ hinode]

/-! ### Names that a lookup asks for -/

/-- A part of a path that the system takes. It may be any name that an entry has, and also `.`, `..` or
nothing. -/
def IsPart (n : Name) : Prop :=
  IsStep n ∧ 0 ∉ n

theorem isPart_of_mem_steps (hq : 0 ∉ q.bytes) (hn : n ∈ q.steps) : IsPart n := by
  refine ⟨isStep_of_mem_steps hn, fun hzero => ?_⟩
  rcases mem_chunks_of_mem_steps hn with hn | rfl
  · exact hq (mem_of_mem_chunks hn hzero).1
  · cases hzero

/-- **The place of what is not there**: a directory, and a name that an entry of it could have. Whatever
is put there makes a tree again. -/
structure IsVacant (fs : FileSystem) (parent : Location) (n : Name) : Prop where
  isDir : fs.isDir parent = true
  isName : IsEntryName n ∧ 0 ∉ n
  absent : fs.node? (n :: parent) = none

/-- Where a lookup without links has got: to a vacant place, or to a link with parts of paths behind it.
This is what has to be known to go on behind the link. -/
def Progress.IsSpelled (fs : FileSystem) : Progress → Prop
  | .arrived (.found _) => True
  | .arrived (.absent parent n) => fs.IsVacant parent n
  | .atLink _ t rest => (∃ l, fs.node? l = some (.link t)) ∧ ∀ n ∈ rest, IsPart n

theorem Advances.isSpelled {p : Progress} (h : Advances fs route l names p)
    (hnames : ∀ n ∈ names, IsPart n) : p.IsSpelled fs := by
  induction h with
  | done => trivial
  | close _ _ ih => exact ih fun n hn => hnames n (List.mem_cons_of_mem _ hn)
  | here _ _ _ ih => exact ih fun n hn => hnames n (List.mem_cons_of_mem _ hn)
  | up _ _ _ ih => exact ih fun n hn => hnames n (List.mem_cons_of_mem _ hn)
  -- Here the name is one of those asked for, so it is spelled as an entry can be.
  | missing hadmits hnode =>
    obtain ⟨hstep, hzero⟩ := hnames _ List.mem_cons_self
    exact ⟨hadmits.isDir, ⟨hadmits.isEntryName hstep, hzero⟩, hnode⟩
  | stay _ _ _ => trivial
  | atLink _ hnode _ => exact ⟨⟨_, hnode⟩, fun n hn => hnames n (List.mem_cons_of_mem _ hn)⟩
  | enter _ _ _ _ ih => exact ih fun n hn => hnames n (List.mem_cons_of_mem _ hn)

/-- **What a lookup misses could be made where it looked for it.** The induction is on the links; the
names behind a link are those of its target and the ones that were left. -/
theorem Leads.isVacant {budget : Nat} (h : Leads fs route budget l names (.absent d n))
    (hfs : fs.IsProper) (hnames : ∀ n ∈ names, IsPart n) : fs.IsVacant d n := by
  generalize hs : Spot.absent d n = s at h
  induction h with
  | arrive h =>
    subst hs
    exact h.isSpelled hnames
  | @follow budget l parent names rest t s h _ _ ih =>
    obtain ⟨⟨k, hlink⟩, hrest⟩ := h.isSpelled hnames
    -- The lookup goes on with the parts of the target in front.
    refine ih (fun m hm => ?_) hs
    rcases List.mem_append.mp hm with hm | hm
    · exact isPart_of_mem_steps (hfs.zero_not_mem_target hlink) hm
    · exact hrest m hm

theorem zero_not_mem_of_contains (h : q.bytes.contains 0 = false) : 0 ∉ q.bytes := by
  rwa [Bool.eq_false_iff, ne_eq, List.contains_iff_mem] at h

/-- The same for the lookup of a path, of which it is checked beforehand that it has no zero byte. -/
theorem isVacant_of_locate (hfs : fs.IsProper) (h : fs.locate route q = .ok (.absent d n)) :
    fs.IsVacant d n := by
  unfold locate at h
  split at h
  · cases h
  next hzero =>
  split at h
  · cases h
  split at h
  · cases h
  split at h
  · cases h
  -- The path has passed all refusals, so it has no zero byte, and neither have its parts.
  have hleads := leads_of_locateFrom (mapError_eq_ok.mp h)
  exact hleads.isVacant hfs fun m hm =>
    isPart_of_mem_steps (zero_not_mem_of_contains (by simpa using hzero)) hm

theorem IsProper.put_vacant (h : fs.IsProper) (hd : fs.IsVacant d n) (hfits : fs.Fits node) :
    (fs.put (n :: d) node).IsProper :=
  h.put hd.isDir hd.isName (by rw [FileSystem.isDir, hd.absent]; rfl) hfits

/-! ### Operations -/

/-- Making directories along names keeps a tree proper, by induction on the names. Each one that is
missing is made at a vacant place. -/
theorem IsProper.makeDirsFrom (h : fs.IsProper) (hnames : ∀ n ∈ names, IsPart n)
    (hmade : fs.makeDirsFrom l names = .ok (fs', k)) : fs'.IsProper := by
  induction names generalizing fs l with
  | nil =>
    rw [FileSystem.makeDirsFrom] at hmade
    cases hmade
    exact h
  | cons n rest ih =>
    have hrest : ∀ m ∈ rest, IsPart m := fun m hm => hnames m (List.mem_cons_of_mem _ hm)
    rw [FileSystem.makeDirsFrom] at hmade
    -- The name leads nowhere, or there is something.
    split at hmade
    · cases hmade
    · next parent m hlocate =>
      split at hmade
      · -- The directory is made in the vacant place, and the next one is looked for in it.
        have hvacant := (leads_of_locateFrom hlocate).isVacant h fun m hm =>
          hnames m (List.mem_singleton.mp hm ▸ List.mem_cons_self)
        exact ih (h.put_vacant hvacant (fits_dir fs)) hrest hmade
      · cases hmade
    · split at hmade
      -- What is there already is entered, if it is a directory.
      · exact ih h hrest hmade
      · cases hmade

namespace IsProper

theorem makeDirs (h : fs.IsProper) (q : Path) : (fs.makeDirs q).IsProper := by
  unfold FileSystem.makeDirs
  split
  · exact h
  next hzero =>
  split
  · next hmade =>
    exact h.makeDirsFrom
      (fun m hm => isPart_of_mem_steps (zero_not_mem_of_contains (by simpa using hzero)) hm) hmade
  · exact h

theorem makeParent (h : fs.IsProper) (q : Path) : (fs.makeParent q).IsProper := by
  unfold FileSystem.makeParent
  split
  · exact h.makeDirs _
  · exact h

theorem addNode (h : fs.IsProper) (hfits : fs.Fits node) (q : Path) :
    (fs.addNode q node).IsProper := by
  unfold FileSystem.addNode
  split
  · next hlocate =>
    split
    · exact h.put_vacant (isVacant_of_locate h hlocate) hfits
    · exact h
  · exact h

/-- Writing in place keeps a tree proper: the file of the path is changed under all its names, or a new
one is put at a vacant place. -/
theorem writeInPlace (h : fs.IsProper) (q : Path) (content : ByteArray) (mode : Nat) :
    (fs.writeInPlace q content mode).IsProper := by
  have hparent := h.makeParent q
  unfold FileSystem.writeInPlace
  simp only
  split
  · split
    · split
      · -- The file stays the one that it is.
        exact hparent.updateFile fun f => rfl
      · exact hparent
    · exact hparent
  · next hlocate =>
    split
    · -- The file is a new one.
      exact hparent.put_vacant (isVacant_of_locate hparent hlocate) (fits_file rfl)
    · exact hparent
  · exact hparent

theorem addLink (h : fs.IsProper) (q t : Path) : (fs.addLink q t).IsProper := by
  unfold FileSystem.addLink
  split
  · exact h
  next hzero =>
  exact (h.makeParent q).addNode (fits_link (zero_not_mem_of_contains (by simpa using hzero))) q

theorem addName (h : fs.IsProper) (q t : Path) : (fs.addName q t).IsProper := by
  have hparent := h.makeParent q
  unfold FileSystem.addName
  simp only
  split
  · split
    -- Whatever has a name may get another one, unless it is a directory.
    · next hnode =>
      split
      · exact hparent
      · exact hparent.addNode (hparent.fits_node hnode) q
    · exact hparent
  · exact hparent

end IsProper

/-! ### Removal -/

theorem lookup_filter_fst (es : List (Location × Node)) (keeps : Location → Bool) (k : Location) :
    (es.filter fun e => keeps e.1).lookup k = if keeps k then es.lookup k else none := by
  induction es with
  | nil => simp
  | cons e es ih =>
    obtain ⟨k', node⟩ := e
    rw [List.filter_cons]
    by_cases hk : k = k'
    · subst hk
      by_cases hkeeps : keeps k = true
      · simp [hkeeps]
      · simp [hkeeps, ih]
    · -- The first entry is another one, kept or not.
      have hne : (k == k') = false := by simpa using hk
      split <;> simp [List.lookup_cons, hne, ih]

theorem node?_restrict (fs : FileSystem) (keeps : Location → Bool) (hk : k ≠ []) :
    (fs.restrict keeps).node? k = if keeps k then fs.node? k else none := by
  rw [node?_of_ne_nil _ hk, node?_of_ne_nil _ hk]
  exact lookup_filter_fst fs.entries keeps k

theorem isDir_restrict {keeps : Location → Bool} (hkeeps : keeps k = true) :
    (fs.restrict keeps).isDir k = fs.isDir k := by
  by_cases hk : k = []
  · subst hk
    rfl
  · rw [isDir, isDir, node?_restrict fs keeps hk, if_pos hkeeps]

theorem node?_of_node?_restrict {keeps : Location → Bool}
    (h : (fs.restrict keeps).node? k = some node) : fs.node? k = some node := by
  by_cases hk : k = []
  · subst hk
    exact h
  · rw [node?_restrict fs keeps hk] at h
    split at h
    · exact h
    · cases h

/-- **What is left of a tree**, if with each location the one above it is left. The current directory
has to be left too. -/
theorem IsProper.restrict (h : fs.IsProper) {keeps : Location → Bool}
    (hkeeps : ∀ l, keeps l = true → keeps l.tail = true)
    (hcwd : (fs.restrict keeps).isDir fs.cwd = true) : (fs.restrict keeps).IsProper where
  names e he := h.names e (List.mem_filter.mp he).1
  parents e he := by
    obtain ⟨he, hkept⟩ := List.mem_filter.mp he
    rw [isDir_restrict (hkeeps _ hkept)]
    exact h.parents e he
  cwd := hcwd
  distinct := h.distinct.sublist (List.filter_sublist.map Prod.fst)
  targets e he := h.targets e (List.mem_filter.mp he).1
  shares k k' f f' hk hk' :=
    h.shares k k' f f' (file?_eq_some.mpr (node?_of_node?_restrict (file?_eq_some.mp hk)))
      (file?_eq_some.mpr (node?_of_node?_restrict (file?_eq_some.mp hk')))

/-- What is not below a location is in a directory that is not below it. -/
theorem not_isSuffixOf_tail (l k : Location) (h : (!l.isSuffixOf k) = true) :
    (!l.isSuffixOf k.tail) = true := by
  rw [Bool.not_eq_true', Bool.eq_false_iff, ne_eq, List.isSuffixOf_iff_suffix] at h ⊢
  exact fun hl => h (hl.trans (List.tail_suffix k))

theorem IsProper.remove (h : fs.IsProper) (hcwd : (fs.remove q).isDir fs.cwd = true) :
    (fs.remove q).IsProper := by
  unfold FileSystem.remove at hcwd ⊢
  split
  · next l hl =>
    simp only [hl] at hcwd
    split
    · next hchange =>
      -- What is removed is a whole branch, so nothing is left without its directory.
      rw [if_pos hchange] at hcwd
      exact h.restrict (not_isSuffixOf_tail l) hcwd
    · exact h
  · exact h

/-! ### Runs -/

/-- **A replacement** puts a file into the directory that the path names. -/
theorem IsProper.replaceFile (h : fs.IsProper) (q : Path) (content : ByteArray)
    (fault : Option WriteFault) : (fs.replaceFile q content fault).2.IsProper := by
  rcases fs.replaceFile_cases q content fault with ⟨e, hfailed⟩ | ⟨d, hdest, hdone⟩
  · rwa [hfailed]
  · rw [hdone]
    obtain ⟨before, l, n, rfl, hd⟩ := isDestination_of_destination hdest
    have hpart : IsPart n := isPart_of_mem_steps (zero_not_mem_of_contains hd.no_nul)
      (hd.steps ▸ List.mem_append_right before List.mem_cons_self)
    exact h.put hd.admits.isDir ⟨hd.admits.isEntryName hpart.1, hpart.2⟩ hd.not_dir (fits_file rfl)

end FileSystem

namespace Project

/-- A step keeps a tree proper. What it puts is a file with a new number, in the place of a file or a
link. -/
theorem isProper_reviseFile {fs : FileSystem} (h : fs.IsProper) (p : Project) (moves : Moves)
    (w : Writing) (source : Path) :
    (p.reviseFile moves w source fs).2.IsProper := by
  unfold reviseFile
  simp only
  split
  · exact h
  next text htext =>
  split
  · exact h
  have hreplace := h.replaceFile (p.resolve source) (moves.revise source text).text.toUTF8
    (w.faults (p.resolve source))
  -- Only the second part of the result matters.
  split
  · next heq => rwa [heq] at hreplace
  · next heq => rwa [heq] at hreplace

end Project

/-- **The program keeps a proper tree one**, whatever it is asked for and however it ends. -/
theorem Invocation.isProper_run {fs : FileSystem} (h : fs.IsProper) (i : Invocation)
    (executable : Path) (colour : Bool) (faults : WriteFaults) (out : Output) :
    (i.run executable colour faults fs out).files.IsProper := by
  rcases i.run_cases executable colour faults fs out with
    ⟨-, hfiles⟩ | ⟨format, p, moves, sources, result, out', -, hall⟩
  · rwa [hfiles]
  · exact Project.reviseAll_induct (fun _ source h => Project.isProper_reviseFile h p moves _ source) h hall

namespace FileSystem

/-- **What comes to be by operations**, those of the program and those with which others prepare what it
works on. The directory in which a process is stays. -/
inductive IsBuilt : FileSystem → Prop
  | empty : IsBuilt .empty
  | makeDirs {fs : FileSystem} (q : Path) : IsBuilt fs → IsBuilt (fs.makeDirs q)
  | writeInPlace {fs : FileSystem} (q : Path) (content : ByteArray) (mode : Nat) :
      IsBuilt fs → IsBuilt (fs.writeInPlace q content mode)
  | addLink {fs : FileSystem} (q t : Path) : IsBuilt fs → IsBuilt (fs.addLink q t)
  | addName {fs : FileSystem} (q t : Path) : IsBuilt fs → IsBuilt (fs.addName q t)
  | remove {fs : FileSystem} (q : Path) : (fs.remove q).isDir fs.cwd = true →
      IsBuilt fs → IsBuilt (fs.remove q)
  | setDirectoryMode {fs : FileSystem} (l : Location) (mode : Nat) :
      IsBuilt fs → IsBuilt (fs.setDirectoryMode l mode)
  | enter {fs : FileSystem} (l : Location) : fs.isDir l = true →
      IsBuilt fs → IsBuilt { fs with cwd := l }
  | run {fs : FileSystem} (i : Invocation) (executable : Path) (colour : Bool)
      (faults : WriteFaults) (out : Output) :
      IsBuilt fs → IsBuilt (i.run executable colour faults fs out).files

/-- **What comes to be by operations is a proper tree.** -/
theorem IsBuilt.isProper {fs : FileSystem} (h : IsBuilt fs) : fs.IsProper := by
  induction h with
  | empty => exact isProper_empty
  | makeDirs q _ ih => exact ih.makeDirs q
  | writeInPlace q content mode _ ih => exact ih.writeInPlace q content mode
  | addLink q t _ ih => exact ih.addLink q t
  | addName q t _ ih => exact ih.addName q t
  | remove q hcwd _ ih => exact ih.remove hcwd
  -- Permission bits of directories, and which of them the process is in, are beside the entries.
  | setDirectoryMode l mode _ ih => exact { ih with }
  | enter l hdir _ ih => exact { ih with cwd := hdir }
  | run i executable colour faults out _ ih => exact i.isProper_run ih executable colour faults out

/-! ### The list of what is there -/

variable {fs : FileSystem} {l k : Location} {names : List Name} {node : Node}

/-- **The list of all that is below a directory** shows each entry there, with its names in outward
order. -/
theorem IsProper.mem_below_iff (h : fs.IsProper) :
    (names, node) ∈ fs.below l ↔ names ≠ [] ∧ fs.node? (names.reverse ++ l) = some node := by
  -- The names of an entry below `l` stand in front of those of `l`.
  have hcut : ∀ before : List Name, (before ++ l).take ((before ++ l).length - l.length) = before :=
    fun before => by simp
  rw [below, List.mem_filterMap]
  constructor
  · rintro ⟨⟨k, node'⟩, he, hshown⟩
    simp only at hshown
    split at hshown
    · next hbelow =>
      obtain ⟨before, rfl⟩ := List.isSuffixOf_iff_suffix.mp hbelow.1
      rw [hcut] at hshown
      cases hshown
      have hne : before ≠ [] := fun hnil => hbelow.2 (by rw [hnil, List.nil_append])
      rw [List.reverse_reverse]
      rw [node?_of_ne_nil fs (List.append_ne_nil_of_left_ne_nil hne l)]
      exact ⟨List.reverse_ne_nil_iff.mpr hne, lookup_eq_some_of_mem h.distinct he⟩
    · cases hshown
  -- An entry below `l` has names to spare in front of those of `l`.
  · rintro ⟨hne, hnode⟩
    have hne' : names.reverse ≠ [] := List.reverse_ne_nil_iff.mpr hne
    refine ⟨_, mem_entries (List.append_ne_nil_of_left_ne_nil hne' l) hnode, ?_⟩
    have hbelow : l.isSuffixOf (names.reverse ++ l) = true ∧ names.reverse ++ l ≠ l :=
      ⟨List.isSuffixOf_iff_suffix.mpr (List.suffix_append _ l), by simpa using hne⟩
    simp only [if_pos hbelow, hcut, List.reverse_reverse]

end FileSystem

end IncludeMoves
