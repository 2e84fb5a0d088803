import IncludeMoves.Proofs.SourceSearch

/-!
# Sources below the target

The walk through the target goes on over links that lead out of the root, and still no source is outside:
what counts is the path on which the walk has come to a file, and that path begins with the target, which
begins with the root. So a search never fails because of a file outside the root. A source has only names
in it, put back behind the root it is the path of the walk again, and it opens a file in every tree that a
run comes through, unless its path is too long or its directory may not be searched.

Both are possible: the walk lists the files of a directory without asking for each of them, and it may list
a directory that it may not search. `Project.not_every_source_opens_longNameTree` is a tree with a path
that is too long.

* `Project.IsBelowTarget` — what is known of a source from the search;
* `Project.Opens` — a source that opens a file;
* `Project.sources_below_target` — the whole.
-/

namespace IncludeMoves

namespace FileSystem

variable {fs : FileSystem} {here : Visit} {above : List Visit} {l : Location} {q : Path}

/-- What cannot be asked for cannot be read. -/
theorem readText_of_isTooLong (hnul : q.bytes.contains 0 = false) (hempty : q.bytes ≠ [])
    (hlong : q.isTooLong = true) : fs.readText q = .error (.os .nameTooLong) := by
  have hlookup : fs.lookup .target q = .error (.os .nameTooLong) :=
    lookup_of_not_accepts hnul hempty (by simp [Route.accepts, hlong])
  simp only [readText, readBytes, resolve, hlookup]

/-- Where all directories are like new ones, every name may be looked up. -/
theorem not_isDenied_of_nil (h : fs.directoryModes = []) : ¬fs.IsDenied q := by
  rintro ⟨_, _, k, -, -, -, -, hsearch⟩
  simp [maySearch_of_nil h k] at hsearch

/-- **Without links a walk is where it seems to be**: the path of each visit is that of its directory. -/
theorem Enters.path_eq_toPath (h : fs.Enters ⟨l.toPath, l⟩ here above) (hfs : fs.IsTree)
    (hl : fs.isDir l = true) (hnone : ∀ k t, fs.node? k ≠ some (.link t)) :
    here.path = here.location.toPath ∧ fs.isDir here.location = true := by
  -- Each step of the walk adds the same name to the path and to the location.
  induction h with
  | start => exact ⟨rfl, hl⟩
  | inner _ hn hdir _ _ _ ih =>
    obtain ⟨hpath, hhere⟩ := ih
    refine ⟨?_, isDir_eq_true.mpr hdir⟩
    rw [hpath]
    exact Location.child_toPath (hfs.name_of_mem_children hn) (hfs.areNames (isDir_eq_true.mp hhere))
  | linked _ _ hlink _ _ _ _ _ => exact absurd hlink (hnone _ _)

end FileSystem

namespace Project

variable {σ : Type} {p : Project} {fs fs' : FileSystem} {root source path : Path} {target? : Option Path}
  {r below : Location} {sources : List Path} {moves : Moves} {w : Writing} {report : Reporter σ}
  {before : List Path} {state state' : σ} {result : Except Problem (List Revision)}

/-- **A source below the target**, as a search in `fs` finds it: names behind each other, which put back
behind the root are the path of the walk, and that begins with the target. -/
structure IsBelowTarget (p : Project) (fs : FileSystem) (source : Path) : Prop where
  relative : source.isAbsolute = false
  names : ∃ names : List Name, names ≠ [] ∧ source.components = names.map .name
  visited : .ok (p.resolve source) ∈ fs.walk p.target
  back : ∀ path, .ok path ∈ fs.walk p.target → path.relativeTo? p.root = some source →
    path = p.resolve source
  below : p.target.components <+: (p.resolve source).components

/-- A source that opens a file. It need not be one that may be read, or a text: those are failures of
reading. -/
def Opens (p : Project) (fs : FileSystem) (source : Path) : Prop :=
  ∃ l f, fs.resolve (p.resolve source) = .ok l ∧ fs.file? l = some f

/-- The path of a walk through the target has the names of the target in front. -/
theorem IsAt.exists_toPath (h : p.IsAt fs r below) (hfs : fs.IsTree)
    (hpath : .ok path ∈ fs.walk p.target) : ∃ more, Location.AreNames (more ++ (below ++ r)) ∧
      path = Location.toPath (more ++ (below ++ r)) := by
  obtain ⟨⟨more, -, hmore, hspelled⟩, -⟩ := hfs.reaches_of_mem_walk h.isDir h.isOpen (h.target ▸ hpath)
  exact ⟨more, hmore.append (hfs.areNames (FileSystem.isDir_eq_true.mp h.isDir)), hspelled⟩

/-- **What is discovered is below the target.** This is about paths: behind a link the file may lie
anywhere. -/
theorem IsAt.isBelowTarget (h : p.IsAt fs r below) (hfs : fs.IsTree) (hsource : p.Discovers fs source) :
    p.IsBelowTarget fs source := by
  obtain ⟨path, hpath, -, hrel⟩ := hsource
  -- The source is spelled by the names between the root and the file,
  obtain ⟨names, hne, hnames, hrel', rfl, -⟩ := h.exists_relativeTo hfs hpath
  cases hrel.symm.trans hrel'
  -- and the path that the walk has reached by those between the target and the file.
  obtain ⟨more, hall, hspelled⟩ := h.exists_toPath hfs hpath
  exact
    { relative := Location.not_isAbsolute_toRelative hnames
      names := ⟨names.reverse, List.reverse_ne_nil_iff.mpr hne, Location.components_toRelative hnames⟩
      visited := hpath
      back := fun path' hpath' hrel' => by
        obtain ⟨names', -, -, hrel'', hresolve, -⟩ := h.exists_relativeTo hfs hpath'
        rw [Option.some.inj (hrel'.symm.trans hrel''), hresolve]
      below := by
        rw [h.target, hspelled, Location.components_prefix_iff
          (hfs.areNames (FileSystem.isDir_eq_true.mp h.isDir)) hall]
        exact List.suffix_append more _ }

/-- **A source opens a file also in the middle of a run**, unless its path is too long or may not be looked
up. -/
theorem IsAt.opens_of_reviseAll (h : p.IsAt fs r below) (hfs : fs.IsTree) (hp : p.IsPlaced fs)
    (hsource : p.Discovers fs source)
    (hrun : p.reviseAll moves w report before fs state = (result, fs', state'))
    (hshort : (p.resolve source).isTooLong = false) (hmay : ¬fs.IsDenied (p.resolve source)) :
    p.Opens fs' source := by
  cases (h.reaches_of_discovers hfs hsource).2 with
  | tooLong hlong => cases hshort.symm.trans hlong
  | denied hdenied => exact absurd hdenied hmay
  | file hres hfile => exact (keepsWays_reviseAll hp hrun).toFile _ _ _ hres hfile

/-- With a path that is too long it opens nothing, in whatever tree. -/
theorem IsAt.reviseFile_of_isTooLong (h : p.IsAt fs r below) (hfs : fs.IsTree)
    (hsource : p.Discovers fs source) (hlong : (p.resolve source).isTooLong = true) (moves : Moves)
    (w : Writing) (fs' : FileSystem) :
    p.reviseFile moves w source fs'
      = (.error (.io (p.resolve source) (.os .nameTooLong)), fs') := by
  obtain ⟨more, hall, hspelled⟩ := h.exists_toPath hfs (h.isBelowTarget hfs hsource).visited
  have htext : fs'.readText (p.resolve source) = .error (.os .nameTooLong) := by
    rw [hspelled] at hlong ⊢
    exact FileSystem.readText_of_isTooLong hall.nul_not_mem_toPath (Location.bytes_toPath_ne_nil _) hlong
  simp only [reviseFile, htext]

/-- With a path that may not be looked up it opens nothing, in whatever tree has the same ways. -/
theorem reviseFile_of_isDenied (hways : fs.KeepsWays fs') (hdenied : fs.IsDenied (p.resolve source))
    (hshort : (p.resolve source).isTooLong = false) (moves : Moves) (w : Writing) :
    p.reviseFile moves w source fs'
      = (.error (.io (p.resolve source) (.os .accessDenied)), fs') := by
  have hres := (hways.isDenied hdenied).resolve_eq hshort
  simp only [reviseFile, FileSystem.readText, FileSystem.readBytes, hres]

/-- **Sources are below the target.** A search fails with a failure of its walk only. What it finds has
only names in it, leads back to the path of the walk, and is below the target.

A run that has revised any files before, of whichever sources and however it has ended, leaves a tree in
which the source opens a file. If the path is too long, or the directory of the file may be listed but not
searched, the source opens nothing, and the run ends there without a further change. -/
theorem sources_below_target (hfs : fs.IsTree) (hp : ofPaths fs root target? = .ok p) :
    (∀ e, p.sources fs = .error e → ∃ e', e = .walk e' ∧ .error e' ∈ fs.walk p.target) ∧
      ∀ sources source, p.sources fs = .ok sources → source ∈ sources →
        p.IsBelowTarget fs source ∧
          ∀ (moves : Moves) (w : Writing) (report : Reporter σ) (before : List Path) (state : σ),
            let fs' := (p.reviseAll moves w report before fs state).2.1
            ((p.resolve source).isTooLong = false → ¬fs.IsDenied (p.resolve source) →
                p.Opens fs' source) ∧
              ((p.resolve source).isTooLong = true → p.reviseFile moves w source fs'
                = (.error (.io (p.resolve source) (.os .nameTooLong)), fs')) ∧
              ((p.resolve source).isTooLong = false → fs.IsDenied (p.resolve source) →
                p.reviseFile moves w source fs'
                  = (.error (.io (p.resolve source) (.os .accessDenied)), fs')) := by
  obtain ⟨r, below, h⟩ := exists_isAt hfs hp
  refine ⟨fun e he => h.exists_walk_of_sources_error hfs he, fun sources source hsources hmem => ?_⟩
  have hsource := discovers_of_mem_sources hsources hmem
  have hplaced := isPlaced_of_ofPaths hp fs
  refine ⟨h.isBelowTarget hfs hsource, fun moves w report before state =>
    ⟨fun hshort hmay => ?_, fun hlong => ?_, fun hshort hdenied => ?_⟩⟩
  -- What runs before the source leaves the way to it as it was.
  · exact h.opens_of_reviseAll hfs hplaced hsource rfl hshort hmay
  -- Too long a path is the first thing that shows, a closed directory the next one.
  · exact h.reviseFile_of_isTooLong hfs hsource hlong moves w _
  · exact reviseFile_of_isDenied (keepsWays_reviseAll hplaced rfl) hdenied hshort moves w

/-- A project with a link to a file, and with a link to a directory that is outside. The sources in that
directory are sources of the project. -/
def linkOutTree : FileSystem where
  entries := [
    ([(Path.ofString "p").bytes], .dir),
    ([(Path.ofString "src").bytes, (Path.ofString "p").bytes], .dir),
    ([(Path.ofString "a.hpp").bytes, (Path.ofString "src").bytes, (Path.ofString "p").bytes],
      .file ⟨1, 0o644, "#include \"A\"\n".toUTF8⟩),
    ([(Path.ofString "k.hpp").bytes, (Path.ofString "src").bytes, (Path.ofString "p").bytes],
      .link (.ofString "a.hpp")),
    ([(Path.ofString "l").bytes, (Path.ofString "src").bytes, (Path.ofString "p").bytes],
      .link (.ofString "../../q")),
    ([(Path.ofString "q").bytes], .dir),
    ([(Path.ofString "b.cpp").bytes, (Path.ofString "q").bytes], .file ⟨2, 0o644, .empty⟩)]
  cwd := []

/-- The source behind the link is below the target, and it opens a file behind a run over the others. -/
theorem sources_below_target_linkOutTree :
    let p : Project := ⟨.ofString "/p", .ofString "/p/src"⟩
    let before := [.ofString "src/a.hpp", .ofString "src/k.hpp"]
    linkOutTree.IsTree ∧ ofPaths linkOutTree (.ofString "p") none = .ok p ∧
      p.sources linkOutTree = .ok (before ++ [.ofString "src/l/b.cpp"]) ∧
      p.IsBelowTarget linkOutTree (.ofString "src/l/b.cpp") ∧
      p.Opens (p.reviseAll ⟨[("A", .gone)]⟩ ⟨false, .none⟩ (fun _ n => (.ok (), n + 1)) before
        linkOutTree 0).2.1 (.ofString "src/l/b.cpp") := by
  intro p before
  have hfs : linkOutTree.IsTree := by decide
  have hp : ofPaths linkOutTree (.ofString "p") none = .ok p := rfl
  -- The third source is behind a link that leads out of the root.
  have hsources : p.sources linkOutTree = .ok (before ++ [.ofString "src/l/b.cpp"]) := by cbv
  obtain ⟨hbelow, hopens⟩ := (sources_below_target (σ := Nat) hfs hp).2 _ (.ofString "src/l/b.cpp")
    hsources (by simp)
  have hmay := FileSystem.not_isDenied_of_nil (q := p.resolve (.ofString "src/l/b.cpp"))
    (show linkOutTree.directoryModes = [] from rfl)
  exact ⟨hfs, hp, hsources, hbelow, (hopens _ _ _ before 0).1 rfl hmay⟩

/-! ### A source with a path that is too long -/

/-- What is in front of the extension in the name of a source of as many bytes as a name may have. -/
def longStem : Name :=
  List.replicate 251 97

/-- The name of this source. -/
def longSource : Name :=
  longStem ++ dot :: (Path.ofString "hpp").bytes

/-- Fifteen directories, one in the other, and the source in the innermost one. The directory can be
opened and listed, but the path of the source is too long. -/
def longNameTree : FileSystem :=
  deepTreeWith 15 [(longSource :: longLocation 15, .file ⟨1, 0o644, .empty⟩)] []

theorem isEntryName_longSource : FileSystem.IsEntryName longSource ∧ 0 ∉ longSource := by
  decide +kernel

theorem isTree_longNameTree : longNameTree.IsTree := by
  refine isTree_deepTreeWith (fun e he => ?_) rfl
  obtain rfl := List.mem_singleton.mp he
  exact ⟨.cons isEntryName_longSource (areNames_longLocation 15),
    FileSystem.isDir_eq_true.mpr (node?_deepTreeWith (Nat.le_refl 15))⟩

theorem mem_longNameTree : longSource ∈ longNameTree.children (longLocation 15) :=
  FileSystem.mem_children_iff.mpr ⟨_, List.mem_append_right _ (List.mem_singleton_self _), rfl⟩

theorem node?_longSource :
    longNameTree.node? (longSource :: longLocation 15) = some (.file ⟨1, 0o644, .empty⟩) := by
  refine (node?_deepTreeWith_of_ne fun d heq => ?_).trans ?_
  · -- The name of the source is none of the others.
    have hmem : longSource ∈ longLocation d := heq ▸ List.mem_cons_self
    exact absurd (List.eq_of_mem_replicate hmem) (by decide +kernel)
  · rw [List.lookup_cons_self]

theorem isTooLong_longSource : (Location.toPath (longSource :: longLocation 15)).isTooLong = true := by
  have hne : 15 ≠ 0 := by decide
  have hbytes := Location.bytes_toPath_append (List.cons_ne_nil longSource []) (longLocation_ne_nil hne)
  rw [List.singleton_append] at hbytes
  rw [Path.isTooLong, hbytes, List.length_append, length_toPath_longLocation hne]
  decide +kernel

/-- The walk gets to the source. -/
theorem walksTo_longSource : longNameTree.WalksTo ⟨.ofString "/", []⟩
    (Location.toPath (longSource :: longLocation 15)) longSource := by
  obtain ⟨above, hentered⟩ : ∃ above, longNameTree.Enters ⟨.ofString "/", []⟩
      ⟨(longLocation 15).toPath, longLocation 15⟩ above :=
    exists_enters_longLocation (Nat.le_refl 15) (by decide)
  exact ⟨_, above, hentered, mem_longNameTree,
    (Location.child_toPath isEntryName_longSource (areNames_longLocation 15)).symm, .file node?_longSource⟩

/-- Nothing blocks the walk. Every directory can be opened, there is no link, and a file is listed
without being looked up. -/
theorem not_blocks_longNameTree {here : FileSystem.Visit} {above : List FileSystem.Visit} {n : Name}
    (hentered : longNameTree.Enters ⟨.ofString "/", []⟩ here above)
    (hn : n ∈ longNameTree.children here.location) : ¬longNameTree.Blocks here above n := by
  have hnone : ∀ k t, longNameTree.node? k ≠ some (.link t) := by
    intro k t hlink
    rcases node?_deepTreeWith_cases hlink with ⟨-, -, -, hnode⟩ | hmem
    · cases hnode
    · simp at hmem
  obtain ⟨hpath, hhere⟩ :=
    FileSystem.Enters.path_eq_toPath (l := []) hentered isTree_longNameTree rfl hnone
  have hmodes : longNameTree.directoryModes = [] := rfl
  -- Only a directory could block it, as there are no links, and all directories are open.
  intro hblocks
  cases hblocks with
  | tooLong hdir hlong =>
    -- A directory is one of the fifteen.
    rw [hpath, Location.child_toPath (isTree_longNameTree.name_of_mem_children hn)
      (isTree_longNameTree.areNames (FileSystem.isDir_eq_true.mp hhere))] at hlong
    rcases node?_deepTreeWith_cases hdir with ⟨d, hd, heq, -⟩ | hmem
    · rw [heq, isTooLong_longLocation_iff] at hlong
      omega
    · simp at hmem
  | unsearched _ hsearch => simp [FileSystem.maySearch_of_nil hmodes] at hsearch
  | unlisted _ hlist => simp [FileSystem.mayList_of_nil hmodes] at hlist
  | broken hlink _ => exact hnone _ _ hlink
  | unopened hlink _ _ _ => exact hnone _ _ hlink
  | loop hlink _ _ _ => exact hnone _ _ hlink

/-- **A source can be found that cannot be opened**: the system lists it, but its path has one byte more
than a request may have. -/
theorem not_every_source_opens_longNameTree :
    let p : Project := ⟨.ofString "/", .ofString "/"⟩
    longNameTree.IsTree ∧ ofPaths longNameTree (.ofString "/") (some (.ofString "/")) = .ok p ∧
      ∃ sources, p.sources longNameTree = .ok sources ∧
        ¬∀ source ∈ sources, p.Opens longNameTree source := by
  intro p
  -- The walk goes from the root directory, and finds the source.
  have hplace : p.IsAt longNameTree [] [] := ⟨rfl, rfl, rfl, rfl⟩
  obtain ⟨hwalk, hstart⟩ := hplace.walk_eq isTree_longNameTree rfl
  rw [if_pos (FileSystem.mayList_of_nil rfl _)] at hwalk
  have hmem : .ok (Location.toPath (longSource :: longLocation 15)) ∈ longNameTree.walk p.target :=
    hwalk ▸ FileSystem.ok_mem_descend_iff.mpr ⟨_, walksTo_longSource⟩
  obtain ⟨names, -, -, hrel, hresolve, -⟩ := hplace.exists_relativeTo isTree_longNameTree hmem
  have hsource : p.Discovers longNameTree (Location.toRelative names) := by
    have hfile := Path.fileName?_toPath (.cons isEntryName_longSource (areNames_longLocation 15))
    exact ⟨_, hmem, (Path.isSource_iff hfile).mpr ⟨longStem, _, rfl, by decide, by decide⟩, hrel⟩
  cases hsources : p.sources longNameTree with
  | error e =>
    -- The search cannot fail, since nothing blocks it.
    have hblocks := (hplace.exists_sources_error_iff isTree_longNameTree).mp ⟨e, hsources⟩
    rw [hwalk, FileSystem.exists_error_mem_descend_iff] at hblocks
    obtain ⟨here, above, n, hentered, hn, hblocks⟩ := hblocks
    exact absurd hblocks (not_blocks_longNameTree hentered hn)
  | ok sources =>
    -- The file is among the sources, and it would have to open.
    refine ⟨isTree_longNameTree, rfl, sources, rfl, fun hopen => ?_⟩
    obtain ⟨l, f, hres, -⟩ :=
      hopen _ ((hplace.mem_sources_iff isTree_longNameTree hsources).mpr hsource)
    have hshort := FileSystem.not_isTooLong_of_resolve hres
    rw [hresolve, isTooLong_longSource] at hshort
    cases hshort

end Project

end IncludeMoves
