import IncludeMoves.Proofs.Sweep
import IncludeMoves.Proofs.Visits

/-!
# Ways that a run keeps

A run may take the place of a link, so that the tree is not the same any more. But the link was one to a
file, and it is a file that takes its place. So every path to a directory still leads there, a path to a
file still leads to a file, and a walk meets with the same files in the same order.

* `FileSystem.KeepsWays` — the same directories, files behind the same paths, no new links;
* `FileSystem.KeepsWays.walk` — a walk without a failure is the same;
* `Project.keepsWays_reviseAll` — every run keeps the ways;
* `Project.resolve_reviseFile` — what is at the end of a path after a step: what was there, or the new
  text of the step.
-/

namespace IncludeMoves

namespace FileSystem

variable {fs fs' fs'' : FileSystem} {l k d start : Location} {n : Name} {t q : Path}
  {f g : RegularFile} {here : Visit} {above : List Visit}

/-- **The same ways**: the same locations, with directories at the same ones and files where there were
files; no links but those that were there; the same permission bits of directories; and each path that led
to a directory leads to it, each that led to a file leads to one. -/
structure KeepsWays (fs fs' : FileSystem) : Prop where
  modes : SameModes fs fs'
  locations : fs'.entries.map Prod.fst = fs.entries.map Prod.fst
  isDir : ∀ l, fs'.isDir l = fs.isDir l
  file : ∀ l, (fs.file? l).isSome = true → (fs'.file? l).isSome = true
  link : ∀ l t, fs'.node? l = some (.link t) → fs.node? l = some (.link t)
  directory : ∀ q l, fs.resolve q = .ok l → fs.isDir l = true → fs'.resolve q = .ok l
  toFile : ∀ q l f, fs.resolve q = .ok l → fs.file? l = some f →
    ∃ l' f', fs'.resolve q = .ok l' ∧ fs'.file? l' = some f'

namespace KeepsWays

theorem refl (fs : FileSystem) : KeepsWays fs fs :=
  ⟨fun _ => rfl, rfl, fun _ => rfl, fun _ h => h, fun _ _ h => h, fun _ _ h _ => h,
    fun _ l f hres hfile => ⟨l, f, hres, hfile⟩⟩

theorem trans (h : KeepsWays fs fs') (h' : KeepsWays fs' fs'') : KeepsWays fs fs'' where
  modes := h.modes.trans h'.modes
  locations := h'.locations.trans h.locations
  isDir l := (h'.isDir l).trans (h.isDir l)
  file l hl := h'.file l (h.file l hl)
  link l t hl := h.link l t (h'.link l t hl)
  directory q l hq hl := h'.directory q l (h.directory q l hq hl) ((h.isDir l).trans hl)
  toFile q l f hres hfile := by
    obtain ⟨l', f', hres', hfile'⟩ := h.toFile q l f hres hfile
    exact h'.toFile q l' f' hres' hfile'

/-- A path whose last name may not be looked up stays one: its directory is the same. -/
theorem isDenied (h : KeepsWays fs fs') (hq : fs.IsDenied q) : fs'.IsDenied q := by
  obtain ⟨n, l, k, hnames, hpath, hres, hdir, hsearch⟩ := hq
  exact ⟨n, l, k, hnames, hpath, h.directory _ k hres hdir, (h.isDir k).trans hdir,
    (h.modes.maySearch k).trans hsearch⟩

/-- A path that reaches a file still reaches one. -/
theorem reaches (h : KeepsWays fs fs') (hq : fs.Reaches q) : fs'.Reaches q := by
  cases hq with
  | tooLong hlong => exact .tooLong hlong
  | denied hdenied => exact .denied (h.isDenied hdenied)
  | file hres hfile =>
    obtain ⟨l', f', hres', hfile'⟩ := h.toFile q _ _ hres hfile
    exact .file hres' hfile'

/-- **What has reached a file has led to one before**, if it leads anywhere now: a path that could not be
asked for still cannot. -/
theorem exists_file_of_resolve (h : KeepsWays fs fs') (hq : fs.Reaches q) (hres : fs'.resolve q = .ok k) :
    ∃ l f, fs.resolve q = .ok l ∧ fs.file? l = some f := by
  have hlen := not_isTooLong_of_resolve hres
  cases hq with
  | tooLong hlong => cases hlong.symm.trans hlen
  | denied hdenied => cases hres.symm.trans ((h.isDenied hdenied).resolve_eq hlen)
  | file hres hfile => exact ⟨_, _, hres, hfile⟩

end KeepsWays

/-- The same tree has the same ways. This is the case in which no link is lost. -/
theorem SameTree.keepsWays (h : SameTree fs fs') : KeepsWays fs fs' where
  modes := h.modes
  locations := h.locations
  isDir := h.isDir_eq
  file l hl := by
    obtain ⟨f, hf⟩ := Option.isSome_iff_exists.mp hl
    obtain ⟨f', hf', -⟩ := h.sameOutline.mode_of_file? hf
    rw [hf']
    rfl
  link l t hl := (h.node?_eq_some (by simp)).mp hl
  directory q l hq _ := (h.resolve q).trans hq
  toFile q l f hres hfile := by
    obtain ⟨f', hf', -⟩ := h.sameOutline.mode_of_file? hfile
    exact ⟨l, f', (h.resolve q).trans hres, hf'⟩

/-! ### A file in the place of a link -/

/-- Where a path to a file leads when a link to a file is replaced: to that file still, or to the one in
the place of the link. -/
theorem resolve_put_of_linksTo (hto : fs.LinksTo d k) (hk : fs.file? k = some f)
    (hres : fs.resolve q = .ok l) (hl : l ≠ d) :
    (fs.put d (.file g)).resolve q = .ok l ∨
      (l = k ∧ (fs.put d (.file g)).resolve q = .ok d) := by
  obtain ⟨t, -, hnode, -⟩ := id hto
  have hd : d ≠ [] := by
    rintro rfl
    cases hnode.symm.trans (node?_nil fs)
  have hdir : fs.isDir d = false := by simp [isDir, hnode]
  have hchanged := changedAt_put_file hd hdir g
  have hkdir : fs.isDir k = false := by simp [isDir, file?_eq_some.mp hk]
  obtain ⟨hnul, hempty, hlen, -, hleads⟩ := lookup_eq_ok.mp hres
  have hresolve : ∀ m, Leads (fs.put d (.file g)) .target maxLinks (fs.origin q) q.steps (.found m) →
      (fs.put d (.file g)).resolve q = .ok m := fun m hm =>
    lookup_eq_ok.mpr ⟨hnul, hempty, hlen, rfl, (fs.origin_put d _ q).symm ▸ hm⟩
  -- The way goes past the place of the link, or over it, and then it ends there.
  rcases hleads.transfer_cases hchanged (fun _ _ => ⟨k, hkdir, hto⟩) hl with hsame | ⟨hto', hfile⟩
  · exact .inl (hresolve l hsame)
  · exact .inr ⟨hto'.unique hto, hresolve d (hfile g (node?_put_self fs hd _))⟩

/-- **A file in the place of a link to a file** keeps the ways. Where the link was followed there is now
its end; and no lookup can go on behind a file, so nothing else has gone through it. -/
theorem KeepsWays.put_of_linksTo (hto : fs.LinksTo d k) (hk : fs.file? k = some f)
    (g : RegularFile) : KeepsWays fs (fs.put d (.file g)) := by
  -- At `d` there is a link, so it is not the root and not a directory.
  obtain ⟨t, -, hnode, -⟩ := id hto
  have hd : d ≠ [] := by
    rintro rfl
    cases hnode.symm.trans (node?_nil fs)
  have hdir : fs.isDir d = false := by simp [FileSystem.isDir, hnode]
  have hkdir : fs.isDir k = false := by simp [FileSystem.isDir, file?_eq_some.mp hk]
  refine ⟨sameModes_put fs d _, locations_put hd (by simp [hnode]) _, isDir_put_file hd hdir g,
    fun l hl => ?_, fun l t hl => ?_, fun q l hq hl => ?_, fun q l f hres hfile => ?_⟩
  -- Every file is still one, and every link has been there before.
  · rw [file?_put fs hd]
    split
    · rfl
    · exact hl
  · rw [node?_put fs hd] at hl
    split at hl
    · cases hl
    · exact hl
  · -- A way to a directory does not go over a link to a file.
    have hne : l ≠ d := by
      rintro rfl
      simp [hdir] at hl
    refine (resolve_put_of_linksTo hto hk hq hne).resolve_right ?_
    rintro ⟨rfl, -⟩
    simp [hkdir] at hl
  -- A way to a file ends where it did, or at `d` if it went over the link there.
  · have hne : l ≠ d := by
      rintro rfl
      cases (file?_eq_some.mp hfile).symm.trans hnode
    rcases resolve_put_of_linksTo hto hk hres hne with hres' | ⟨-, hres'⟩
    · exact ⟨l, f, hres', by rw [file?_put fs hd, if_neg hne, hfile]⟩
    · exact ⟨d, g, hres', by rw [file?_put fs hd, if_pos rfl]⟩

/-! ### The same walk -/

namespace KeepsWays

theorem children (h : KeepsWays fs fs') (l : Location) : fs'.children l = fs.children l := by
  rw [children_eq, children_eq, h.locations]

theorem node?_eq_dir (h : KeepsWays fs fs') (hl : fs.node? l = some .dir) :
    fs'.node? l = some .dir :=
  isDir_eq_true.mp ((h.isDir l).trans (isDir_eq_true.mpr hl))

theorem exists_file (h : KeepsWays fs fs') (hl : fs.file? l = some f) :
    ∃ f', fs'.file? l = some f' :=
  Option.isSome_iff_exists.mp (h.file l (by rw [hl]; rfl))

/-- Something is still there. -/
theorem node?_ne_none (h : KeepsWays fs fs') (hl : fs.node? l ≠ none) : fs'.node? l ≠ none := by
  by_cases hnil : l = []
  · rw [hnil, node?_nil]
    simp
  rw [node?_of_ne_nil _ hnil, ne_eq, List.lookup_eq_none_iff] at hl ⊢
  intro hnone
  refine hl fun e he => ?_
  have hmem : e.1 ∈ fs'.entries.map Prod.fst := h.locations ▸ List.mem_map_of_mem he
  obtain ⟨e', he', hloc⟩ := List.mem_map.mp hmem
  exact hloc ▸ hnone e' he'

/-- A link is still that link, or there is a file in its place. -/
theorem link_cases (h : KeepsWays fs fs') (hl : fs.node? l = some (.link t)) :
    fs'.node? l = some (.link t) ∨ ∃ f, fs'.node? l = some (.file f) := by
  cases hnode : fs'.node? l with
  | none => exact absurd hnode (h.node?_ne_none (by simp [hl]))
  | some node =>
    cases node with
    | file f => exact .inr ⟨f, rfl⟩
    -- Directories are where they were, so it is none now.
    | dir =>
      have hdir := h.isDir l
      rw [isDir_eq_true.mpr hnode] at hdir
      cases hl.symm.trans (isDir_eq_true.mp hdir.symm)
    | link t' => exact .inl (by rw [← hl, h.link l t' hnode])

/-- What bars the way into a directory still does, and nothing else. -/
theorem barrier?_eq (h : KeepsWays fs fs') (here : Visit) (n : Name) :
    fs'.barrier? here n = fs.barrier? here n := by
  rw [barrier?, barrier?, h.modes.maySearch, h.modes.mayList]

/-- A visit stays at its place. -/
theorem isAt (h : KeepsWays fs fs') (hv : here.IsAt fs start) : here.IsAt fs' start :=
  ⟨hv.spelled, h.directory _ _ hv.leads hv.isDir, (h.isDir _).trans hv.isDir⟩

variable (hstart : Location.AreNames start)

include hstart

/-- **The walk finds the same at every name**, but for failures. A file that has taken the place of a
link to a file is found as a file in both trees. -/
theorem finding (h : KeepsWays fs fs') (hfs : fs.IsTree) (hv : here.IsAt fs start)
    (hn : n ∈ fs.children here.location)
    (hok : ∀ e, fs.finding here above n ≠ .failure e) :
    fs'.finding here above n = fs.finding here above n := by
  have hname := hfs.name_of_mem_children hn
  have hfinds := fs.finds_finding here above n
  generalize fs.finding here above n = found at hfinds hok
  apply Finds.finding_eq
  -- On what has been found before. The failures are excluded.
  cases hfinds with
  | absent hnode =>
    obtain ⟨e, he, hloc⟩ := mem_children_iff.mp hn
    rw [node?_of_ne_nil _ (List.cons_ne_nil _ _), List.lookup_eq_none_iff] at hnode
    simpa [hloc] using hnode e he
  | file hnode =>
    obtain ⟨f', hf'⟩ := h.exists_file (file?_eq_some.mpr hnode)
    exact .file (file?_eq_some.mp hf')
  | barred _ _ => exact absurd rfl (hok _)
  | below hnode hbarrier =>
    exact .below (h.node?_eq_dir hnode) ((h.barrier?_eq here n).trans hbarrier)
  | broken _ _ => exact absurd rfl (hok _)
  | linkedNothing _ hres hdir hfile =>
    -- A path through all links leads to something, and that is no link.
    obtain ⟨node, hnode, hne⟩ := hfs.isThere_of_resolve hres
    cases node with
    | dir => exact absurd hnode hdir
    | file f => simp [file?, hnode] at hfile
    | link t => exact absurd rfl (hne t)
  | @linkedFile t l f hnode hres hfile =>
    rcases h.link_cases hnode with hnode' | ⟨f', hnode'⟩
    · obtain ⟨l', f', hres', hfile'⟩ := h.toFile _ l f hres hfile
      exact .linkedFile hnode' hres' hfile'
    · exact .file hnode'
  | unopened _ _ _ _ => exact absurd rfl (hok _)
  -- The link may lead to the same directory still, or a file stands in its place.
  | loop _ _ _ _ _ => exact absurd rfl (hok _)
  | @linked t l hnode hres hdir hlist hnew =>
    have hres' := h.directory _ l hres (isDir_eq_true.mpr hdir)
    rcases h.link_cases hnode with hnode' | ⟨f, hnode'⟩
    · exact .linked hnode' hres' (h.node?_eq_dir hdir) ((h.modes.mayList l).trans hlist) hnew
    · -- With a file there, the path would lead to the file and not to the directory.
      have hlen := not_isTooLong_of_resolve hres
      have hsearch := (h.isAt hv).maySearch_of_resolve hstart hname hres'
      have hfile := (h.isAt hv).resolve_child hstart hname hsearch hnode' (by simp) hlen
      cases hres'.symm.trans hfile
      cases (h.node?_eq_dir hdir).symm.trans hnode'

theorem descend (h : KeepsWays fs fs') (hfs : fs.IsTree) (here : Visit) (above : List Visit)
    (hv : here.IsAt fs start) (hok : ∀ e, .error e ∉ fs.descend here above) :
    fs'.descend here above = fs.descend here above := by
  induction here, above using descend_induction fs with
  | step here above ih =>
    rw [descend_eq fs] at hok ⊢
    rw [descend_eq fs', h.children]
    refine List.flatMap_congr fun n hn => ?_
    -- What is reported at this name is no failure either.
    have hok' := fun e he => hok e (List.mem_flatMap.mpr ⟨n, hn, he⟩)
    have hfinding : fs'.finding here above n = fs.finding here above n := by
      refine h.finding hstart hfs hv hn fun e he => hok' e ?_
      rw [he]
      exact List.mem_singleton_self _
    rw [hfinding]
    cases hfound : fs.finding here above n with
    | nothing => rfl
    | file => rfl
    | failure e => rfl
    | directory l =>
      refine ih n l hfound (hv.enter hstart (hfs.name_of_mem_children hn) hfound) fun e he => ?_
      refine hok' e ?_
      rw [hfound]
      exact he

omit hstart in
/-- **A walk without a failure is the same.** A failure may go away: where a link was broken or closed
before, there may be a file now. -/
theorem walk (h : KeepsWays fs fs') (hfs : fs.IsTree) (hdir : fs.isDir start = true)
    (hopen : fs.maySearchAbove start = true) (hok : ∀ e, .error e ∉ fs.walk start.toPath) :
    fs'.walk start.toPath = fs.walk start.toPath := by
  have hplace := hfs.isPlace (isDir_eq_true.mp hdir)
  have hstart := hfs.areNames (isDir_eq_true.mp hdir)
  rw [hplace.walk_toPath hstart hdir hopen] at hok ⊢
  -- Both walks start at the same place, and are refused alike.
  rw [(hplace.of_isDir h.isDir).walk_toPath hstart ((h.isDir start).trans hdir)
    ((h.modes.maySearchAbove start).trans hopen), h.modes.mayList]
  cases hlen : start.toPath.isTooLong with
  | true => rfl
  | false =>
    cases hlist : fs.mayList start with
    | false => rfl
    | true =>
      -- They are not refused, so it depends on what they meet.
      rw [hlen, hlist, if_neg Bool.false_ne_true, if_pos rfl] at hok
      exact h.descend hstart hfs _ _ (hplace.isAt hstart hdir hopen hlen) hok

end KeepsWays

end FileSystem

namespace Project

variable {σ : Type} {p : Project} {moves : Moves} {w : Writing} {report : Reporter σ}
  {source q : Path} {sources : List Path} {fs fs' : FileSystem} {state state' : σ} {r : Revision}
  {result : Except Problem (List Revision)} {k : Location} {f : RegularFile}

/-! ### Runs keep the ways -/

/-- **A step keeps the ways.** If it goes to the file itself the tree stays the same, and else it puts a
file in the place of a link to one. -/
theorem keepsWays_reviseFile (hp : p.IsPlaced fs) :
    fs.KeepsWays (p.reviseFile moves w source fs).2 := by
  cases h : p.reviseFile moves w source fs with
  | mk result fs' =>
    cases result with
    | error e =>
      rw [reviseFile_error h]
      exact .refl fs
    | ok r =>
      obtain ⟨k, f, text, -, hfile, -, -, -, ⟨rfl, -⟩ | ⟨d, -, hd, rfl, -, hcase⟩⟩ :=
        reviseFile_changes hp h
      · exact .refl _
      · -- The new file is in the place of a link to the old one, or in that of the old one.
        rcases hcase with ⟨-, hto⟩ | ⟨-, rfl⟩
        · exact .put_of_linksTo hto hfile _
        · refine FileSystem.SameTree.keepsWays ?_
          exact .put_file hfile rfl

/-- **Every run keeps the ways**, however it ends. -/
theorem keepsWays_reviseAll (hp : p.IsPlaced fs)
    (h : p.reviseAll moves w report sources fs state = (result, fs', state')) :
    fs.KeepsWays fs' := by
  have hkept : p.IsPlaced fs' ∧ fs.KeepsWays fs' :=
    reviseAll_induct (P := fun fs₁ => p.IsPlaced fs₁ ∧ fs.KeepsWays fs₁)
      (fun fs₁ source ⟨hp₁, hways⟩ =>
        ⟨hp₁.reviseFile moves w source, hways.trans (keepsWays_reviseFile hp₁)⟩)
      ⟨hp, .refl fs⟩ h
  exact hkept.2

/-- A search that succeeds has met with no failure. So the walk behind a successful search is the same
after the run. -/
theorem not_mem_walked {root : Path} {found : List Path} {walked : List (Except WalkError Path)}
    (h : collectSources root found walked = .ok sources) (e : WalkError) : .error e ∉ walked := by
  induction walked generalizing found with
  | nil => exact List.not_mem_nil
  | cons entry walked ih =>
    cases entry with
    | error e' => cases h
    | ok path =>
      -- An entry that is no failure comes first, and the rest of the walk has none either.
      rw [collectSources] at h
      rw [List.mem_cons, not_or]
      refine ⟨by simp, ?_⟩
      split at h
      · split at h
        · exact ih h
        · cases h
      · exact ih h

/-- **After a run, the search finds the same sources.** -/
theorem sources_of_keepsWays {r below : Location} (hways : fs.KeepsWays fs') (hfs : fs.IsTree)
    (hp : p.IsAt fs r below) (h : p.sources fs = .ok sources) : p.sources fs' = .ok sources := by
  have hok : ∀ e, .error e ∉ fs.walk p.target := fun e => not_mem_walked h e
  have hwalk : fs'.walk p.target = fs.walk p.target := by
    rw [hp.target] at hok ⊢
    exact hways.walk hfs hp.isDir hp.isOpen hok
  rw [← h, Project.sources, Project.sources, FileSystem.sources, FileSystem.sources, hwalk]

/-! ### The file at the end of a path -/

/-- **What a step does to the file at the end of a path**: nothing, or it is the file of the step, and
what is read at the end of the path is its new text. -/
theorem resolve_reviseFile (hp : p.IsPlaced fs)
    (h : p.reviseFile moves w source fs = (.ok r, fs'))
    (hres : fs.resolve q = .ok k) (hfile : fs.file? k = some f) :
    (fs'.resolve q = .ok k ∧ fs'.file? k = some f) ∨
      (fs.resolve (p.resolve source) = .ok k ∧ w.dry = false ∧ fs'.readText q = .ok r.text) := by
  obtain ⟨m, g, text, hsource, hg, hread, -, rfl, ⟨rfl, -⟩ | ⟨d, hdry, hd, hput, -, hcase⟩⟩ :=
    reviseFile_changes hp h
  · exact .inl ⟨hres, hfile⟩
  -- The new file has the mode of the old one, and the revised text.
  obtain ⟨new, rfl, hmode, hcontent⟩ : ∃ new : RegularFile, fs' = fs.put d (.file new) ∧
      new.mode = g.mode ∧ new.content = (moves.revisedText text).toUTF8 := ⟨_, hput, rfl, rfl⟩
  -- What has been written can be read, since the old file could.
  have hnew : (fs.put d (.file new)).resolve q = .ok d →
      (fs.put d (.file new)).readText q = .ok (moves.revise source text).text := by
    intro hres'
    have hreadable : new.isReadable = true := by rw [RegularFile.isReadable, hmode]; exact hread
    exact FileSystem.readText_eq_ok.mpr
      ⟨d, new, hres', by rw [FileSystem.file?_put fs hd, if_pos rfl], hreadable, hcontent⟩
  -- Away from `d` nothing has changed.
  have hsame : k ≠ d → (fs.put d (.file new)).file? k = some f := by
    intro hk
    rw [FileSystem.file?_put fs hd, if_neg hk, hfile]
  rcases hcase with ⟨-, hto⟩ | ⟨-, rfl⟩
  -- The link has been lost, or the file it leads to has been replaced.
  · obtain ⟨t, -, hnode, -⟩ := id hto
    have hne : k ≠ d := by
      rintro rfl
      cases (FileSystem.file?_eq_some.mp hfile).symm.trans hnode
    rcases FileSystem.resolve_put_of_linksTo hto hg hres hne with hres' | ⟨rfl, hres'⟩
    · exact .inl ⟨hres', hsame hne⟩
    · exact .inr ⟨hsource, hdry, hnew hres'⟩
  · have hres' := ((FileSystem.SameTree.put_file hg hmode).resolve q).trans hres
    by_cases hk : k = d
    · subst hk
      exact .inr ⟨hsource, hdry, hnew hres'⟩
    · exact .inl ⟨hres', hsame hk⟩

/-- **A text at the end of a path stays a text**: the same, or the new text of the step. -/
theorem readText_cases (hp : p.IsPlaced fs) (h : p.reviseFile moves w source fs = (.ok r, fs'))
    {text : String} (htext : fs.readText q = .ok text) :
    fs'.readText q = .ok text ∨ fs'.readText q = .ok r.text := by
  obtain ⟨k, f, hres, hfile, hread, hcontent⟩ := FileSystem.readText_eq_ok.mp htext
  rcases resolve_reviseFile hp h hres hfile with ⟨hres', hfile'⟩ | ⟨-, -, htext'⟩
  · exact .inl (FileSystem.readText_eq_ok.mpr ⟨k, f, hres', hfile', hread, hcontent⟩)
  · exact .inr htext'

end Project

end IncludeMoves
