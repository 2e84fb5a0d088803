import IncludeMoves.Project
import IncludeMoves.Proofs.RelativePaths
import IncludeMoves.Proofs.Trees
import Mathlib.Data.List.Basic

/-!
# Walks

A walk asks at each name of a directory what is there, of a link where it leads, and of a directory
whether it may be listed. It never asks for a content, so the same tree gives the same walk; and it only
ever adds a name to a path, so what it reports lies below its start.

* `FileSystem.finding`, `FileSystem.Finds` — what it finds at a name, and by which rule;
* `FileSystem.descend_eq` — what it does then;
* `FileSystem.descend_induction` — the directories that it enters, from a directory to those that are
  entered from it;
* `FileSystem.SameTree.walk` — the same tree gives the same walk;
* `FileSystem.IsTree.isWithin_of_mem_walk` — all paths lie below the start;
* `Project.sources_of_walk_eq`, `Project.exists_sources` — so all that stops a search is a failure of
  the walk, and of several the first.
-/

namespace IncludeMoves

/-! ### A name more -/

namespace Path

variable {p q r : Path} {n : Name}

theorem isWithin_iff : q.isWithin p = true ↔ p.components <+: q.components :=
  List.isPrefixOf_iff_prefix

theorem isWithin_refl (p : Path) : p.isWithin p = true :=
  isWithin_iff.mpr List.prefix_rfl

theorem isWithin_trans (h : r.isWithin q = true) (h' : q.isWithin p = true) :
    r.isWithin p = true :=
  isWithin_iff.mpr ((isWithin_iff.mp h').trans (isWithin_iff.mp h))

/-- **An entry of a directory lies below it.** -/
theorem isWithin_child (hn : FileSystem.IsEntryName n) : (p.child n).isWithin p = true := by
  rw [isWithin_iff, components_child hn]
  exact List.prefix_append _ _

end Path

namespace FileSystem

variable {fs fs' : FileSystem} {here : Visit} {above : List Visit} {n : Name} {l : Location}
  {start path root : Path}

/-! ### What is at a name -/

/-- What a walk finds at a name of a directory. A failure is found instead of a directory or behind a
link, never instead of a file. -/
inductive Finding where
  | nothing
  | file
  | failure (e : WalkError)
  | directory (l : Location)

/-- What the walk through `here` finds at the name `n`. This is one step of the walk, without the
recursion; `descend_eq` puts the walk together from it. -/
def finding (fs : FileSystem) (here : Visit) (above : List Visit) (n : Name) : Finding :=
  let path := here.path.child n
  match fs.node? (n :: here.location) with
  | none => .nothing
  | some (.file _) => .file
  | some .dir =>
    match fs.barrier? here n with
    | some e => .failure (.io path (.os e))
    | none => .directory (n :: here.location)
  | some (.link _) =>
    match fs.resolve path with
    | .error e => .failure (.io path e)
    | .ok l =>
      match fs.node? l with
      | none => .nothing
      | some (.file _) => .file
      | some (.link _) => .nothing
      | some .dir =>
        if fs.mayList l then
          match (here :: above).find? (fun v => v.location == l) with
          | some v => .failure (.loop path v.path)
          | none => .directory l
        else .failure (.unopened (.os .accessDenied))

/-- **What can be at a name**, and what is found there: one rule for each kind of entry, and for a link
one for each kind of what it leads to. -/
inductive Finds (fs : FileSystem) (here : Visit) (above : List Visit) (n : Name) : Finding → Prop
  | absent : fs.node? (n :: here.location) = none → Finds fs here above n .nothing
  | file {f : RegularFile} : fs.node? (n :: here.location) = some (.file f) →
      Finds fs here above n .file
  | barred {e : OsError} : fs.node? (n :: here.location) = some .dir → fs.barrier? here n = some e →
      Finds fs here above n (.failure (.io (here.path.child n) (.os e)))
  | below : fs.node? (n :: here.location) = some .dir → fs.barrier? here n = none →
      Finds fs here above n (.directory (n :: here.location))
  | broken {t : Path} {e : IoError} : fs.node? (n :: here.location) = some (.link t) →
      fs.resolve (here.path.child n) = .error e →
      Finds fs here above n (.failure (.io (here.path.child n) e))
  | linkedNothing {t : Path} {l : Location} : fs.node? (n :: here.location) = some (.link t) →
      fs.resolve (here.path.child n) = .ok l → fs.node? l ≠ some .dir → fs.file? l = none →
      Finds fs here above n .nothing
  | linkedFile {t : Path} {l : Location} {f : RegularFile} :
      fs.node? (n :: here.location) = some (.link t) → fs.resolve (here.path.child n) = .ok l →
      fs.file? l = some f → Finds fs here above n .file
  | unopened {t : Path} {l : Location} : fs.node? (n :: here.location) = some (.link t) →
      fs.resolve (here.path.child n) = .ok l → fs.node? l = some .dir → fs.mayList l = false →
      Finds fs here above n (.failure (.unopened (.os .accessDenied)))
  | loop {t : Path} {l : Location} {v : Visit} : fs.node? (n :: here.location) = some (.link t) →
      fs.resolve (here.path.child n) = .ok l → fs.node? l = some .dir → fs.mayList l = true →
      (here :: above).find? (fun v => v.location == l) = some v →
      Finds fs here above n (.failure (.loop (here.path.child n) v.path))
  | linked {t : Path} {l : Location} : fs.node? (n :: here.location) = some (.link t) →
      fs.resolve (here.path.child n) = .ok l → fs.node? l = some .dir → fs.mayList l = true →
      (here :: above).find? (fun v => v.location == l) = none →
      Finds fs here above n (.directory l)

/-- What the walk finds, it finds by one of the rules. -/
theorem finds_finding (fs : FileSystem) (here : Visit) (above : List Visit) (n : Name) :
    Finds fs here above n (fs.finding here above n) := by
  unfold finding
  simp only
  -- What the entry itself is,
  split
  · next hnode => exact .absent hnode
  · next hnode => exact .file hnode
  · next hnode =>
    split
    · next hbarrier => exact .barred hnode hbarrier
    · next hbarrier => exact .below hnode hbarrier
  -- and, for a link, where it leads.
  next hnode =>
  split
  · next hres => exact .broken hnode hres
  next l hres =>
  split
  · next hl => exact .linkedNothing hnode hres (by simp [hl]) (by simp [file?, hl])
  · next hl => exact .linkedFile hnode hres (file?_eq_some.mpr hl)
  · next hl => exact .linkedNothing hnode hres (by simp [hl]) (by simp [file?, hl])
  next hl =>
  split
  · next hlist =>
    split
    · next hv => exact .loop hnode hres hl hlist hv
    · next hv => exact .linked hnode hres hl hlist hv
  · next hlist => exact .unopened hnode hres hl (by simpa using hlist)

/-- The rules say what the walk finds. So each of them can be read as an equation, and a finding as one
of the rules. -/
theorem Finds.finding_eq {found : Finding} (h : Finds fs here above n found) :
    fs.finding here above n = found := by
  unfold finding
  cases h with
  | absent hnode => simp [hnode]
  | file hnode => simp [hnode]
  | barred hnode hbarrier => simp [hnode, hbarrier]
  | below hnode hbarrier => simp [hnode, hbarrier]
  | broken hnode hres => simp [hnode, hres]
  | @linkedNothing t l hnode hres hdir hfile =>
    rw [hnode]
    simp only [hres]
    -- What is no directory and no file is a link, or nothing.
    split
    · rfl
    · next hl => simp [file?, hl] at hfile
    · rfl
    · next hl => exact absurd hl hdir
  | linkedFile hnode hres hfile => simp [hnode, hres, file?_eq_some.mp hfile]
  | unopened hnode hres hdir hlist => simp [hnode, hres, hdir, hlist]
  -- Only here the location has been visited before.
  | loop hnode hres hdir hlist hv =>
    simp only [hnode, hres, hdir, hlist, if_true]
    split
    · next hv' => rw [Option.some.inj (hv.symm.trans hv')]
    · next hv' => cases hv.symm.trans hv'
  | linked hnode hres hdir hlist hv =>
    simp only [hnode, hres, hdir, hlist, if_true]
    split
    · next hv' => cases hv.symm.trans hv'
    · rfl

/-- A directory that is entered is the one at the name, or one in which the walk is not. -/
theorem isDir_of_finding (h : fs.finding here above n = .directory l) :
    fs.node? l = some .dir ∧ (l = n :: here.location ∨
      (here :: above).find? (fun v => v.location == l) = none) := by
  have hfinds := fs.finds_finding here above n
  rw [h] at hfinds
  cases hfinds with
  | below hdir _ => exact ⟨hdir, .inl rfl⟩
  | linked _ _ hdir _ hnew => exact ⟨hdir, .inr hnew⟩

/-- **What a walk reports of a directory**: one finding after the other. The recursion of the walk is
needed here only, later proofs go by this equation. -/
theorem descend_eq (fs : FileSystem) (here : Visit) (above : List Visit) :
    fs.descend here above = (fs.children here.location).flatMap fun n =>
      match fs.finding here above n with
      | .nothing => []
      | .file => [.ok (here.path.child n)]
      | .failure e => [.error e]
      | .directory l => fs.descend ⟨here.path.child n, l⟩ (here :: above) := by
  rw [descend]
  -- Both are a case split over the same things, so they are compared name by name.
  refine List.flatMap_congr fun n _ => ?_
  unfold finding
  simp only
  cases fs.node? (n :: here.location) with
  -- What `finding` tells apart is what `descend` does, case by case.
  | none => rfl
  | some node =>
    cases node with
    | file f => rfl
    | dir =>
      simp only
      cases fs.barrier? here n <;> rfl
    | link t =>
      simp only
      cases fs.resolve (here.path.child n) with
      | error e => rfl
      -- The link leads somewhere. If that is a directory, it may be barred or lead back.
      | ok l =>
        simp only
        cases fs.node? l with
        | none => rfl
        | some node =>
          cases node with
          | file f => rfl
          | link t => rfl
          | dir =>
            simp only
            by_cases hlist : fs.mayList l = true
            · rw [if_pos hlist, if_pos hlist]
              cases (here :: above).find? (fun v => v.location == l) <;> rfl
            · rw [if_neg hlist, if_neg hlist]

/-- **Induction on a walk**: what holds of a directory if it holds of all that are entered from it
holds of every directory. -/
theorem descend_induction (fs : FileSystem) {motive : Visit → List Visit → Prop}
    (step : ∀ here above, (∀ n l, fs.finding here above n = .directory l →
      motive ⟨here.path.child n, l⟩ (here :: above)) → motive here above)
    (here : Visit) (above : List Visit) : motive here above := by
  induction here, above using descend.induct fs with
  | case1 here above hbelow hlinked =>
    refine step here above fun n l hfinding => ?_
    obtain ⟨hdir, rfl | hnew⟩ := isDir_of_finding hfinding
    · exact hbelow n hdir
    · exact hlinked n l hdir hnew

/-! ### The same tree, the same walk -/

theorem SameModes.barrier? (h : SameModes fs fs') (here : Visit) (n : Name) :
    fs'.barrier? here n = fs.barrier? here n := by
  simp only [FileSystem.barrier?, h.maySearch, h.mayList]

/-- What is found depends on the outline only: on where there are directories, links and files, and on
the bits of directories. -/
theorem SameOutline.finding (h : SameOutline fs fs') (here : Visit) (above : List Visit) (n : Name) :
    fs'.finding here above n = fs.finding here above n := by
  unfold FileSystem.finding
  simp only [h.resolve, h.modes.barrier?, h.modes.mayList]
  rcases h.node?_cases (n :: here.location) with hnode | ⟨f, f', hf, hf'⟩
  · rw [hnode]
    split
    · rfl
    · rfl
    · rfl
    · -- At a link it matters what it leads to.
      split
      · rfl
      · next l _ =>
        rcases h.node?_cases l with hnode | ⟨f, f', hf, hf'⟩
        · rw [hnode]
        · rw [hf, hf']
  · rw [hf, hf']

namespace SameTree

/-- The walk of two trees that differ in the contents of files only is the same one, by induction on the
walk. -/
theorem descend (h : SameTree fs fs') (here : Visit) (above : List Visit) :
    fs'.descend here above = fs.descend here above := by
  induction here, above using descend_induction fs with
  | step here above ih =>
    rw [descend_eq, descend_eq, h.children]
    -- Each name is found alike on both sides; only behind directories does the induction have to help.
    refine List.flatMap_congr fun n _ => ?_
    rw [h.sameOutline.finding]
    cases hfinding : fs.finding here above n with
    | nothing => rfl
    | file => rfl
    | failure e => rfl
    | directory l => exact ih n l hfinding

/-- **The same tree gives the same walk**, whatever is in its files. So a run that only changes contents
leaves the set of sources as it is. -/
theorem walk (h : SameTree fs fs') (start : Path) : fs'.walk start = fs.walk start := by
  unfold FileSystem.walk
  rw [h.sameOutline.lookup, h.resolve]
  split
  · rfl
  next first _ =>
  split
  · rfl
  next l _ =>
  simp only [h.descend, h.modes.mayList]
  rcases h.sameOutline.node?_cases first with hfirst | ⟨f, f', hf, hf'⟩ <;>
    rcases h.sameOutline.node?_cases l with hl | ⟨g, g', hg, hg'⟩
  · rw [hfirst, hl]
  · rw [hfirst, hg, hg']
    cases fs.node? first <;> rfl
  · -- A file at the start is a file in both.
    rw [hf, hf', hl]
    cases fs.node? l with
    | none => rfl
    | some node => cases node <;> simp
  · rw [hf, hf', hg, hg']

end SameTree

/-! ### Below the start -/

theorem IsTree.name_of_mem_children (h : fs.IsTree) (hn : n ∈ fs.children l) :
    IsEntryName n ∧ 0 ∉ n := by
  obtain ⟨e, he, hloc⟩ := mem_children_iff.mp hn
  exact h.names e he n (hloc ▸ List.mem_cons_self)

namespace IsTree

theorem isWithin_of_mem_descend (h : fs.IsTree) (here : Visit) (above : List Visit)
    (hpath : .ok path ∈ fs.descend here above) : path.isWithin here.path = true := by
  induction here, above using descend_induction fs with
  | step here above ih =>
    rw [descend_eq, List.mem_flatMap] at hpath
    obtain ⟨n, hn, hpath⟩ := hpath
    have hbelow : (here.path.child n).isWithin here.path = true :=
      Path.isWithin_child (h.name_of_mem_children hn).1
    cases hfinding : fs.finding here above n with
    -- Only a file gives a path of its own; a directory gives those below it.
    | nothing => simp [hfinding] at hpath
    | failure e => simp [hfinding] at hpath
    | file =>
      simp only [hfinding, List.mem_singleton, Except.ok.injEq] at hpath
      rwa [hpath]
    | directory l =>
      simp only [hfinding] at hpath
      exact Path.isWithin_trans (ih n l hfinding hpath) hbelow

/-- **All that a walk reports lies below its start.** This is about the spelling of paths, so it does
not matter where the links on the way lead. -/
theorem isWithin_of_mem_walk (h : fs.IsTree) (hpath : .ok path ∈ fs.walk start) :
    path.isWithin start = true := by
  unfold walk at hpath
  split at hpath
  · simp at hpath
  split at hpath
  · simp at hpath
  -- A start that is no directory is the only path of the walk.
  split at hpath
  · simp only [List.mem_singleton, Except.ok.injEq] at hpath
    rw [hpath]
    exact Path.isWithin_refl start
  · split at hpath
    · exact h.isWithin_of_mem_descend _ _ hpath
    · split at hpath <;> simp at hpath
  · cases hpath

end IsTree

end FileSystem

/-! ### Searches -/

namespace Project

variable {p : Project} {fs : FileSystem} {root : Path} {paths : List Path} {e : WalkError}
  {rest : List (Except WalkError Path)}

/-- A walk reports paths only, or paths and then a failure. -/
theorem exists_paths (walked : List (Except WalkError Path)) :
    ∃ paths : List Path, walked = paths.map .ok ∨
      ∃ e rest, walked = paths.map .ok ++ .error e :: rest := by
  induction walked with
  -- The error is the first one, so the cases follow the entry in front.
  | nil => exact ⟨[], .inl rfl⟩
  | cons entry walked ih =>
    cases entry with
    | error e => exact ⟨[], .inr ⟨e, walked, rfl⟩⟩
    | ok path =>
      obtain ⟨paths, rfl | ⟨e, rest, rfl⟩⟩ := ih
      · exact ⟨path :: paths, .inl rfl⟩
      · exact ⟨path :: paths, .inr ⟨e, rest, rfl⟩⟩

/-- Files inside the root do not stop a collection. So it ends with the first failure of the walk, or
with the set. -/
theorem collectSources_append (hpaths : ∀ path ∈ paths, path.isWithin root = true)
    (found : List Path) (rest : List (Except WalkError Path)) :
    ∃ found', collectSources root found (paths.map .ok ++ rest)
      = collectSources root found' rest := by
  induction paths generalizing found with
  | nil => exact ⟨found, rfl⟩
  | cons path paths ih =>
    have ih := ih fun path hpath => hpaths path (List.mem_cons_of_mem _ hpath)
    -- The path starts with the root, so that it is taken or passed over, but does not fail.
    have hwithin : root.components.isPrefixOf path.components = true :=
      hpaths path List.mem_cons_self
    rw [List.map_cons, List.cons_append, collectSources, Path.relativeTo?, if_pos hwithin]
    split
    · exact ih _
    · exact ih found

variable (hfs : fs.IsTree) (hwithin : p.target.isWithin p.root = true)

include hfs hwithin

theorem isWithin_root_of_mem_walk {path : Path} (hpath : .ok path ∈ fs.walk p.target) :
    path.isWithin p.root = true :=
  Path.isWithin_trans (hfs.isWithin_of_mem_walk hpath) hwithin

/-- **The first failure of the walk is what stops a search.** -/
theorem sources_of_walk_eq (hwalk : fs.walk p.target = paths.map .ok ++ .error e :: rest) :
    p.sources fs = .error (.walk e) := by
  have hpaths : ∀ path ∈ paths, path.isWithin p.root = true := fun path hpath => by
    refine isWithin_root_of_mem_walk hfs hwithin ?_
    rw [hwalk]
    exact List.mem_append_left _ (List.mem_map_of_mem hpath)
  rw [sources, FileSystem.sources, hwalk]
  obtain ⟨found, hfound⟩ := collectSources_append hpaths [] (.error e :: rest)
  rw [hfound, collectSources]

/-- **Without a failure of the walk there are sources.** -/
theorem exists_sources (hwalk : fs.walk p.target = paths.map .ok) :
    ∃ sources, p.sources fs = .ok sources := by
  have hpaths : ∀ path ∈ paths, path.isWithin p.root = true := fun path hpath => by
    refine isWithin_root_of_mem_walk hfs hwithin ?_
    rw [hwalk]
    exact List.mem_map_of_mem hpath
  obtain ⟨found, hfound⟩ := collectSources_append hpaths [] []
  rw [List.append_nil] at hfound
  rw [sources, FileSystem.sources, hwalk, hfound, collectSources]
  exact ⟨found, rfl⟩

end Project

end IncludeMoves
