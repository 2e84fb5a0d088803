import IncludeMoves.Proofs.Frame
import IncludeMoves.Proofs.InsideRoot
import IncludeMoves.Proofs.PathOrder

/-!
# Visits

In a tree a walk is always where its path leads: the path of a visit is that of the start with names
more, looked up it ends at the directory of the visit, and a file that is found is at the end of its own
path, unless that is too long for a request or its directory may not be searched. So a source of a project
is spelled in one way, and a run opens what the walk has found.

* `FileSystem.resolve_child`, `FileSystem.IsDenied.resolve_eq` — a name more on a path that leads to a
  directory;
* `FileSystem.Reaches` — the paths that lead to a file, as far as they may be asked for;
* `Visit.IsAt`, `Visit.IsAt.enter` — the walk is where its path leads;
* `FileSystem.IsTree.reaches_of_mem_walk` — all paths that a walk reports;
* `Project.IsAt.reaches_of_discovers` — all sources.
-/

namespace IncludeMoves

namespace FileSystem

variable {fs fs' : FileSystem} {l k start : Location} {n : Name} {node : Node} {q path : Path}
  {here : Visit} {above : List Visit}

/-- What a path leads to is something, and no link. -/
theorem IsTree.isThere_of_resolve (h : fs.IsTree) (hres : fs.resolve q = .ok l) :
    ∃ node, fs.node? l = some node ∧ ∀ t, node ≠ .link t := by
  obtain ⟨-, -, -, -, hleads⟩ := lookup_eq_ok.mp hres
  exact hleads.isReached h rfl (h.isReached_origin q)

/-- **A name more on a path** that leads to a directory is looked up there. -/
theorem locate_child (hnames : Location.AreNames (n :: l)) (hres : fs.resolve l.toPath = .ok k)
    (hlen : (Location.toPath (n :: l)).isTooLong = false) :
    ∃ budget, fs.locate .target (Location.toPath (n :: l))
      = (fs.locateFrom .target budget k [n]).mapError .os := by
  -- The lookup of the longer path runs as that of `l` does until only `n` is left.
  obtain ⟨-, -, -, -, hleads⟩ := lookup_eq_ok.mp hres
  rw [origin, if_pos l.isAbsolute_toPath, hnames.tail.steps_toPath] at hleads
  obtain ⟨budget, hlocate⟩ := hleads.append target_ne_stepwise (List.cons_ne_nil n [])
  refine ⟨budget, ?_⟩
  rw [locate, if_neg (by rw [hnames.nul_not_mem_toPath]; simp),
    if_neg (Location.bytes_toPath_ne_nil _), if_neg (by simp [Route.accepts, hlen]),
    if_neg (by simp [Route.starts]), origin, if_pos (Location.isAbsolute_toPath _),
    hnames.steps_toPath, List.reverse_cons, hlocate]

/-- It leads to the entry of that name, unless it is a link. -/
theorem resolve_child (hl : Location.AreNames l) (hn : IsEntryName n ∧ 0 ∉ n)
    (hres : fs.resolve l.toPath = .ok k) (hdir : fs.isDir k = true)
    (hsearch : fs.maySearch k = true) (hnode : fs.node? (n :: k) = some node)
    (hne : ∀ t, node ≠ .link t) (hlen : (Location.toPath (n :: l)).isTooLong = false) :
    fs.resolve (Location.toPath (n :: l)) = .ok (n :: k) := by
  obtain ⟨budget, hlocate⟩ := locate_child (.cons hn hl) hres hlen
  have hlast : Advances fs .target k [n] (.arrived (.found (n :: k))) :=
    .enter (hn.1.admits hdir rfl hsearch) hnode hne .done
  rw [(Leads.arrive hlast).locateFrom] at hlocate
  rw [resolve, lookup, hlocate]
  rfl

theorem not_isTooLong_of_resolve (h : fs.resolve q = .ok l) : q.isTooLong = false := by
  have haccepts : Route.target.accepts q = true := (lookup_eq_ok.mp h).2.2.1
  simpa [Route.accepts] using haccepts

/-- **A path whose last name may not be looked up**: the names in front of it lead to a directory that may
not be searched. -/
def IsDenied (fs : FileSystem) (q : Path) : Prop :=
  ∃ (n : Name) (l k : Location), Location.AreNames (n :: l) ∧ q = Location.toPath (n :: l) ∧
    fs.resolve l.toPath = .ok k ∧ fs.isDir k = true ∧ fs.maySearch k = false

theorem IsDenied.resolve_eq (h : fs.IsDenied q) (hlen : q.isTooLong = false) :
    fs.resolve q = .error (.os .accessDenied) := by
  obtain ⟨n, l, k, hnames, rfl, hres, hdir, hsearch⟩ := h
  obtain ⟨budget, hlocate⟩ := locate_child hnames hres hlen
  have hadvance : fs.advance .target k [n] = .error .accessDenied := by
    have hn := hnames.head
    simp [advance, hn.nonempty, hn.not_dot, hn.not_up, Route.reaches, hdir, Route.takesNames, hsearch]
  have hlast : fs.locateFrom .target budget k [n] = .error .accessDenied := by
    rw [locateFrom.eq_def, hadvance]
  rw [resolve, lookup, hlocate, hlast]
  rfl

/-- **A path that reaches a file**: it leads to one, as far as it may be asked for. This much is true of
all that a walk reports, since a file is listed without being looked up. -/
inductive Reaches (fs : FileSystem) (path : Path) : Prop
  | tooLong (h : path.isTooLong = true)
  | denied (h : fs.IsDenied path)
  | file {l : Location} {f : RegularFile} (hres : fs.resolve path = .ok l) (hfile : fs.file? l = some f)

/-! ### Where a walk is -/

/-- **A visit at its place**: its path is that of the start with names more, and leads to its
directory. -/
structure Visit.IsAt (fs : FileSystem) (start : Location) (v : Visit) : Prop where
  spelled : ∃ names, Location.AreNames names ∧ v.path = Location.toPath (names ++ start)
  leads : fs.resolve v.path = .ok v.location
  isDir : fs.isDir v.location = true

theorem Visit.IsAt.isDenied (h : here.IsAt fs start) (hstart : Location.AreNames start)
    (hn : IsEntryName n ∧ 0 ∉ n) (hsearch : fs.maySearch here.location = false) :
    fs.IsDenied (here.path.child n) := by
  obtain ⟨names, hnames, hpath⟩ := h.spelled
  have hspelled : Location.AreNames (names ++ start) := hnames.append hstart
  refine ⟨n, names ++ start, here.location, .cons hn hspelled, ?_, hpath ▸ h.leads, h.isDir, hsearch⟩
  rw [hpath, Location.child_toPath hn hspelled]

/-- What leads somewhere behind the path of a visit has been looked up in its directory. -/
theorem Visit.IsAt.maySearch_of_resolve (h : here.IsAt fs start) (hstart : Location.AreNames start)
    (hn : IsEntryName n ∧ 0 ∉ n) (hres : fs.resolve (here.path.child n) = .ok l) :
    fs.maySearch here.location = true := by
  by_contra hsearch
  have hdenied := h.isDenied hstart hn (Bool.eq_false_iff.mpr hsearch)
  cases hres.symm.trans (hdenied.resolve_eq (not_isTooLong_of_resolve hres))

variable (hstart : Location.AreNames start)

include hstart

theorem Visit.IsAt.child (h : here.IsAt fs start) (hn : IsEntryName n ∧ 0 ∉ n) :
    ∃ names, names ≠ [] ∧ Location.AreNames names ∧
      here.path.child n = Location.toPath (names ++ start) := by
  obtain ⟨names, hnames, hpath⟩ := h.spelled
  refine ⟨n :: names, List.cons_ne_nil n names, .cons hn hnames, ?_⟩
  rw [hpath, Location.child_toPath hn (hnames.append hstart), List.cons_append]

/-- What is at a name of a directory is at the end of the path with that name. -/
theorem Visit.IsAt.resolve_child (h : here.IsAt fs start)
    (hn : IsEntryName n ∧ 0 ∉ n) (hsearch : fs.maySearch here.location = true)
    (hnode : fs.node? (n :: here.location) = some node) (hne : ∀ t, node ≠ .link t)
    (hlen : (here.path.child n).isTooLong = false) :
    fs.resolve (here.path.child n) = .ok (n :: here.location) := by
  obtain ⟨names, hnames, hpath⟩ := h.spelled
  have hspelled : Location.AreNames (names ++ start) := hnames.append hstart
  have hres := h.leads
  rw [hpath] at hres
  rw [hpath, Location.child_toPath hn hspelled] at hlen ⊢
  exact FileSystem.resolve_child hspelled hn hres h.isDir hsearch hnode hne hlen

/-- **The walk stays where its path leads** when it enters a directory. -/
theorem Visit.IsAt.enter (h : here.IsAt fs start) (hn : IsEntryName n ∧ 0 ∉ n)
    (hfinding : fs.finding here above n = .directory l) :
    Visit.IsAt fs start ⟨here.path.child n, l⟩ := by
  have hfinds := fs.finds_finding here above n
  rw [hfinding] at hfinds
  obtain ⟨names, -, hnames, hpath⟩ := h.child hstart hn
  refine ⟨⟨names, hnames, hpath⟩, ?_, isDir_eq_true.mpr (isDir_of_finding hfinding).1⟩
  -- Through a link the lookup is the one of the search; an inner directory is one name further.
  cases hfinds with
  | below hnode hbarrier =>
    obtain ⟨hlen, hsearch, -⟩ := barrier?_eq_none_iff.mp hbarrier
    exact h.resolve_child hstart hn hsearch hnode (by simp) hlen
  | linked _ hres _ _ _ => exact hres

/-- A file that is found is at the end of its path. It has been found in the listing of its directory, which
says nothing about the path. -/
theorem Visit.IsAt.reaches (h : here.IsAt fs start) (hn : IsEntryName n ∧ 0 ∉ n)
    (hfinding : fs.finding here above n = .file) : fs.Reaches (here.path.child n) := by
  have hfinds := fs.finds_finding here above n
  rw [hfinding] at hfinds
  cases hfinds with
  | file hnode =>
    -- The lookup of a listed file fails for a path that is too long or in a barred directory only.
    by_cases hlen : (here.path.child n).isTooLong = true
    · exact .tooLong hlen
    by_cases hsearch : fs.maySearch here.location = true
    · exact .file (h.resolve_child hstart hn hsearch hnode (by simp) (Bool.eq_false_iff.mpr hlen))
        (file?_eq_some.mpr hnode)
    · exact .denied (h.isDenied hstart hn (Bool.eq_false_iff.mpr hsearch))
  | linkedFile _ hres hfile => exact .file hres hfile

/-- **What a walk reports of a directory**: each path is that of the start with names more, and reaches
a file. -/
theorem IsTree.reaches_of_mem_descend (hfs : fs.IsTree) (here : Visit) (above : List Visit)
    (h : here.IsAt fs start) (hpath : .ok path ∈ fs.descend here above) :
    (∃ names, names ≠ [] ∧ Location.AreNames names ∧ path = Location.toPath (names ++ start)) ∧
      fs.Reaches path := by
  induction here, above using descend_induction fs with
  | step here above ih =>
    rw [descend_eq, List.mem_flatMap] at hpath
    obtain ⟨n, hmem, hpath⟩ := hpath
    have hn := hfs.name_of_mem_children hmem
    cases hfinding : fs.finding here above n with
    | nothing => simp [hfinding] at hpath
    | failure e => simp [hfinding] at hpath
    -- The path is that of the file,
    | file =>
      simp only [hfinding, List.mem_singleton, Except.ok.injEq] at hpath
      rw [hpath]
      exact ⟨h.child hstart hn, h.reaches hstart hn hfinding⟩
    -- or it leads through a directory that is reached itself.
    | directory l =>
      simp only [hfinding] at hpath
      exact ih n l hfinding (h.enter hstart hn hfinding) hpath

omit hstart in
/-- **The walk from a directory**, by its absolute path. The way there is free of links and open, so
only the directory itself can be closed, or its path too long. -/
theorem IsPlace.walk_toPath (h : fs.IsPlace start) (hstart : Location.AreNames start)
    (hdir : fs.isDir start = true) (hopen : fs.maySearchAbove start = true) :
    fs.walk start.toPath = if start.toPath.isTooLong then
        [.error (.io start.toPath (.os .nameTooLong))]
      else if fs.mayList start then fs.descend ⟨start.toPath, start⟩ []
      else [.error (.io start.toPath (.os .accessDenied))] := by
  have hnul := hstart.nul_not_mem_toPath
  have hempty := start.bytes_toPath_ne_nil
  -- A path that is too long is refused; any other one leads to the directory, on both routes.
  cases hlen : start.toPath.isTooLong with
  | true =>
    have hlookup : fs.lookup .entry start.toPath = .error (.os .nameTooLong) :=
      lookup_of_not_accepts hnul hempty (by simp [Route.accepts, hlen])
    simp only [walk, hlookup, if_true]
  | false =>
    have hnode := isDir_eq_true.mp hdir
    -- A path that is short enough leads to the place, by whatever route.
    have hlookup : ∀ route : Route, (∀ k, route.reaches k = true) →
        fs.lookup route start.toPath = .ok start := fun route hroute =>
      h.lookup_toPath hnode (by simp) hnul hempty (by cases route <;> simp [Route.accepts, hlen]) hopen
        fun k _ => hroute k
    simp only [walk, hlookup .entry fun _ => rfl, resolve, hlookup .target fun _ => rfl, hnode, if_true,
      Bool.false_eq_true, if_false]

/-- The start of a walk is a visit at its place. -/
theorem IsPlace.isAt (h : fs.IsPlace start) (hdir : fs.isDir start = true)
    (hopen : fs.maySearchAbove start = true) (hlen : start.toPath.isTooLong = false) :
    Visit.IsAt fs start ⟨start.toPath, start⟩ :=
  ⟨⟨[], .nil, rfl⟩, h.resolve_toPath (isDir_eq_true.mp hdir) (by simp) hstart.nul_not_mem_toPath
    start.bytes_toPath_ne_nil hlen hopen, hdir⟩

omit hstart in
/-- **What a walk reports**: each path is that of the start with names more, and reaches a file. The
induction over the walk carries along that each directory in it is reached by its path. -/
theorem IsTree.reaches_of_mem_walk (hfs : fs.IsTree) (hdir : fs.isDir start = true)
    (hopen : fs.maySearchAbove start = true) (hpath : .ok path ∈ fs.walk start.toPath) :
    (∃ names, names ≠ [] ∧ Location.AreNames names ∧ path = Location.toPath (names ++ start)) ∧
      fs.Reaches path := by
  have hplace := hfs.isPlace (isDir_eq_true.mp hdir)
  have hstart := hfs.areNames (isDir_eq_true.mp hdir)
  rw [hplace.walk_toPath hstart hdir hopen] at hpath
  split at hpath
  · simp at hpath
  next hlen =>
  split at hpath
  · have hat := hplace.isAt hstart hdir hopen (by simpa using hlen)
    exact hfs.reaches_of_mem_descend hstart _ _ hat hpath
  · simp at hpath

end FileSystem

/-! ### What is found in a project -/

namespace Project

variable {p : Project} {fs : FileSystem} {root : Path} {target? : Option Path} {r below : Location}
  {source path : Path}

namespace IsAt

/-- A path with names behind the target is below the root: what is behind the root is put back. So it
does not matter that sources are named from the root and found from the target. -/
theorem exists_relativeTo_toPath (h : p.IsAt fs r below) (hfs : fs.IsTree) {names : Location}
    (hne : names ≠ []) (hfile : Location.AreNames names) :
    ∃ behind, behind ≠ [] ∧ Location.AreNames behind ∧
      (Location.toPath (names ++ (below ++ r))).relativeTo? p.root = some (Location.toRelative behind) ∧
      p.resolve (Location.toRelative behind) = Location.toPath (names ++ (below ++ r)) := by
  have hnames := hfs.areNames (FileSystem.isDir_eq_true.mp h.isDir)
  have hbelow : Location.AreNames below := fun n hn => hnames n (List.mem_append_left r hn)
  have hr : Location.AreNames r := fun n hn => hnames n (List.mem_append_right below hn)
  have hbehind : Location.AreNames (names ++ below) := hfile.append hbelow
  have hne' : names ++ below ≠ [] := List.append_ne_nil_of_left_ne_nil hne below
  rw [← List.append_assoc]
  -- Behind the root come the names down to the target, and then those down to the file.
  refine ⟨names ++ below, hne', hbehind, ?_, ?_⟩
  · rw [h.root, Location.relativeTo?_toPath hbehind hr]
  · rw [resolve, h.root, Location.join_toRelative hne' hbehind hr]

/-- **What the walk through the target reports** is below the root: names behind it, which put back lead
to where the walk has been. -/
theorem exists_relativeTo (h : p.IsAt fs r below) (hfs : fs.IsTree)
    (hpath : .ok path ∈ fs.walk p.target) :
    ∃ names, names ≠ [] ∧ Location.AreNames names ∧
      path.relativeTo? p.root = some (Location.toRelative names) ∧
      p.resolve (Location.toRelative names) = path ∧ fs.Reaches path := by
  obtain ⟨⟨names, hne, hfile, rfl⟩, hreaches⟩ :=
    hfs.reaches_of_mem_walk h.isDir h.isOpen (h.target ▸ hpath)
  obtain ⟨behind, hne', hbehind, hrel, hresolve⟩ := h.exists_relativeTo_toPath hfs hne hfile
  exact ⟨behind, hne', hbehind, hrel, hresolve, hreaches⟩

/-- **A source is spelled in one way**, and a run opens what the walk has found. -/
theorem reaches_of_discovers (h : p.IsAt fs r below) (hfs : fs.IsTree)
    (hsource : p.Discovers fs source) :
    (∃ names, Location.AreNames names ∧ source = Location.toRelative names) ∧
      fs.Reaches (p.resolve source) := by
  obtain ⟨path, hpath, -, hrel⟩ := hsource
  obtain ⟨names, -, hnames, hrel', hresolve, hreaches⟩ := h.exists_relativeTo hfs hpath
  cases hrel.symm.trans hrel'
  exact ⟨⟨names, hnames, rfl⟩, hresolve ▸ hreaches⟩

/-- Two sources at one place of the order are one. -/
theorem eq_of_compare_eq {s t : Path} (h : p.IsAt fs r below) (hfs : fs.IsTree)
    (hs : p.Discovers fs s) (ht : p.Discovers fs t) (heq : s.compare t = .eq) : s = t := by
  obtain ⟨⟨names, hnames, rfl⟩, -⟩ := h.reaches_of_discovers hfs hs
  obtain ⟨⟨names', hnames', rfl⟩, -⟩ := h.reaches_of_discovers hfs ht
  rw [Location.eq_of_components_toRelative hnames hnames' (Path.compare_eq_eq.mp heq)]

end IsAt

end Project

end IncludeMoves
