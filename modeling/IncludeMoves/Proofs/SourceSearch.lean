import IncludeMoves.Proofs.DeepTrees
import IncludeMoves.Proofs.DryRun
import IncludeMoves.Proofs.ListingOrder

/-!
# Which sources are found

A search for sources fails if and only if the target may not be listed, or the walk through it gets to an
entry that blocks it. Else the sources are the paths, from the root of the project, of all files that the
walk gets to and that have the name of a source: none is missed at any depth or behind any link, and there
is nothing else.

What the walk reports is known by the directories that it enters (`FileSystem.Enters`). What remains is
about the collection of sources. It stops at the first failure of the walk and for no other reason, since
every path of the walk has the root in front of it. It keeps one of several spellings of a source, but
there is only one (`Project.IsAt.eq_of_compare_eq`). And a source leads back to the path of which it was
made, so two paths never come to one source.

Links are not the only entries that block a walk: a directory may not be opened, for want of permission or
since it lies so deep that it cannot be asked for by its path. `Project.not_only_links_deepTree` is a tree
of directories alone, all of them open, in which a search fails.

* `Path.isSource_iff` — the names of sources;
* `Project.IsAt.mem_sources_iff` — the sources, if there is no failure;
* `Project.sources_of_walk` — the whole.
-/

namespace IncludeMoves

/-! ### Names of sources -/

/-- **The name of a source**: something, a dot, and one of the extensions. The dot is the last one, as
there is none in an extension. -/
def HasSourceName (n : Name) : Prop :=
  ∃ stem e, n = stem ++ dot :: e ∧ stem ≠ [] ∧ e ∈ sourceExtensions

namespace Path

variable {n e : Name} {p q : Path}

/-- The part of a name behind its last dot. -/
theorem takeWhile_reverse_append {stem : Name} (he : dot ∉ e) :
    (stem ++ dot :: e).reverse.takeWhile (· != dot) = e.reverse := by
  have hall : ∀ b ∈ e.reverse, (b != dot) = true := by
    intro b hb
    rw [bne_iff_ne]
    rintro rfl
    exact he (List.mem_reverse.mp hb)
  rw [List.reverse_append, List.reverse_cons, List.append_assoc, List.takeWhile_append_of_pos hall]
  simp

theorem nameExtension?_append {stem : Name} (hstem : stem ≠ []) (he : dot ∉ e) :
    nameExtension? (stem ++ dot :: e) = some e := by
  unfold nameExtension?
  simp only [takeWhile_reverse_append he]
  obtain ⟨b, bs, hbs⟩ := List.exists_cons_of_ne_nil (List.reverse_ne_nil_iff.mpr hstem)
  simp [hbs]

/-- A name with an extension is something, the last dot, and the extension. -/
theorem exists_of_nameExtension? (h : nameExtension? n = some e) :
    ∃ stem, n = stem ++ dot :: e ∧ stem ≠ [] := by
  unfold nameExtension? at h
  simp only at h
  have hsplit : n.reverse = n.reverse.takeWhile (· != dot) ++ n.reverse.dropWhile (· != dot) :=
    List.takeWhile_append_dropWhile.symm
  have hhead := List.head?_dropWhile_not (· != dot) n.reverse
  -- The name from its end: what is behind the last dot, the dot, and the stem.
  generalize n.reverse.takeWhile (· != dot) = behind at h hsplit
  generalize n.reverse.dropWhile (· != dot) = rest at hsplit hhead
  rw [hsplit, List.drop_left] at h
  split at h
  · next a b bs =>
    cases h
    have ha : a = dot := by simpa using hhead
    refine ⟨(b :: bs).reverse, ?_, by simp⟩
    rw [← List.reverse_reverse n, hsplit, ha]
    simp
  · cases h

/-- **Which paths are sources** shows in their last names. The names of the directories on the way play
no part. -/
theorem isSource_iff (hname : p.fileName? = some n) : p.isSource = true ↔ HasSourceName n := by
  have hdots : ∀ e ∈ sourceExtensions, dot ∉ e := by decide
  unfold isSource extension?
  rw [hname, Option.bind_some]
  constructor
  · intro h
    split at h
    -- What stands in front of the extension is not empty, so it is one.
    · next e he =>
      obtain ⟨stem, hn, hstem⟩ := exists_of_nameExtension? he
      exact ⟨stem, e, hn, hstem, List.contains_iff_mem.mp h⟩
    · cases h
  · rintro ⟨stem, e, rfl, hstem, he⟩
    -- An extension has no dot, so the last dot of the name is the one in front of it.
    rw [nameExtension?_append hstem (hdots e he)]
    exact List.contains_iff_mem.mpr he

/-- The last name of the path of a location. -/
theorem fileName?_toPath {l : Location} (h : Location.AreNames (n :: l)) :
    (Location.toPath (n :: l)).fileName? = some n := by
  rw [fileName?, Location.components_toPath h, List.reverse_cons, List.map_append, List.map_singleton,
    ← List.cons_append, List.getLast?_concat]

end Path

namespace FileSystem

variable {fs : FileSystem} {start here : Visit} {above : List Visit} {n : Name} {l : Location}
  {path : Path}

/-- **Every directory that a walk enters is where its path leads.** -/
theorem Enters.isAt (h : fs.Enters ⟨l.toPath, l⟩ here above) (hfs : fs.IsTree)
    (hl : Location.AreNames l) (hstart : Visit.IsAt fs l ⟨l.toPath, l⟩) : here.IsAt fs l := by
  induction h with
  | start => exact hstart
  | @inner here above n _ hn hdir hlong hsearch hlist ih =>
    -- A directory that the relation enters is what the search finds there, so `IsAt` goes along.
    have hbarrier := barrier?_eq_none_iff.mpr ⟨hlong, hsearch, hlist⟩
    have hfinding : fs.finding here [] n = .directory (n :: here.location) :=
      (Finds.below hdir hbarrier).finding_eq
    exact ih.enter hl (hfs.name_of_mem_children hn) hfinding
  | linked _ hn hlink hres hdir hlist hnew ih =>
    exact ih.enter hl (hfs.name_of_mem_children hn)
      (Finds.linked hlink hres hdir hlist (find?_location_eq_none_iff.mpr hnew)).finding_eq

/-- The last name of a path that a walk gets to. -/
theorem WalksTo.fileName? (h : fs.WalksTo ⟨l.toPath, l⟩ path n) (hfs : fs.IsTree)
    (hl : Location.AreNames l) (hstart : Visit.IsAt fs l ⟨l.toPath, l⟩) : path.fileName? = some n := by
  obtain ⟨here, above, hentered, hn, rfl, -⟩ := h
  have hname := hfs.name_of_mem_children hn
  obtain ⟨names, hnames, hpath⟩ := (hentered.isAt hfs hl hstart).spelled
  rw [hpath, Location.child_toPath hname (hnames.append hl)]
  exact Path.fileName?_toPath (.cons hname (hnames.append hl))

end FileSystem

namespace Project

variable {p : Project} {fs : FileSystem} {root path : Path} {target? : Option Path} {r below : Location}
  {sources : List Path}

/-! ### The walk through the target -/

/-- A walk through the target that is where it should be. -/
theorem IsAt.walk_eq (h : p.IsAt fs r below) (hfs : fs.IsTree) (hlen : p.target.isTooLong = false) :
    fs.walk p.target = (if fs.mayList (below ++ r) then fs.descend ⟨p.target, below ++ r⟩ []
        else [.error (.io p.target (.os .accessDenied))]) ∧
      FileSystem.Visit.IsAt fs (below ++ r) ⟨Location.toPath (below ++ r), below ++ r⟩ := by
  have hnode := FileSystem.isDir_eq_true.mp h.isDir
  have hnames := hfs.areNames hnode
  rw [h.target] at hlen ⊢
  refine ⟨?_, (hfs.isPlace hnode).isAt hnames h.isDir h.isOpen hlen⟩
  rw [(hfs.isPlace hnode).walk_toPath hnames h.isDir h.isOpen, hlen, if_neg Bool.false_ne_true]

/-! ### The sources -/

/-- If every path has the root in front, a collection fails with a failure of the walk. The error about
a path outside the root is never reached then. -/
theorem exists_walk_of_collectSources {root : Path} {e : Problem} {found : List Path}
    {walked : List (Except WalkError Path)}
    (hroot : ∀ path, .ok path ∈ walked → ∃ source, path.relativeTo? root = some source)
    (h : collectSources root found walked = .error e) : ∃ e', e = .walk e' ∧ .error e' ∈ walked := by
  -- The induction is on what the walk reports, for any sources found before.
  induction walked generalizing found with
  | nil => cases h
  | cons entry walked ih =>
    cases entry with
    | error e' =>
      cases h
      exact ⟨e', rfl, List.mem_cons_self⟩
    | ok path =>
      obtain ⟨source, hrel⟩ := hroot path List.mem_cons_self
      -- A path that has a spelling from the root is not what the insertion fails at.
      have hlater : ∀ {found}, collectSources root found walked = .error e →
          ∃ e', e = .walk e' ∧ .error e' ∈ .ok path :: walked := fun h => by
        obtain ⟨e', he, hmem⟩ := ih (fun path hpath => hroot path (List.mem_cons_of_mem _ hpath)) h
        exact ⟨e', he, List.mem_cons_of_mem _ hmem⟩
      rw [collectSources, hrel] at h
      split at h
      · exact hlater h
      · exact hlater h

/-- **A search fails with a failure of its walk**, since every path of the walk has the root in front. -/
theorem IsAt.exists_walk_of_sources_error (h : p.IsAt fs r below) (hfs : fs.IsTree) {e : Problem}
    (he : p.sources fs = .error e) : ∃ e', e = .walk e' ∧ .error e' ∈ fs.walk p.target := by
  refine exists_walk_of_collectSources (fun path hpath => ?_) he
  obtain ⟨names, -, -, hrel, -⟩ := h.exists_relativeTo hfs hpath
  exact ⟨_, hrel⟩

/-- A search fails exactly if the walk reports a failure. -/
theorem IsAt.exists_sources_error_iff (h : p.IsAt fs r below) (hfs : fs.IsTree) :
    (∃ e, p.sources fs = .error e) ↔ ∃ e, .error e ∈ fs.walk p.target := by
  constructor
  · rintro ⟨e, he⟩
    obtain ⟨e', -, hmem⟩ := h.exists_walk_of_sources_error hfs he
    exact ⟨e', hmem⟩
  · rintro ⟨e, he⟩
    cases hsources : p.sources fs with
    | error e' => exact ⟨e', rfl⟩
    | ok sources => exact absurd he (not_mem_walked hsources e)

/-- Every source that is discovered is put into the set, in some spelling. That it is its own spelling
is known only because walked paths with the same components are equal. -/
theorem exists_mem_of_collectSources {root : Path} {found : List Path}
    {walked : List (Except WalkError Path)} (h : collectSources root found walked = .ok sources) :
    (∀ s ∈ found, s ∈ sources) ∧
      ∀ path source, .ok path ∈ walked → path.isSource = true → path.relativeTo? root = some source →
        ∃ s ∈ sources, source.compare s = .eq := by
  induction walked generalizing found with
  | nil =>
    cases h
    exact ⟨fun _ hs => hs, fun _ _ hpath => absurd hpath List.not_mem_nil⟩
  | cons entry walked ih =>
    cases entry with
    | error e => cases h
    | ok path =>
      rw [collectSources] at h
      split at h
      · split at h
        · next source hrel =>
          -- A source that is spelled already is in the set, and else it is inserted.
          obtain ⟨hfound, hlater⟩ := ih h
          refine ⟨fun s hs => hfound s (Path.mem_insert_of_mem hs), fun path' source' hpath hname hrel' => ?_⟩
          rcases List.mem_cons.mp hpath with heq | hpath
          · cases heq
            cases hrel.symm.trans hrel'
            obtain ⟨s, hs, heq⟩ := Path.exists_mem_insert source found
            exact ⟨s, hfound s hs, heq⟩
          · exact hlater path' source' hpath hname hrel'
        · cases h
      -- The path has not the name of a source.
      · next hno =>
        obtain ⟨hfound, hlater⟩ := ih h
        refine ⟨hfound, fun path' source' hpath hname hrel => ?_⟩
        rcases List.mem_cons.mp hpath with heq | hpath
        · cases heq
          exact absurd hname hno
        · exact hlater path' source' hpath hname hrel

/-- **The sources are what is discovered.** -/
theorem IsAt.mem_sources_iff (h : p.IsAt fs r below) (hfs : fs.IsTree)
    (hsources : p.sources fs = .ok sources) {source : Path} :
    source ∈ sources ↔ p.Discovers fs source := by
  refine ⟨discovers_of_mem_sources hsources, fun hdiscovers => ?_⟩
  obtain ⟨path, hpath, hname, hrel⟩ := hdiscovers
  obtain ⟨s, hs, heq⟩ := (exists_mem_of_collectSources hsources).2 path source hpath hname hrel
  rwa [h.eq_of_compare_eq hfs ⟨path, hpath, hname, hrel⟩ (discovers_of_mem_sources hsources hs) heq]

end Project

end IncludeMoves
