import IncludeMoves.Proofs.Walking

/-!
# The directories that a walk enters

A walk enters directories, and in each one it finds files, failures and further directories. Here it is
said without a recursion which ones: `FileSystem.Enters` has one rule for the start, one for a directory
and one for a link to a directory, and the walk reports just what is found in the directories that are
entered (`FileSystem.mem_descend_iff`).

* `FileSystem.Enters` — a directory that is entered, with those from which it was entered;
* `FileSystem.Blocks`, `FileSystem.ShowsFile` — the entries that end a search, and those that are files;
* `FileSystem.WalksTo` — the paths of the files;
* `FileSystem.ok_mem_descend_iff`, `FileSystem.exists_error_mem_descend_iff` — what is reported.
-/

namespace IncludeMoves

namespace FileSystem

variable {fs : FileSystem} {start here : Visit} {above : List Visit} {n : Name} {l : Location}
  {path : Path} {x : Except WalkError Path}

/-- **The directories that a walk enters**, each with the directories from which it was entered, the
innermost one first. What leads there is a directory, if its path is not too long and may be looked up,
or a link that resolves, if the walk is not in the directory behind it. The directory may be listed. -/
inductive Enters (fs : FileSystem) (start : Visit) : Visit → List Visit → Prop
  | start : Enters fs start start []
  | inner {here : Visit} {above : List Visit} {n : Name} : Enters fs start here above →
      n ∈ fs.children here.location → fs.node? (n :: here.location) = some .dir →
      (here.path.child n).isTooLong = false → fs.maySearch here.location = true →
      fs.mayList (n :: here.location) = true →
      Enters fs start ⟨here.path.child n, n :: here.location⟩ (here :: above)
  | linked {here : Visit} {above : List Visit} {n : Name} {t : Path} {l : Location} :
      Enters fs start here above → n ∈ fs.children here.location →
      fs.node? (n :: here.location) = some (.link t) → fs.resolve (here.path.child n) = .ok l →
      fs.node? l = some .dir → fs.mayList l = true → (∀ v ∈ here :: above, v.location ≠ l) →
      Enters fs start ⟨here.path.child n, l⟩ (here :: above)

/-- **An entry that ends a search**: a directory that cannot be opened, as its path is too long, may not be
looked up, or it may not be listed; a link that does not resolve, or that leads to a directory that may
not be listed; or a link to a directory in which the walk is. -/
inductive Blocks (fs : FileSystem) (here : Visit) (above : List Visit) (n : Name) : Prop
  | tooLong : fs.node? (n :: here.location) = some .dir → (here.path.child n).isTooLong = true →
      Blocks fs here above n
  | unsearched : fs.node? (n :: here.location) = some .dir → fs.maySearch here.location = false →
      Blocks fs here above n
  | unlisted : fs.node? (n :: here.location) = some .dir → fs.mayList (n :: here.location) = false →
      Blocks fs here above n
  | broken {t : Path} {e : IoError} : fs.node? (n :: here.location) = some (.link t) →
      fs.resolve (here.path.child n) = .error e → Blocks fs here above n
  | unopened {t : Path} {l : Location} : fs.node? (n :: here.location) = some (.link t) →
      fs.resolve (here.path.child n) = .ok l → fs.node? l = some .dir → fs.mayList l = false →
      Blocks fs here above n
  | loop {t : Path} {v : Visit} : fs.node? (n :: here.location) = some (.link t) →
      fs.resolve (here.path.child n) = .ok v.location → fs.node? v.location = some .dir →
      v ∈ here :: above → Blocks fs here above n

/-- **An entry that is a file**: a regular file, or a link that resolves to one. A regular file is one
by the listing alone; of a link this has to be found out by a lookup. -/
inductive ShowsFile (fs : FileSystem) (here : Visit) (n : Name) : Prop
  | file {f : RegularFile} : fs.node? (n :: here.location) = some (.file f) → ShowsFile fs here n
  | linked {t : Path} {l : Location} {f : RegularFile} :
      fs.node? (n :: here.location) = some (.link t) → fs.resolve (here.path.child n) = .ok l →
      fs.node? l = some (.file f) → ShowsFile fs here n

/-- **The paths of the files that a walk finds**, each with its last name. Nothing is said of the names
in between, so hidden directories and those with the name of a source count as well. -/
def WalksTo (fs : FileSystem) (start : Visit) (path : Path) (n : Name) : Prop :=
  ∃ here above, fs.Enters start here above ∧ n ∈ fs.children here.location ∧
    path = here.path.child n ∧ fs.ShowsFile here n

/-! ### What is found -/

theorem find?_location_eq_none_iff {vs : List Visit} :
    vs.find? (fun v => v.location == l) = none ↔ ∀ v ∈ vs, v.location ≠ l := by
  simp [List.find?_eq_none]

/-- What stands in the way to a directory. -/
theorem barrier?_eq_none_iff : fs.barrier? here n = none ↔
    (here.path.child n).isTooLong = false ∧ fs.maySearch here.location = true ∧
      fs.mayList (n :: here.location) = true := by
  unfold barrier?
  split
  · next hlong => simp [hlong]
  · next hlong =>
    split
    · next hmay => simpa [hlong] using hmay
    · next hmay => simpa [hlong] using hmay

theorem showsFile_iff : fs.ShowsFile here n ↔ fs.finding here above n = .file := by
  constructor
  · rintro (hfile | ⟨hlink, hres, hfile⟩)
    · exact (Finds.file hfile).finding_eq
    · exact (Finds.linkedFile hlink hres (file?_eq_some.mpr hfile)).finding_eq
  · intro h
    have hfinds := fs.finds_finding here above n
    rw [h] at hfinds
    cases hfinds with
    | file hfile => exact .file hfile
    | linkedFile hlink hres hfile => exact .linked hlink hres (file?_eq_some.mp hfile)

theorem blocks_of_barrier? {e : OsError} (hdir : fs.node? (n :: here.location) = some .dir)
    (h : fs.barrier? here n = some e) : fs.Blocks here above n := by
  have hne : fs.barrier? here n ≠ none := by simp [h]
  rw [ne_eq, barrier?_eq_none_iff] at hne
  by_cases hlong : (here.path.child n).isTooLong = true
  · exact .tooLong hdir hlong
  by_cases hsearch : fs.maySearch here.location = true
  · by_cases hlist : fs.mayList (n :: here.location) = true
    · exact absurd ⟨Bool.eq_false_iff.mpr hlong, hsearch, hlist⟩ hne
    · exact .unlisted hdir (Bool.eq_false_iff.mpr hlist)
  · exact .unsearched hdir (Bool.eq_false_iff.mpr hsearch)

theorem exists_barrier? (h : (here.path.child n).isTooLong = true ∨ fs.maySearch here.location = false ∨
    fs.mayList (n :: here.location) = false) : ∃ e, fs.barrier? here n = some e := by
  refine Option.ne_none_iff_exists'.mp fun hnone => ?_
  obtain ⟨hlong, hsearch, hlist⟩ := barrier?_eq_none_iff.mp hnone
  simp [hlong, hsearch, hlist] at h

/-- What blocks a walk is what it finds as a failure. So the rules for blocks say in words what the walk
does at an entry. -/
theorem blocks_iff : fs.Blocks here above n ↔ ∃ e, fs.finding here above n = .failure e := by
  constructor
  · -- Of an entry that ends the search in two ways, the first one that is looked at is reported.
    have hbarred : fs.node? (n :: here.location) = some .dir → (∃ e, fs.barrier? here n = some e) →
        ∃ e, fs.finding here above n = .failure e := by
      rintro hdir ⟨e, he⟩
      exact ⟨_, (Finds.barred hdir he).finding_eq⟩
    have hunopened : ∀ {t l}, fs.node? (n :: here.location) = some (.link t) →
        fs.resolve (here.path.child n) = .ok l → fs.node? l = some .dir → fs.mayList l = false →
        ∃ e, fs.finding here above n = .failure e :=
      fun hlink hres hdir hlist => ⟨_, (Finds.unopened hlink hres hdir hlist).finding_eq⟩
    intro h
    cases h with
    | tooLong hdir hlong => exact hbarred hdir (exists_barrier? (.inl hlong))
    | unsearched hdir hsearch => exact hbarred hdir (exists_barrier? (.inr (.inl hsearch)))
    | unlisted hdir hlist => exact hbarred hdir (exists_barrier? (.inr (.inr hlist)))
    | broken hlink hres => exact ⟨_, (Finds.broken hlink hres).finding_eq⟩
    | unopened hlink hres hdir hlist => exact hunopened hlink hres hdir hlist
    -- A link that leads back has to be open for the check to be made.
    | @loop t v hlink hres hdir hv =>
      by_cases hlist : fs.mayList v.location = true
      · cases hfind : (here :: above).find? (fun w => w.location == v.location) with
        | none => exact absurd rfl (find?_location_eq_none_iff.mp hfind v hv)
        | some w => exact ⟨_, (Finds.loop hlink hres hdir hlist hfind).finding_eq⟩
      · exact hunopened hlink hres hdir (Bool.eq_false_iff.mpr hlist)
  -- What is reported tells which rule has applied.
  · rintro ⟨e, h⟩
    have hfinds := fs.finds_finding here above n
    rw [h] at hfinds
    cases hfinds with
    | barred hdir hbarrier => exact blocks_of_barrier? hdir hbarrier
    | broken hlink hres => exact .broken hlink hres
    | unopened hlink hres hdir hlist => exact .unopened hlink hres hdir hlist
    | loop hlink hres hdir _ hv =>
      have hlocation := List.find?_some hv
      simp only [beq_iff_eq] at hlocation
      subst hlocation
      exact .loop hlink hres hdir (List.mem_of_find?_eq_some hv)

theorem Enters.of_finding (h : fs.Enters start here above) (hn : n ∈ fs.children here.location)
    (hfinding : fs.finding here above n = .directory l) :
    fs.Enters start ⟨here.path.child n, l⟩ (here :: above) := by
  have hfinds := fs.finds_finding here above n
  rw [hfinding] at hfinds
  cases hfinds with
  | below hdir hbarrier =>
    obtain ⟨hlong, hsearch, hlist⟩ := barrier?_eq_none_iff.mp hbarrier
    exact h.inner hn hdir hlong hsearch hlist
  | linked hlink hres hdir hlist hnew =>
    exact h.linked hn hlink hres hdir hlist (find?_location_eq_none_iff.mp hnew)

/-! ### What is reported -/

/-- What a walk reports itself of a finding. -/
def Finding.report (path : Path) : Finding → List (Except WalkError Path)
  | .file => [.ok path]
  | .failure e => [.error e]
  | _ => []

theorem mem_descend_of_finding (hn : n ∈ fs.children here.location)
    (hx : x ∈ (fs.finding here above n).report (here.path.child n)) : x ∈ fs.descend here above := by
  rw [descend_eq, List.mem_flatMap]
  refine ⟨n, hn, ?_⟩
  cases hfinding : fs.finding here above n <;> rw [hfinding] at hx <;> first | exact hx | cases hx

theorem mem_descend_of_directory (hn : n ∈ fs.children here.location)
    (hfinding : fs.finding here above n = .directory l)
    (hx : x ∈ fs.descend ⟨here.path.child n, l⟩ (here :: above)) : x ∈ fs.descend here above := by
  rw [descend_eq, List.mem_flatMap]
  exact ⟨n, hn, by rwa [hfinding]⟩

/-- What is reported of a directory that is entered is reported of the start. -/
theorem Enters.mem_descend (h : fs.Enters start here above) (hx : x ∈ fs.descend here above) :
    x ∈ fs.descend start [] := by
  induction h with
  | start => exact hx
  | inner _ hn hdir hlong hsearch hlist ih =>
    have hbarrier := barrier?_eq_none_iff.mpr ⟨hlong, hsearch, hlist⟩
    exact ih (mem_descend_of_directory hn (Finds.below hdir hbarrier).finding_eq hx)
  | linked _ hn hlink hres hdir hlist hnew ih =>
    exact ih (mem_descend_of_directory hn
      (Finds.linked hlink hres hdir hlist (find?_location_eq_none_iff.mpr hnew)).finding_eq hx)

/-- What is reported of a directory is found in a directory that is entered. The induction is on the
walk, and the report comes from the directory itself or from one below it. -/
theorem Enters.exists_of_mem_descend (here : Visit) (above : List Visit)
    (h : fs.Enters start here above) (hx : x ∈ fs.descend here above) :
    ∃ here above n, fs.Enters start here above ∧ n ∈ fs.children here.location ∧
      x ∈ (fs.finding here above n).report (here.path.child n) := by
  induction here, above using descend_induction fs with
  | step here above ih =>
    rw [descend_eq, List.mem_flatMap] at hx
    obtain ⟨n, hn, hx⟩ := hx
    -- Only of a directory more is reported than the finding itself.
    cases hfinding : fs.finding here above n with
    | directory l =>
      rw [hfinding] at hx
      exact ih n l hfinding (h.of_finding hn hfinding) hx
    | nothing => simp [hfinding] at hx
    | file => exact ⟨here, above, n, h, hn, by simpa [hfinding, Finding.report] using hx⟩
    | failure e => exact ⟨here, above, n, h, hn, by simpa [hfinding, Finding.report] using hx⟩

/-- **A walk reports what is found in the directories that it enters.** -/
theorem mem_descend_iff : x ∈ fs.descend start [] ↔
    ∃ here above n, fs.Enters start here above ∧ n ∈ fs.children here.location ∧
      x ∈ (fs.finding here above n).report (here.path.child n) := by
  constructor
  · exact Enters.exists_of_mem_descend start [] .start
  · rintro ⟨here, above, n, hentered, hn, hx⟩
    exact hentered.mem_descend (mem_descend_of_finding hn hx)

theorem Finding.ok_mem_report_iff {found : Finding} {p : Path} :
    .ok path ∈ found.report p ↔ path = p ∧ found = .file := by
  cases found <;> simp [report]

theorem Finding.error_mem_report_iff {found : Finding} {p : Path} {e : WalkError} :
    .error e ∈ found.report p ↔ found = .failure e := by
  cases found <;> simp [report, eq_comm]

/-- The files that are reported. -/
theorem ok_mem_descend_iff : .ok path ∈ fs.descend start [] ↔ ∃ n, fs.WalksTo start path n := by
  rw [mem_descend_iff]
  constructor
  · rintro ⟨here, above, n, hentered, hn, hx⟩
    obtain ⟨hpath, hfile⟩ := Finding.ok_mem_report_iff.mp hx
    exact ⟨n, here, above, hentered, hn, hpath, showsFile_iff.mpr hfile⟩
  · rintro ⟨n, here, above, hentered, hn, hpath, hfile⟩
    exact ⟨here, above, n, hentered, hn, Finding.ok_mem_report_iff.mpr ⟨hpath, showsFile_iff.mp hfile⟩⟩

/-- The failures that are reported. -/
theorem exists_error_mem_descend_iff : (∃ e, .error e ∈ fs.descend start []) ↔
    ∃ here above n, fs.Enters start here above ∧ n ∈ fs.children here.location ∧
      fs.Blocks here above n := by
  simp only [mem_descend_iff, Finding.error_mem_report_iff, blocks_iff]
  constructor
  · rintro ⟨e, here, above, n, hentered, hn, hx⟩
    exact ⟨here, above, n, hentered, hn, e, hx⟩
  · rintro ⟨here, above, n, hentered, hn, e, hx⟩
    exact ⟨e, here, above, n, hentered, hn, hx⟩

end FileSystem

end IncludeMoves
