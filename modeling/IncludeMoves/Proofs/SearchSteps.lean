import IncludeMoves.Proofs.Entering
import IncludeMoves.Proofs.RelativePaths
import Mathlib.Data.List.Perm.Subperm
import Mathlib.Logic.Function.Iterate

/-!
# A search ends

A search is done step by step: it keeps the directories in which it is, each with the names that are
still to come, and the sources found so far, and looks at one name at a time. Links may lead anywhere, up,
across or in circles, and whether a directory is entered again is asked only behind a link. Still every
search comes to its end, with sources or with an error, and on the way it never is in more directories
than a bound that depends on the number of directories only. The directories in which it is lie on one
walked path, which has a name of an entry more in each of them, so the bound is one for the paths.

The bound: a directory behind a link is a new one, and from one link to the next locations get longer. So
there are at most as many stretches as directories, and none of them is longer than that.

* `FileSystem.Enters.length_lt` — the bound for all directories that are entered;
* `FileSystem.IsBounded` — the paths that stay within the bound;
* `FileSystem.Search.step`, `FileSystem.Search.exists_steps` — the steps, and what they come to;
* `FileSystem.Search.IsWalked` — the directories of a search are on one path;
* `FileSystem.Search.Keeps`, `FileSystem.Search.Keeps.step` — what a step keeps;
* `FileSystem.search_ends` — the whole.
-/

namespace IncludeMoves

namespace FileSystem

variable {fs : FileSystem} {start here : Visit} {above : List Visit} {n : Name} {l : Location}
  {path : Path}

/-! ### How deep a walk gets -/

/-- **The stretches of a way**: the locations at which a stretch began, all different, and those of the
last stretch, of which each is longer than the one before. -/
structure Stretches (fs : FileSystem) (here : Visit) (above : List Visit) (begun last : List Location) :
    Prop where
  begun_nodup : begun.Nodup
  begun_subset : begun ⊆ fs.directories
  begun_mem : ∀ l ∈ begun, ∃ v ∈ here :: above, v.location = l
  last_nodup : last.Nodup
  last_subset : last ⊆ fs.directories
  last_le : ∀ l ∈ last, l.length ≤ here.location.length
  length_le : (here :: above).length + fs.directories.length
    ≤ begun.length * fs.directories.length + last.length

theorem length_le_directories {ls : List Location} (hnodup : ls.Nodup) (hsub : ls ⊆ fs.directories) :
    ls.length ≤ fs.directories.length :=
  (List.subperm_of_subset hnodup hsub).length_le

/-- The directories on a way are those of some stretches, of which a link begins each but the first.
Along a stretch the locations get longer, so one stretch enters no directory twice. -/
theorem Enters.exists_stretches (h : fs.Enters start here above)
    (hstart : fs.node? start.location = some .dir) : ∃ begun last, fs.Stretches here above begun last := by
  -- On how the visit has been entered; each way in adds to one of the two lists.
  induction h with
  | start =>
    have hmem := mem_directories hstart
    exact ⟨[start.location], [start.location], List.pairwise_singleton _ _, by simpa using hmem, by simp,
      List.pairwise_singleton _ _, by simpa using hmem, by simp, by simp; omega⟩
  | @inner here above n _ _ hdir _ _ _ ih =>
    -- The last stretch goes on: the new location is longer than all that are in it.
    obtain ⟨begun, last, h⟩ := ih
    have hnew : n :: here.location ∉ last := fun hmem => by
      have hle := h.last_le _ hmem
      rw [List.length_cons] at hle
      omega
    refine ⟨begun, (n :: here.location) :: last, h.begun_nodup, h.begun_subset, fun l hl => ?_,
      List.nodup_cons.mpr ⟨hnew, h.last_nodup⟩, List.cons_subset.mpr ⟨mem_directories hdir, h.last_subset⟩,
      fun l hl => ?_, ?_⟩
    · obtain ⟨v, hv, rfl⟩ := h.begun_mem l hl
      exact ⟨v, List.mem_cons_of_mem _ hv, rfl⟩
    · rcases List.mem_cons.mp hl with rfl | hl
      · exact Nat.le_refl _
      · exact Nat.le_succ_of_le (h.last_le l hl)
    · have hlength := h.length_le
      simp only [List.length_cons] at hlength ⊢
      omega
  | @linked here above n t l _ _ _ _ hdir _ hnew ih =>
    -- A new stretch begins: where one began before, the walk still is, and a link leads elsewhere.
    obtain ⟨begun, last, h⟩ := ih
    have hnew' : l ∉ begun := fun hmem => by
      obtain ⟨v, hv, hl⟩ := h.begun_mem l hmem
      exact hnew v hv hl
    refine ⟨l :: begun, [l], List.nodup_cons.mpr ⟨hnew', h.begun_nodup⟩,
      List.cons_subset.mpr ⟨mem_directories hdir, h.begun_subset⟩, fun k hk => ?_,
      List.pairwise_singleton _ _, by simpa using mem_directories hdir, by simp, ?_⟩
    · rcases List.mem_cons.mp hk with rfl | hk
      · exact ⟨_, List.mem_cons_self, rfl⟩
      · obtain ⟨v, hv, rfl⟩ := h.begun_mem k hk
        exact ⟨v, List.mem_cons_of_mem _ hv, rfl⟩
    · have hlength := h.length_le
      have hlast := length_le_directories h.last_nodup h.last_subset
      simp only [List.length_cons, List.length_nil, Nat.add_mul, Nat.one_mul] at hlength ⊢
      omega

/-- **How deep a walk gets**: less deep than the square of the number of directories. -/
theorem Enters.length_lt (h : fs.Enters start here above) (hstart : fs.node? start.location = some .dir) :
    above.length < fs.directories.length * fs.directories.length := by
  obtain ⟨begun, last, h⟩ := h.exists_stretches hstart
  have hbegun := Nat.mul_le_mul_right fs.directories.length
    (length_le_directories h.begun_nodup h.begun_subset)
  have hlast := length_le_directories h.last_nodup h.last_subset
  have hlength := h.length_le
  simp only [List.length_cons] at hlength
  omega

/-- **A path that stays within the bound**: behind the components of the start it has names only, and no
more of them than the square of the number of directories. -/
def IsBounded (fs : FileSystem) (dir path : Path) : Prop :=
  ∃ names : List Name, names.length ≤ fs.directories.length * fs.directories.length ∧
    path.components = dir.components ++ names.map .name

theorem exists_names_child {dir : Path} {k : Nat} (hn : IsEntryName n)
    (h : ∃ names : List Name, names.length = k ∧ path.components = dir.components ++ names.map .name) :
    ∃ names : List Name, names.length = k + 1 ∧
      (path.child n).components = dir.components ++ names.map .name := by
  obtain ⟨names, hlength, hcomponents⟩ := h
  refine ⟨names ++ [n], by simp [hlength], ?_⟩
  rw [Path.components_child hn, hcomponents, List.append_assoc, List.map_append, List.map_singleton]

/-- A directory that is entered has the path of the start and one name for each directory on the way. -/
theorem Enters.exists_names (hfs : fs.IsTree) (h : fs.Enters start here above) :
    ∃ names : List Name, names.length = above.length ∧
      here.path.components = start.path.components ++ names.map .name := by
  induction h with
  | start => exact ⟨[], rfl, (List.append_nil _).symm⟩
  | inner _ hn _ _ _ _ ih => exact exists_names_child (hfs.name_of_mem_children hn).1 ih
  | linked _ hn _ _ _ _ _ ih => exact exists_names_child (hfs.name_of_mem_children hn).1 ih

theorem Enters.isBounded (hfs : fs.IsTree) (h : fs.Enters start here above)
    (hstart : fs.node? start.location = some .dir) : fs.IsBounded start.path here.path := by
  obtain ⟨names, hlength, hcomponents⟩ := h.exists_names hfs
  exact ⟨names, hlength ▸ Nat.le_of_lt (h.length_lt hstart), hcomponents⟩

theorem Enters.isBounded_child (hfs : fs.IsTree) (h : fs.Enters start here above)
    (hstart : fs.node? start.location = some .dir) (hn : n ∈ fs.children here.location) :
    fs.IsBounded start.path (here.path.child n) := by
  obtain ⟨names, hlength, hcomponents⟩ :=
    exists_names_child (hfs.name_of_mem_children hn).1 (h.exists_names hfs)
  exact ⟨names, hlength ▸ h.length_lt hstart, hcomponents⟩

/-- A directory that is entered was entered from the one behind it, at one of the names there. -/
theorem Enters.exists_child (hfs : fs.IsTree) {v : Visit} (h : fs.Enters start here (v :: above)) :
    ∃ n, IsEntryName n ∧ here.path = v.path.child n := by
  cases h with
  | inner _ hn _ _ _ _ => exact ⟨_, (hfs.name_of_mem_children hn).1, rfl⟩
  | linked _ hn _ _ _ _ _ => exact ⟨_, (hfs.name_of_mem_children hn).1, rfl⟩

theorem Enters.path_eq (h : fs.Enters start here []) : here.path = start.path := by
  cases h
  rfl

/-! ### The steps of a search -/

/-- A directory in which a search is, those above it, and the names that are still to come. A search has
one for each directory on the path on which it is. -/
structure Stage where
  here : Visit
  above : List Visit
  names : List Name

/-- **A search on its way**, with the innermost directory first, or at its end. This is the search as a
machine: what it still has to do is in its state and in no recursion. -/
inductive Search where
  | running (stages : List Stage) (found : List Path)
  | done (result : Except Problem (List Path))

namespace Search

/-- A search goes on with what has been found, unless that was a failure. -/
def resume (stages : List Stage) : Except Problem (List Path) → Search
  | .ok found => .running stages found
  | .error p => .done (.error p)

/-- **A step of a search**: one name is looked at, or a directory is left. Every step is finished at
once, so that a search ends if and only if its steps come to an end. -/
def step (fs : FileSystem) (root : Path) : Search → Search
  | .done result => .done result
  | .running [] found => .done (.ok found)
  | .running (⟨_, _, []⟩ :: stages) found => .running stages found
  | .running (⟨here, above, n :: names⟩ :: stages) found =>
    match fs.finding here above n with
    | .directory l =>
      .running (⟨⟨here.path.child n, l⟩, here :: above, fs.children l⟩ :: ⟨here, above, names⟩ :: stages)
        found
    | finding =>
      resume (⟨here, above, names⟩ :: stages)
        (collectSources root found (finding.report (here.path.child n)))

/-- The start of a search: a directory is entered, a file is all there is, and the rest is a failure.
The cases are those of the walk from its start. -/
def begin (fs : FileSystem) (root dir : Path) : Search :=
  match fs.lookup .entry dir with
  | .error e => .done (.error (.walk (.io dir e)))
  | .ok first =>
    match fs.resolve dir with
    | .error e => .done (.error (.walk (.io dir e)))
    | .ok l =>
      match fs.node? first, fs.node? l with
      | some _, some (.file _) => resume [] (collectSources root [] [.ok dir])
      | some node, some .dir =>
        if fs.mayList l then .running [⟨⟨dir, l⟩, [], fs.children l⟩] []
        else if node = .dir then .done (.error (.walk (.io dir (.os .accessDenied))))
        else .done (.error (.walk (.unopened (.os .accessDenied))))
      | _, _ => .running [] []

/-! ### What the steps come to -/

/-- What a walk reports of a name, with all that is behind it. -/
def reports (fs : FileSystem) (here : Visit) (above : List Visit) (n : Name) :
    List (Except WalkError Path) :=
  match fs.finding here above n with
  | .directory l => fs.descend ⟨here.path.child n, l⟩ (here :: above)
  | finding => finding.report (here.path.child n)

theorem flatMap_reports (fs : FileSystem) (here : Visit) (above : List Visit) :
    (fs.children here.location).flatMap (reports fs here above) = fs.descend here above := by
  rw [descend_eq]
  refine List.flatMap_congr fun n _ => ?_
  unfold reports
  cases fs.finding here above n <;> rfl

theorem collectSources_bind (root : Path) (found : List Path) (xs ys : List (Except WalkError Path)) :
    collectSources root found (xs ++ ys)
      = (collectSources root found xs).bind fun found => collectSources root found ys := by
  induction xs generalizing found with
  | nil => rfl
  | cons x xs ih =>
    cases x with
    | error e => rfl
    | ok path =>
      rw [List.cons_append, collectSources, collectSources]
      -- A path is put into the set, stops the collection, or is passed over.
      split
      · split
        · exact ih _
        · rfl
      · exact ih found

variable {root : Path}

/-- **The steps through a directory** come to what is collected of its names. The induction is that of
the walk, and over the names of a directory; that the walk ends was shown with its definition. -/
theorem exists_steps (fs : FileSystem) (root : Path) (here : Visit) (above : List Visit)
    (names : List Name) (stages : List Stage) (found : List Path) :
    ∃ k, (step fs root)^[k] (.running (⟨here, above, names⟩ :: stages) found)
      = resume stages (collectSources root found (names.flatMap (reports fs here above))) := by
  induction here, above using descend_induction fs generalizing names stages found with
  | step here above ih =>
    -- On the names that are still to be looked at, for any sources found so far.
    induction names generalizing found with
    | nil => exact ⟨1, rfl⟩
    | cons n names ihNames =>
      -- What one name comes to, the steps for the names behind it take up.
      suffices hname : ∃ k, (step fs root)^[k] (.running (⟨here, above, n :: names⟩ :: stages) found)
          = resume (⟨here, above, names⟩ :: stages)
            (collectSources root found (reports fs here above n)) by
        obtain ⟨k, hk⟩ := hname
        rw [List.flatMap_cons, collectSources_bind]
        cases hcollect : collectSources root found (reports fs here above n) with
        | error p => exact ⟨k, by rw [hk, hcollect]; rfl⟩
        | ok found' =>
          obtain ⟨k', hk'⟩ := ihNames found'
          refine ⟨k' + k, ?_⟩
          rw [Function.iterate_add_apply, hk, hcollect]
          exact hk'
      cases hfinding : fs.finding here above n with
      | directory l =>
        -- One step into the directory, and the steps through it.
        obtain ⟨k, hk⟩ := ih n l hfinding (fs.children l) (⟨here, above, names⟩ :: stages) found
        refine ⟨k + 1, ?_⟩
        have hreports : reports fs here above n
            = (fs.children l).flatMap (reports fs ⟨here.path.child n, l⟩ (here :: above)) := by
          rw [reports, hfinding]
          exact (flatMap_reports fs ⟨here.path.child n, l⟩ (here :: above)).symm
        rw [hreports, Function.iterate_succ_apply, step, hfinding]
        exact hk
      | nothing => exact ⟨1, by simp only [Function.iterate_one, step, reports, hfinding]⟩
      | file => exact ⟨1, by simp only [Function.iterate_one, step, reports, hfinding]⟩
      | failure e => exact ⟨1, by simp only [Function.iterate_one, step, reports, hfinding]⟩

/-- The last step of a search. -/
theorem step_resume (result : Except Problem (List Path)) :
    step fs root (resume [] result) = .done result := by
  cases result <;> rfl

/-- **Every search comes to an end**, with the sources or the error of the walk. So what is proved of
`FileSystem.sources` is true of the machine. -/
theorem exists_steps_begin (fs : FileSystem) (root dir : Path) :
    ∃ k, (step fs root)^[k] (begin fs root dir) = .done (fs.sources root dir) := by
  -- Without a directory to list at the start, there is no step or only one.
  unfold begin sources walk
  cases fs.lookup .entry dir with
  | error e => exact ⟨0, rfl⟩
  | ok first =>
    cases fs.resolve dir with
    | error e => exact ⟨0, rfl⟩
    | ok l =>
      simp only
      cases fs.node? first with
      | none => exact ⟨1, rfl⟩
      | some entry =>
        cases fs.node? l with
        | none => exact ⟨1, rfl⟩
        | some node =>
          cases node with
          | link t => exact ⟨1, rfl⟩
          | file f => exact ⟨1, step_resume _⟩
          | dir =>
            simp only
            by_cases hlist : fs.mayList l = true
            · rw [if_pos hlist, if_pos hlist]
              obtain ⟨k, hk⟩ := exists_steps fs root ⟨dir, l⟩ [] (fs.children l) [] []
              refine ⟨k + 1, ?_⟩
              rw [Function.iterate_succ_apply', hk, step_resume]
              exact congrArg (fun walked => done (collectSources root [] walked))
                (flatMap_reports fs ⟨dir, l⟩ [])
            · -- A directory that may not be listed ends the search at once.
              rw [if_neg hlist, if_neg hlist]
              refine ⟨0, ?_⟩
              split <;> rfl

/-- A search that has ended stays at its end, so it has only one. -/
theorem done_unique {search : Search} {result result' : Except Problem (List Path)} {k k' : Nat}
    (h : (step fs root)^[k] search = .done result) (h' : (step fs root)^[k'] search = .done result') :
    result = result' := by
  -- A search that has ended stays where it is.
  have hend : ∀ (m : Nat) (r : Except Problem (List Path)),
      (step fs root)^[m] (.done r) = .done r := by
    intro m r
    induction m with
    | zero => rfl
    | succ m ih =>
      rw [Function.iterate_succ_apply]
      exact ih
  -- So after `k + k'` steps it shows both results.
  have hlater : (step fs root)^[k + k'] search = .done result' := by
    rw [Function.iterate_add_apply, h', hend]
  rw [Nat.add_comm, Function.iterate_add_apply, h, hend] at hlater
  exact Search.done.inj hlater

/-! ### What the steps keep -/

variable {start : Visit} {stages : List Stage} {s : Stage} {found : List Path}

/-- **The directories of a search**: the walk enters each of them, from those that come behind it. This
is the invariant of a search. -/
inductive Follows (fs : FileSystem) (start : Visit) : List Stage → Prop
  | nil : Follows fs start []
  | cons {s : Stage} {stages : List Stage} : fs.Enters start s.here s.above →
      s.names ⊆ fs.children s.here.location → s.above = stages.map Stage.here →
      Follows fs start stages → Follows fs start (s :: stages)

/-- A search in which only such directories are. At its end there are none left. -/
def Keeps (fs : FileSystem) (start : Visit) : Search → Prop
  | .running stages _ => Follows fs start stages
  | .done _ => True

theorem Follows.keeps_resume (h : Follows fs start stages) (result : Except Problem (List Path)) :
    Keeps fs start (resume stages result) := by
  cases result with
  | ok found => exact h
  | error p => trivial

/-- **A step keeps to the directories that the walk enters.** Leaving one drops a stage, and a directory
that is found below is one that is entered from there. -/
theorem Keeps.step {search : Search} (h : Keeps fs start search) :
    Keeps fs start (step fs root search) := by
  match search with
  | .done result => exact h
  | .running [] found => trivial
  | .running (⟨here, above, []⟩ :: stages) found =>
    cases h with
    | cons _ _ _ hstages => exact hstages
  | .running (⟨here, above, n :: names⟩ :: stages) found =>
    cases h with
    | cons hentered hnames habove hstages =>
      -- One name of the innermost directory is dealt with; the others are left for later.
      obtain ⟨hn, hnames⟩ := List.cons_subset.mp hnames
      have hrest : Follows fs start (⟨here, above, names⟩ :: stages) :=
        .cons hentered hnames habove hstages
      rw [Search.step]
      cases hfinding : fs.finding here above n with
      | directory l =>
        -- The directory is entered, with all its names still to come.
        refine .cons (hentered.of_finding hn hfinding) (fun _ hm => hm) ?_ hrest
        rw [List.map_cons, ← habove]
      | nothing => exact hrest.keeps_resume _
      | file => exact hrest.keeps_resume _
      | failure e => exact hrest.keeps_resume _

/-- So does a run of steps. -/
theorem Keeps.iterate {search : Search} (h : Keeps fs start search) (k : Nat) :
    Keeps fs start ((Search.step fs root)^[k] search) := by
  induction k with
  | zero => exact h
  | succ k ih =>
    rw [Function.iterate_succ_apply']
    exact ih.step

/-- At its beginning a search is in its start only, which is the place from which its directories are
entered. -/
theorem exists_keeps_begin (fs : FileSystem) (root dir : Path) :
    ∃ l, fs.node? l = some .dir ∧ Keeps fs ⟨dir, l⟩ (begin fs root dir) := by
  unfold begin
  split
  · exact ⟨[], node?_nil fs, trivial⟩
  -- A start that leads to no directory leaves nothing to keep; any place in the tree will do for it.
  split
  · exact ⟨[], node?_nil fs, trivial⟩
  next l _ =>
  split
  · exact ⟨[], node?_nil fs, Follows.nil.keeps_resume _⟩
  · next hl =>
    split
    · exact ⟨l, hl, .cons .start (fun _ hm => hm) rfl .nil⟩
    · split <;> exact ⟨l, hl, trivial⟩
  · exact ⟨[], node?_nil fs, .nil⟩

theorem Follows.length_le (h : Follows fs start stages) (hstart : fs.node? start.location = some .dir) :
    stages.length ≤ fs.directories.length * fs.directories.length := by
  cases h with
  | nil => exact Nat.zero_le _
  | @cons s stages hentered _ habove _ =>
    have hlength := hentered.length_lt hstart
    rw [habove, List.length_map] at hlength
    exact hlength

theorem Follows.enters (h : Follows fs start stages) (hs : s ∈ stages) :
    fs.Enters start s.here s.above ∧ s.names ⊆ fs.children s.here.location := by
  induction h with
  | nil => exact absurd hs List.not_mem_nil
  | cons hentered hnames _ _ ih =>
    rcases List.mem_cons.mp hs with rfl | hs
    · exact ⟨hentered, hnames⟩
    · exact ih hs

/-- **The directories of a search are on one path**: the outermost one is the start, and each has the path
of the one in front of which it is listed, with the name of an entry more. -/
inductive IsWalked (dir : Path) : List Stage → Prop
  | nil : IsWalked dir []
  | start {s : Stage} : s.here.path = dir → IsWalked dir [s]
  | entry {s s' : Stage} {stages : List Stage} {n : Name} : IsEntryName n →
      s.here.path = s'.here.path.child n → IsWalked dir (s' :: stages) →
      IsWalked dir (s :: s' :: stages)

theorem Follows.isWalked (hfs : fs.IsTree) (h : Follows fs start stages) :
    IsWalked start.path stages := by
  induction h with
  | nil => exact .nil
  | @cons s stages hentered _ habove hstages ih =>
    cases stages with
    | nil => exact .start (Enters.path_eq (habove ▸ hentered))
    | cons s' stages =>
      rw [habove] at hentered
      obtain ⟨n, hn, hpath⟩ := hentered.exists_child hfs
      exact .entry hn hpath ih

end Search

/-! ### How long paths get -/

/-- The path of a file or of a failure, if that is reported with one. -/
def reportedPath? : Except WalkError Path → Option Path
  | .ok path => some path
  | .error (.io path _) => some path
  | .error (.unopened _) => none
  | .error (.loop link _) => some link

/-- A finding is reported by the path of its entry. -/
theorem eq_of_mem_report {x : Except WalkError Path}
    (hx : x ∈ (fs.finding here above n).report (here.path.child n)) (hpath : reportedPath? x = some path) :
    path = here.path.child n := by
  have hfinds := fs.finds_finding here above n
  generalize fs.finding here above n = found at hfinds hx
  -- Everything that is found under a name carries the path of the name; only `unopened` tells no path.
  cases hfinds with
  | file | linkedFile | barred | broken | loop =>
    rw [List.mem_singleton.mp hx] at hpath
    exact (Option.some.inj hpath).symm
  | unopened =>
    rw [List.mem_singleton.mp hx] at hpath
    cases hpath
  | absent | below | linkedNothing | linked => exact absurd hx List.not_mem_nil

/-- What a walk reports has a bounded path. It is the path of an entry in a directory that is entered,
one name longer than that of the directory. -/
theorem isBounded_of_mem_walk (hfs : fs.IsTree) {dir : Path} {x : Except WalkError Path}
    (hx : x ∈ fs.walk dir) (hpath : reportedPath? x = some path) : fs.IsBounded dir path := by
  have hdir : fs.IsBounded dir dir := ⟨[], Nat.zero_le _, (List.append_nil _).symm⟩
  -- At the start itself only its own path is reported.
  have hstart : ∀ y, x ∈ [y] → reportedPath? y = some dir → fs.IsBounded dir path := by
    intro y hx hy
    rw [List.mem_singleton.mp hx, hy] at hpath
    rwa [← Option.some.inj hpath]
  unfold walk at hx
  split at hx
  · exact hstart _ hx rfl
  split at hx
  · exact hstart _ hx rfl
  next l _ =>
  -- Only in a directory that may be listed does the search go on.
  split at hx
  · exact hstart _ hx rfl
  · next hl =>
    split at hx
    · obtain ⟨here, above, n, hentered, hn, hx⟩ := mem_descend_iff.mp hx
      rw [eq_of_mem_report hx hpath]
      exact hentered.isBounded_child hfs hl hn
    · split at hx
      · exact hstart _ hx rfl
      · rw [List.mem_singleton.mp hx] at hpath
        cases hpath
  · exact absurd hx List.not_mem_nil

open Search in
/-- **A search ends.** Whatever the links of a file system are, a search comes to the sources or to an error
after finitely many steps. On the way the directories in which it is are on one path, each with the name of
an entry more, and there are no more of them than the square of the number of all directories. So their
paths, and those of the names that are still to come there, stay within that bound; and so do the paths of
files and failures. -/
theorem search_ends (hfs : fs.IsTree) (root dir : Path) :
    (∃ k, (step fs root)^[k] (begin fs root dir) = .done (fs.sources root dir)) ∧
    (∀ k stages found, (step fs root)^[k] (begin fs root dir) = .running stages found →
      IsWalked dir stages ∧ stages.length ≤ fs.directories.length * fs.directories.length ∧
      ∀ s ∈ stages, fs.IsBounded dir s.here.path ∧ ∀ n ∈ s.names, fs.IsBounded dir (s.here.path.child n)) ∧
    ∀ x ∈ fs.walk dir, ∀ path, reportedPath? x = some path → fs.IsBounded dir path := by
  refine ⟨exists_steps_begin fs root dir, fun k stages found hk => ?_,
    fun x hx path => isBounded_of_mem_walk hfs hx⟩
  -- What holds at the beginning is kept by each step.
  obtain ⟨l, hl, hkeeps⟩ := exists_keeps_begin fs root dir
  have hfollows : Follows fs ⟨dir, l⟩ stages := by
    have hlater : Keeps fs ⟨dir, l⟩ ((step fs root)^[k] (begin fs root dir)) := hkeeps.iterate k
    rwa [hk] at hlater
  refine ⟨hfollows.isWalked hfs, hfollows.length_le hl, fun s hs => ?_⟩
  obtain ⟨hentered, hnames⟩ := hfollows.enters hs
  exact ⟨hentered.isBounded hfs hl, fun n hn => hentered.isBounded_child hfs hl (hnames hn)⟩

/-- Two directories, each with a link into the other. -/
def crossTree : FileSystem where
  entries := [
    ([(Path.ofString "a").bytes], .dir),
    ([(Path.ofString "x").bytes, (Path.ofString "a").bytes], .link (.ofString "../b")),
    ([(Path.ofString "b").bytes], .dir),
    ([(Path.ofString "y").bytes, (Path.ofString "b").bytes], .link (.ofString "../a"))]
  cwd := []

open Search in
/-- The search goes over both links and is back where it began; a step further it has ended. It never is in
more than nine directories. -/
theorem search_ends_crossTree :
    crossTree.IsTree ∧
      crossTree.sources (.ofString "/") (.ofString "/a")
        = .error (.walk (.loop (.ofString "/a/x/y") (.ofString "/a"))) ∧
      ∀ k stages found, (step crossTree (.ofString "/"))^[k]
          (begin crossTree (.ofString "/") (.ofString "/a")) = .running stages found →
        IsWalked (.ofString "/a") stages ∧ stages.length ≤ 9 := by
  have hfs : crossTree.IsTree := by decide
  obtain ⟨⟨k, hk⟩, hstages, -⟩ := search_ends hfs (.ofString "/") (.ofString "/a")
  refine ⟨hfs, ?_, fun k stages found h => ?_⟩
  · -- Two steps are made, into the directory of the link and to the link itself.
    have hsteps : (step crossTree (.ofString "/"))^[2] (begin crossTree (.ofString "/") (.ofString "/a"))
        = .done (.error (.walk (.loop (.ofString "/a/x/y") (.ofString "/a")))) := rfl
    exact done_unique hk hsteps
  · obtain ⟨hwalked, hlength, -⟩ := hstages k stages found h
    exact ⟨hwalked, hlength⟩

end FileSystem

end IncludeMoves
