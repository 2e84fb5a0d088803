import IncludeMoves.Proofs.KeptWays
import IncludeMoves.Proofs.RepeatedRevision
import IncludeMoves.Proofs.SameShape
import IncludeMoves.Proofs.Tables
import Mathlib.Data.List.Dedup

/-!
# The order of listings

A directory lists its names in some order, and a walk goes by it. But which failures a walk meets with,
and which files it finds, does not depend on the order; the set of the sources that are found does not
show in which order it was filled; and all that comes after goes by the set. So the order of listings
never shows, except in which of several failures ends a search.

* `FileSystem.Reordered` — the same tree, listed in another order;
* `FileSystem.Reordered.walk` — the same findings, in some order;
* `Project.sources_of_reordered` — the same sources, or no sources;
* `Project.reviseAll_of_reordered` — the same run;
* `Project.listing_order_never_shows` — the whole.
-/

namespace IncludeMoves

namespace FileSystem

variable {fs fs' : FileSystem} {l d : Location} {f : RegularFile}

/-- **The same tree, listed in another order**: the same entry at each location, the same permission bits,
and the same entries. -/
structure Reordered (fs fs' : FileSystem) : Prop where
  cwd : fs'.cwd = fs.cwd
  modes : SameModes fs fs'
  node?_eq : ∀ l, fs'.node? l = fs.node? l
  entries : fs'.entries.Perm fs.entries

namespace Reordered

theorem sameShape (h : Reordered fs fs') : SameShape fs fs' where
  cwd := h.cwd
  modes := h.modes
  outline l := by rw [h.node?_eq]
  children l := h.entries.filterMap _
  freshInode := by
    rw [freshInode, freshInode, foldr_max_eq_of_perm (fun e => Node.inode e.2) h.entries]

theorem resolve (h : Reordered fs fs') (q : Path) : fs'.resolve q = fs.resolve q :=
  h.sameShape.toSameOutline.resolve q

theorem file?_eq (h : Reordered fs fs') (l : Location) : fs'.file? l = fs.file? l := by
  rw [file?, file?, h.node?_eq]

theorem readText (h : Reordered fs fs') (q : Path) : fs'.readText q = fs.readText q := by
  simp only [FileSystem.readText, readBytes, h.resolve, h.file?_eq, h.modes.mayList]

/-- A file put at the same place of both keeps them the same. -/
theorem put (h : Reordered fs fs') (hd : d ≠ []) (f : RegularFile) :
    Reordered (fs.put d (.file f)) (fs'.put d (.file f)) := by
  refine ⟨by rw [cwd_put, cwd_put, h.cwd],
    (sameModes_put fs d _).symm.trans (h.modes.trans (sameModes_put fs' d _)), fun l => ?_, ?_⟩
  · rw [node?_put fs hd, node?_put fs' hd, h.node?_eq]
  · have hlookup : fs'.entries.lookup d = fs.entries.lookup d := by
      rw [← node?_of_ne_nil fs hd, ← node?_of_ne_nil fs' hd, h.node?_eq]
    rw [FileSystem.put, FileSystem.put, hlookup]
    split
    · exact h.entries.map _
    · exact h.entries.append_right _

/-! ### The walk -/

/-- **The same findings below a directory**, in some order. -/
theorem descend (h : Reordered fs fs') (here : Visit) (above : List Visit) :
    (fs'.descend here above).Perm (fs.descend here above) := by
  induction here, above using descend_induction fs with
  | step here above ih =>
    rw [descend_eq fs', descend_eq fs]
    refine ((h.sameShape.children _).flatMap_right _).trans (List.Perm.flatMap_left _ fun n _ => ?_)
    -- Each name finds the same in both orders.
    rw [h.sameShape.toSameOutline.finding]
    cases hfinding : fs.finding here above n with
    | nothing => exact .refl _
    | file => exact .refl _
    | failure e => exact .refl _
    | directory l => exact ih n l hfinding

/-- **The same findings of a walk**, in some order. -/
theorem walk (h : Reordered fs fs') (start : Path) : (fs'.walk start).Perm (fs.walk start) := by
  unfold FileSystem.walk
  simp only [h.sameShape.toSameOutline.lookup, h.resolve, h.node?_eq, h.modes.mayList]
  split
  · exact .refl _
  split
  · exact .refl _
  split
  · exact .refl _
  · split
    · exact h.descend _ _
    · exact .refl _
  · exact .refl _

/-! ### Any order -/

/-- Where no location has two entries, other orders of the entries are other orders of listings.
Listings are all that the order of entries shows in. -/
theorem of_perm (hdistinct : (fs.entries.map Prod.fst).Nodup) (hcwd : fs'.cwd = fs.cwd)
    (hmodes : SameModes fs fs') (hperm : fs'.entries.Perm fs.entries) : Reordered fs fs' := by
  refine ⟨hcwd, hmodes, fun l => ?_, hperm⟩
  by_cases hl : l = []
  · rw [hl, node?_nil, node?_nil]
  rw [node?_of_ne_nil _ hl, node?_of_ne_nil _ hl]
  have hdistinct' : (fs'.entries.map Prod.fst).Nodup := (hperm.map Prod.fst).nodup_iff.mpr hdistinct
  -- A location has one entry at most, so it has the same one in both orders.
  apply Option.ext
  intro node
  constructor
  · intro h
    exact lookup_eq_some_of_mem hdistinct (hperm.mem_iff.mp (mem_of_lookup_eq_some h))
  · intro h
    exact lookup_eq_some_of_mem hdistinct' (hperm.mem_iff.mpr (mem_of_lookup_eq_some h))

end Reordered

theorem flatMap_ite_eq {α β : Type} [DecidableEq α] {as : List α} (h : as.Nodup) (a : α)
    (f : α → List β) :
    (as.flatMap fun b => if b = a then f b else []) = if a ∈ as then f a else [] := by
  induction as with
  | nil => rfl
  | cons b as ih =>
    rw [List.nodup_cons] at h
    rw [List.flatMap_cons, ih h.2]
    -- Only the element itself contributes, and it is there once at most.
    by_cases hb : b = a
    · subst hb
      simp [h.1]
    · simp [hb, Ne.symm hb]

/-- The locations of all entries, those of each directory in a given order. What is said of it assumes
that the order names just what is in the directory. -/
def locationsBy (fs : FileSystem) (order : Location → List Name) : List Location :=
  (fs.entries.map Prod.fst).filter (· = []) ++
    (fs.entries.map fun e => e.1.tail).dedup.flatMap fun l => (order l).map (· :: l)

/-- The file system whose directories list their names in a given order. -/
def listedBy (fs : FileSystem) (order : Location → List Name) : FileSystem :=
  { fs with
    entries := (fs.locationsBy order).filterMap fun k =>
      (fs.entries.lookup k).map fun node => (k, node) }

section

variable {order : Location → List Name} (horder : ∀ l, (order l).Perm (fs.children l))
  (hdistinct : (fs.entries.map Prod.fst).Nodup)

include horder

theorem mem_order_iff {n : Name} : n ∈ order l ↔ n :: l ∈ fs.entries.map Prod.fst := by
  rw [(horder l).mem_iff, mem_children_iff, List.mem_map]

theorem mem_locationsBy {k : Location} :
    k ∈ fs.locationsBy order ↔ k ∈ fs.entries.map Prod.fst := by
  rw [locationsBy, List.mem_append, List.mem_filter]
  -- The root comes first, if it is an entry; every other one is listed in its directory.
  cases k with
  | nil => simp
  | cons n l =>
    rw [← mem_order_iff horder]
    simp only [reduceCtorEq, decide_false, Bool.false_eq_true, and_false, false_or, List.mem_flatMap]
    constructor
    · rintro ⟨l', -, hn⟩
      obtain ⟨n', hn', hcons⟩ := List.mem_map.mp hn
      cases hcons
      exact hn'
    · intro hn
      obtain ⟨e, he, hloc⟩ := List.mem_map.mp ((mem_order_iff horder).mp hn)
      have hl : e.1.tail = l := by rw [hloc, List.tail_cons]
      exact ⟨l, List.mem_dedup.mpr (List.mem_map.mpr ⟨e, he, hl⟩), List.mem_map_of_mem hn⟩

include hdistinct

theorem nodup_locationsBy : (fs.locationsBy order).Nodup := by
  have horders : ∀ l, (order l).Nodup := by
    intro l
    rw [(horder l).nodup_iff, children_eq]
    refine hdistinct.filterMap fun k k' n hk hk' => ?_
    rw [nameIn?_eq_some.mp hk, nameIn?_eq_some.mp hk']
  rw [locationsBy, List.nodup_append]
  refine ⟨hdistinct.filter _, List.nodup_flatMap.mpr ⟨fun l _ => ?_, ?_⟩, fun k hk k' hk' => ?_⟩
  · exact (horders l).map fun n m h => (List.cons.inj h).1
  · -- What lies in different directories is different.
    refine (List.nodup_dedup _).imp fun {l l'} hne k hk hk' => ?_
    obtain ⟨n, -, rfl⟩ := List.mem_map.mp hk
    obtain ⟨n', -, hcons⟩ := List.mem_map.mp hk'
    exact hne (List.cons.inj hcons).2.symm
  · rintro rfl
    obtain ⟨l, -, hk'⟩ := List.mem_flatMap.mp hk'
    obtain ⟨n, -, rfl⟩ := List.mem_map.mp hk'
    simp at hk

theorem entries_listedBy_perm : (fs.listedBy order).entries.Perm fs.entries := by
  have hnodup : (fs.listedBy order).entries.Nodup := by
    refine (nodup_locationsBy horder hdistinct).filterMap fun k k' e hk hk' => ?_
    obtain ⟨node, -, rfl⟩ := Option.map_eq_some_iff.mp hk
    obtain ⟨node', -, heq⟩ := Option.map_eq_some_iff.mp hk'
    exact (Prod.mk.inj heq).1.symm
  -- No entry is there twice, so it is enough that the same entries are there.
  rw [List.perm_ext_iff_of_nodup hnodup (.of_map Prod.fst hdistinct)]
  intro e
  rw [listedBy, List.mem_filterMap]
  constructor
  · rintro ⟨k, -, hk⟩
    obtain ⟨node, hnode, rfl⟩ := Option.map_eq_some_iff.mp hk
    exact mem_of_lookup_eq_some hnode
  · intro he
    refine ⟨e.1, (mem_locationsBy horder).mpr (List.mem_map_of_mem he), ?_⟩
    rw [lookup_eq_some_of_mem hdistinct he, Option.map_some]

/-- The locations of the reordered file system are in the given order. -/
theorem locations_listedBy : (fs.listedBy order).entries.map Prod.fst = fs.locationsBy order := by
  rw [listedBy, List.map_filterMap]
  have hid : ∀ k ∈ fs.locationsBy order,
      ((fs.entries.lookup k).map fun node => (k, node)).map Prod.fst = some k := by
    intro k hk
    obtain ⟨e, he, rfl⟩ := List.mem_map.mp ((mem_locationsBy horder).mp hk)
    rw [lookup_eq_some_of_mem hdistinct he, Option.map_some, Option.map_some]
  rw [List.filterMap_congr hid, List.filterMap_some]

/-- **Every order of listings is that of some file system.** So what holds for all reordered file
systems holds whatever the system does. -/
theorem reordered_listedBy :
    fs.Reordered (fs.listedBy order) ∧ ∀ l, (fs.listedBy order).children l = order l := by
  refine ⟨.of_perm hdistinct rfl (fun _ => rfl) (entries_listedBy_perm horder hdistinct), fun l => ?_⟩
  -- The root has no parent, so it is listed nowhere.
  have hroot : ((fs.entries.map Prod.fst).filter (· = [])).filterMap (nameIn? l) = [] := by
    rw [List.filterMap_eq_nil_iff]
    intro k hk
    rw [List.mem_filter, decide_eq_true_eq] at hk
    rw [hk.2, nameIn?]
  -- The names of one directory are listed in that one only.
  have hdir : ∀ l', ((order l').map (· :: l')).filterMap (nameIn? l)
      = if l' = l then order l' else [] := by
    intro l'
    rw [List.filterMap_map]
    split
    · next hl => exact (List.filterMap_congr fun n _ => if_pos hl).trans List.filterMap_some
    · next hl => exact List.filterMap_eq_nil_iff.mpr fun n _ => if_neg hl
  -- A directory that is not among those with entries lists nothing.
  have hempty : l ∉ (fs.entries.map fun e => e.1.tail).dedup → order l = [] := by
    intro hl
    rw [List.eq_nil_iff_forall_not_mem]
    intro n hn
    obtain ⟨e, he, hloc⟩ := List.mem_map.mp ((mem_order_iff horder).mp hn)
    have htail : e.1.tail = l := by rw [hloc, List.tail_cons]
    exact hl (List.mem_dedup.mpr (List.mem_map.mpr ⟨e, he, htail⟩))
  calc (fs.listedBy order).children l
      = (fs.locationsBy order).filterMap (nameIn? l) := by
        rw [children_eq, locations_listedBy horder hdistinct]
    _ = (fs.entries.map fun e => e.1.tail).dedup.flatMap fun l' =>
          if l' = l then order l' else [] := by
        rw [locationsBy, List.filterMap_append, hroot, List.nil_append, List.filterMap_flatMap]
        simp only [hdir]
    _ = order l := by
        rw [flatMap_ite_eq (List.nodup_dedup _)]
        split
        · rfl
        · next hl => exact (hempty hl).symm

end

end FileSystem

namespace Project

variable {σ : Type} {p : Project} {moves : Moves} {w : Writing} {report : Reporter σ}
  {sources : List Path} {fs fs' : FileSystem} {root : Path} {target? : Option Path}
  {walked : List (Except WalkError Path)} {r below : Location}

/-! ### The set of sources -/

/-- The source that an entry of a walk is, if it is one. Failures are none, and neither are files
outside the root. -/
def sourceOf? (root : Path) : Except WalkError Path → Option Path
  | .error _ => none
  | .ok path => if path.isSource then path.relativeTo? root else none

/-- The sources of a walk without failures, put into the set one after the other. In this form the order
of the walk is the order of insertion, which the set does not show. -/
theorem collectSources_eq_foldl (hok : ∀ e, .error e ∉ walked)
    (hroot : ∀ path, .ok path ∈ walked → ∃ source, path.relativeTo? root = some source)
    (found : List Path) :
    collectSources root found walked
      = .ok ((walked.filterMap (sourceOf? root)).foldl (fun set s => s.insert set) found) := by
  -- On the entries, for any set to start from.
  induction walked generalizing found with
  | nil => rfl
  | cons entry walked ih =>
    have ih := ih (fun e he => hok e (List.mem_cons_of_mem _ he))
      fun path hpath => hroot path (List.mem_cons_of_mem _ hpath)
    cases entry with
    | error e => exact absurd List.mem_cons_self (hok e)
    | ok path =>
      obtain ⟨source, hsource⟩ := hroot path List.mem_cons_self
      rw [collectSources]
      -- The insertion does not fail, since there is a spelling from the root.
      by_cases hname : path.isSource = true
      · have hfound : sourceOf? root (.ok path) = some source := by
          rw [sourceOf?, if_pos hname, hsource]
        rw [if_pos hname, hsource, List.filterMap_cons_some hfound, List.foldl_cons]
        exact ih _
      · have hnone : sourceOf? root (.ok path) = none := by rw [sourceOf?, if_neg hname]
        rw [if_neg hname, List.filterMap_cons_none hnone]
        exact ih _

/-- **The sources are the same in any order.** A search succeeds exactly if the walk meets with no
failure, and then its result does not depend on the order of what the walk reports. -/
theorem sources_of_reordered (h : fs.Reordered fs') (hfs : fs.IsTree) (hp : p.IsAt fs r below) :
    ((∃ e e', p.sources fs = .error e ∧ p.sources fs' = .error e') ∨
      ∃ sources, p.sources fs = .ok sources ∧ p.sources fs' = .ok sources) := by
  have hperm := h.walk p.target
  by_cases hok : ∀ e, .error e ∉ fs.walk p.target
  -- Without a failure both find the same sources, in another order.
  · right
    have hroot : ∀ path, .ok path ∈ fs.walk p.target →
        ∃ source, path.relativeTo? p.root = some source := by
      intro path hpath
      obtain ⟨names, -, -, hrel, -⟩ := hp.exists_relativeTo hfs hpath
      exact ⟨_, hrel⟩
    have hdiscovers : ∀ source ∈ (fs.walk p.target).filterMap (sourceOf? p.root),
        p.Discovers fs source := by
      intro source hsource
      obtain ⟨entry, hentry, hfound⟩ := List.mem_filterMap.mp hsource
      cases entry with
      | error e => cases hfound
      | ok path =>
        rw [sourceOf?] at hfound
        split at hfound
        · next hname => exact ⟨path, hentry, hname, hfound⟩
        · cases hfound
    -- Whatever is in the set already, two sources may be put into it in any order.
    have hfold : ((fs'.walk p.target).filterMap (sourceOf? p.root)).foldl
          (fun set s => s.insert set) []
        = ((fs.walk p.target).filterMap (sourceOf? p.root)).foldl (fun set s => s.insert set) [] := by
      refine ((hperm.filterMap _).symm.foldl_eq' (fun s hs t ht set => ?_) []).symm
      exact Path.insert_comm (hp.eq_of_compare_eq hfs (hdiscovers t ht) (hdiscovers s hs)) set
    have hsources := collectSources_eq_foldl hok hroot []
    have hok' : ∀ e, .error e ∉ fs'.walk p.target := fun e he => hok e (hperm.mem_iff.mp he)
    have hsources' := collectSources_eq_foldl hok'
      (fun path hpath => hroot path (hperm.mem_iff.mp hpath)) []
    rw [hfold] at hsources'
    exact ⟨_, hsources, hsources'⟩
  -- With one both fail, though it need not be the same one that comes first.
  · left
    have herror : ∀ fs : FileSystem, (∃ e, .error e ∈ fs.walk p.target) →
        ∃ e, p.sources fs = .error e := by
      rintro fs ⟨e, he⟩
      cases hsources : p.sources fs with
      | error e' => exact ⟨e', rfl⟩
      | ok sources => exact absurd he (not_mem_walked hsources e)
    obtain ⟨e, he⟩ := not_forall_not.mp hok
    obtain ⟨e₁, he₁⟩ := herror fs ⟨e, he⟩
    obtain ⟨e₂, he₂⟩ := herror fs' ⟨e, hperm.mem_iff.mpr he⟩
    exact ⟨e₁, e₂, he₁, he₂⟩

/-! ### The run -/

/-- A step does the same, whatever the order of listings. -/
theorem reviseFile_of_reordered (p : Project) (moves : Moves) (w : Writing) (source : Path)
    (h : fs.Reordered fs') :
    ∃ result fs₁ fs₁', p.reviseFile moves w source fs = (result, fs₁) ∧
      p.reviseFile moves w source fs' = (result, fs₁') ∧ fs₁.Reordered fs₁' := by
  rcases reviseFile_of_sameShape p moves w h.sameShape (h.readText (p.resolve source)) with
    ⟨result, hstep, hstep'⟩ | ⟨r, d, f, hd, -, -, hstep, hstep'⟩
  · exact ⟨result, fs, fs', hstep, hstep', h⟩
  · exact ⟨_, _, _, hstep, hstep', h.put hd f⟩

/-- **A run does the same**, whatever the order of listings. -/
theorem reviseAll_of_reordered (p : Project) (moves : Moves) (w : Writing) (report : Reporter σ)
    (sources : List Path) (h : fs.Reordered fs') (state : σ) :
    ∃ result fs₁ fs₁' state₁,
      p.reviseAll moves w report sources fs state = (result, fs₁, state₁) ∧
      p.reviseAll moves w report sources fs' state = (result, fs₁', state₁) ∧
      fs₁.Reordered fs₁' := by
  refine reviseAll_in_step (R := fun _ fs fs' _ => fs.Reordered fs') (fun _ _ _ h => h)
    (fun source sources fs fs' state h => ?_) h
  obtain ⟨result, fs₁, fs₁', hstep, hstep', h₁⟩ := reviseFile_of_reordered p moves w source h
  exact ⟨result, fs₁, fs₁', hstep, hstep', h₁, fun _ _ _ _ => h₁⟩

end Project

/-! ### The whole -/

/-- **Two runs that have done the same**: the same result, the same state of the reporter, the same
lines, and the same tree, listed in whatever order. -/
structure Finished.Agrees {σ α : Type} (done done' : Finished σ α) : Prop where
  result : done'.result = done.result
  files : done.files.Reordered done'.files
  state : done'.state = done.state
  log : done'.log = done.log

namespace Project

variable {p : Project} {fs fs' : FileSystem} {root : Path} {target? : Option Path}
  {sources : List Path} {e : Problem}

/-- Nothing that is asked of the tree to make a project depends on the order of listings. -/
theorem ofPaths_of_reordered (h : fs.Reordered fs') (root : Path) (target? : Option Path) :
    ofPaths fs' root target? = ofPaths fs root target? := by
  have houtline := h.sameShape.toSameOutline
  simp only [ofPaths, houtline.canonicalize, houtline.isDirectory, houtline.isWithin]

theorem readMoves_of_reordered (h : fs.Reordered fs') (table : Path) :
    fs'.readMoves table = fs.readMoves table := by
  rw [FileSystem.readMoves, FileSystem.readMoves, h.readText]

/-- A run whose search fails does nothing. -/
theorem applyTable_of_sources_error {σ : Type} (he : p.sources fs = .error e) (table : Path)
    (w : Writing) (verbose : Bool) (report : Reporter σ) (state : σ) :
    ∃ e, p.applyTable table w verbose report fs state = ⟨.error e, fs, state, ""⟩ := by
  rcases p.applyTable_cases table w verbose report fs state with
    ⟨e', -, hstop⟩ | ⟨moves, sources, result, fs₁, state₁, log, -, hsources, -⟩
  · exact ⟨e', hstop⟩
  · cases he.symm.trans hsources

theorem run_of_sources_error (he : p.sources fs = .error e) (table : Path) (report : Report)
    (verbose : Bool) (faults : WriteFaults) (out : Output) :
    ∃ e, p.run table report verbose faults fs out = ⟨.error e, fs, out, ""⟩ := by
  obtain ⟨e', hstop⟩ :=
    applyTable_of_sources_error he table ⟨false, faults⟩ verbose (Output.reporter report) out
  exact ⟨e', by rw [run, hstop]⟩

/-- With the same sources a run over two such trees reads and writes the same, step by step, so both end
alike. -/
theorem applyTable_agrees {σ : Type} (h : fs.Reordered fs') (hs : p.sources fs = .ok sources)
    (hs' : p.sources fs' = .ok sources) (table : Path) (w : Writing) (verbose : Bool)
    (report : Reporter σ) (state : σ) :
    (p.applyTable table w verbose report fs state).Agrees
      (p.applyTable table w verbose report fs' state) := by
  rw [applyTable, applyTable, readMoves_of_reordered h]
  cases fs.readMoves table with
  | error e => exact ⟨rfl, h, rfl, rfl⟩
  | ok moves =>
    -- Table and sources are the same, so the runs over them go the same way.
    obtain ⟨result, fs₁, fs₁', state₁, hrun, hrun', h₁⟩ :=
      reviseAll_of_reordered p moves w report sources h state
    simp only [hs, hs', hrun, hrun']
    exact ⟨rfl, h₁, rfl, rfl⟩

theorem run_agrees (h : fs.Reordered fs') (hs : p.sources fs = .ok sources)
    (hs' : p.sources fs' = .ok sources) (table : Path) (report : Report) (verbose : Bool)
    (faults : WriteFaults) (out : Output) :
    (p.run table report verbose faults fs out).Agrees
      (p.run table report verbose faults fs' out) := by
  have hdone := applyTable_agrees h hs hs' table ⟨false, faults⟩ verbose (Output.reporter report) out
  rw [run, run]
  simp only [hdone.result]
  split
  · exact ⟨rfl, hdone.files, hdone.state, hdone.log⟩
  · exact ⟨rfl, hdone.files, hdone.state, by simp only [hdone.log]⟩

/-- **The order of listings never shows.** A tree whose directories list their names in another order
makes the same project of the same paths. Then either the search fails on both, and every run stops with
the tree and the output as they were; or it finds the same sources on both, and every run has the same
result, with the same revisions or totals, the same output, and the same tree behind it. Every order of
listings is that of some such tree (`FileSystem.reordered_listedBy`). -/
theorem listing_order_never_shows (hfs : fs.IsTree) (h : fs.Reordered fs')
    (hp : ofPaths fs root target? = .ok p) :
    ofPaths fs' root target? = .ok p ∧
    (((∃ e, p.sources fs = .error e) ∧ (∃ e, p.sources fs' = .error e) ∧
        ∀ fs₀, fs₀ = fs ∨ fs₀ = fs' →
          (∀ (σ : Type) (table : Path) (w : Writing) (verbose : Bool) (report : Reporter σ) (state : σ),
            ∃ e, p.applyTable table w verbose report fs₀ state = ⟨.error e, fs₀, state, ""⟩) ∧
          ∀ (table : Path) (report : Report) (verbose : Bool) (faults : WriteFaults) (out : Output),
            ∃ e, p.run table report verbose faults fs₀ out = ⟨.error e, fs₀, out, ""⟩) ∨
      ((∃ sources, p.sources fs = .ok sources ∧ p.sources fs' = .ok sources) ∧
        (∀ (σ : Type) (table : Path) (w : Writing) (verbose : Bool) (report : Reporter σ) (state : σ),
          (p.applyTable table w verbose report fs state).Agrees
            (p.applyTable table w verbose report fs' state)) ∧
        ∀ (table : Path) (report : Report) (verbose : Bool) (faults : WriteFaults) (out : Output),
          (p.run table report verbose faults fs out).Agrees
            (p.run table report verbose faults fs' out))) := by
  obtain ⟨r, below, hat⟩ := exists_isAt hfs hp
  refine ⟨(ofPaths_of_reordered h root target?).trans hp, ?_⟩
  -- The search comes to the same end in both.
  rcases sources_of_reordered h hfs hat with ⟨e, e', he, he'⟩ | ⟨sources, hs, hs'⟩
  · refine .inl ⟨⟨e, he⟩, ⟨e', he'⟩, fun fs₀ hfs₀ => ?_⟩
    obtain ⟨e₀, he₀⟩ : ∃ e₀, p.sources fs₀ = .error e₀ := by
      rcases hfs₀ with rfl | rfl
      · exact ⟨e, he⟩
      · exact ⟨e', he'⟩
    exact ⟨fun σ => applyTable_of_sources_error he₀, run_of_sources_error he₀⟩
  · exact .inr ⟨⟨sources, hs, hs'⟩, fun σ => applyTable_agrees h hs hs', run_agrees h hs hs'⟩

/-- A directory with two sources, listed forwards and backwards: the same sources, and the same output of
the program. -/
theorem listing_order_never_shows_aliasTree :
    let backwards : FileSystem := { aliasTree with entries := aliasTree.entries.reverse }
    let src : Location := [(Path.ofString "src").bytes]
    let names : List Name := ["a.hpp", "b.hpp"].map fun n => (Path.ofString n).bytes
    let report : Report := ⟨.text, false, false⟩
    aliasTree.IsTree ∧ aliasTree.Reordered backwards ∧
      ofPaths aliasTree (.ofString "/") none = .ok aliasProject ∧
      aliasTree.children src = names ∧ backwards.children src = names.reverse ∧
      aliasProject.sources backwards = .ok [.ofString "src/a.hpp", .ofString "src/b.hpp"] ∧
      (aliasProject.run (.ofString "/f.json") report false .none backwards ⟨"", none⟩).state.text
        = "src/a.hpp: A -> B\nsrc/b.hpp: B -> A\n" := by
  intro backwards src names report
  have htree : aliasTree.IsTree := by decide
  have hreordered : aliasTree.Reordered backwards :=
    .of_perm (by decide) rfl (fun _ => rfl) (List.reverse_perm _)
  refine ⟨htree, hreordered, ofPaths_aliasTree, rfl, rfl, ?_⟩
  obtain ⟨-, ⟨⟨e, he⟩, -⟩ | ⟨⟨sources, hs, hs'⟩, -, hrun⟩⟩ :=
    listing_order_never_shows htree hreordered ofPaths_aliasTree
  · cases sources_aliasTree.symm.trans he
  -- The reordered tree gives the same reports, so it is enough to run the program on the first one.
  · cases sources_aliasTree.symm.trans hs
    refine ⟨hs', ?_⟩
    rw [(hrun (.ofString "/f.json") report false .none ⟨"", none⟩).state, run, applyTable,
      readMoves_aliasTree]
    simp only [sources_aliasTree, reviseAll, reviseFile, Moves.revise_eq_reviseLines]
    rfl

end Project

end IncludeMoves
