import IncludeMoves.Proofs.CanonicalPath

/-!
# What a replacement does

A replacement that fails leaves the file system as it was, with nothing added and nothing left over.
One that succeeds changes a single entry. That entry is the file to which the path leads, except in
one case: if the canonical path cannot be had, the path itself is replaced, and a link there is lost.

* `FileSystem.replaceFile_eq` — a replacement changes one entry or none;
* `FileSystem.replaceFile_error` — a failure changes nothing;
* `FileSystem.replaceFile_ok` — the one entry that a success changes;
* `FileSystem.LosesLink` — the paths whose replacement takes the place of a link;
* `FileSystem.destination_of_resolve` — the one entry, for a path that leads to something;
* `FileSystem.replaceFile_of_resolve` — what a replacement does to a file that the path leads to.
-/

namespace IncludeMoves

theorem mapError_eq_ok {ε δ α : Type} {f : ε → δ} {x : Except ε α} {a : α} :
    x.mapError f = .ok a ↔ x = .ok a := by
  cases x with
  | error e => exact ⟨nofun, nofun⟩
  | ok b =>
    have hok : (Except.ok b : Except ε α).mapError f = .ok b := rfl
    rw [hok, Except.ok.injEq, Except.ok.injEq]

namespace FileSystem

variable {fs fs' : FileSystem} {l k d t : Location} {n : Name} {node : Node} {path : Path}
  {content : ByteArray} {fault : Option WriteFault}

/-! ### The temporary file -/

theorem le_foldr_max {α : Type} (f : α → Nat) {a : α} {as : List α} (ha : a ∈ as) :
    f a ≤ as.foldr (fun b m => max (f b) m) 0 := by
  induction as with
  | nil => simp at ha
  | cons b as ih =>
    rcases List.mem_cons.mp ha with rfl | ha
    · exact Nat.le_max_left _ _
    · exact Nat.le_trans (ih ha) (Nat.le_max_right _ _)

/-- The name of a temporary file is a new one. -/
theorem tempName_not_mem (used : List Name) : tempName used ∉ used := by
  intro h
  -- It is longer than every name used.
  have hle : (tempName used).length ≤ used.foldr (fun n m => max n.length m) 0 :=
    le_foldr_max List.length h
  rw [tempName, List.length_append, List.length_replicate] at hle
  have hstem : tempStem.length = 4 := by decide
  omega

theorem tempName_ne (fs : FileSystem) (l : Location) :
    ∀ e ∈ fs.entries, e.1 ≠ tempName (fs.children l) :: l :=
  fun e he hl => tempName_not_mem _ (mem_children_iff.mpr ⟨e, he, hl⟩)

theorem node?_eq_none_of_forall_ne (ht : ∀ e ∈ fs.entries, e.1 ≠ t) (hne : t ≠ []) :
    fs.node? t = none := by
  rw [node?_of_ne_nil fs hne, List.lookup_eq_none_iff]
  intro e he
  simpa using (ht e he).symm

theorem inode_lt_freshInode {e : Location × Node} (he : e ∈ fs.entries) :
    Node.inode e.2 < fs.freshInode :=
  Nat.lt_succ_of_le (le_foldr_max (fun e => Node.inode e.2) he)

theorem inode_ne_freshInode {e : Location × Node} (he : e ∈ fs.entries) :
    Node.inode e.2 ≠ fs.freshInode :=
  Nat.ne_of_lt (inode_lt_freshInode he)

theorem put_of_forall_ne (ht : ∀ e ∈ fs.entries, e.1 ≠ t) (node : Node) :
    fs.put t node = { fs with entries := fs.entries ++ [(t, node)] } := by
  have hnone : fs.entries.lookup t = none :=
    List.lookup_eq_none_iff.mpr fun e he => by simpa using (ht e he).symm
  simp [put, hnone]

/-- A new entry that is removed again leaves no trace. -/
theorem erase_put (ht : ∀ e ∈ fs.entries, e.1 ≠ t) (node : Node) : (fs.put t node).erase t = fs := by
  have hkeep : fs.entries.filter (fun e => e.1 ≠ t) = fs.entries :=
    List.filter_eq_self.mpr fun e he => by simpa using ht e he
  rw [put_of_forall_ne ht, erase, List.filter_append, hkeep]
  simp

theorem updateFile_of_forall_ne {inode : Nat} (h : ∀ e ∈ fs.entries, Node.inode e.2 ≠ inode)
    (f : RegularFile → RegularFile) : (fs.updateFile inode f).entries = fs.entries := by
  refine (List.map_congr_left fun e he => ?_).trans (List.map_id _)
  obtain ⟨k, node⟩ := e
  cases node with
  | file r => exact if_neg (h _ he)
  | dir => rfl
  | link p => rfl

/-- A change of a new file is seen at its only name. -/
theorem updateFile_put (ht : ∀ e ∈ fs.entries, e.1 ≠ t) (r : RegularFile)
    (hinode : r.inode = fs.freshInode) (f : RegularFile → RegularFile) :
    (fs.put t (.file r)).updateFile r.inode f = fs.put t (.file (f r)) := by
  -- No old entry has the new inode number.
  have hkeep := updateFile_of_forall_ne (fun e he => hinode ▸ inode_ne_freshInode he) f
  rw [put_of_forall_ne ht, put_of_forall_ne ht, updateFile, List.map_append]
  simp only [List.map_cons, List.map_nil, if_true]
  exact congrArg (fun es => ({ fs with entries := es ++ _ } : FileSystem)) hkeep

/-! ### The entry that a move replaces -/

/-- **The place of a path in the directory that holds it**: the directory `l`, reached by the names
`before`, and in it the name `n`, which is that of no directory. -/
structure IsDestination (fs : FileSystem) (path : Path) (before : List Name) (l : Location)
    (n : Name) : Prop where
  no_nul : path.bytes.contains 0 = false
  nonempty : path.bytes ≠ []
  not_long : path.isTooLong = false
  no_separator : path.bytes.getLast? ≠ some separator
  steps : path.steps = before ++ [n]
  leads : Leads fs .target maxLinks (fs.origin path) before (.found l)
  admits : Admits fs .target l n
  changes : fs.mayChange l = true
  not_dir : fs.isDir (n :: l) = false

/-- All that is known of a path to which a move goes, collected along the checks that are made of it. -/
theorem isDestination_of_destination (h : fs.destination path = .ok d) :
    ∃ before l n, d = n :: l ∧ IsDestination fs path before l n := by
  unfold destination at h
  -- First the path as a whole: it can be asked for, and has a last name.
  split at h
  · cases h
  next hnul =>
  split at h
  · cases h
  next hempty =>
  split at h
  · cases h
  next hlong =>
  split at h
  · cases h
  next n before hnames =>
  have hnames : (Path.chunks path.bytes).filter (fun n => n ≠ []) = before.reverse ++ [n] := by
    rw [← List.reverse_reverse (List.filter _ _), hnames, List.reverse_cons]
  have hempty' : n ≠ [] := by
    have hmem : n ∈ (Path.chunks path.bytes).filter (fun n => n ≠ []) :=
      hnames ▸ List.mem_append_right _ List.mem_cons_self
    simpa using (List.mem_filter.mp hmem).2
  -- The names in front of it lead to a directory.
  split at h
  · cases h
  · cases h
  next l hlocate =>
  split at h
  · cases h
  next hdir =>
  split at h
  · cases h
  next hsearch =>
  -- The last name can be that of an entry there, and it is none of a directory.
  split at h
  · cases h
  next hdots =>
  split at h
  · cases h
  next hlength =>
  split at h
  · cases h
  next hlast =>
  split at h
  · cases h
  next hchange =>
  split at h
  · cases h
  next hnotdir =>
  obtain ⟨hdot, hup⟩ := not_or.mp hdots
  refine ⟨before.reverse, l, n, (Except.ok.inj h).symm, ?_⟩
  exact
    { no_nul := by simpa using hnul
      nonempty := hempty
      not_long := by simpa using hlong
      no_separator := hlast
      steps := by simp only [Path.steps, hnames, hlast, and_false, if_false]
      leads := leads_of_locateFrom hlocate
      admits := ⟨hempty', hdot, hup, rfl, by simpa using hdir, by simpa [Route.takesNames] using hsearch,
        Nat.le_of_not_lt hlength⟩
      changes := by simpa using hchange
      not_dir := by simpa using hnotdir }

/-- And these facts are all that is needed for a move to go there. -/
theorem IsDestination.destination {before : List Name} (h : IsDestination fs path before l n) :
    fs.destination path = .ok (n :: l) := by
  -- All that is asked of the path is known, so that the checks are passed one by one.
  have hnames : ((Path.chunks path.bytes).filter fun n => n ≠ []).reverse
      = n :: before.reverse := by
    have hsteps := h.steps
    simp only [Path.steps, h.no_separator, and_false, if_false] at hsteps
    rw [hsteps, List.reverse_append]
    rfl
  have hdots : ¬(n = [dot] ∨ n = [dot, dot]) := not_or.mpr ⟨h.admits.not_dot, h.admits.not_up⟩
  have hsearch : fs.maySearch l = true := h.admits.takes
  unfold FileSystem.destination
  rw [if_neg (by rw [h.no_nul]; simp), if_neg h.nonempty, if_neg (by rw [h.not_long]; simp), hnames]
  simp only [List.reverse_reverse, h.leads.locateFrom]
  rw [if_neg (by simp [h.admits.isDir]), if_neg (by simp [hsearch]), if_neg hdots,
    if_neg (Nat.not_lt.mpr h.admits.length_le), if_neg h.no_separator, if_neg (by simp [h.changes]),
    if_neg (by simp [h.not_dir])]

/-- A move goes to the same place whether or not there is a temporary file. The lookup of the directory
does not pass the file, since it is none of the directories on the way. -/
theorem destination_of_put {r : RegularFile} (ht : ∀ e ∈ fs.entries, e.1 ≠ t) (hne : t ≠ [])
    (h : (fs.put t (.file r)).destination path = .ok d) : fs.destination path = .ok d := by
  obtain ⟨before, l, n, rfl, hd⟩ := isDestination_of_destination h
  have hdir : fs.isDir t = false := by simp [isDir, node?_eq_none_of_forall_ne ht hne]
  have hput := (changedAt_put_file hne hdir r).symm
  -- No directory is looked up through the temporary file.
  have hleads := hd.leads.transfer hput (fun p hp => by simp [node?_put_self fs hne] at hp)
    hd.admits.isDir
  exact IsDestination.destination
    { hd with
      leads := fs.origin_put _ _ path ▸ hleads
      admits := hd.admits.transfer hput
      changes := (hput.modes.mayChange l).trans hd.changes
      not_dir := (hput.isDir_eq _).trans hd.not_dir }

/-! ### The replacement -/

/-- What a replacement puts at the place that it replaces: a new file with the bits of the old one. The
number is a fresh one, so other names of the old file keep showing that. -/
def replacement (fs : FileSystem) (path : Path) (content : ByteArray) : RegularFile :=
  ⟨fs.freshInode, (fs.mode? (fs.replacedPath path)).getD newFileMode, content⟩

/-- Where a replacement puts the new file, or what it fails with. In contrast to `replaceFile` it tells
the place and not the changed tree, which is that place with the new file (`replaceFile_eq`). -/
def replacementPlace (fs : FileSystem) (path : Path) (content : ByteArray)
    (fault : Option WriteFault) : Except (Path × IoError) Location :=
  let target := fs.replacedPath path
  let place := workplace target
  match fs.openWorkplace place with
  | .error e => .error (place, e)
  | .ok l =>
    let name := tempName (fs.children l)
    match fault with
    | some ⟨.create, e⟩ => .error (place, .atPath (.os e) (fs.tempPath place tempMask))
    | some ⟨.write, e⟩ => .error (place.child name, .os e)
    | some ⟨.setMode, e⟩ => .error (place.child name, .os e)
    | some ⟨.rename, e⟩ => .error (target, .os e)
    | none =>
      ((fs.put (name :: l) (.file (fs.replacement path content))).destination target).mapError
        fun e => (target, .os e)

/-- **A replacement does all or nothing.** Whatever has been done to the temporary file is undone when
it is removed. -/
theorem replaceFile_eq (fs : FileSystem) (path : Path) (content : ByteArray)
    (fault : Option WriteFault) :
    fs.replaceFile path content fault =
      match fs.replacementPlace path content fault with
      | .error e => (.error e, fs)
      | .ok d => (.ok (), fs.put d (.file (fs.replacement path content))) := by
  unfold replaceFile replacementPlace
  simp only
  cases hplace : fs.openWorkplace (workplace (fs.replacedPath path)) with
  | error e => rfl
  | ok l =>
    have ht := tempName_ne fs l
    -- Only the temporary file has the new number, and when it is removed the old entries are left.
    simp only [updateFile_put ht ⟨fs.freshInode, _, _⟩ rfl, erase_put ht]
    cases fault with
    | none =>
      simp only [replacement]
      cases (fs.put (tempName (fs.children l) :: l) (.file ⟨fs.freshInode,
        (fs.mode? (fs.replacedPath path)).getD newFileMode, content⟩)).destination
          (fs.replacedPath path) <;> rfl
    | some fault =>
      -- A failure at any stage comes to the same, but for what is reported.
      obtain ⟨stage, e⟩ := fault
      cases stage <;> simp

/-- The temporary file is none that was there before, and plays no part in where the new file goes. -/
theorem destination_of_replacementPlace (h : fs.replacementPlace path content fault = .ok d) :
    fs.destination (fs.replacedPath path) = .ok d := by
  unfold replacementPlace at h
  simp only at h
  split at h
  · cases h
  next l _ =>
  -- No failure has been forced, so the last step is the move.
  split at h
  · cases h
  · cases h
  · cases h
  · cases h
  exact destination_of_put (tempName_ne fs l) (List.cons_ne_nil _ _) (mapError_eq_ok.mp h)

theorem replaceFile_cases (fs : FileSystem) (path : Path) (content : ByteArray)
    (fault : Option WriteFault) :
    (∃ e, fs.replaceFile path content fault = (.error e, fs)) ∨
      ∃ d, fs.destination (fs.replacedPath path) = .ok d ∧
        fs.replaceFile path content fault
          = (.ok (), fs.put d (.file (fs.replacement path content))) := by
  rw [replaceFile_eq]
  cases h : fs.replacementPlace path content fault with
  | error e => exact .inl ⟨e, rfl⟩
  | ok d => exact .inr ⟨d, destination_of_replacementPlace h, rfl⟩

theorem replaceFile_error {e : Path × IoError}
    (h : fs.replaceFile path content fault = (.error e, fs')) : fs' = fs := by
  rcases fs.replaceFile_cases path content fault with ⟨e', he⟩ | ⟨d, -, hd⟩
  · rw [he] at h
    exact (Prod.mk.inj h).2.symm
  · rw [hd] at h
    cases (Prod.mk.inj h).1

theorem replaceFile_ok (h : fs.replaceFile path content fault = (.ok (), fs')) :
    ∃ d, fs.destination (fs.replacedPath path) = .ok d ∧
      fs' = fs.put d (.file (fs.replacement path content)) := by
  rcases fs.replaceFile_cases path content fault with ⟨e, he⟩ | ⟨d, hdest, hd⟩
  · rw [he] at h
    cases (Prod.mk.inj h).1
  · rw [hd] at h
    exact ⟨d, hdest, (Prod.mk.inj h).2.symm⟩

/-! ### The file that is replaced -/

variable {before : List Name} {f : RegularFile}

/-- What is at the destination of a path is found by the path, if it need not be followed. -/
theorem IsDestination.lookup_eq {route : Route} (hd : IsDestination fs path before l n)
    (hroute : route ≠ .stepwise) (hnode : fs.node? (n :: l) = some node)
    (hlink : route.follows = false ∨ ∀ t, node ≠ .link t) :
    fs.lookup route path = .ok (n :: l) := by
  have haccepts : route.accepts path = true := by
    cases route <;> simp [Route.accepts, hd.not_long]
  have hstarts : route.starts fs path = true := by
    cases route with
    | stepwise => exact absurd rfl hroute
    | _ => rfl
  have hadmits := hd.admits.of_ne_stepwise hroute
  -- The last name is looked up in the directory that the names before it lead to.
  have hlast : Advances fs route l [n] (.arrived (.found (n :: l))) := by
    cases node with
    | dir => simpa [isDir, hnode] using hd.not_dir
    | file f => exact .enter hadmits hnode (by simp) .done
    | link t => exact .stay hadmits hnode (hlink.resolve_right fun h => h t rfl)
  obtain ⟨budget, hlocate⟩ := hd.leads.append hroute (List.cons_ne_nil n [])
  rw [lookup_eq_ok, ← leads_iff, hd.steps, hlocate]
  exact ⟨hd.no_nul, hd.nonempty, haccepts, hstarts, (Leads.arrive hlast).locateFrom⟩

/-- A path leads to what is at its destination, or to where the link there leads. In the second case a
move destroys the link, and the file to which the path has led stays as it was. -/
theorem IsDestination.of_resolve (hd : IsDestination fs path before l n)
    (hres : fs.resolve path = .ok k) :
    (k = n :: l ∧ ∀ t, fs.node? (n :: l) ≠ some (.link t)) ∨ fs.LinksTo (n :: l) k := by
  obtain ⟨-, -, -, -, hleads⟩ := lookup_eq_ok.mp hres
  rw [hd.steps] at hleads
  obtain ⟨budget, hlast⟩ := hd.leads.of_append hleads (List.cons_ne_nil n [])
  -- The last name is that of an entry, so the lookup ends there or at a link.
  cases hlast with
  | arrive h =>
    left
    cases h with
    | close _ _ => exact absurd rfl hd.admits.nonempty
    | here _ _ _ => exact absurd rfl hd.admits.not_dot
    | up _ _ _ => exact absurd rfl hd.admits.not_up
    | stay _ _ hstay => cases hstay
    | enter _ hnode hne h =>
      cases h
      exact ⟨rfl, fun t ht => hne t (Option.some.inj (hnode.symm.trans ht))⟩
  | follow h _ hrest =>
    -- The only name that is left is that of the link.
    right
    cases h with
    | close _ _ => exact absurd rfl hd.admits.nonempty
    | here _ _ _ => exact absurd rfl hd.admits.not_dot
    | up _ _ _ => exact absurd rfl hd.admits.not_up
    | atLink _ hnode _ => exact ⟨_, _, hnode, List.append_nil _ ▸ hrest⟩
    | enter _ _ _ h => cases h

/-- A path leads to the file that takes the place of a link at its end, if the link led to none of
the directories that the path goes through. -/
theorem IsDestination.resolve_put_link (hd : IsDestination fs path before l n)
    (hto : fs.LinksTo (n :: l) k) (hk : fs.isDir k = false) (f : RegularFile) :
    (fs.put (n :: l) (.file f)).resolve path = .ok (n :: l) := by
  have hne : n :: l ≠ [] := List.cons_ne_nil n l
  have hput := changedAt_put_file hne hd.not_dir f
  -- The directory of the link is found without the link, which does not lead to one.
  have hbefore := hd.leads.transfer hput (fun _ _ => ⟨k, hk, hto⟩) hd.admits.isDir
  have hd' : IsDestination (fs.put (n :: l) (.file f)) path before l n :=
    { hd with
      leads := (fs.origin_put _ _ path).symm ▸ hbefore
      admits := hd.admits.transfer hput
      changes := (hput.modes.mayChange l).trans hd.changes
      not_dir := hput.after }
  exact hd'.lookup_eq target_ne_stepwise (node?_put_self fs hne _) (.inr (by simp))

/-- The destination of the absolute path of a place is the place. Therefore nothing is lost if the move
goes to the canonical path. -/
theorem IsDestination.eq_of_toPath (hd : IsDestination fs k.toPath before l n)
    (hk : IsPlace fs k) : k = n :: l := by
  have hsteps := hd.steps
  rw [hk.steps_toPath] at hsteps
  have hleads := hd.leads
  rw [origin, if_pos k.isAbsolute_toPath] at hleads
  cases hk with
  | root => simp at hsteps
  | @entry k m hk hdir hm =>
    rw [List.reverse_cons] at hsteps
    obtain ⟨hbefore, hlast⟩ := List.append_inj' hsteps rfl
    -- The names before the last one lead to one directory only.
    subst hbefore
    cases hk.eq_of_leads (isDir_eq_true.mp hdir) (by simp) hleads
    rw [List.singleton_inj.mp hlast]

/-- **A path whose replacement takes the place of a link**: the path has no canonical form, and what
is at its end is a link. -/
def LosesLink (fs : FileSystem) (path : Path) : Prop :=
  (∃ e, fs.canonicalize path = .error e) ∧
    ∃ l t, fs.lookup .entry path = .ok l ∧ fs.node? l = some (.link t)

theorem not_losesLink_of_canonicalize {c : Path} (hc : fs.canonicalize path = .ok c) :
    ¬fs.LosesLink path := by
  rintro ⟨⟨e, he⟩, -⟩
  rw [hc] at he
  cases he

/-- The path that is replaced leads to the same file as the path that was given, with or without its
links. -/
theorem resolve_replacedPath (horigin : IsPlace fs (fs.origin path))
    (hres : fs.resolve path = .ok k) (hfile : fs.file? k = some f)
    (hd : fs.destination (fs.replacedPath path) = .ok d) :
    fs.resolve (fs.replacedPath path) = .ok k := by
  obtain ⟨before, l, n, -, hd⟩ := isDestination_of_destination hd
  unfold replacedPath at hd ⊢
  cases hc : fs.canonicalize path with
  | error e => exact hres
  | ok c =>
    simp only [hc] at hd ⊢
    rw [toPath_of_canonicalize hc hres] at hd ⊢
    -- The move has looked up the whole path from the root.
    have hopen : fs.maySearchAbove k = true := by
      have hleads := hd.leads
      rw [origin, if_pos k.isAbsolute_toPath] at hleads
      rw [hd.eq_of_toPath (isPlace_of_lookup hres horigin)]
      exact hd.admits.maySearchAbove (hleads.maySearchAbove rfl)
    exact (isPlace_of_lookup hres horigin).resolve_toPath (file?_eq_some.mp hfile) (by simp)
      hd.no_nul hd.nonempty hd.not_long hopen

/-- **The entry that a replacement changes** is that of what the path leads to, or else that of a link
there, which is lost. -/
theorem destination_of_resolve (horigin : IsPlace fs (fs.origin path))
    (hres : fs.resolve path = .ok k) (hnode : fs.node? k = some node)
    (hdest : fs.destination (fs.replacedPath path) = .ok d) :
    (fs.LosesLink path ∧ fs.LinksTo d k ∧ fs.replacedPath path = path) ∨
      (¬fs.LosesLink path ∧ d = k) := by
  obtain ⟨before, l, n, rfl, hd⟩ := isDestination_of_destination hdest
  unfold replacedPath at hd ⊢
  cases hc : fs.canonicalize path with
  | ok c =>
    -- With a canonical path, that is where the file is put.
    simp only [hc] at hd
    rw [toPath_of_canonicalize hc hres] at hd
    have hk := hd.eq_of_toPath (isPlace_of_lookup hres horigin)
    exact .inr ⟨not_losesLink_of_canonicalize hc, hk.symm⟩
  -- Without one, the file is put at the path itself, over what is there.
  | error e =>
    simp only [hc] at hd
    rcases hd.of_resolve hres with ⟨rfl, hnolink⟩ | hto
    · -- What is at the end of the path is what the path leads to.
      refine .inr ⟨fun hlost => ?_, rfl⟩
      obtain ⟨-, l', t, hl', ht⟩ := hlost
      have hentry := hd.lookup_eq entry_ne_stepwise hnode (.inl rfl)
      cases hentry.symm.trans hl'
      exact hnolink t ht
    · obtain ⟨t, -, hlink, -⟩ := id hto
      have hentry := hd.lookup_eq entry_ne_stepwise hlink (.inl rfl)
      exact .inl ⟨⟨⟨e, hc⟩, n :: l, t, hentry, hlink⟩, hto, rfl⟩

/-- **What the replacement of a file does.** One entry becomes a file with the new content and the old
permission bits, and the path leads there. It is the entry of the file, or else that of a link which
is lost. -/
theorem replaceFile_of_resolve (horigin : IsPlace fs (fs.origin path))
    (hres : fs.resolve path = .ok k) (hfile : fs.file? k = some f)
    (h : fs.replaceFile path content fault = (.ok (), fs')) :
    ∃ d, d ≠ [] ∧ fs' = fs.put d (.file ⟨fs.freshInode, f.mode, content⟩) ∧
      fs'.resolve path = .ok d ∧
      ((fs.LosesLink path ∧ fs.LinksTo d k) ∨ (¬fs.LosesLink path ∧ d = k)) := by
  obtain ⟨d, hdest, rfl⟩ := replaceFile_ok h
  have hnode := file?_eq_some.mp hfile
  have hmode : fs.replacement path content = ⟨fs.freshInode, f.mode, content⟩ := by
    rw [replacement, mode?, resolve_replacedPath horigin hres hfile hdest]
    simp [hfile]
  rcases destination_of_resolve horigin hres hnode hdest with ⟨hlost, hto, hpath⟩ | ⟨hkeep, rfl⟩
  · -- The link itself is replaced; no directory on the way is looked up through it.
    rw [hpath] at hdest
    obtain ⟨before, l, n, rfl, hd⟩ := isDestination_of_destination hdest
    have hback := hd.resolve_put_link hto (by simp [isDir, hnode]) (fs.replacement path content)
    exact ⟨n :: l, List.cons_ne_nil n l, by rw [hmode], hback, .inl ⟨hlost, hto⟩⟩
  · have hsame := SameTree.put_file (g := fs.replacement path content) hfile (by rw [hmode])
    have hback := (hsame.resolve path).trans hres
    exact ⟨d, ne_nil_of_file?_eq_some hfile, by rw [hmode], hback, .inr ⟨hkeep, rfl⟩⟩

end FileSystem

end IncludeMoves
