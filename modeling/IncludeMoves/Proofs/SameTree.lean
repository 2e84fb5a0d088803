import IncludeMoves.FileSystem.Replace

/-!
# Trees of the same shape

What a changed file does to a file system, location by location, and what it leaves alone.

* `FileSystem.node?_put` — a changed entry changes no other location;
* `FileSystem.SameModes` — the same permission bits of directories, so the same is allowed in them;
* `FileSystem.SameOutline` — the same kind of entry, link target and permission bits at each location;
* `FileSystem.SameTree` — the same locations, with the same kind of entry, the same link targets and
  the same permission bits at each, directories among them; only inode numbers and contents of files
  may differ;
* `FileSystem.SameTree.put_file` — a file that keeps its permission bits keeps the tree.
-/

namespace IncludeMoves

/-- What the shape of a tree shows of an entry: all but the inode number and the content of a
file. -/
def Node.outline : Node → Node
  | .file f => .file ⟨0, f.mode, .empty⟩
  | node => node

namespace FileSystem

variable {fs fs' fs'' : FileSystem} {l k : Location} {node : Node}

theorem node?_nil (fs : FileSystem) : fs.node? [] = some .dir :=
  if_pos rfl

theorem node?_of_ne_nil (fs : FileSystem) (hl : l ≠ []) : fs.node? l = fs.entries.lookup l :=
  if_neg hl

theorem isDir_eq_true : fs.isDir l = true ↔ fs.node? l = some .dir := by
  simp [isDir]

theorem file?_eq_some {f : RegularFile} : fs.file? l = some f ↔ fs.node? l = some (.file f) := by
  unfold file?
  cases fs.node? l with
  | none => simp
  | some node => cases node <;> simp

theorem file?_eq_none_of_link {target : Path} (h : fs.node? l = some (.link target)) :
    fs.file? l = none := by
  simp [file?, h]

theorem ne_nil_of_file?_eq_some {f : RegularFile} (h : fs.file? l = some f) : l ≠ [] := by
  rintro rfl
  rw [file?_eq_some, node?_nil] at h
  cases h

/-- The name that a location has in the directory `l`, if it is in there. The names in a directory are
what this gives for all entries (`children_eq`). -/
def nameIn? (l : Location) : Location → Option Name
  | [] => none
  | n :: parent => if parent = l then some n else none

/-- The names in a directory depend on nothing but the locations. -/
theorem children_eq (fs : FileSystem) (l : Location) :
    fs.children l = (fs.entries.map Prod.fst).filterMap (nameIn? l) := by
  rw [children, List.filterMap_map]
  rfl

theorem nameIn?_eq_some {n : Name} : nameIn? l k = some n ↔ k = n :: l := by
  cases k with
  | nil => simp [nameIn?]
  | cons m parent => by_cases hparent : parent = l <;> simp [nameIn?, hparent]

theorem mem_children_iff {n : Name} : n ∈ fs.children l ↔ ∃ e ∈ fs.entries, e.1 = n :: l := by
  rw [children_eq, List.mem_filterMap]
  constructor
  · rintro ⟨k, hk, hname⟩
    obtain ⟨e, he, rfl⟩ := List.mem_map.mp hk
    exact ⟨e, he, nameIn?_eq_some.mp hname⟩
  · rintro ⟨e, he, hloc⟩
    exact ⟨e.1, List.mem_map_of_mem he, nameIn?_eq_some.mpr hloc⟩

/-! ### Changed entries -/

theorem lookup_map_snd {κ α β : Type} [BEq κ] (f : α → β) (es : List (κ × α)) (k : κ) :
    (es.map fun e => (e.1, f e.2)).lookup k = (es.lookup k).map f := by
  induction es with
  | nil => rfl
  | cons e es ih =>
    rw [List.map_cons, List.lookup_cons, List.lookup_cons, ih]
    split <;> rfl

theorem lookup_map_replace (es : List (Location × Node)) :
    (es.map fun e => if e.1 = l then (l, node) else e).lookup k
      = if k = l then (es.lookup l).map fun _ => node else es.lookup k := by
  induction es with
  | nil => simp
  | cons e es ih =>
    obtain ⟨k', node'⟩ := e
    rw [List.map_cons]
    -- The entry at `l` is replaced, the others stay; and `k` is looked up among them.
    by_cases hk' : k' = l
    · subst hk'
      by_cases hk : k = k'
      · subst hk
        simp
      · have hne : (k == k') = false := by simpa using hk
        simp only [if_true, List.lookup_cons, hne, ih, if_neg hk]
    -- What is at `k'` stays where it is.
    · rw [if_neg hk', List.lookup_cons, ih]
      by_cases hk : k = k'
      · subst hk
        simp [hk']
      · have hne : (k == k') = false := by simpa using hk
        have hne' : (l == k') = false := by simpa using Ne.symm hk'
        simp only [List.lookup_cons, hne, hne']

theorem lookup_append_singleton {es : List (Location × Node)} (h : es.lookup l = none) :
    (es ++ [(l, node)]).lookup k = if k = l then some node else es.lookup k := by
  rw [List.lookup_append]
  by_cases hk : k = l
  · subst hk
    simp [h]
  · have hne : (k == l) = false := by simpa using hk
    rw [if_neg hk, List.lookup_cons, hne, List.lookup_nil, Option.or_none]

/-- **A changed entry is seen at its location and nowhere else.** -/
theorem node?_put (fs : FileSystem) (hl : l ≠ []) (node : Node) (k : Location) :
    (fs.put l node).node? k = if k = l then some node else fs.node? k := by
  by_cases hk : k = []
  · rw [hk, node?_nil, node?_nil, if_neg (Ne.symm hl)]
  · rw [node?_of_ne_nil _ hk, node?_of_ne_nil _ hk]
    unfold put
    cases h : fs.entries.lookup l with
    | none => simpa using lookup_append_singleton h
    | some old => simp [lookup_map_replace, h]

theorem node?_put_self (fs : FileSystem) (hl : l ≠ []) (node : Node) :
    (fs.put l node).node? l = some node := by
  rw [node?_put fs hl, if_pos rfl]

theorem node?_put_of_ne (fs : FileSystem) (hl : l ≠ []) (node : Node) (hk : k ≠ l) :
    (fs.put l node).node? k = fs.node? k := by
  rw [node?_put fs hl, if_neg hk]

theorem file?_put (fs : FileSystem) (hl : l ≠ []) (f : RegularFile) (k : Location) :
    (fs.put l (.file f)).file? k = if k = l then some f else fs.file? k := by
  by_cases hk : k = l
  · rw [if_pos hk, file?_eq_some, hk, node?_put_self fs hl]
  · rw [if_neg hk, file?, file?, node?_put_of_ne fs hl _ hk]

theorem cwd_put (fs : FileSystem) (l : Location) (node : Node) : (fs.put l node).cwd = fs.cwd := by
  unfold put
  split <;> rfl

theorem origin_put (fs : FileSystem) (l : Location) (node : Node) (p : Path) :
    (fs.put l node).origin p = fs.origin p := by
  rw [origin, cwd_put, origin]

/-- A file in the place of what is no directory makes no difference to where the directories are. -/
theorem isDir_put_file (hl : l ≠ []) (hdir : fs.isDir l = false) (f : RegularFile) (k : Location) :
    (fs.put l (.file f)).isDir k = fs.isDir k := by
  by_cases hk : k = l
  · rw [hk, hdir, isDir, node?_put_self fs hl]
    rfl
  · rw [isDir, isDir, node?_put_of_ne fs hl _ hk]

/-- A change of what is there adds no entry and removes none. -/
theorem locations_put (hl : l ≠ []) (h : fs.node? l ≠ none) (node : Node) :
    (fs.put l node).entries.map Prod.fst = fs.entries.map Prod.fst := by
  have hsome : (fs.entries.lookup l).isSome := by
    rw [← node?_of_ne_nil fs hl]
    exact Option.isSome_iff_ne_none.mpr h
  rw [put, if_pos hsome, List.map_map]
  refine List.map_congr_left fun e _ => ?_
  by_cases he : e.1 = l
  · simp [he]
  · simp [he]

/-! ### The permission bits of directories -/

theorem directoryMode_of_nil (h : fs.directoryModes = []) (l : Location) :
    fs.directoryMode l = newDirectoryMode := by
  rw [directoryMode, h]
  rfl

/-- If nothing else is known of any directory, all may be listed. -/
theorem mayList_of_nil (h : fs.directoryModes = []) (l : Location) : fs.mayList l = true := by
  rw [mayList, directoryMode_of_nil h]
  decide

theorem maySearch_of_nil (h : fs.directoryModes = []) (l : Location) : fs.maySearch l = true := by
  rw [maySearch, directoryMode_of_nil h]
  decide

theorem maySearchAbove_of_nil (h : fs.directoryModes = []) (l : Location) :
    fs.maySearchAbove l = true := by
  induction l with
  | nil => rfl
  | cons n l ih => rw [maySearchAbove, maySearch_of_nil h, ih, Bool.and_self]

theorem mayListAbove_of_nil (h : fs.directoryModes = []) (l : Location) :
    fs.mayListAbove l = true := by
  induction l with
  | nil => rfl
  | cons n l ih => rw [mayListAbove, mayList_of_nil h, ih, Bool.and_self]

theorem takesDots_of_nil (h : fs.directoryModes = []) (route : Route) (l : Location) :
    route.takesDots fs l = true := by
  cases route with
  | stepwise => rfl
  | entry => exact maySearch_of_nil h l
  | target => exact maySearch_of_nil h l

theorem starts_of_nil (h : fs.directoryModes = []) (route : Route) (p : Path) :
    route.starts fs p = true := by
  cases route with
  | stepwise =>
    simp [Route.starts, maySearch_of_nil h, maySearchAbove_of_nil h, mayListAbove_of_nil h]
  | entry => rfl
  | target => rfl

/-- **The same permission bits of directories.** Nothing that a run does changes them, so that what may
be listed and looked up stays the same. -/
def SameModes (fs fs' : FileSystem) : Prop :=
  ∀ l, fs'.directoryMode l = fs.directoryMode l

theorem sameModes_put (fs : FileSystem) (l : Location) (node : Node) : SameModes fs (fs.put l node) := by
  intro k
  unfold put
  split <;> rfl

namespace SameModes

theorem symm (h : SameModes fs fs') : SameModes fs' fs :=
  fun l => (h l).symm

theorem trans (h : SameModes fs fs') (h' : SameModes fs' fs'') : SameModes fs fs'' :=
  fun l => (h' l).trans (h l)

theorem mayList (h : SameModes fs fs') (l : Location) : fs'.mayList l = fs.mayList l := by
  rw [FileSystem.mayList, FileSystem.mayList, h l]

theorem mayChange (h : SameModes fs fs') (l : Location) : fs'.mayChange l = fs.mayChange l := by
  rw [FileSystem.mayChange, FileSystem.mayChange, h l]

theorem maySearch (h : SameModes fs fs') (l : Location) : fs'.maySearch l = fs.maySearch l := by
  rw [FileSystem.maySearch, FileSystem.maySearch, h l]

theorem maySearchAbove (h : SameModes fs fs') (l : Location) :
    fs'.maySearchAbove l = fs.maySearchAbove l := by
  induction l with
  | nil => rfl
  | cons n l ih => rw [FileSystem.maySearchAbove, FileSystem.maySearchAbove, h.maySearch, ih]

theorem mayListAbove (h : SameModes fs fs') (l : Location) :
    fs'.mayListAbove l = fs.mayListAbove l := by
  induction l with
  | nil => rfl
  | cons n l ih => rw [FileSystem.mayListAbove, FileSystem.mayListAbove, h.mayList, ih]

theorem takesDots (h : SameModes fs fs') (route : Route) (l : Location) :
    route.takesDots fs' l = route.takesDots fs l := by
  cases route with
  | stepwise => rfl
  | entry => exact h.maySearch l
  | target => exact h.maySearch l

theorem takesNames (h : SameModes fs fs') (route : Route) (l : Location) :
    route.takesNames fs' l = route.takesNames fs l := by
  cases route with
  | stepwise => simp only [Route.takesNames, h.maySearch, h.maySearchAbove]
  | entry => exact h.maySearch l
  | target => exact h.maySearch l

theorem starts (h : SameModes fs fs') (hcwd : fs'.cwd = fs.cwd) (route : Route) (p : Path) :
    route.starts fs' p = route.starts fs p := by
  cases route with
  | stepwise => simp only [Route.starts, hcwd, h.maySearch, h.maySearchAbove, h.mayListAbove]
  | entry => rfl
  | target => rfl

end SameModes

/-! ### The same outline -/

/-- **The same outline**: at each location the same kind of entry, the same link target or the same
permission bits. Where a path leads depends on nothing else. -/
structure SameOutline (fs fs' : FileSystem) : Prop where
  cwd : fs'.cwd = fs.cwd
  modes : SameModes fs fs'
  outline : ∀ l, (fs'.node? l).map Node.outline = (fs.node? l).map Node.outline

namespace SameOutline

theorem node?_eq_none (h : SameOutline fs fs') : fs'.node? l = none ↔ fs.node? l = none := by
  rw [← Option.map_eq_none_iff (f := Node.outline), h.outline, Option.map_eq_none_iff]

/-- Directories and links are the same entries in both. Of files the outline keeps the mode only. -/
theorem node?_eq_some (h : SameOutline fs fs') (hnode : ∀ f, node ≠ .file f) :
    fs'.node? l = some node ↔ fs.node? l = some node := by
  -- Only of a file the outline shows less than the entry.
  have key : ∀ n : Node, n.outline = node ↔ n = node := by
    intro n
    cases n with
    | file f => simp [Node.outline, (hnode _).symm]
    | dir => rfl
    | link t => rfl
  have hmap : ∀ o : Option Node, o.map Node.outline = some node ↔ o = some node := by
    intro o
    cases o with
    | none => simp
    | some n => simp [key]
  rw [← hmap, h.outline, hmap]

theorem isDir_eq (h : SameOutline fs fs') (l : Location) : fs'.isDir l = fs.isDir l := by
  rw [Bool.eq_iff_iff, isDir_eq_true, isDir_eq_true]
  exact h.node?_eq_some fun _ => by simp

/-- A file stays a file and keeps its permission bits. -/
theorem mode_of_file? (h : SameOutline fs fs') {f : RegularFile} (hf : fs.file? l = some f) :
    ∃ f', fs'.file? l = some f' ∧ f'.mode = f.mode := by
  have houtline := h.outline l
  rw [file?_eq_some.mp hf] at houtline
  -- A node with the outline of a file is a file with its mode.
  cases hnode : fs'.node? l with
  | none => simp [hnode] at houtline
  | some node =>
    cases node with
    | dir => simp [hnode, Node.outline] at houtline
    | link t => simp [hnode, Node.outline] at houtline
    | file f' =>
      refine ⟨f', file?_eq_some.mpr hnode, ?_⟩
      simpa [hnode, Node.outline] using houtline

/-- What is at a location is the same, or a file in both. This is the case split by which facts about a
tree are carried over to one with the same outline. -/
theorem node?_cases (h : SameOutline fs fs') (l : Location) :
    fs'.node? l = fs.node? l ∨
      ∃ f f', fs.node? l = some (.file f) ∧ fs'.node? l = some (.file f') := by
  cases hnode : fs.node? l with
  | none => exact .inl (h.node?_eq_none.mpr hnode)
  | some node =>
    cases node with
    | dir => exact .inl ((h.node?_eq_some (by simp)).mpr hnode)
    | link t => exact .inl ((h.node?_eq_some (by simp)).mpr hnode)
    | file f =>
      obtain ⟨f', hf', -⟩ := h.mode_of_file? (file?_eq_some.mpr hnode)
      exact .inr ⟨f, f', rfl, file?_eq_some.mp hf'⟩

/-- Files with the same permission bits, put at one location in both, keep the outline the same. -/
theorem put_file {f g : RegularFile} (h : SameOutline fs fs') (hl : l ≠ [])
    (hmode : g.mode = f.mode) : SameOutline (fs.put l (.file f)) (fs'.put l (.file g)) := by
  refine ⟨?_, ?_, fun k => ?_⟩
  · rw [cwd_put, cwd_put, h.cwd]
  · exact (sameModes_put fs l _).symm.trans (h.modes.trans (sameModes_put fs' l _))
  · rw [node?_put fs hl, node?_put fs' hl]
    split
    · rw [Option.map_some, Option.map_some, Node.outline, Node.outline, hmode]
    · exact h.outline k

end SameOutline

/-! ### The same tree -/

/-- **The same tree**: the same locations in the same order, at each the same kind of entry, the same
link target or the same permission bits, and the same permission bits of directories. -/
structure SameTree (fs fs' : FileSystem) : Prop where
  cwd : fs'.cwd = fs.cwd
  modes : SameModes fs fs'
  locations : fs'.entries.map Prod.fst = fs.entries.map Prod.fst
  outline : ∀ l, (fs'.node? l).map Node.outline = (fs.node? l).map Node.outline

namespace SameTree

theorem sameOutline (h : SameTree fs fs') : SameOutline fs fs' :=
  ⟨h.cwd, h.modes, h.outline⟩

theorem refl (fs : FileSystem) : SameTree fs fs :=
  ⟨rfl, fun _ => rfl, rfl, fun _ => rfl⟩

theorem symm (h : SameTree fs fs') : SameTree fs' fs :=
  ⟨h.cwd.symm, h.modes.symm, h.locations.symm, fun l => (h.outline l).symm⟩

theorem trans (h : SameTree fs fs') (h' : SameTree fs' fs'') : SameTree fs fs'' :=
  ⟨h'.cwd.trans h.cwd, h.modes.trans h'.modes, h'.locations.trans h.locations,
    fun l => (h'.outline l).trans (h.outline l)⟩

/-- A file that keeps its permission bits keeps the tree. -/
theorem put_file {f g : RegularFile} (h : fs.file? l = some f) (hmode : g.mode = f.mode) :
    SameTree fs (fs.put l (.file g)) := by
  have hl := ne_nil_of_file?_eq_some h
  rw [file?_eq_some] at h
  refine ⟨cwd_put fs l _, sameModes_put fs l _, locations_put hl (by simp [h]) _, fun k => ?_⟩
  by_cases hk : k = l
  · rw [hk, node?_put_self fs hl, h, Option.map_some, Option.map_some, Node.outline, Node.outline,
      hmode]
  · rw [node?_put_of_ne fs hl _ hk]

theorem children (h : SameTree fs fs') (l : Location) : fs'.children l = fs.children l := by
  rw [children_eq, children_eq, h.locations]

theorem node?_eq_some (h : SameTree fs fs') (hnode : ∀ f, node ≠ .file f) :
    fs'.node? l = some node ↔ fs.node? l = some node :=
  h.sameOutline.node?_eq_some hnode

theorem isDir_eq (h : SameTree fs fs') (l : Location) : fs'.isDir l = fs.isDir l :=
  h.sameOutline.isDir_eq l

end SameTree

end FileSystem

end IncludeMoves
