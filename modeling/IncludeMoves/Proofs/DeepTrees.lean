import IncludeMoves.Proofs.Entering

/-!
# Deep trees

A path that the system is asked for has to stay below `maxPath` bytes, but a directory may be so deep that
its own path does not. It can still be looked up over a link, or from a directory on the way. Here are trees
of such directories, all with the same long name, and what a walk does in them.

* `Project.longLocation` — the directory that is so deep;
* `Project.isTooLong_longLocation_iff` — sixteen of them are too many;
* `Project.deepTreeWith` — a tree of them, with further entries;
* `Project.exists_enters_longLocation` — a walk goes down to the fifteenth;
* `Project.lookup_herePath` — the innermost one is there for a process in it;
* `Project.overLink` — a way to the sixteenth, over a link to the eighth.
-/

namespace IncludeMoves

namespace Project

/-- A name of as many bytes as a name may have. -/
def longName : Name :=
  List.replicate maxName 97

/-- The directory that is so deep, each with the long name. Each name takes 256 bytes of a path, so the
sixteenth directory is the first one with a path too long to be asked for. -/
def longLocation (depth : Nat) : Location :=
  List.replicate depth longName

variable {depth d : Nat} {others : List (Location × Node)} {cwd l : Location}

theorem longLocation_succ (depth : Nat) :
    longLocation (depth + 1) = longName :: longLocation depth :=
  List.replicate_succ

theorem longLocation_ne_nil (h : depth ≠ 0) : longLocation depth ≠ [] := by
  simpa [longLocation] using h

theorem length_longName : longName.length = 255 :=
  List.length_replicate

theorem isEntryName_longName : FileSystem.IsEntryName longName ∧ 0 ∉ longName := by
  have hne : ∀ {b}, b ≠ 97 → b ∉ longName := fun hb h => hb (List.eq_of_mem_replicate h)
  refine ⟨⟨?_, hne (by decide), ?_, ?_, Nat.le_of_eq length_longName⟩, hne (by decide)⟩ <;>
    (intro h; have hlength := length_longName; rw [h] at hlength; cases hlength)

theorem areNames_longLocation (depth : Nat) : Location.AreNames (longLocation depth) :=
  fun _ hn => (List.eq_of_mem_replicate hn) ▸ isEntryName_longName

/-- The path of the directory has as many bytes as all its names with their separators. -/
theorem length_toPath_longLocation (h : depth ≠ 0) :
    (longLocation depth).toPath.bytes.length = depth * 256 := by
  rw [Location.bytes_toPath (longLocation_ne_nil h), longLocation, List.reverse_replicate, List.length_flatMap,
    List.map_replicate, List.sum_replicate_nat, List.length_cons, length_longName]

/-- **Sixteen directories are too many.** -/
theorem isTooLong_longLocation_iff : (longLocation depth).toPath.isTooLong = true ↔ 16 ≤ depth := by
  by_cases h : depth = 0
  · subst h
    decide
  · rw [Path.isTooLong, length_toPath_longLocation h, decide_eq_true_iff, maxPath]
    omega

theorem child_toPath_longLocation (depth : Nat) :
    (longLocation depth).toPath.child longName = (longLocation (depth + 1)).toPath := by
  rw [longLocation_succ]
  exact Location.child_toPath isEntryName_longName (areNames_longLocation depth)

/-! ### Trees -/

/-- **Directories with the long name**, one in the other, and further entries behind them. Whatever
those are, the directories are there. -/
def deepTreeWith (depth : Nat) (others : List (Location × Node)) (cwd : Location) : FileSystem where
  entries := ((List.range depth).map fun i => (longLocation (i + 1), .dir)) ++ others
  cwd := cwd

theorem mem_deepTreeWith (h : d < depth) :
    (longLocation (d + 1), .dir) ∈ (deepTreeWith depth others cwd).entries :=
  List.mem_append_left _ (List.mem_map.mpr ⟨d, List.mem_range.mpr h, rfl⟩)

theorem mem_children_deepTreeWith (h : d < depth) :
    longName ∈ (deepTreeWith depth others cwd).children (longLocation d) :=
  FileSystem.mem_children_iff.mpr ⟨_, mem_deepTreeWith h, longLocation_succ d⟩

theorem node?_deepTreeWith (h : d ≤ depth) :
    (deepTreeWith depth others cwd).node? (longLocation d) = some .dir := by
  cases d with
  | zero => rfl
  | succ d =>
    let dirs : List (Location × Node) := (List.range depth).map fun i => (longLocation (i + 1), .dir)
    have hmem : (longLocation (d + 1), .dir) ∈ dirs := List.mem_map.mpr ⟨d, List.mem_range.mpr h, rfl⟩
    have hsome : (dirs.lookup (longLocation (d + 1))).isSome :=
      List.lookup_isSome_iff.mpr ⟨_, hmem, beq_self_eq_true _⟩
    obtain ⟨node, hnode⟩ := Option.isSome_iff_exists.mp hsome
    -- Whatever is found among the directories is one.
    obtain ⟨i, -, hi⟩ := List.mem_map.mp (FileSystem.mem_of_lookup_eq_some hnode)
    obtain rfl := (Prod.mk.inj hi).2
    rw [FileSystem.node?_of_ne_nil _ (by simp [longLocation_succ])]
    exact (List.lookup_append ..).trans (by rw [hnode]; rfl)

/-- What is there is one of these directories or one of the further entries. -/
theorem node?_deepTreeWith_cases {node : Node}
    (h : (deepTreeWith depth others cwd).node? l = some node) :
    (∃ d, d ≤ depth ∧ l = longLocation d ∧ node = .dir) ∨ (l, node) ∈ others := by
  by_cases hnil : l = []
  · subst hnil
    exact .inl ⟨0, Nat.zero_le depth, rfl, (Option.some.inj h).symm⟩
  rcases List.mem_append.mp (FileSystem.mem_entries hnil h) with hmem | hmem
  · obtain ⟨i, hi, heq⟩ := List.mem_map.mp hmem
    obtain ⟨rfl, rfl⟩ := Prod.mk.inj heq
    exact .inl ⟨i + 1, List.mem_range.mp hi, rfl, rfl⟩
  · exact .inr hmem

theorem node?_deepTreeWith_of_ne (h : ∀ d, l ≠ longLocation d) :
    (deepTreeWith depth others cwd).node? l = others.lookup l := by
  have hnone : ((List.range depth).map fun i => (longLocation (i + 1), Node.dir)).lookup l = none := by
    rw [List.lookup_eq_none_iff]
    rintro e he
    obtain ⟨i, -, rfl⟩ := List.mem_map.mp he
    simpa using h (i + 1)
  rw [FileSystem.node?_of_ne_nil _ (h 0)]
  exact (List.lookup_append ..).trans (by rw [hnone]; rfl)

/-- These are trees if the further entries have names that entries can have, and directories to be in.
-/
theorem isTree_deepTreeWith
    (hothers : ∀ e ∈ others, Location.AreNames e.1 ∧
      (deepTreeWith depth others cwd).isDir e.1.tail = true)
    (hcwd : (deepTreeWith depth others cwd).isDir cwd = true) :
    (deepTreeWith depth others cwd).IsTree := by
  refine ⟨fun e he => ?_, fun e he => ?_, hcwd⟩
  · rcases List.mem_append.mp he with he | he
    -- One of the directories in a row, or one of the other entries.
    · obtain ⟨i, -, rfl⟩ := List.mem_map.mp he
      exact areNames_longLocation (i + 1)
    · exact (hothers e he).1
  · rcases List.mem_append.mp he with he | he
    · obtain ⟨i, hi, rfl⟩ := List.mem_map.mp he
      exact FileSystem.isDir_eq_true.mpr
        (node?_deepTreeWith (Nat.le_of_lt (List.mem_range.mp hi)))
    · exact (hothers e he).2

/-- **A walk goes down to the fifteenth directory**, as the sixteenth cannot be asked for. The induction
is on the depth, and all the directories are open. -/
theorem exists_enters_longLocation (h : d ≤ depth) (hd : d < 16) :
    ∃ above, (deepTreeWith depth others cwd).Enters ⟨.ofString "/", []⟩
      ⟨(longLocation d).toPath, longLocation d⟩ above := by
  induction d with
  | zero => exact ⟨[], .start⟩
  | succ d ih =>
    obtain ⟨above, hentered⟩ := ih (Nat.le_of_succ_le h) (Nat.lt_of_succ_lt hd)
    have hnode : (deepTreeWith depth others cwd).node? (longLocation (d + 1)) = some .dir :=
      node?_deepTreeWith h
    -- A path of fewer than sixteen names is short enough.
    have hshort : (longLocation (d + 1)).toPath.isTooLong = false := by
      rw [Bool.eq_false_iff, ne_eq, isTooLong_longLocation_iff]
      omega
    rw [longLocation_succ] at hnode
    have hinner := hentered.inner (mem_children_deepTreeWith h) hnode
      ((child_toPath_longLocation d).symm ▸ hshort) (FileSystem.maySearch_of_nil rfl _)
      (FileSystem.mayList_of_nil rfl _)
    rw [child_toPath_longLocation, ← longLocation_succ] at hinner
    exact ⟨_, hinner⟩

/-! ### From inside -/

/-- The current directory, asked for from inside. -/
def herePath : Path :=
  .ofString "."

/-- In the innermost directory a lookup of it goes past no place, so its path is not looked at. -/
theorem lookup_herePath {route : Route} (haccepts : route.accepts herePath = true) :
    (deepTreeWith depth others (longLocation depth)).lookup route herePath = .ok (longLocation depth) := by
  have hdir : (deepTreeWith depth others (longLocation depth)).isDir (longLocation depth) = true :=
    FileSystem.isDir_eq_true.mpr (node?_deepTreeWith (Nat.le_refl depth))
  exact FileSystem.lookup_eq_ok.mpr ⟨by decide, by decide, haccepts, FileSystem.starts_of_nil rfl route _,
    .arrive (.here hdir (FileSystem.takesDots_of_nil rfl route _) .done)⟩

theorem isDirectory_herePath :
    (deepTreeWith depth others (longLocation depth)).isDirectory herePath = true :=
  FileSystem.isDirectory_iff.mpr ⟨_, lookup_herePath rfl,
    FileSystem.isDir_eq_true.mpr (node?_deepTreeWith (Nat.le_refl depth))⟩

theorem canonicalize_herePath : (deepTreeWith depth others (longLocation depth)).canonicalize herePath
    = .ok (longLocation depth).toPath := by
  rw [FileSystem.canonicalize, lookup_herePath rfl, Except.map]

/-! ### Over a link -/

/-- The name of a link in the root. -/
def linkName : Name :=
  (Path.ofString "m").bytes

/-- A link to the eighth directory. -/
def deepLink : Location × Node :=
  ([linkName], .link (longLocation 8).toPath)

/-- The way over the link to what is in the sixteenth directory. It has eight names less than the one
without the link, and so it is short enough. -/
def overLink (more : Location) : Location :=
  more ++ (longLocation 8 ++ [linkName])

end Project

end IncludeMoves
