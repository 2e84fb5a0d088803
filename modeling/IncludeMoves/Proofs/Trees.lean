import IncludeMoves.FileSystem.Walk
import IncludeMoves.Proofs.Spelling

/-!
# Trees

A file system is a list of entries, and some lists are no tree that a system keeps: an entry may have
a separator in its name, or lie in what is no directory. In a tree everything is at a place, and a
lookup through all links ends at something. A canonical path can be asked for again, if it is short
enough and the way to it is open, and then it is its own canonical path.

* `FileSystem.IsTree` — what a system sees to;
* `FileSystem.IsTree.isPlace` — everything is at a place;
* `FileSystem.IsTree.exists_of_canonicalize` — a canonical path is the absolute path of something;
* `FileSystem.IsTree.canonicalize_toPath_iff` — when it can be asked for again.
-/

namespace IncludeMoves

namespace FileSystem

/-- **A tree**: the names on the way to an entry are names, and free of zero bytes; every entry is in a
directory, and so is the process. -/
structure IsTree (fs : FileSystem) : Prop where
  names : ∀ e ∈ fs.entries, ∀ n ∈ e.1, IsEntryName n ∧ 0 ∉ n
  parents : ∀ e ∈ fs.entries, fs.isDir e.1.tail = true
  cwd : fs.isDir fs.cwd = true

instance (n : Name) : Decidable (IsEntryName n) :=
  decidable_of_iff
    (n ≠ [] ∧ separator ∉ n ∧ n ≠ [dot] ∧ n ≠ [dot, dot] ∧ n.length ≤ maxName)
    ⟨fun ⟨hne, hsep, hdot, hup, hlength⟩ => ⟨hne, hsep, hdot, hup, hlength⟩,
      fun h => ⟨h.nonempty, h.separator_not_mem, h.not_dot, h.not_up, h.length_le⟩⟩

instance (fs : FileSystem) : Decidable fs.IsTree :=
  decidable_of_iff
    ((∀ e ∈ fs.entries, ∀ n ∈ e.1, IsEntryName n ∧ 0 ∉ n) ∧
      (∀ e ∈ fs.entries, fs.isDir e.1.tail = true) ∧ fs.isDir fs.cwd = true)
    ⟨fun ⟨hnames, hparents, hcwd⟩ => ⟨hnames, hparents, hcwd⟩,
      fun h => ⟨h.names, h.parents, h.cwd⟩⟩

variable {fs fs' : FileSystem} {route : Route} {l k m : Location} {n : Name} {names : List Name}
  {node : Node} {q r c d : Path}

theorem mem_entries (hl : l ≠ []) (h : fs.node? l = some node) : (l, node) ∈ fs.entries := by
  rw [node?_of_ne_nil fs hl] at h
  exact mem_of_lookup_eq_some h

/-- The path of a place on the way is no longer than that of the end. So if the end can be asked for,
all places on the way can. -/
theorem length_toPath_le (h : k <:+ l) : k.toPath.bytes.length ≤ l.toPath.bytes.length := by
  obtain ⟨before, rfl⟩ := h
  cases k with
  | nil =>
    -- The root has the shortest of all absolute paths.
    refine Nat.pos_of_ne_zero fun hzero => ?_
    exact Location.bytes_toPath_ne_nil _ (List.eq_nil_of_length_eq_zero hzero)
  | cons n k =>
    have hcons : before ++ n :: k ≠ [] := by simp
    rw [Location.toPath, Location.toPath, List.reverse_append, List.flatMap_append]
    · simp only [List.length_append]
      exact Nat.le_add_right _ _
    · exact hcons
    · exact List.cons_ne_nil n k

theorem isTooLong_of_suffix (h : k <:+ l) (hl : l.toPath.isTooLong = false) :
    k.toPath.isTooLong = false := by
  have hlength := length_toPath_le h
  simp only [Path.isTooLong, decide_eq_false_iff_not, Nat.not_le] at hl ⊢
  exact Nat.lt_of_le_of_lt hlength hl

namespace IsTree

theorem isDir_tail (h : fs.IsTree) (hl : fs.node? l = some node) : fs.isDir l.tail = true := by
  cases l with
  | nil => exact isDir_eq_true.mpr (node?_nil fs)
  | cons n l => exact h.parents _ (mem_entries (List.cons_ne_nil n l) hl)

theorem areNames (h : fs.IsTree) (hl : fs.node? l = some node) : Location.AreNames l := by
  cases l with
  | nil => exact .nil
  | cons n l => exact h.names _ (mem_entries (List.cons_ne_nil n l) hl)

/-- **What is there is at a place.** -/
theorem isPlace (h : fs.IsTree) (hl : fs.node? l = some node) : fs.IsPlace l := by
  induction l generalizing node with
  | nil => exact .root
  | cons n l ih =>
    have hdir : fs.isDir l = true := h.isDir_tail hl
    exact .entry (ih (isDir_eq_true.mp hdir)) hdir (h.areNames hl).head

/-- What makes a tree is the same in the same tree. -/
theorem of_sameTree {fs' : FileSystem} (h : fs.IsTree) (htree : fs.SameTree fs') : fs'.IsTree := by
  have hentry : ∀ e' ∈ fs'.entries, ∃ e ∈ fs.entries, e.1 = e'.1 := fun e' he' =>
    List.mem_map.mp (htree.locations ▸ List.mem_map_of_mem he')
  refine ⟨fun e' he' n hn => ?_, fun e' he' => ?_, ?_⟩
  · obtain ⟨e, he, hloc⟩ := hentry e' he'
    exact h.names e he n (hloc ▸ hn)
  · obtain ⟨e, he, hloc⟩ := hentry e' he'
    rw [htree.isDir_eq, ← hloc]
    exact h.parents e he
  · rw [htree.isDir_eq, htree.cwd]
    exact h.cwd

/-- Lookups start at places. -/
theorem isPlace_origin (h : fs.IsTree) (q : Path) : fs.IsPlace (fs.origin q) := by
  unfold origin
  split
  · exact .root
  · exact h.isPlace (isDir_eq_true.mp h.cwd)

end IsTree

/-! ### What has been reached -/

/-- Something is there that need not be followed. This is what lookups through all links end at. -/
def IsReached (fs : FileSystem) (l : Location) : Prop :=
  ∃ node, fs.node? l = some node ∧ ∀ t, node ≠ .link t

theorem isReached_of_isDir (h : fs.isDir l = true) : fs.IsReached l :=
  ⟨.dir, isDir_eq_true.mp h, nofun⟩

theorem isReached_root (fs : FileSystem) : fs.IsReached [] :=
  ⟨.dir, node?_nil fs, nofun⟩

/-- **A lookup through all links ends at something.** -/
theorem Leads.isReached {budget : Nat} (hfs : fs.IsTree) (hroute : route.follows = true)
    (h : Leads fs route budget l names (.found m)) (hl : fs.IsReached l) : fs.IsReached m := by
  refine h.invariant (isReached_root fs) (fun l hl => ?_) (fun l n node _ _ hnode hne => ?_) hl
  · obtain ⟨node, hnode, -⟩ := hl
    exact isReached_of_isDir (hfs.isDir_tail hnode)
  · exact ⟨node, hnode, hne hroute⟩

theorem reaches_of_suffix (h : k <:+ l) (hl : route.reaches l = true) : route.reaches k = true := by
  cases route with
  | entry => rfl
  | target => rfl
  | stepwise =>
    rw [Route.reaches, Bool.not_eq_true'] at hl ⊢
    exact isTooLong_of_suffix h hl

/-- Step by step, a lookup that starts at a short path ends at one. -/
theorem Leads.reaches {budget : Nat} (h : Leads fs route budget l names (.found m))
    (hl : route.reaches l = true) : route.reaches m = true :=
  h.invariant (by cases route <;> decide) (fun l hl => reaches_of_suffix (List.tail_suffix l) hl)
    (fun _ _ _ _ h _ _ => h.reaches) hl

namespace IsTree

theorem isReached_origin (h : fs.IsTree) (q : Path) : fs.IsReached (fs.origin q) := by
  unfold origin
  split
  · exact isReached_root fs
  · exact isReached_of_isDir h.cwd

/-- **A canonical path is the absolute path of something**, and that is no link. -/
theorem exists_of_canonicalize (h : fs.IsTree) (hc : fs.canonicalize q = .ok c) :
    ∃ l node, fs.node? l = some node ∧ (∀ t, node ≠ .link t) ∧ c = l.toPath := by
  obtain ⟨l, hlookup, rfl⟩ := exists_lookup_of_canonicalize hc
  obtain ⟨-, -, -, -, hleads⟩ := lookup_eq_ok.mp hlookup
  obtain ⟨node, hnode, hne⟩ := hleads.isReached h rfl (h.isReached_origin q)
  exact ⟨l, node, hnode, hne, rfl⟩

/-- The path of what is there leads nowhere else. -/
theorem eq_of_lookup_toPath (h : fs.IsTree) (hnode : fs.node? l = some node)
    (hne : ∀ t, node ≠ .link t) (hlookup : fs.lookup route l.toPath = .ok k) : k = l := by
  obtain ⟨-, -, -, -, hleads⟩ := lookup_eq_ok.mp hlookup
  have hplace := h.isPlace hnode
  rw [origin, if_pos l.isAbsolute_toPath, hplace.steps_toPath] at hleads
  exact Spot.found.inj (hplace.eq_of_leads hnode hne hleads)

/-- A canonical path is short enough for a request, if the lookup started where it is. -/
theorem not_isTooLong_of_canonicalize (hc : fs.canonicalize q = .ok c)
    (horigin : (fs.origin q).toPath.isTooLong = false) : c.isTooLong = false := by
  obtain ⟨l, hlookup, rfl⟩ := exists_lookup_of_canonicalize hc
  obtain ⟨-, -, -, -, hleads⟩ := lookup_eq_ok.mp hlookup
  simpa [Route.reaches] using hleads.reaches (by simpa [Route.reaches] using horigin)

/-- What lies too deep has no canonical path, though a path may lead there. -/
theorem canonicalize_of_isTooLong (hl : fs.resolve q = .ok l) (hlong : l.toPath.isTooLong = true)
    (hq : q.isAbsolute = true) : fs.canonicalize q = .error (.os .nameTooLong) := by
  rcases canonicalize_cases hl with hc | hc | ⟨-, hrelative, -⟩
  · rw [not_isTooLong_of_canonicalize hc (by rw [origin, if_pos hq]; decide)] at hlong
    cases hlong
  · exact hc
  · rw [hq] at hrelative
    cases hrelative

/-- **The path of what is there can be asked for again**, if it is short enough and all directories on the
way may be searched, and then it is its own canonical path. -/
theorem canonicalize_toPath_iff (h : fs.IsTree) (hnode : fs.node? l = some node)
    (hne : ∀ t, node ≠ .link t) :
    fs.canonicalize l.toPath = .ok c ↔
      c = l.toPath ∧ l.toPath.isTooLong = false ∧ fs.maySearchAbove l = true := by
  constructor
  · intro hc
    obtain ⟨k, hlookup, rfl⟩ := exists_lookup_of_canonicalize hc
    obtain rfl := h.eq_of_lookup_toPath hnode hne hlookup
    -- An absolute path starts at the root, which is never too deep.
    refine ⟨rfl, not_isTooLong_of_canonicalize hc ?_, maySearchAbove_of_lookup hlookup k.isAbsolute_toPath⟩
    rw [origin, if_pos k.isAbsolute_toPath]
    decide
  · rintro ⟨rfl, hshort, hopen⟩
    -- Each place on the way has a path that `l` continues, so the limit on `l` covers them all.
    have hlookup : fs.lookup .stepwise l.toPath = .ok l :=
      (h.isPlace hnode).lookup_toPath hnode hne (h.areNames hnode).nul_not_mem_toPath
        l.bytes_toPath_ne_nil rfl hopen fun k hk =>
          reaches_of_suffix hk (by rw [Route.reaches, hshort, Bool.not_false])
    rw [canonicalize, hlookup, Except.map]

end IsTree

end FileSystem

end IncludeMoves
