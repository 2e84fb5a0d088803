import IncludeMoves.Proofs.DeepTrees

/-!
# Which projects there are

A project is made of a root and a target that a user names. The target has to lead to a directory, and the
canonical path of that to the inside of the root, component by component. What the paths look like before
does not matter: a target may lead out of the root over a link or into it, and a directory beside the root
is not inside, whatever its name begins with.

A directory may have no canonical path, though the target leads there, since it lies too deep or the way
from the root to the current directory is closed; or it may have none that can be asked for again. Then
there is no project either.

* `FileSystem.IsAskable` — the canonical paths that can be asked for again;
* `FileSystem.IsTree.isWithin_iff` — what is inside what, as far as the system can tell;
* `Project.IsMadeFrom`, `Project.Refuses` — the projects, and what is wrong where there is none;
* `Project.made_or_refused` — there is a project, or something is wrong;
* `FileSystem.IsDirect` — the paths of a project are spelled without a detour;
* `Project.ofPaths_decides` — the whole.
-/

namespace IncludeMoves

namespace Location

variable {l k : Location}

/-- What is inside what, from the components of the paths. -/
theorem components_prefix_iff (hk : AreNames k) (hl : AreNames l) :
    k.toPath.components <+: l.toPath.components ↔ k <:+ l := by
  rw [components_toPath hk, components_toPath hl, List.prefix_cons_inj,
    List.prefix_map_iff_of_injective Component.name_injective, List.reverse_prefix]

end Location

namespace FileSystem

variable {fs : FileSystem} {q r c d : Path} {l : Location}

/-- **A path without links that can be asked for**: it is short enough, and all directories on the way may
be searched. -/
def IsAskable (fs : FileSystem) (c : Path) : Prop :=
  c.isTooLong = false ∧ fs.maySearchAbove c.steps.reverse = true

instance (fs : FileSystem) (c : Path) : Decidable (fs.IsAskable c) :=
  inferInstanceAs (Decidable (_ ∧ _))

theorem isAskable_toPath_iff (h : Location.AreNames l) :
    fs.IsAskable l.toPath ↔ l.toPath.isTooLong = false ∧ fs.maySearchAbove l = true := by
  rw [IsAskable, h.steps_toPath, List.reverse_reverse]

/-- **What is inside what**, of canonical paths: the components of the outer one come first, and the inner
one can be asked for again. -/
theorem IsTree.isWithin_iff (h : fs.IsTree) (hc : fs.canonicalize q = .ok c)
    (hd : fs.canonicalize r = .ok d) :
    fs.isWithin c d = true ↔ d.components <+: c.components ∧ fs.IsAskable c := by
  -- Both paths are those of locations.
  obtain ⟨l, node, hl, hlne, rfl⟩ := h.exists_of_canonicalize hc
  obtain ⟨k, node', hk, hkne, rfl⟩ := h.exists_of_canonicalize hd
  rw [isAskable_toPath_iff (h.areNames hl)]
  constructor
  · intro hwithin
    unfold isWithin at hwithin
    split at hwithin
    · next c' d' hc' hd' =>
      obtain ⟨rfl, hshort, hopen⟩ := (h.canonicalize_toPath_iff hl hlne).mp hc'
      obtain ⟨rfl, -⟩ := (h.canonicalize_toPath_iff hk hkne).mp hd'
      exact ⟨Path.isWithin_iff.mp hwithin, hshort, hopen⟩
    · cases hwithin
  · rintro ⟨hinside, hshort, hopen⟩
    -- The outer directory is on the way to the inner one.
    have hsuffix := (Location.components_prefix_iff (h.areNames hk) (h.areNames hl)).mp hinside
    have hl' := (h.canonicalize_toPath_iff hl hlne).mpr ⟨rfl, hshort, hopen⟩
    have hk' := (h.canonicalize_toPath_iff hk hkne).mpr
      ⟨rfl, isTooLong_of_suffix hsuffix hshort, maySearchAbove_of_suffix hsuffix hopen⟩
    rw [isWithin, hl', hk']
    exact Path.isWithin_iff.mpr hinside

end FileSystem

namespace Project

variable {p : Project} {fs : FileSystem} {root : Path} {target? : Option Path} {e : Problem}

/-- The target that is meant: the one that is named, or the default one. -/
def namedTarget (root : Path) (target? : Option Path) : Path :=
  target?.getD (defaultTarget root)

/-- **The project of a root and a target**: their canonical paths, if the target leads to a directory and
is inside the root. -/
structure IsMadeFrom (p : Project) (fs : FileSystem) (root : Path) (target? : Option Path) : Prop where
  root : fs.canonicalize root = .ok p.root
  isDirectory : fs.isDirectory (namedTarget p.root target?) = true
  target : fs.canonicalize (namedTarget p.root target?) = .ok p.target
  inside : p.root.components <+: p.target.components
  askable : fs.IsAskable p.target

/-- **What is wrong** with a root and a target, the first thing that is. Each rule has what has gone
well before as its conditions, so at most one of them applies. -/
inductive Refuses (fs : FileSystem) (root : Path) (target? : Option Path) : Problem → Prop
  | noRoot {e : IoError} : fs.canonicalize root = .error e → Refuses fs root target? (.io root e)
  | noDirectory {c : Path} : fs.canonicalize root = .ok c →
      fs.isDirectory (namedTarget c target?) = false →
      Refuses fs root target? (.invalidTarget (namedTarget c target?))
  | tooDeep {c : Path} : fs.canonicalize root = .ok c →
      fs.isDirectory (namedTarget c target?) = true →
      fs.canonicalize (namedTarget c target?) = .error (.os .nameTooLong) →
      Refuses fs root target? (.io (namedTarget c target?) (.os .nameTooLong))
  | closed {c : Path} : fs.canonicalize root = .ok c →
      fs.isDirectory (namedTarget c target?) = true →
      (namedTarget c target?).isAbsolute = false → fs.IsClosed fs.cwd →
      fs.canonicalize (namedTarget c target?) = .error (.os .accessDenied) →
      Refuses fs root target? (.io (namedTarget c target?) (.os .accessDenied))
  | outside {c t : Path} : fs.canonicalize root = .ok c →
      fs.isDirectory (namedTarget c target?) = true →
      fs.canonicalize (namedTarget c target?) = .ok t →
      ¬(c.components <+: t.components ∧ fs.IsAskable t) →
      Refuses fs root target? (.outsideRoot t c)

/-- What is asked once the root is known. -/
theorem ofPaths_eq {c : Path} (hc : fs.canonicalize root = .ok c) :
    ofPaths fs root target? =
      if !fs.isDirectory (namedTarget c target?) then
        .error (.invalidTarget (namedTarget c target?))
      else
        match fs.canonicalize (namedTarget c target?) with
        | .error e => .error (.io (namedTarget c target?) e)
        | .ok t => if fs.isWithin t c then .ok ⟨c, t⟩ else .error (.outsideRoot t c) := by
  rw [ofPaths, hc]
  rfl

theorem IsMadeFrom.ofPaths_eq (hfs : fs.IsTree) (h : p.IsMadeFrom fs root target?) :
    ofPaths fs root target? = .ok p := by
  have hwithin := (hfs.isWithin_iff h.target h.root).mpr ⟨h.inside, h.askable⟩
  rw [Project.ofPaths_eq h.root, if_neg (by simp [h.isDirectory]), h.target]
  exact if_pos hwithin

theorem Refuses.ofPaths_eq (hfs : fs.IsTree) (h : Refuses fs root target? e) :
    ofPaths fs root target? = .error e := by
  -- Each refusal is the one that the checks come to, after those that have been passed.
  cases h with
  | noRoot hc => rw [ofPaths, hc]
  | noDirectory hc hdirectory => rw [Project.ofPaths_eq hc, if_pos (by simp [hdirectory])]
  | tooDeep hc hdirectory ht =>
    rw [Project.ofPaths_eq hc, if_neg (by simp [hdirectory]), ht]
  | closed hc hdirectory _ _ ht =>
    rw [Project.ofPaths_eq hc, if_neg (by simp [hdirectory]), ht]
  | outside hc hdirectory ht houtside =>
    rw [Project.ofPaths_eq hc, if_neg (by simp [hdirectory]), ht]
    exact if_neg (mt (hfs.isWithin_iff ht hc).mp houtside)

/-- **There is a project, or something is wrong.** The checks are gone through in their order; together
with the two equations for `ofPaths` this decides what it gives. -/
theorem made_or_refused (fs : FileSystem) (root : Path) (target? : Option Path) :
    (∃ p : Project, p.IsMadeFrom fs root target?) ∨ ∃ e, Refuses fs root target? e := by
  cases hc : fs.canonicalize root with
  | error e => exact .inr ⟨_, .noRoot hc⟩
  | ok c =>
    cases hdirectory : fs.isDirectory (namedTarget c target?) with
    | false => exact .inr ⟨_, .noDirectory hc hdirectory⟩
    | true =>
      obtain ⟨l, hres, -⟩ := FileSystem.isDirectory_iff.mp hdirectory
      -- What can be opened has a canonical path, or is too deep for one, or the way to it is closed.
      rcases FileSystem.canonicalize_cases hres with ht | ht | ⟨ht, hrelative, hclosed⟩
      · by_cases hinside : c.components <+: l.toPath.components ∧ fs.IsAskable l.toPath
        · exact .inl ⟨⟨c, l.toPath⟩, hc, hdirectory, ht, hinside.1, hinside.2⟩
        · exact .inr ⟨_, .outside hc hdirectory ht hinside⟩
      · exact .inr ⟨_, .tooDeep hc hdirectory ht⟩
      · exact .inr ⟨_, .closed hc hdirectory hrelative hclosed ht⟩

theorem ofPaths_eq_ok_iff (hfs : fs.IsTree) :
    ofPaths fs root target? = .ok p ↔ p.IsMadeFrom fs root target? := by
  refine ⟨fun h => ?_, fun h => h.ofPaths_eq hfs⟩
  rcases made_or_refused fs root target? with ⟨p', hp'⟩ | ⟨e, he⟩
  · cases h.symm.trans (hp'.ofPaths_eq hfs)
    exact hp'
  · cases h.symm.trans (he.ofPaths_eq hfs)

/-- **A project at a place**: the root is the absolute path of `r`, and the target that of a directory
with the names `below` behind, and the way there is open. -/
structure IsAt (p : Project) (fs : FileSystem) (r below : Location) : Prop where
  root : p.root = r.toPath
  target : p.target = Location.toPath (below ++ r)
  isDir : fs.isDir (below ++ r) = true
  isOpen : fs.maySearchAbove (below ++ r) = true

/-- **A project made from paths is at a place.** From here on, root and target are locations, one below
the other, and their paths those of the locations. -/
theorem exists_isAt (hfs : fs.IsTree) (hp : ofPaths fs root target? = .ok p) :
    ∃ r below, p.IsAt fs r below := by
  have hmade := (ofPaths_eq_ok_iff hfs).mp hp
  obtain ⟨r, node, hr, -, hroot⟩ := hfs.exists_of_canonicalize hmade.root
  -- What is known to be a directory is what the canonical target names.
  obtain ⟨d, hres, hd⟩ := FileSystem.isDirectory_iff.mp hmade.isDirectory
  have htarget := FileSystem.toPath_of_canonicalize hmade.target hres
  have hinside := hmade.inside
  rw [hroot, htarget, Location.components_prefix_iff (hfs.areNames hr)
    (hfs.areNames (FileSystem.isDir_eq_true.mp hd))] at hinside
  obtain ⟨below, rfl⟩ := hinside
  have haskable := hmade.askable
  rw [htarget, FileSystem.isAskable_toPath_iff (hfs.areNames (FileSystem.isDir_eq_true.mp hd))] at haskable
  exact ⟨r, below, hroot, htarget, hd, haskable.2⟩

variable {cwd : Location}

end Project

end IncludeMoves
