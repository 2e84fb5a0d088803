import IncludeMoves.FileSystem.Resolve

/-!
# Walking a directory tree

The walk enters every directory below its start, also through links, and reports every regular file
by the path on which it was reached, and every failure. A link may lead anywhere but to a directory
in which the walk already is. A listing shows what kind of entry each name is, so a regular file is
reported without being looked up; a directory is opened, and a link is followed.

The walk ends because a directory entered through a link is none of those above it, of which there
are finitely many, and between two links it only goes deeper.
-/

namespace IncludeMoves

/-- Why the walk could not go on at a path. Each of these ends the search for sources, whatever has been
found before. -/
inductive WalkError where
  | io (path : Path) (e : IoError)
  -- A directory behind a link that cannot be opened is reported without its path.
  | unopened (e : IoError)
  | loop (link ancestor : Path)
  deriving DecidableEq, Repr

/-- The text of the failure. -/
def WalkError.message : WalkError → String
  | .io path e => "IO error for operation on " ++ path.display ++ ": " ++ e.message
  | .unopened e => e.message
  | .loop link ancestor =>
    "File system loop found: " ++ link.display ++ " points to an ancestor " ++ ancestor.display

namespace FileSystem

/-- A directory in which the walk is: the path on which it was reached, and its location. The path goes
through links as they are spelled, so many visits can be at one location. -/
structure Visit where
  path : Path
  location : Location
  deriving DecidableEq, Repr

/-- The number of directories in which the walk is not. It is the first part of the measure by which the
walk ends: a link is followed only if that makes it less. -/
def unvisited (fs : FileSystem) (visits : List Visit) : Nat :=
  fs.directories.countP fun d => !(visits.any fun v => v.location == d)

theorem mem_of_lookup_eq_some {α β : Type} [BEq α] [LawfulBEq α] {k : α} {v : β} :
    ∀ {es : List (α × β)}, es.lookup k = some v → (k, v) ∈ es
  | [], h => by simp at h
  | (k', v') :: es, h => by
    rw [List.lookup_cons] at h
    split at h
    · next hk => simp_all
    · exact List.mem_cons_of_mem _ (mem_of_lookup_eq_some h)

theorem length_le_depth_of_mem {es : List (Location × Node)} {e : Location × Node} (h : e ∈ es) :
    e.1.length ≤ es.foldr (fun e d => max e.1.length d) 0 := by
  induction es with
  | nil => simp at h
  | cons a es ih =>
    rcases List.mem_cons.mp h with rfl | h
    · exact Nat.le_max_left _ _
    · exact Nat.le_trans (ih h) (Nat.le_max_right _ _)

/-- No location is longer than the depth of the file system. -/
theorem length_le_depth {fs : FileSystem} {l : Location} {node : Node}
    (h : fs.node? l = some node) : l.length ≤ fs.depth := by
  unfold node? at h
  split at h
  · next hl => simp [hl]
  · exact length_le_depth_of_mem (mem_of_lookup_eq_some h)

/-- A location that is a directory is among the directories. -/
theorem mem_directories {fs : FileSystem} {l : Location} (h : fs.node? l = some .dir) :
    l ∈ fs.directories := by
  unfold node? at h
  unfold directories
  split at h
  · next hl => simp [hl]
  · exact List.mem_cons_of_mem _
      (List.mem_filterMap.mpr ⟨(l, .dir), mem_of_lookup_eq_some h, by simp⟩)

/-- Being in one directory more leaves no more of them. -/
theorem unvisited_cons_le (fs : FileSystem) (v : Visit) (vs : List Visit) :
    fs.unvisited (v :: vs) ≤ fs.unvisited vs :=
  List.countP_mono_left fun d _ hd => by
    simp only [List.any_cons, Bool.not_eq_true', Bool.or_eq_false_iff] at hd ⊢
    exact hd.2

theorem countP_lt_of_mem {α : Type} {p q : α → Bool} {xs : List α} {x : α}
    (hpq : ∀ y ∈ xs, p y = true → q y = true) (hx : x ∈ xs) (hq : q x = true) (hp : p x = false) :
    xs.countP p < xs.countP q := by
  induction xs with
  | nil => simp at hx
  | cons y ys ih =>
    have hle : ys.countP p ≤ ys.countP q :=
      List.countP_mono_left fun z hz => hpq z (List.mem_cons_of_mem _ hz)
    rcases List.mem_cons.mp hx with rfl | hx
    · simp only [List.countP_cons, hq, hp]
      simp
      omega
    · have hlt := ih (fun z hz => hpq z (List.mem_cons_of_mem _ hz)) hx
      simp only [List.countP_cons]
      by_cases hy : p y = true
      · simp [hy, hpq y List.mem_cons_self hy, hlt]
      · by_cases hy' : q y = true <;> simp [hy, hy'] <;> omega

/-- Entering a directory in which the walk is not leaves one less. -/
theorem unvisited_cons_lt {fs : FileSystem} {v : Visit} {vs : List Visit}
    (hdir : fs.node? v.location = some .dir)
    (hnew : vs.find? (fun w => w.location == v.location) = none) :
    fs.unvisited (v :: vs) < fs.unvisited vs := by
  refine countP_lt_of_mem (x := v.location) ?_ (mem_directories hdir) ?_ ?_
  · intro d _ hd
    simp only [List.any_cons, Bool.not_eq_true', Bool.or_eq_false_iff] at hd ⊢
    exact hd.2
  · simp only [List.find?_eq_none] at hnew
    simp only [Bool.not_eq_true', List.any_eq_false]
    exact fun w hw => by simpa using hnew w hw
  · simp

/-- Why the directory that is the entry `n` of the directory `here` cannot be listed, if it cannot. The
length of the path is checked before anything is looked up. -/
def barrier? (fs : FileSystem) (here : Visit) (n : Name) : Option OsError :=
  if (here.path.child n).isTooLong then some .nameTooLong
  else if fs.maySearch here.location && fs.mayList (n :: here.location) then none
  else some .accessDenied

/-- The walk through the directory `here`, which was entered from the directories `above`, the
innermost one first. -/
def descend (fs : FileSystem) (here : Visit) (above : List Visit) :
    List (Except WalkError Path) :=
  (fs.children here.location).flatMap fun n =>
    let path := here.path.child n
    match _hn : fs.node? (n :: here.location) with
    | none => []
    -- An entry that is a file is reported without a further look.
    | some (.file _) => [.ok path]
    | some .dir =>
      match fs.barrier? here n with
      | some e => [.error (.io path (.os e))]
      | none => fs.descend ⟨path, n :: here.location⟩ (here :: above)
    -- Where a link leads has to be found out.
    | some (.link _) =>
      match fs.resolve path with
      | .error e => [.error (.io path e)]
      | .ok l =>
        match _hl : fs.node? l with
        | none => []
        | some (.file _) => [.ok path]
        | some (.link _) => []
        -- Only a link can lead back, so only here is it asked whether the walk is in there.
        | some .dir =>
          if fs.mayList l then
            match _hv : (here :: above).find? (fun v => v.location == l) with
            | some v => [.error (.loop path v.path)]
            | none => fs.descend ⟨path, l⟩ (here :: above)
          else [.error (.unopened (.os .accessDenied))]
termination_by (fs.unvisited (here :: above), fs.depth - here.location.length)
decreasing_by
  -- A directory below this one: not more directories are left, and the location is longer.
  · rcases Nat.lt_or_eq_of_le (fs.unvisited_cons_le ⟨path, n :: here.location⟩ (here :: above))
      with h | h
    · exact Prod.Lex.left _ _ h
    · rw [h]
      refine Prod.Lex.right _ ?_
      have := length_le_depth _hn
      simp only [List.length_cons] at this ⊢
      omega
  -- A directory behind a link: the walk was not in it, so fewer are left.
  · exact Prod.Lex.left _ _ (unvisited_cons_lt _hl _hv)

/-- **The walk from a start**: the regular files below it and the failures, in the order in which
they are met. -/
def walk (fs : FileSystem) (start : Path) : List (Except WalkError Path) :=
  match fs.lookup .entry start with
  | .error e => [.error (.io start e)]
  | .ok first =>
    match fs.resolve start with
    | .error e => [.error (.io start e)]
    | .ok l =>
      match fs.node? first, fs.node? l with
      | some _, some (.file _) => [.ok start]
      | some node, some .dir =>
        if fs.mayList l then fs.descend ⟨start, l⟩ []
        -- A link is opened by the check for loops, whose error has no path.
        else if node = .dir then [.error (.io start (.os .accessDenied))]
        else [.error (.unopened (.os .accessDenied))]
      | _, _ => []

end FileSystem

end IncludeMoves
