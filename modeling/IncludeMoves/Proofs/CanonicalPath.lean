import IncludeMoves.Proofs.Lookup

/-!
# Canonical paths

The absolute path of a place names it: looked up, it leads back there, if all directories on the way may
be searched. A path may be looked up in one request or name by name; if both succeed, they end at the
same place.

* `FileSystem.IsPlace.steps_toPath` — the names of the absolute path of a place;
* `FileSystem.IsPlace.lookup_toPath` — it leads to the place;
* `FileSystem.Leads.maySearchAbove` — what a lookup from the root has come to can be looked up again;
* `FileSystem.toPath_of_canonicalize` — a canonical path is the absolute path of what is opened;
* `FileSystem.canonicalize_cases` — what can be opened has one, unless a path on the way is too long, or
  the process is in a directory that cannot be come to from the root.
-/

namespace IncludeMoves

namespace Path

theorem chunks_append {n : Name} {bs : List UInt8} {ns : List Name} (hn : separator ∉ n)
    (h : chunks bs = [] :: ns) : chunks (n ++ bs) = n :: ns := by
  induction n with
  | nil => exact h
  | cons b n ih =>
    rw [List.mem_cons, not_or] at hn
    rw [List.cons_append, chunks, if_neg (Ne.symm hn.1), ih hn.2]

/-- The parts of a path that is put together of names. -/
theorem chunks_flatMap {names : List Name} (h : ∀ n ∈ names, separator ∉ n) :
    chunks (names.flatMap fun n => separator :: n) = [] :: names := by
  induction names with
  | nil => rfl
  | cons n names ih =>
    rw [List.flatMap_cons, List.cons_append, chunks, if_pos rfl,
      chunks_append (h n List.mem_cons_self) (ih fun n hn => h n (List.mem_cons_of_mem _ hn))]

/-- A relative path begins with a name. What stands in front of its first separator is not empty, for
otherwise the path would be absolute. -/
theorem exists_steps {q : Path} (hempty : q.bytes ≠ []) (hq : q.isAbsolute = false) :
    ∃ n rest, n ≠ [] ∧ q.steps = n :: rest := by
  obtain ⟨b, bs, hbytes⟩ := List.exists_cons_of_ne_nil hempty
  have hb : b ≠ separator := by
    rintro rfl
    simp [isAbsolute, hbytes] at hq
  -- The first part has at least the first byte.
  obtain ⟨c, cs, hchunks⟩ : ∃ c cs, chunks q.bytes = (b :: c) :: cs := by
    rw [hbytes, chunks, if_neg hb]
    cases chunks bs with
    | nil => exact ⟨[], [], rfl⟩
    | cons c cs => exact ⟨c, cs, rfl⟩
  have hfilter : (chunks q.bytes).filter (fun n => n ≠ []) = (b :: c) :: cs.filter (fun n => n ≠ []) := by
    rw [hchunks, List.filter_cons_of_pos (by simp)]
  simp only [steps, hfilter]
  split <;> exact ⟨_, _, List.cons_ne_nil b c, rfl⟩

end Path

theorem Location.isAbsolute_toPath (l : Location) : l.toPath.isAbsolute = true := by
  cases l with
  | nil => rfl
  | cons n l =>
    -- The first byte is the separator in front of the outermost name.
    rw [Location.toPath, Path.isAbsolute]
    cases h : (n :: l).reverse with
    | nil => simp at h
    | cons m ms => simp
    simp

theorem Location.bytes_toPath_ne_nil (l : Location) : l.toPath.bytes ≠ [] := by
  intro hempty
  have habsolute := l.isAbsolute_toPath
  rw [Path.isAbsolute, hempty] at habsolute
  cases habsolute

namespace FileSystem

variable {fs : FileSystem} {route : Route} {l k : Location} {names rest : List Name} {n : Name}
  {p : Progress} {s : Spot} {q c : Path} {node : Node}

theorem IsPlace.isEntryName (h : IsPlace fs l) : ∀ n ∈ l, IsEntryName n := by
  induction h with
  | root => simp
  | entry _ _ hn ih =>
    intro m hm
    rcases List.mem_cons.mp hm with rfl | hm
    · exact hn
    · exact ih m hm

theorem getLast?_toPath_ne (hn : IsEntryName n) :
    (Location.toPath (n :: l)).bytes.getLast? ≠ some separator := by
  intro h
  have hbytes : (Location.toPath (n :: l)).bytes
      = (l.reverse.flatMap fun n => separator :: n) ++ separator :: n := by
    simp [Location.toPath]
  have hlast : n.getLast? = some separator := by
    obtain ⟨b, bs, rfl⟩ := List.exists_cons_of_ne_nil hn.nonempty
    simpa [hbytes, List.getLast?_cons_cons] using h
  exact hn.separator_not_mem (List.mem_of_getLast? hlast)

/-- The parts of the absolute path of a location: the names, and nothing in front of the first one. -/
theorem chunks_toPath (hnames : ∀ m ∈ n :: l, IsEntryName m) :
    Path.chunks (Location.toPath (n :: l)).bytes = [] :: (n :: l).reverse :=
  Path.chunks_flatMap fun m hm => (hnames m (List.mem_reverse.mp hm)).separator_not_mem

/-- The absolute path of a location has the names of the location. It begins with a separator and ends
with a name, so nothing is lost and nothing is added. -/
theorem steps_toPath (hnames : ∀ n ∈ l, IsEntryName n) : l.toPath.steps = l.reverse := by
  cases l with
  | nil => rfl
  | cons n l =>
    have hfilter : (Path.chunks (Location.toPath (n :: l)).bytes).filter (fun n => n ≠ [])
        = (n :: l).reverse := by
      rw [chunks_toPath hnames, List.filter_cons_of_neg (by simp), List.filter_eq_self]
      intro m hm
      simpa using (hnames m (List.mem_reverse.mp hm)).nonempty
    simp only [Path.steps, hfilter]
    -- No separator at the end, so no step is added there.
    rw [if_neg fun hlast => getLast?_toPath_ne (hnames n List.mem_cons_self) hlast.2]

theorem IsPlace.steps_toPath (h : IsPlace fs l) : l.toPath.steps = l.reverse :=
  FileSystem.steps_toPath h.isEntryName

/-! ### From the root to a place -/

theorem IsEntryName.admits (hn : IsEntryName n) (hl : fs.isDir l = true)
    (hreach : route.reaches (n :: l) = true) (htakes : route.takesNames fs l = true) :
    Admits fs route l n :=
  ⟨hn.nonempty, hn.not_dot, hn.not_up, hreach, hl, htakes, hn.length_le⟩

theorem maySearchAbove_cons (fs : FileSystem) (n : Name) (l : Location) :
    fs.maySearchAbove (n :: l) = true ↔ fs.maySearch l = true ∧ fs.maySearchAbove l = true := by
  rw [maySearchAbove, Bool.and_eq_true]

theorem maySearchAbove_tail (h : fs.maySearchAbove l = true) : fs.maySearchAbove l.tail = true := by
  cases l with
  | nil => rfl
  | cons n l => exact ((maySearchAbove_cons fs n l).mp h).2

theorem maySearchAbove_of_suffix (hk : k <:+ l) (h : fs.maySearchAbove l = true) :
    fs.maySearchAbove k = true := by
  obtain ⟨before, rfl⟩ := hk
  induction before with
  | nil => exact h
  | cons n before ih => exact ih (maySearchAbove_tail h)

/-- From the root, a name can be looked up on every route. -/
theorem takesNames_of_maySearchAbove (h : fs.maySearchAbove (n :: l) = true) :
    route.takesNames fs l = true := by
  cases route with
  | entry => exact ((maySearchAbove_cons fs n l).mp h).1
  | target => exact ((maySearchAbove_cons fs n l).mp h).1
  | stepwise => exact h

theorem IsPlace.advance_append (h : IsPlace fs l) (hl : fs.isDir l = true)
    (hopen : fs.maySearchAbove l = true)
    (hroute : ∀ k, k <:+ l → route.reaches k = true) (rest : List Name) :
    fs.advance route [] (l.reverse ++ rest) = fs.advance route l rest := by
  induction h generalizing rest with
  | root => rfl
  | entry _ hdir hn ih =>
    have hadmits := hn.admits hdir (hroute _ List.suffix_rfl) (takesNames_of_maySearchAbove hopen)
    rw [List.reverse_cons, List.append_assoc, List.singleton_append,
      ih hdir (maySearchAbove_tail hopen) fun k hk => hroute k (hk.trans (List.suffix_cons _ _)),
      hadmits.advance, isDir_eq_true.mp hl]

/-- What is at a place is found by the names of the place, unless it is a link, if the directories on the
way may be searched, on every route that takes their paths. -/
theorem IsPlace.advances (h : IsPlace fs l) (hnode : fs.node? l = some node)
    (hne : ∀ t, node ≠ .link t) (hopen : fs.maySearchAbove l = true)
    (hroute : ∀ k, k <:+ l → route.reaches k = true) :
    Advances fs route [] l.reverse (.arrived (.found l)) := by
  cases h with
  | root => exact .done
  | entry hl hdir hn =>
    -- The way to the directory, and from there the last name.
    rw [List.reverse_cons, ← advances_iff,
      hl.advance_append hdir (maySearchAbove_tail hopen) fun k hk =>
        hroute k (hk.trans (List.suffix_cons _ _)), advances_iff]
    exact .enter (hn.admits hdir (hroute _ List.suffix_rfl) (takesNames_of_maySearchAbove hopen))
      hnode hne .done

/-- By the names of a place that is no link a lookup comes there, or it is refused. It cannot come to
another place, and it meets no link on the way. -/
theorem IsPlace.advance_cases (h : IsPlace fs l) (hl : fs.isDir l = true) (route : Route)
    (rest : List Name) :
    fs.advance route [] (l.reverse ++ rest) = fs.advance route l rest ∨
      ∃ e, fs.advance route [] (l.reverse ++ rest) = .error e := by
  induction h generalizing rest with
  | root => exact .inl rfl
  | @entry l n _ hdir hn ih =>
    rw [List.reverse_cons, List.append_assoc, List.singleton_append]
    rcases ih hdir (n :: rest) with hcome | hrefused
    · rw [hcome]
      -- Only the length of the path and the permission to search can stand in the way.
      by_cases hreach : route.reaches (n :: l) = true
      · by_cases htakes : route.takesNames fs l = true
        · left
          rw [(hn.admits hdir hreach htakes).advance, isDir_eq_true.mp hl]
        · right
          exact ⟨.accessDenied, by simp [advance, hn.nonempty, hn.not_dot, hn.not_up, hreach, hdir, htakes]⟩
      · right
        exact ⟨.nameTooLong, by simp [advance, hn.nonempty, hn.not_dot, hn.not_up, hreach]⟩
    · exact .inr hrefused

theorem IsPlace.eq_of_advances (h : IsPlace fs l) (hnode : fs.node? l = some node)
    (hne : ∀ t, node ≠ .link t) (hadv : Advances fs route [] l.reverse p) :
    p = .arrived (.found l) := by
  cases h with
  | root =>
    cases hadv
    rfl
  | @entry l n hl hdir hn =>
    have hadvance := hadv.advance
    rw [List.reverse_cons] at hadvance
    -- By the names of its directory a lookup comes to the directory, or it ends there.
    rcases hl.advance_cases hdir route [n] with hcome | ⟨e, hrefused⟩
    · -- What is left is the last name, behind which there is no link.
      rw [hcome, advances_iff] at hadvance
      cases hadvance with
      | close _ _ => exact absurd rfl hn.nonempty
      | here _ _ _ => exact absurd rfl hn.not_dot
      | up _ _ _ => exact absurd rfl hn.not_up
      | missing _ hnone => simp [hnode] at hnone
      | stay _ hlink _ => exact absurd (Option.some.inj (hnode.symm.trans hlink)) (hne _)
      | atLink _ hlink _ => exact absurd (Option.some.inj (hnode.symm.trans hlink)) (hne _)
      | enter _ _ _ hdone =>
        cases hdone
        rfl
    · rw [hrefused] at hadvance
      cases hadvance

/-- **The names of a place lead nowhere else**, if they lead anywhere. -/
theorem IsPlace.eq_of_leads {budget : Nat} (h : IsPlace fs l) (hnode : fs.node? l = some node)
    (hne : ∀ t, node ≠ .link t) (hleads : Leads fs route budget [] l.reverse s) : s = .found l := by
  cases hleads with
  | arrive hadv => exact Progress.arrived.inj (h.eq_of_advances hnode hne hadv)
  | follow hadv _ _ => cases h.eq_of_advances hnode hne hadv

/-! ### What a lookup has come to -/

theorem Admits.maySearchAbove (h : Admits fs route l n) (hl : fs.maySearchAbove l = true) :
    fs.maySearchAbove (n :: l) = true :=
  (maySearchAbove_cons fs n l).mpr ⟨maySearch_of_takesNames h.takes, hl⟩

theorem Advances.maySearchAbove (h : Advances fs route l names p) (hl : fs.maySearchAbove l = true) :
    p.Holds fun k => fs.maySearchAbove k = true :=
  h.invariant (fun _ => maySearchAbove_tail) (fun _ _ _ hl h _ _ => h.maySearchAbove hl) hl

/-- **What a lookup from the root has come to can be looked up from there again.** -/
theorem Leads.maySearchAbove {budget : Nat} (h : Leads fs route budget l names (.found k))
    (hl : fs.maySearchAbove l = true) : fs.maySearchAbove k = true :=
  h.invariant (motive := fun k => fs.maySearchAbove k = true) rfl (fun _ => maySearchAbove_tail)
    (fun _ _ _ hl h _ _ => h.maySearchAbove hl) hl

/-- **What a successful lookup is**: a path that is asked for in the right form, and a way along its
names. The checks of the path come first, so both directions go through them one by one. -/
theorem lookup_eq_ok : fs.lookup route q = .ok l ↔
    q.bytes.contains 0 = false ∧ q.bytes ≠ [] ∧ route.accepts q = true ∧ route.starts fs q = true ∧
      Leads fs route maxLinks (fs.origin q) q.steps (.found l) := by
  unfold lookup locate
  -- The refusals in the order in which they are made, then the lookup itself.
  by_cases hnul : q.bytes.contains 0 = true
  · rw [if_pos hnul, hnul]
    simp
  by_cases hempty : q.bytes = []
  · rw [if_neg hnul, if_pos hempty]
    simp [hempty]
  by_cases hlen : route.accepts q = true
  · by_cases hstarts : route.starts fs q = true
    · rw [if_neg hnul, if_neg hempty, if_neg (by simp [hlen]), if_neg (by simp [hstarts]), ← leads_iff]
      cases fs.locateFrom route maxLinks (fs.origin q) q.steps with
      | error e => exact ⟨fun h => (by cases h), fun h => (by cases h.2.2.2.2)⟩
      | ok s =>
        cases s with
        | absent parent n => exact ⟨fun h => (by cases h), fun h => (by cases h.2.2.2.2)⟩
        | found k =>
          refine ⟨fun h => ?_, fun h => ?_⟩
          · cases h
            exact ⟨by simpa using hnul, hempty, hlen, hstarts, rfl⟩
          · cases h.2.2.2.2
            rfl
    · rw [if_neg hnul, if_neg hempty, if_neg (by simp [hlen]), if_pos (by simp [hstarts])]
      simp [hstarts]
  · rw [if_neg hnul, if_neg hempty, if_pos (by simp [hlen])]
    simp [hlen]

/-- A path that is too long for a request is refused before anything is looked up. -/
theorem lookup_of_not_accepts (hnul : q.bytes.contains 0 = false) (hempty : q.bytes ≠ [])
    (haccepts : route.accepts q = false) : fs.lookup route q = .error (.os .nameTooLong) := by
  rw [lookup, locate, if_neg (by rw [hnul]; simp), if_neg hempty, if_pos (by simp [haccepts])]

/-- A lookup starts, whatever the current directory is, if the path is absolute. -/
theorem starts_of_isAbsolute (hq : q.isAbsolute = true) : route.starts fs q = true := by
  cases route <;> simp [Route.starts, hq]

/-- What an absolute path leads to can be looked up from the root. -/
theorem maySearchAbove_of_lookup (h : fs.lookup route q = .ok l) (hq : q.isAbsolute = true) :
    fs.maySearchAbove l = true := by
  obtain ⟨-, -, -, -, hleads⟩ := lookup_eq_ok.mp h
  rw [origin, if_pos hq] at hleads
  exact hleads.maySearchAbove rfl

/-- **The absolute path of a place leads to it**, if the requests for it may be made. -/
theorem IsPlace.lookup_toPath (h : IsPlace fs l) (hnode : fs.node? l = some node)
    (hne : ∀ t, node ≠ .link t) (hnul : l.toPath.bytes.contains 0 = false)
    (hempty : l.toPath.bytes ≠ []) (haccepts : route.accepts l.toPath = true)
    (hopen : fs.maySearchAbove l = true) (hroute : ∀ k, k <:+ l → route.reaches k = true) :
    fs.lookup route l.toPath = .ok l := by
  refine lookup_eq_ok.mpr
    ⟨hnul, hempty, haccepts, starts_of_isAbsolute l.isAbsolute_toPath, ?_⟩
  rw [origin, if_pos l.isAbsolute_toPath, h.steps_toPath]
  exact .arrive (h.advances hnode hne hopen hroute)

theorem isDirectory_iff : fs.isDirectory q = true ↔
    ∃ l, fs.resolve q = .ok l ∧ fs.isDir l = true := by
  unfold isDirectory
  cases fs.resolve q with
  | error e => simp
  | ok l => simp

/-- In one request only the path itself has to be short enough. -/
theorem IsPlace.resolve_toPath (h : IsPlace fs l) (hnode : fs.node? l = some node)
    (hne : ∀ t, node ≠ .link t) (hnul : l.toPath.bytes.contains 0 = false)
    (hempty : l.toPath.bytes ≠ []) (hlen : l.toPath.isTooLong = false)
    (hopen : fs.maySearchAbove l = true) : fs.resolve l.toPath = .ok l :=
  h.lookup_toPath hnode hne hnul hempty (by simp [Route.accepts, hlen]) hopen fun _ _ => rfl

/-- What a path leads to from a place is at a place. -/
theorem isPlace_of_lookup (h : fs.lookup route q = .ok l) (horigin : IsPlace fs (fs.origin q)) :
    IsPlace fs l := by
  obtain ⟨-, -, -, -, hleads⟩ := lookup_eq_ok.mp h
  exact hleads.isPlace horigin fun n hn => isStep_of_mem_steps hn

/-! ### Step by step -/

/-- A lookup step by step ends where one request does, if neither is refused. The two differ in what is
refused only. -/
theorem Advances.unique_of_stepwise {p' : Progress} (h : Advances fs .stepwise l names p)
    (h' : Advances fs .target l names p') : p = p' := by
  induction h with
  | done =>
    cases h'
    rfl
  | close _ _ ih => exact ih h'.of_close
  | here _ _ _ ih => exact ih h'.of_here
  | up _ _ _ ih => exact ih h'.of_up
  -- Where a name is looked up, one request may look it up as well.
  | missing hadmits hnode =>
    exact (Advances.missing (hadmits.of_ne_stepwise target_ne_stepwise) hnode).unique h'
  | stay _ _ hstay => cases hstay
  | atLink hadmits hnode _ =>
    exact (Advances.atLink (hadmits.of_ne_stepwise target_ne_stepwise) hnode
        fun h => by cases h.2).unique h'
  | enter hadmits hnode hne _ ih =>
    -- The entry is the same for both, so both go on behind it.
    have hadvance := h'.advance
    rw [(hadmits.of_ne_stepwise target_ne_stepwise).advance, hnode] at hadvance
    split at hadvance
    · next hnone => cases hnone
    · next hlink => exact absurd (Option.some.inj hlink) (hne _)
    · exact ih (advances_of_advance hadvance)

/-- The same over all links: the canonical path of what a path leads to belongs to the place to which
the path itself leads. -/
theorem Leads.unique_of_stepwise {b b' : Nat} {s' : Spot} (h : Leads fs .stepwise b l names s)
    (h' : Leads fs .target b' l names s') : s = s' := by
  induction h generalizing b' s' with
  | arrive h =>
    cases h' with
    | arrive h' => exact Progress.arrived.inj (h.unique_of_stepwise h')
    | follow h' _ _ => cases h.unique_of_stepwise h'
  | follow h _ _ ih =>
    cases h' with
    -- The stepwise lookup has come to a link, and so does the other one.
    | arrive h' => cases h.unique_of_stepwise h'
    | follow h' _ hrest' =>
      cases h.unique_of_stepwise h'
      exact ih hrest'

/-- In one request, a name is looked up in a directory that may be searched. -/
theorem Leads.maySearch {budget : Nat} (h : Leads fs .target budget l (n :: rest) s) (hn : n ≠ []) :
    fs.maySearch l = true := by
  -- The first name is looked up in the directory in which the lookup starts, whatever comes of it.
  have hadv : ∀ {p : Progress}, Advances fs .target l (n :: rest) p → fs.maySearch l = true := by
    intro p h
    cases h with
    | close _ _ => exact absurd rfl hn
    | here _ htakes _ => exact htakes
    | up _ htakes _ => exact htakes
    | missing hadmits _ => exact hadmits.takes
    | stay hadmits _ _ => exact hadmits.takes
    | atLink hadmits _ _ => exact hadmits.takes
    | enter hadmits _ _ _ => exact hadmits.takes
  cases h with
  | arrive h => exact hadv h
  | follow h _ _ => exact hadv h

/-- **What is refused step by step**, though it is not in one request: a place with too long a path, or,
if the lookup did not start at one that can be come to from the root, a name. -/
def StepwiseRefusal (fs : FileSystem) (l : Location) : OsError → Prop
  | .nameTooLong => True
  | .accessDenied => fs.maySearchAbove l = false
  | _ => False

theorem StepwiseRefusal.imp {e : OsError} (h : StepwiseRefusal fs k e)
    (hk : fs.maySearchAbove l = true → fs.maySearchAbove k = true) : StepwiseRefusal fs l e := by
  cases e with
  | nameTooLong => trivial
  | accessDenied =>
    rw [StepwiseRefusal, Bool.eq_false_iff] at h ⊢
    exact fun hl => h (hk hl)
  | _ => exact h

/-- A name that may be looked at in one request may be so step by step, or it is refused. -/
theorem Admits.stepwise_cases (h : Admits fs .target l n) (rest : List Name) :
    Admits fs .stepwise l n ∨
      ∃ e, fs.advance .stepwise l (n :: rest) = .error e ∧ StepwiseRefusal fs l e := by
  by_cases hreach : Route.stepwise.reaches (n :: l) = true
  -- The place is near enough. What else the route asks for is that the way from the root is open.
  · by_cases hopen : fs.maySearchAbove l = true
    · exact .inl { h with reaches := hreach, takes := h.maySearchAbove hopen }
    · right
      refine ⟨.accessDenied, ?_, Bool.eq_false_iff.mpr hopen⟩
      simp [FileSystem.advance, h.nonempty, h.not_dot, h.not_up, hreach, h.isDir, Route.takesNames, hopen]
  · right
    refine ⟨.nameTooLong, ?_, trivial⟩
    simp [FileSystem.advance, h.nonempty, h.not_dot, h.not_up, hreach]

/-- Step by step, a lookup gets as far as in one request, or it is refused. The ways to be refused are
known: the path of a place on the way is too long, or a directory above the start may not be searched.
-/
theorem Advances.stepwise_cases (h : Advances fs .target l names p) :
    Advances fs .stepwise l names p ∨
      ∃ e, fs.advance .stepwise l names = .error e ∧ StepwiseRefusal fs l e := by
  induction h with
  | done => exact .inl .done
  | close hdir _ ih =>
    refine ih.imp (.close hdir) ?_
    rintro ⟨e, h, he⟩
    exact ⟨e, by simpa [FileSystem.advance, hdir] using h, he⟩
  | here hdir _ _ ih =>
    refine ih.imp (.here hdir rfl) ?_
    rintro ⟨e, h, he⟩
    exact ⟨e, by simpa [FileSystem.advance, hdir, Route.takesDots] using h, he⟩
  | up hdir _ _ ih =>
    refine ih.imp (.up hdir rfl) ?_
    rintro ⟨e, h, he⟩
    -- What may be searched above a directory may be searched above its parent.
    exact ⟨e, by simpa [FileSystem.advance, hdir, Route.takesDots] using h, he.imp maySearchAbove_tail⟩
  | missing hadmits hnode =>
    exact (hadmits.stepwise_cases []).imp_left fun hadmits' => .missing hadmits' hnode
  | stay _ _ hstay => cases hstay
  | atLink hadmits hnode _ =>
    exact (hadmits.stepwise_cases _).imp_left fun hadmits' =>
      .atLink hadmits' hnode fun h => by cases h.2
  | @enter l n node rest p hadmits hnode hne _ ih =>
    -- If the name may be looked up, what is behind it decides; else it is refused here.
    rcases hadmits.stepwise_cases rest with hadmits' | hrefused
    · refine ih.imp (.enter hadmits' hnode hne) ?_
      rintro ⟨e, h, he⟩
      refine ⟨e, ?_, he.imp hadmits.maySearchAbove⟩
      rw [hadmits'.advance, hnode]
      cases node with
      | link t => exact absurd rfl (hne t)
      | dir => exact h
      | file f => exact h
    · exact .inr hrefused

/-- The same over all links. Behind an absolute link the lookup starts at the root, above which there is
nothing that could be closed. -/
theorem Leads.stepwise_cases {budget : Nat} (h : Leads fs .target budget l names s) :
    Leads fs .stepwise budget l names s ∨
      ∃ e, fs.locateFrom .stepwise budget l names = .error e ∧ StepwiseRefusal fs l e := by
  induction h with
  | arrive h =>
    refine h.stepwise_cases.imp .arrive ?_
    rintro ⟨e, h, he⟩
    exact ⟨e, by rw [FileSystem.locateFrom.eq_def, h], he⟩
  | @follow budget l parent names rest t s hadv hne _ ih =>
    rcases hadv.stepwise_cases with h | ⟨e, h, he⟩
    -- The way to the link, and the way from it. Each of them may be refused.
    · refine ih.imp (.follow h hne) ?_
      rintro ⟨e, hrefused, he⟩
      refine ⟨e, ?_, he.imp fun hl => ?_⟩
      · rw [FileSystem.locateFrom, h.advance]
        simpa [hne] using hrefused
      · -- The lookup went on at the root or beside the link.
        split
        · rfl
        · exact hadv.maySearchAbove hl
    · right
      refine ⟨e, ?_, he⟩
      rw [FileSystem.locateFrom, h]

/-- **A directory to which the way from the root is closed**: one that it lies in may not be searched, or
its path is too long and one that it lies in may not be listed. -/
def IsClosed (fs : FileSystem) (l : Location) : Prop :=
  fs.maySearchAbove l = false ∨ l.toPath.isTooLong = true ∧ fs.mayListAbove l = false

/-- **A path that leads to something has a canonical form**, unless one of the places on the way has too
long a path, or the path is a relative one and the way to the current directory is closed. -/
theorem canonicalize_cases (hl : fs.resolve q = .ok l) :
    fs.canonicalize q = .ok l.toPath ∨ fs.canonicalize q = .error (.os .nameTooLong) ∨
      fs.canonicalize q = .error (.os .accessDenied) ∧ q.isAbsolute = false ∧ fs.IsClosed fs.cwd := by
  obtain ⟨hnul, hempty, -, -, hleads⟩ := lookup_eq_ok.mp hl
  have hlocate : fs.locate .stepwise q = if !Route.stepwise.starts fs q then .error (.os .accessDenied)
      else (fs.locateFrom .stepwise maxLinks (fs.origin q) q.steps).mapError .os := by
    rw [locate, if_neg (by rw [hnul]; simp), if_neg hempty, if_neg (by simp [Route.accepts])]
  have hrefused : ∀ e, fs.locate .stepwise q = .error e → fs.canonicalize q = .error e := fun e h => by
    rw [canonicalize, lookup, h, Except.map]
  by_cases hstarts : Route.stepwise.starts fs q = true
  · rw [if_neg (by simp [hstarts])] at hlocate
    -- The lookup may start, and so it gets to the end, or it is refused on the way.
    rcases hleads.stepwise_cases with h | ⟨e, h, he⟩
    · have hlookup : fs.lookup .stepwise q = .ok l := lookup_eq_ok.mpr ⟨hnul, hempty, rfl, hstarts, h⟩
      exact .inl (by rw [canonicalize, hlookup, Except.map])
    · right
      rw [h] at hlocate
      have hcanonical := hrefused _ hlocate
      cases e with
      | nameTooLong => exact .inl hcanonical
      | accessDenied =>
        -- From the root no name would have been refused.
        have hrelative : q.isAbsolute = false := by
          rw [Bool.eq_false_iff]
          intro hq
          rw [StepwiseRefusal, origin, if_pos hq] at he
          cases he
        rw [StepwiseRefusal, origin, if_neg (by simp [hrelative])] at he
        exact .inr ⟨hcanonical, hrelative, .inl he⟩
      | _ => cases he
  · right
    rw [if_pos (by simp [hstarts])] at hlocate
    simp only [Route.starts, Bool.or_eq_true, Bool.and_eq_true, not_or, Bool.not_eq_true',
      Bool.not_eq_false, Bool.not_eq_true] at hstarts
    obtain ⟨⟨hrelative, hlong⟩, hclosed⟩ := hstarts
    -- The first name of the path has been looked up in the current directory.
    obtain ⟨n, rest, hn, hsteps⟩ := Path.exists_steps hempty hrelative
    rw [hsteps, origin, if_neg (by simp [hrelative])] at hleads
    have hsearch := hleads.maySearch hn
    refine .inr ⟨hrefused _ hlocate, hrelative, ?_⟩
    by_cases hopen : fs.maySearchAbove fs.cwd = true
    · exact .inr ⟨hlong, Bool.eq_false_iff.mpr fun hlist => hclosed ⟨⟨hsearch, hopen⟩, hlist⟩⟩
    · exact .inl (Bool.eq_false_iff.mpr hopen)

theorem exists_lookup_of_canonicalize (hc : fs.canonicalize q = .ok c) :
    ∃ l, fs.lookup .stepwise q = .ok l ∧ c = l.toPath := by
  unfold canonicalize at hc
  cases hlookup : fs.lookup .stepwise q with
  | error e => simp [hlookup, Except.map] at hc
  | ok l =>
    rw [hlookup, Except.map] at hc
    exact ⟨l, rfl, (Except.ok.inj hc).symm⟩

/-- **The canonical path of a file is the absolute path of what is opened.** -/
theorem toPath_of_canonicalize (hc : fs.canonicalize q = .ok c) (hl : fs.resolve q = .ok l) :
    c = l.toPath := by
  obtain ⟨k, hk, rfl⟩ := exists_lookup_of_canonicalize hc
  obtain ⟨-, -, -, -, hk⟩ := lookup_eq_ok.mp hk
  obtain ⟨-, -, -, -, hl⟩ := lookup_eq_ok.mp hl
  -- Name by name or in one request, the lookup ends at the same place.
  cases hk.unique_of_stepwise hl
  rfl

/-- A canonical path is absolute. -/
theorem isAbsolute_of_canonicalize (hc : fs.canonicalize q = .ok c) : c.isAbsolute = true := by
  obtain ⟨k, -, rfl⟩ := exists_lookup_of_canonicalize hc
  exact k.isAbsolute_toPath

end FileSystem

end IncludeMoves
