import IncludeMoves.Proofs.SameTree

/-!
# Lookups as derivations

A lookup that succeeds is a derivation: `Advances` has one rule for each kind of name that is passed
without following a link, `Leads` one for the arrival and one for a link. What all successful
lookups have in common is proved by induction on them.

* `FileSystem.advances_iff`, `FileSystem.leads_iff` — they are what the functions compute;
* `FileSystem.Leads.invariant` — what holds where a lookup starts, and is kept by each step, holds where
  it ends;
* `FileSystem.Leads.append` — a lookup in two parts;
* `FileSystem.SameOutline.resolve` and its like — the same outline gives the same lookups;
* `FileSystem.Leads.transfer_cases` — what a change at one location does to a lookup.
-/

namespace IncludeMoves

namespace FileSystem

/-- What is asked of a name before the entry at it is looked at. With it known, a step of the lookup
only depends on the entry (`Admits.advance`). -/
structure Admits (fs : FileSystem) (route : Route) (l : Location) (n : Name) : Prop where
  nonempty : n ≠ []
  not_dot : n ≠ [dot]
  not_up : n ≠ [dot, dot]
  reaches : route.reaches (n :: l) = true
  isDir : fs.isDir l = true
  takes : route.takesNames fs l = true
  length_le : n.length ≤ maxName

/-- **A lookup without links**: the names passed one after the other, up to the end or a link that
has to be followed. -/
inductive Advances (fs : FileSystem) (route : Route) : Location → List Name → Progress → Prop
  | done {l : Location} : Advances fs route l [] (.arrived (.found l))
  | close {l : Location} {rest : List Name} {p : Progress} : fs.isDir l = true →
      Advances fs route l rest p → Advances fs route l ([] :: rest) p
  | here {l : Location} {rest : List Name} {p : Progress} : fs.isDir l = true →
      route.takesDots fs l = true → Advances fs route l rest p →
      Advances fs route l ([dot] :: rest) p
  | up {l : Location} {rest : List Name} {p : Progress} : fs.isDir l = true →
      route.takesDots fs l = true → Advances fs route l.tail rest p →
      Advances fs route l ([dot, dot] :: rest) p
  | missing {l : Location} {n : Name} : Admits fs route l n → fs.node? (n :: l) = none →
      Advances fs route l [n] (.arrived (.absent l n))
  | stay {l : Location} {n : Name} {t : Path} : Admits fs route l n →
      fs.node? (n :: l) = some (.link t) → route.follows = false →
      Advances fs route l [n] (.arrived (.found (n :: l)))
  | atLink {l : Location} {n : Name} {t : Path} {rest : List Name} : Admits fs route l n →
      fs.node? (n :: l) = some (.link t) → ¬(rest = [] ∧ route.follows = false) →
      Advances fs route l (n :: rest) (.atLink l t rest)
  | enter {l : Location} {n : Name} {node : Node} {rest : List Name} {p : Progress} :
      Admits fs route l n → fs.node? (n :: l) = some node → (∀ t, node ≠ .link t) →
      Advances fs route (n :: l) rest p → Advances fs route l (n :: rest) p

/-- **A lookup**, with the number of links that it may still follow. Between two links it is as in
`Advances`, and behind a link it starts anew with the names of the target in front of those that are
left. -/
inductive Leads (fs : FileSystem) (route : Route) : Nat → Location → List Name → Spot → Prop
  | arrive {budget : Nat} {l : Location} {names : List Name} {s : Spot} :
      Advances fs route l names (.arrived s) → Leads fs route budget l names s
  | follow {budget : Nat} {l parent : Location} {names rest : List Name} {t : Path} {s : Spot} :
      Advances fs route l names (.atLink parent t rest) → t.bytes ≠ [] →
      Leads fs route budget (if t.isAbsolute then [] else parent) (t.steps ++ rest) s →
      Leads fs route (budget + 1) l names s

variable {fs fs' : FileSystem} {route : Route} {l l' k : Location} {names rest : List Name}
  {n : Name} {p : Progress} {s : Spot}

/-- The rules of `Advances` cover every way in which `advance` comes to a result. The induction is on
the names, each of which takes one of the rules. -/
theorem advances_of_advance (h : fs.advance route l names = .ok p) :
    -- On the names. The branches of the definition are gone through in their order.
    Advances fs route l names p := by
  induction names generalizing l with
  | nil =>
    cases h
    exact .done
  | cons n rest ih =>
    rw [advance] at h
    -- First the names that stand for a directory on the way, then those of entries.
    split at h
    · next hn =>
      split at h
      · next hdir => exact hn ▸ .close hdir (ih h)
      · cases h
    next hempty =>
    split at h
    · next hn =>
      split at h
      · cases h
      next hdir =>
      split at h
      · cases h
      next htakes => exact hn ▸ .here (by simpa using hdir) (by simpa using htakes) (ih h)
    next hdot =>
    split at h
    · next hn =>
      split at h
      · cases h
      next hdir =>
      split at h
      · cases h
      next htakes => exact hn ▸ .up (by simpa using hdir) (by simpa using htakes) (ih h)
    next hup =>
    split at h
    · cases h
    next hreach =>
    split at h
    · cases h
    next hdir =>
    split at h
    · cases h
    next htakes =>
    split at h
    · cases h
    next hlen =>
    -- The name may be looked up; what is there decides.
    have hadmits : Admits fs route l n :=
      ⟨hempty, hdot, hup, by simpa using hreach, by simpa using hdir, by simpa using htakes,
        Nat.le_of_not_lt hlen⟩
    split at h
    · next hnode =>
      split at h
      · next hrest =>
        cases h
        exact hrest ▸ .missing hadmits hnode
      · cases h
    -- A link at the end of the path stays where it is if it is not to be followed.
    · next t hnode =>
      split at h
      · next hstay =>
        cases h
        rw [hstay.1]
        exact .stay hadmits hnode (by simpa using hstay.2)
      · next hstay =>
        cases h
        exact .atLink hadmits hnode (by simpa using hstay)
    · next node hne hnode => exact .enter hadmits hnode hne (ih h)

/-- One name of a lookup, if it may be looked at. -/
theorem Admits.advance (h : Admits fs route l n) (rest : List Name) :
    fs.advance route l (n :: rest) =
      match fs.node? (n :: l) with
      | none => if rest = [] then .ok (.arrived (.absent l n)) else .error .notFound
      | some (.link t) =>
        if rest = [] ∧ !route.follows then .ok (.arrived (.found (n :: l)))
        else .ok (.atLink l t rest)
      | some _ => fs.advance route (n :: l) rest := by
  rw [FileSystem.advance, if_neg h.nonempty, if_neg h.not_dot, if_neg h.not_up,
    if_neg (by simp [h.reaches]), if_neg (by simp [h.isDir]), if_neg (by simp [h.takes])]
  exact if_neg (Nat.not_lt.mpr h.length_le)

/-- And conversely `advance` comes to what the rules say, so that it is the same to reason by one or by
the other. -/
theorem Advances.advance (h : Advances fs route l names p) : fs.advance route l names = .ok p := by
  induction h with
  | done => rfl
  | close hdir _ ih => simpa [FileSystem.advance, hdir] using ih
  | here hdir htakes _ ih => simpa [FileSystem.advance, hdir, htakes] using ih
  | up hdir htakes _ ih => simpa [FileSystem.advance, hdir, htakes] using ih
  | missing hadmits hnode => simp [hadmits.advance, hnode]
  | stay hadmits hnode hstay => simp [hadmits.advance, hnode, hstay]
  | atLink hadmits hnode hstay => simpa [hadmits.advance, hnode] using hstay
  | @enter l n node rest p hadmits hnode hne _ ih =>
    -- The entry is no link, so the lookup goes on behind it.
    rw [hadmits.advance, hnode]
    cases node with
    | link t => exact absurd rfl (hne t)
    | dir => exact ih
    | file f => exact ih

theorem advances_iff : fs.advance route l names = .ok p ↔ Advances fs route l names p :=
  ⟨advances_of_advance, Advances.advance⟩

/-! What follows a name that stands for a directory. -/

theorem Advances.of_close (h : Advances fs route l ([] :: rest) p) : Advances fs route l rest p := by
  cases h with
  | close _ h => exact h
  | missing hadmits _ => exact absurd rfl hadmits.nonempty
  | stay hadmits _ _ => exact absurd rfl hadmits.nonempty
  | atLink hadmits _ _ => exact absurd rfl hadmits.nonempty
  | enter hadmits _ _ _ => exact absurd rfl hadmits.nonempty

theorem Advances.of_here (h : Advances fs route l ([dot] :: rest) p) :
    Advances fs route l rest p := by
  cases h with
  | here _ _ h => exact h
  | missing hadmits _ => exact absurd rfl hadmits.not_dot
  | stay hadmits _ _ => exact absurd rfl hadmits.not_dot
  | atLink hadmits _ _ => exact absurd rfl hadmits.not_dot
  | enter hadmits _ _ _ => exact absurd rfl hadmits.not_dot

theorem Advances.of_up (h : Advances fs route l ([dot, dot] :: rest) p) :
    Advances fs route l.tail rest p := by
  cases h with
  | up _ _ h => exact h
  | missing hadmits _ => exact absurd rfl hadmits.not_up
  | stay hadmits _ _ => exact absurd rfl hadmits.not_up
  | atLink hadmits _ _ => exact absurd rfl hadmits.not_up
  | enter hadmits _ _ _ => exact absurd rfl hadmits.not_up

/-- A lookup that ends somewhere follows the rules of `Leads`. The induction is on the links that may
still be followed. -/
theorem leads_of_locateFrom {budget : Nat} (h : fs.locateFrom route budget l names = .ok s) :
    Leads fs route budget l names s := by
  -- On the links that may still be followed.
  induction budget generalizing l names with
  | zero =>
    rw [locateFrom] at h
    split at h
    · cases h
    · next hadv =>
      cases h
      exact .arrive (advances_of_advance hadv)
    · cases h
  | succ budget ih =>
    rw [locateFrom] at h
    split at h
    · cases h
    · next hadv =>
      cases h
      exact .arrive (advances_of_advance hadv)
    -- One link less may be followed from here on.
    · next hadv =>
      simp only at h
      split at h
      · cases h
      · next hne => exact .follow (advances_of_advance hadv) hne (ih h)

theorem Leads.locateFrom {budget : Nat} (h : Leads fs route budget l names s) :
    fs.locateFrom route budget l names = .ok s := by
  induction h with
  | arrive h =>
    rw [FileSystem.locateFrom.eq_def, h.advance]
  | follow h hne _ ih =>
    rw [FileSystem.locateFrom, h.advance]
    simpa [hne] using ih

theorem leads_iff {budget : Nat} :
    fs.locateFrom route budget l names = .ok s ↔ Leads fs route budget l names s :=
  ⟨leads_of_locateFrom, Leads.locateFrom⟩

/-! ### What a lookup keeps -/

/-- Where a lookup has got, something holds: at the end, or in the directory in which the missing entry
or the link is. -/
def Progress.Holds (motive : Location → Prop) : Progress → Prop
  | .arrived (.found l) => motive l
  | .arrived (.absent parent _) => motive parent
  | .atLink parent _ _ => motive parent

section Invariant

variable {motive : Location → Prop} (root : motive []) (up : ∀ l, motive l → motive l.tail)
  (entry : ∀ l n node, motive l → Admits fs route l n → fs.node? (n :: l) = some node →
    (route.follows = true → ∀ t, node ≠ .link t) → motive (n :: l))

include up entry

theorem Advances.invariant (h : Advances fs route l names p) (hl : motive l) : p.Holds motive := by
  induction h with
  | done => exact hl
  | close _ _ ih => exact ih hl
  | here _ _ _ ih => exact ih hl
  | up _ _ _ ih => exact ih (up _ hl)
  | missing _ _ => exact hl
  | stay hadmits hnode hstay => exact entry _ _ _ hl hadmits hnode fun h => by simp [hstay] at h
  | atLink _ _ _ => exact hl
  | enter hadmits hnode hne _ ih => exact ih (entry _ _ _ hl hadmits hnode fun _ => hne)

include root

/-- **What holds at the root, and is kept by a step up and by a step to an entry, holds where a lookup
ends**, if it does where the lookup starts. -/
theorem Leads.invariant {budget : Nat} (h : Leads fs route budget l names (.found k)) (hl : motive l) :
    motive k := by
  generalize hs : Spot.found k = s at h
  induction h with
  | arrive h =>
    subst hs
    exact h.invariant up entry hl
  | follow h _ _ ih =>
    -- The lookup goes on at the root or beside the link.
    refine ih ?_ hs
    split
    · exact root
    · exact h.invariant up entry hl

end Invariant

/-! ### The same outline, the same lookups -/

namespace SameOutline

theorem advance (h : SameOutline fs fs') (route : Route) (l : Location) (names : List Name) :
    fs'.advance route l names = fs.advance route l names := by
  induction names generalizing l with
  | nil => rfl
  | cons n rest ih =>
    simp only [FileSystem.advance, h.isDir_eq, h.modes.takesDots, h.modes.takesNames, ih]
    rcases h.node?_cases (n :: l) with hnode | ⟨f, f', hf, hf'⟩
    · rw [hnode]
    · -- The content may differ, but no lookup sees it.
      rw [hf, hf']

theorem locateFrom (h : SameOutline fs fs') (route : Route) (budget : Nat) (l : Location)
    (names : List Name) :
    fs'.locateFrom route budget l names = fs.locateFrom route budget l names := by
  induction budget generalizing l names with
  | zero =>
    unfold FileSystem.locateFrom
    rw [h.advance]
  | succ budget ih =>
    unfold FileSystem.locateFrom
    rw [h.advance]
    simp only [ih]

theorem origin (h : SameOutline fs fs') (p : Path) : fs'.origin p = fs.origin p := by
  simp only [FileSystem.origin, h.cwd]

theorem lookup (h : SameOutline fs fs') (route : Route) (p : Path) :
    fs'.lookup route p = fs.lookup route p := by
  simp only [FileSystem.lookup, FileSystem.locate, h.locateFrom, h.origin, h.modes.starts h.cwd]

/-- Every path leads to where it led before. -/
theorem resolve (h : SameOutline fs fs') (p : Path) : fs'.resolve p = fs.resolve p :=
  h.lookup .target p

theorem canonicalize (h : SameOutline fs fs') (p : Path) :
    fs'.canonicalize p = fs.canonicalize p := by
  simp only [FileSystem.canonicalize, h.lookup]

theorem isDirectory (h : SameOutline fs fs') (p : Path) :
    fs'.isDirectory p = fs.isDirectory p := by
  simp only [FileSystem.isDirectory, h.resolve, h.isDir_eq]

theorem isWithin (h : SameOutline fs fs') (p root : Path) :
    fs'.isWithin p root = fs.isWithin p root := by
  rw [FileSystem.isWithin, FileSystem.isWithin, h.canonicalize, h.canonicalize]

end SameOutline

namespace SameTree

theorem resolve (h : SameTree fs fs') (p : Path) : fs'.resolve p = fs.resolve p :=
  h.sameOutline.resolve p

theorem canonicalize (h : SameTree fs fs') (p : Path) : fs'.canonicalize p = fs.canonicalize p :=
  h.sameOutline.canonicalize p

theorem isDirectory (h : SameTree fs fs') (p : Path) : fs'.isDirectory p = fs.isDirectory p :=
  h.sameOutline.isDirectory p

end SameTree

/-! ### Places -/

/-- A name that an entry can have. These are the names under which a lookup finds the entry, and that
can be put together to a path and taken out of it again. -/
structure IsEntryName (n : Name) : Prop where
  nonempty : n ≠ []
  separator_not_mem : separator ∉ n
  not_dot : n ≠ [dot]
  not_up : n ≠ [dot, dot]
  length_le : n.length ≤ maxName

/-- A location whose names are names of entries, in a directory each. The entry itself need not be
there. -/
inductive IsPlace (fs : FileSystem) : Location → Prop
  | root : IsPlace fs []
  | entry {l : Location} {n : Name} :
      IsPlace fs l → fs.isDir l = true → IsEntryName n → IsPlace fs (n :: l)

theorem IsPlace.tail (h : IsPlace fs l) : IsPlace fs l.tail := by
  cases h with
  | root => exact .root
  | entry h _ _ => exact h

/-- Places depend on nothing but where the directories are. -/
theorem IsPlace.of_isDir (h : IsPlace fs l) (hisDir : ∀ k, fs'.isDir k = fs.isDir k) :
    IsPlace fs' l := by
  induction h with
  | root => exact .root
  | entry _ hdir hn ih => exact .entry ih ((hisDir _).trans hdir) hn

/-- The names of a path are parts of it, free of separators. Unlike names of entries they may be empty,
too long, or `.` and `..`. -/
def IsStep (n : Name) : Prop :=
  separator ∉ n

/-- The parts of a text are made of its bytes, and no separator is among them. -/
theorem mem_of_mem_chunks {bs : List UInt8} {b : UInt8} (hn : n ∈ Path.chunks bs) (hb : b ∈ n) :
    b ∈ bs ∧ b ≠ separator := by
  induction bs generalizing n with
  | nil =>
    rw [Path.chunks, List.mem_singleton] at hn
    subst hn
    cases hb
  | cons a bs ih =>
    rw [Path.chunks] at hn
    -- A separator ends a part, and any other byte belongs to the part behind it.
    split at hn
    · rcases List.mem_cons.mp hn with rfl | hn
      · cases hb
      · exact (ih hn hb).imp_left (List.mem_cons_of_mem _)
    next ha =>
    split at hn
    · rw [List.mem_singleton.mp hn] at hb
      obtain rfl := List.mem_singleton.mp hb
      exact ⟨List.mem_cons_self, ha⟩
    · next c cs hcs =>
      rcases List.mem_cons.mp hn with rfl | hn
      -- A byte of the first part is the one just read, or one of the part it is put in front of.
      · rcases List.mem_cons.mp hb with rfl | hb
        · exact ⟨List.mem_cons_self, ha⟩
        · exact (ih (hcs ▸ List.mem_cons_self) hb).imp_left (List.mem_cons_of_mem _)
      · exact (ih (hcs ▸ List.mem_cons_of_mem _ hn) hb).imp_left (List.mem_cons_of_mem _)

theorem separator_not_mem_of_mem_chunks {bs : List UInt8} (hn : n ∈ Path.chunks bs) :
    separator ∉ n :=
  fun hsep => (mem_of_mem_chunks hn hsep).2 rfl

/-- A path is looked up by its parts, and by the empty name that a separator at the end adds. -/
theorem mem_chunks_of_mem_steps {q : Path} (hn : n ∈ q.steps) :
    n ∈ Path.chunks q.bytes ∨ n = [] := by
  unfold Path.steps at hn
  simp only at hn
  split at hn
  · rcases List.mem_append.mp hn with hn | hn
    · exact .inl (List.mem_filter.mp hn).1
    · exact .inr (List.mem_singleton.mp hn)
  · exact .inl (List.mem_filter.mp hn).1

theorem isStep_of_mem_steps {q : Path} (hn : n ∈ q.steps) : IsStep n := by
  rcases mem_chunks_of_mem_steps hn with hn | rfl
  · exact separator_not_mem_of_mem_chunks hn
  · exact List.not_mem_nil

theorem Admits.isEntryName (h : Admits fs route l n) (hn : IsStep n) : IsEntryName n :=
  ⟨h.nonempty, hn, h.not_dot, h.not_up, h.length_le⟩

/-- Where a lookup has got stays a place, name by name. For the names that are still to come nothing is
asked but that they are parts of a path. -/
def Progress.IsAtPlace (fs : FileSystem) : Progress → Prop
  | .arrived (.found l) => IsPlace fs l
  | .arrived (.absent parent _) => IsPlace fs parent
  | .atLink parent _ rest => IsPlace fs parent ∧ ∀ n ∈ rest, IsStep n

theorem Advances.isAtPlace (h : Advances fs route l names p) (hl : IsPlace fs l)
    (hnames : ∀ n ∈ names, IsStep n) : p.IsAtPlace fs := by
  induction h with
  | done => exact hl
  | close _ _ ih => exact ih hl fun n hn => hnames n (List.mem_cons_of_mem _ hn)
  | here _ _ _ ih => exact ih hl fun n hn => hnames n (List.mem_cons_of_mem _ hn)
  | up _ _ _ ih => exact ih hl.tail fun n hn => hnames n (List.mem_cons_of_mem _ hn)
  | missing _ _ => exact hl
  -- A name that has been looked at can be that of an entry of the directory.
  | stay hadmits _ _ =>
    exact .entry hl hadmits.isDir (hadmits.isEntryName (hnames _ List.mem_cons_self))
  | atLink _ _ _ => exact ⟨hl, fun n hn => hnames n (List.mem_cons_of_mem _ hn)⟩
  | enter hadmits _ _ _ ih =>
    exact ih (.entry hl hadmits.isDir (hadmits.isEntryName (hnames _ List.mem_cons_self)))
      fun n hn => hnames n (List.mem_cons_of_mem _ hn)

/-- **A lookup that starts at a place ends at one.** So locations that paths lead to have absolute paths
that spell them. -/
theorem Leads.isPlace {budget : Nat} (h : Leads fs route budget l names (.found l'))
    (hl : IsPlace fs l) (hnames : ∀ n ∈ names, IsStep n) : IsPlace fs l' := by
  generalize hs : Spot.found l' = s at h
  induction h with
  | arrive h =>
    subst hs
    exact h.isAtPlace hl hnames
  | @follow budget l parent names rest t s h _ _ ih =>
    obtain ⟨hparent, hrest⟩ := h.isAtPlace hl hnames
    -- The lookup goes on at the root or beside the link, with the steps of its target in front.
    refine ih ?_ (fun n hn => ?_) hs
    · split
      · exact .root
      · exact hparent
    · rcases List.mem_append.mp hn with hn | hn
      · exact isStep_of_mem_steps hn
      · exact hrest n hn

/-! ### Lookups in two parts -/

theorem Advances.unique {q : Progress} (h : Advances fs route l names p)
    (h' : Advances fs route l names q) : p = q :=
  Except.ok.inj (h.advance.symm.trans h'.advance)

/-- Where a path leads does not depend on how many links may be followed. More links can only help where
fewer are not enough. -/
theorem Leads.unique {b b' : Nat} {s' : Spot} (h : Leads fs route b l names s)
    (h' : Leads fs route b' l names s') : s = s' := by
  induction h generalizing b' s' with
  | arrive h =>
    cases h' with
    | arrive h' => exact Progress.arrived.inj (h.unique h')
    | follow h' _ _ => cases h.unique h'
  | follow h _ _ ih =>
    cases h' with
    | arrive h' => cases h.unique h'
    | follow h' _ hrest' =>
      -- Both have come to the same link.
      cases h.unique h'
      exact ih hrest'

/-- Nothing can be looked up in what is no directory. -/
theorem Advances.of_not_isDir (h : Advances fs route l names p) (hl : fs.isDir l = false) :
    names = [] ∧ p = .arrived (.found l) := by
  cases h with
  | done => exact ⟨rfl, rfl⟩
  | close hdir _ => simp [hl] at hdir
  | here hdir _ _ => simp [hl] at hdir
  | up hdir _ _ => simp [hl] at hdir
  | missing hadmits _ => simpa [hl] using hadmits.isDir
  | stay hadmits _ _ => simpa [hl] using hadmits.isDir
  | atLink hadmits _ _ => simpa [hl] using hadmits.isDir
  | enter hadmits _ _ _ => simpa [hl] using hadmits.isDir

theorem Leads.of_not_isDir {budget : Nat} (h : Leads fs route budget l names s)
    (hl : fs.isDir l = false) : names = [] ∧ s = .found l := by
  cases h with
  | arrive h =>
    obtain ⟨hnames, hs⟩ := h.of_not_isDir hl
    exact ⟨hnames, Progress.arrived.inj hs⟩
  | follow h _ _ => cases (h.of_not_isDir hl).2

theorem target_ne_stepwise : Route.target ≠ .stepwise :=
  nofun

theorem entry_ne_stepwise : Route.entry ≠ .stepwise :=
  nofun

/-- Where the lookup of a name from the root is allowed, it is from the directory that holds it. -/
theorem maySearch_of_takesNames (h : route.takesNames fs l = true) : fs.maySearch l = true := by
  cases route with
  | entry => exact h
  | target => exact h
  | stepwise =>
    rw [Route.takesNames, Bool.and_eq_true] at h
    exact h.1

/-- In one request no more is asked than on any other route. -/
theorem Admits.of_ne_stepwise {route' : Route} (h : Admits fs route l n) (hroute : route' ≠ .stepwise) :
    Admits fs route' l n := by
  have hsearch := maySearch_of_takesNames h.takes
  cases route' with
  | entry => exact ⟨h.nonempty, h.not_dot, h.not_up, rfl, h.isDir, hsearch, h.length_le⟩
  | target => exact ⟨h.nonempty, h.not_dot, h.not_up, rfl, h.isDir, hsearch, h.length_le⟩
  | stepwise => exact absurd rfl hroute

/-- No route asks more for `.` and `..` than a request. -/
theorem takesDots_of_maySearch (h : fs.maySearch l = true) : route.takesDots fs l = true := by
  cases route with
  | entry => exact h
  | target => exact h
  | stepwise => rfl

variable {tail : List Name} {m : Location}

/-- Behind a place that has been reached, the lookup goes on from there, in the same request. Step by
step this would be false, for there each place is asked for by its absolute path. -/
theorem Advances.append (h : Advances fs .target l names (.arrived (.found m)))
    (hroute : route ≠ .stepwise) (tail : List Name) :
    fs.advance route l (names ++ tail) = fs.advance route m tail := by
  -- On how `m` has been reached. Nothing is `missing`, and the last name has been followed.
  generalize hp : Progress.arrived (.found m) = p at h
  -- Up to `m` the lookup is the same, whether the names end there or go on.
  induction h with
  | done =>
    cases hp
    rfl
  | close hdir _ ih => simpa [FileSystem.advance, hdir] using ih hp
  | here hdir htakes _ ih =>
    have htakes' : route.takesDots fs _ = true := takesDots_of_maySearch htakes
    simpa [FileSystem.advance, hdir, htakes'] using ih hp
  | up hdir htakes _ ih =>
    have htakes' : route.takesDots fs _ = true := takesDots_of_maySearch htakes
    simpa [FileSystem.advance, hdir, htakes'] using ih hp
  | missing _ _ => cases hp
  | stay _ _ hstay => cases hstay
  | atLink _ _ _ => cases hp
  -- Since the last name has been followed, no link is left in the way.
  | @enter l n node rest p hadmits hnode hne _ ih =>
    rw [List.cons_append, (hadmits.of_ne_stepwise hroute).advance, hnode]
    cases node with
    | link t => exact absurd rfl (hne t)
    | dir => exact ih hp
    | file f => exact ih hp

/-- A lookup that has come to a link comes there with more names behind it as well, and takes them
along. -/
theorem Advances.append_atLink {parent : Location} {t : Path}
    (h : Advances fs .target l names (.atLink parent t rest))
    (hroute : route ≠ .stepwise) (htail : tail ≠ []) :
    fs.advance route l (names ++ tail) = .ok (.atLink parent t (rest ++ tail)) := by
  -- Names in front of the link are looked up as before.
  generalize hp : Progress.atLink parent t rest = p at h
  induction h with
  | done => cases hp
  | close hdir _ ih => simpa [FileSystem.advance, hdir] using ih hp
  | here hdir htakes _ ih =>
    have htakes' : route.takesDots fs _ = true := takesDots_of_maySearch htakes
    simpa [FileSystem.advance, hdir, htakes'] using ih hp
  | up hdir htakes _ ih =>
    have htakes' : route.takesDots fs _ = true := takesDots_of_maySearch htakes
    simpa [FileSystem.advance, hdir, htakes'] using ih hp
  | missing _ _ => cases hp
  | stay _ _ hstay => cases hstay
  | atLink hadmits hnode _ =>
    -- With `tail` behind it the link is followed, even if it was the last name.
    cases hp
    rw [List.cons_append, (hadmits.of_ne_stepwise hroute).advance, hnode]
    simp [htail]
  | @enter l n node rest p hadmits hnode hne _ ih =>
    rw [List.cons_append, (hadmits.of_ne_stepwise hroute).advance, hnode]
    cases node with
    | link t => exact absurd rfl (hne t)
    | dir => exact ih hp
    | file f => exact ih hp

/-- **A lookup in two parts**: the second one starts where the first one ends. It may follow the links
that the first one has left, and how many those are does not matter (`Leads.unique`). -/
theorem Leads.append {budget : Nat} (h : Leads fs .target budget l names (.found m))
    (hroute : route ≠ .stepwise) (htail : tail ≠ []) :
    ∃ budget', fs.locateFrom route budget l (names ++ tail)
      = fs.locateFrom route budget' m tail := by
  generalize hs : Spot.found m = s at h
  induction h with
  | @arrive budget l names s h =>
    subst hs
    refine ⟨budget, ?_⟩
    unfold FileSystem.locateFrom
    rw [h.append hroute tail]
  -- The link is the same, and what is left to look up is longer by `tail`.
  | follow h hne _ ih =>
    obtain ⟨budget', ih⟩ := ih hs
    refine ⟨budget', ?_⟩
    rw [FileSystem.locateFrom, h.append_atLink hroute htail]
    simpa [hne] using ih

/-- The second part of a lookup in two parts. -/
theorem Leads.of_append {b b' : Nat} (h : Leads fs .target b l names (.found m))
    (h' : Leads fs .target b' l (names ++ tail) s) (htail : tail ≠ []) :
    ∃ b'', Leads fs .target b'' m tail s := by
  generalize hs : Spot.found m = s' at h
  induction h generalizing b' with
  | arrive h =>
    subst hs
    have hadv := Advances.append h target_ne_stepwise tail
    cases h' with
    | arrive h' => exact ⟨b', .arrive (advances_of_advance (hadv ▸ h'.advance))⟩
    | follow h' hne hrest =>
      exact ⟨_, .follow (advances_of_advance (hadv ▸ h'.advance)) hne hrest⟩
  | follow h _ _ ih =>
    -- With the second part behind it, the lookup comes to the same link.
    have hadv := advances_of_advance (h.append_atLink target_ne_stepwise htail)
    cases h' with
    | arrive h' => cases hadv.unique h'
    | follow h' _ hrest =>
      cases hadv.unique h'
      exact ih (List.append_assoc _ _ _ ▸ hrest) hs

/-! ### One changed entry -/

variable {d : Location}

/-- **A change at one location**, at which there is no directory before and after. A replacement is of
this kind: a file or a link becomes a file. -/
structure ChangedAt (fs fs' : FileSystem) (d : Location) : Prop where
  others : ∀ k, k ≠ d → fs'.node? k = fs.node? k
  modes : SameModes fs fs'
  before : fs.isDir d = false
  after : fs'.isDir d = false

theorem changedAt_put_file (hd : d ≠ []) (hdir : fs.isDir d = false) (f : RegularFile) :
    ChangedAt fs (fs.put d (.file f)) d where
  others _ hk := node?_put_of_ne fs hd _ hk
  modes := sameModes_put fs d _
  before := hdir
  after := by simp [isDir, node?_put_self fs hd]

theorem ChangedAt.symm (h : ChangedAt fs fs' d) : ChangedAt fs' fs d :=
  ⟨fun k hk => (h.others k hk).symm, h.modes.symm, h.after, h.before⟩

theorem ChangedAt.isDir_eq (h : ChangedAt fs fs' d) (k : Location) : fs'.isDir k = fs.isDir k := by
  by_cases hk : k = d
  · rw [hk, h.before, h.after]
  · rw [isDir, isDir, h.others k hk]

theorem Admits.transfer (hd : ChangedAt fs fs' d) (h : Admits fs route l n) : Admits fs' route l n :=
  ⟨h.nonempty, h.not_dot, h.not_up, h.reaches, (hd.isDir_eq _).trans h.isDir,
    (hd.modes.takesNames route l).trans h.takes, h.length_le⟩

/-- There is a link at `d`, and it leads to `k`. This is what a replacement destroys if it puts a file
in the place of the link. -/
def LinksTo (fs : FileSystem) (d k : Location) : Prop :=
  ∃ t budget, fs.node? d = some (.link t) ∧
    Leads fs .target budget (if t.isAbsolute then [] else d.tail) t.steps (.found k)

theorem LinksTo.unique (h : fs.LinksTo d k) (h' : fs.LinksTo d l) : k = l := by
  obtain ⟨t, budget, hnode, hleads⟩ := h
  obtain ⟨t', budget', hnode', hleads'⟩ := h'
  cases hnode.symm.trans hnode'
  exact Spot.found.inj (hleads.unique hleads')

/-- A change matters to no lookup without links that ends elsewhere. Such a lookup does not pass the
changed location, since no directory is there. -/
theorem Advances.transfer (hd : ChangedAt fs fs' d)
    (h : Advances fs .target l names (.arrived (.found m))) (hm : m ≠ d) :
    Advances fs' .target l names (.arrived (.found m)) := by
  generalize hp : Progress.arrived (.found m) = p at h
  -- Dots and empty names lead to the same places, since all directories are the old ones.
  induction h with
  | done => exact .done
  | close hdir _ ih => exact .close ((hd.isDir_eq _).trans hdir) (ih hp)
  | here hdir htakes _ ih =>
    exact .here ((hd.isDir_eq _).trans hdir) ((hd.modes.takesDots _ _).trans htakes) (ih hp)
  | up hdir htakes _ ih =>
    exact .up ((hd.isDir_eq _).trans hdir) ((hd.modes.takesDots _ _).trans htakes) (ih hp)
  | missing _ _ => cases hp
  | stay _ _ hstay => cases hstay
  | atLink _ _ _ => cases hp
  | @enter l n node rest p hadmits hnode hne h ih =>
    -- Behind `d` the lookup would end.
    have hk : n :: l ≠ d := by
      rintro rfl
      obtain ⟨-, rfl⟩ := h.of_not_isDir hd.before
      cases hp
      exact hm rfl
    exact .enter (hadmits.transfer hd) ((hd.others _ hk).trans hnode) hne (ih hp)

/-- A lookup comes to the same link, or to one that is at `d`; if there is a file at `d` now, and
nothing was left to look up behind the link, it ends there. -/
theorem Advances.transfer_atLink {parent : Location} {t : Path} (hd : ChangedAt fs fs' d)
    (h : Advances fs .target l names (.atLink parent t rest)) :
    (∃ n, d = n :: parent ∧ fs.node? d = some (.link t) ∧
        (rest = [] → ∀ f, fs'.node? d = some (.file f) →
          Advances fs' .target l names (.arrived (.found d)))) ∨
      Advances fs' .target l names (.atLink parent t rest) := by
  generalize hp : Progress.atLink parent t rest = p at h
  -- On the names in front of the link. A step in front of them is added on both sides.
  induction h with
  | done => cases hp
  | close hdir _ ih =>
    have hdir' := (hd.isDir_eq _).trans hdir
    refine (ih hp).imp ?_ (.close hdir')
    rintro ⟨n, hn, hnode, hfile⟩
    exact ⟨n, hn, hnode, fun hrest f hf => .close hdir' (hfile hrest f hf)⟩
  | here hdir htakes _ ih =>
    have hdir' := (hd.isDir_eq _).trans hdir
    have htakes' := (hd.modes.takesDots _ _).trans htakes
    refine (ih hp).imp ?_ (.here hdir' htakes')
    rintro ⟨n, hn, hnode, hfile⟩
    exact ⟨n, hn, hnode, fun hrest f hf => .here hdir' htakes' (hfile hrest f hf)⟩
  | up hdir htakes _ ih =>
    have hdir' := (hd.isDir_eq _).trans hdir
    have htakes' := (hd.modes.takesDots _ _).trans htakes
    refine (ih hp).imp ?_ (.up hdir' htakes')
    rintro ⟨n, hn, hnode, hfile⟩
    exact ⟨n, hn, hnode, fun hrest f hf => .up hdir' htakes' (hfile hrest f hf)⟩
  | missing _ _ => cases hp
  | stay _ _ hstay => cases hstay
  | @atLink l n t rest hadmits hnode hstay =>
    obtain ⟨rfl, rfl, rfl⟩ := Progress.atLink.inj hp
    have hadmits' := hadmits.transfer hd
    -- The link may be what is at `d`.
    by_cases hk : n :: parent = d
    · subst hk
      refine .inl ⟨n, rfl, hnode, fun hrest f hf => ?_⟩
      subst hrest
      exact .enter hadmits' hf (by simp) .done
    · exact .inr (.atLink hadmits' ((hd.others _ hk).trans hnode) hstay)
  | @enter l n node rest p hadmits hnode hne h ih =>
    -- Behind `d` the lookup would end, and not at a link.
    have hk : n :: l ≠ d := by
      rintro rfl
      obtain ⟨-, rfl⟩ := h.of_not_isDir hd.before
      cases hp
    have hadmits' := hadmits.transfer hd
    have hnode' := (hd.others _ hk).trans hnode
    refine (ih hp).imp ?_ (.enter hadmits' hnode' hne)
    rintro ⟨m, hm, hlink, hfile⟩
    exact ⟨m, hm, hlink, fun hrest f hf => .enter hadmits' hnode' hne (hfile hrest f hf)⟩

/-- **A change at one location that is no directory** matters to a lookup only if there was a link
there, to the place where the lookup ends. With a file in its place, the lookup ends at the file. -/
theorem Leads.transfer_cases {budget : Nat} (hd : ChangedAt fs fs' d)
    (hlink : ∀ t, fs.node? d = some (.link t) → ∃ k, fs.isDir k = false ∧ fs.LinksTo d k)
    (h : Leads fs .target budget l names (.found m)) (hm : m ≠ d) :
    Leads fs' .target budget l names (.found m) ∨
      (fs.LinksTo d m ∧
        ∀ f, fs'.node? d = some (.file f) → Leads fs' .target budget l names (.found d)) := by
  -- On the links that are followed. One of them may be the one at `d`.
  generalize hs : Spot.found m = s at h
  induction h with
  | arrive h =>
    subst hs
    exact .inl (.arrive (h.transfer hd hm))
  | @follow budget l parent names rest t s h hne hrest ih =>
    rcases h.transfer_atLink hd with ⟨n, rfl, hnode, hfile⟩ | h'
    · subst hs
      by_cases htail : rest = []
      · subst htail
        rw [List.append_nil] at hrest
        exact .inr ⟨⟨t, budget, hnode, hrest⟩, fun f hf => .arrive (hfile rfl f hf)⟩
      · -- What is behind the link would be looked up in what is no directory.
        obtain ⟨k, hk, t', budget', hnode', hleads⟩ := hlink t hnode
        cases hnode.symm.trans hnode'
        obtain ⟨b', htail'⟩ := hleads.of_append hrest htail
        exact absurd (htail'.of_not_isDir hk).1 htail
    · rcases ih hs with h'' | ⟨hto, hfile⟩
      · exact .inl (.follow h' hne h'')
      · exact .inr ⟨hto, fun f hf => .follow h' hne (hfile f hf)⟩

/-- **A change at one location that is no directory does not change where the directories are.** If
it was a link there, it has to be one that does not lead to a directory. -/
theorem Leads.transfer {budget : Nat} (hd : ChangedAt fs fs' d)
    (hlink : ∀ t, fs.node? d = some (.link t) → ∃ k, fs.isDir k = false ∧ fs.LinksTo d k)
    (h : Leads fs .target budget l names (.found m)) (hm : fs.isDir m = true) :
    Leads fs' .target budget l names (.found m) := by
  have hne : m ≠ d := by
    rintro rfl
    simp [hd.before] at hm
  -- What the link leads to is no directory, so the lookup has not gone over it.
  refine (h.transfer_cases hd hlink hne).resolve_right ?_
  rintro ⟨hto, -⟩
  obtain ⟨t, -, hnode, -⟩ := id hto
  obtain ⟨k, hk, hto'⟩ := hlink t hnode
  rw [hto.unique hto', hk] at hm
  cases hm

end FileSystem

end IncludeMoves
