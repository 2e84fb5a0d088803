import IncludeMoves.Proofs.Frame
import IncludeMoves.Proofs.InsideRoot
import Mathlib

/-!
# What is checked before anything is revised

A run can be refused for seven reasons, and several of them may hold at once. They are checked in one
order, and the first one that holds is the answer; then nothing has been changed and nothing printed,
and of all files only the table has been read.

That a target is inside the root is not all that is asked of it there: it has to have a canonical path, and
one that can be asked for again (`FileSystem.IsAskable`). `Invocation.not_only_inside_deepTableTree` shows
both.

* `Invocation.Check`, `Invocation.Fails` — the checks, and how each of them fails;
* `Invocation.run_of_fails` — the first check that fails decides;
* `Invocation.Fails.of_sameTree` — only the tree and the text of the table matter to the checks;
* `Invocation.checks_in_order` — the checks as a whole.
-/

namespace IncludeMoves

namespace Invocation

/-- **What is checked**: the name of the format, whether the root and the target are there, whether the
target has a canonical path inside the root, whether the table is a text and a table, and the walk through
the target. -/
inductive Check where
  | format
  | root
  | target
  | inside
  | tableText
  | table
  | search
  deriving DecidableEq, Repr

namespace Check

/-- The order of the checks. -/
def inOrder : List Check :=
  [.format, .root, .target, .inside, .tableText, .table, .search]

/-- The checks that come before a check. The order is a list, so that what is earlier needs no order on
the checks. -/
def before (check : Check) : List Check :=
  inOrder.takeWhile (· != check)

end Check

variable {i : Invocation} {executable : Path} {fs fs' : FileSystem} {colour : Bool}
  {faults : WriteFaults} {out : Output} {check : Check} {e : RunError} {format : Format}
  {r c : Path} {moves : Moves}

/-- The canonical root of an invocation. From the target on, the checks are about it and no longer about
the root as it was given. -/
def HasRoot (i : Invocation) (executable : Path) (fs : FileSystem) (r : Path) : Prop :=
  ∃ root, i.root executable = .ok root ∧ fs.canonicalize root = .ok r

/-- The target that an invocation names, or the one that is meant if it names none. -/
def target (i : Invocation) (r : Path) : Path :=
  Project.namedTarget r i.target?

/-- **How a check fails**, and with which error. The target is looked for once there is a root, and a
table once there is a text; else the checks know nothing of each other. -/
inductive Fails (i : Invocation) (executable : Path) (fs : FileSystem) : Check → RunError → Prop
  | format : Format.ofName? i.format = none → Fails i executable fs .format (.unknownFormat i.format)
  | noRoot {e : RunError} : i.root executable = .error e → Fails i executable fs .root e
  | root {root : Path} {e : IoError} : i.root executable = .ok root →
      fs.canonicalize root = .error e → Fails i executable fs .root (.failed (.io root e))
  | target {r : Path} : i.HasRoot executable fs r → fs.isDirectory (i.target r) = false →
      Fails i executable fs .target (.failed (.invalidTarget (i.target r)))
  | noPath {r : Path} {e : IoError} : i.HasRoot executable fs r →
      fs.canonicalize (i.target r) = .error e →
      Fails i executable fs .inside (.failed (.io (i.target r) e))
  | outside {r c : Path} : i.HasRoot executable fs r → fs.canonicalize (i.target r) = .ok c →
      ¬(r.components <+: c.components ∧ fs.IsAskable c) →
      Fails i executable fs .inside (.failed (.outsideRoot c r))
  | tableText {e : IoError} : fs.readText i.table = .error e →
      Fails i executable fs .tableText (.failed (.io i.table e))
  | table {text : String} {e : TableError} : fs.readText i.table = .ok text →
      Moves.parse text = .error e → Fails i executable fs .table (.failed (.badTable i.table e))
  | search {r c : Path} {paths : List Path} {e : WalkError} {rest : List (Except WalkError Path)} :
      i.HasRoot executable fs r → fs.canonicalize (i.target r) = .ok c →
      fs.walk c = paths.map .ok ++ .error e :: rest →
      Fails i executable fs .search (.scanFailed c (.walk e))

/-- A check that does not fail. Each check has a lemma that says what this gives (`passes_root_iff` and
the others), and from these the run is put together. -/
def Passes (i : Invocation) (executable : Path) (fs : FileSystem) (check : Check) : Prop :=
  ∀ e, ¬i.Fails executable fs check e

theorem HasRoot.unique {r' : Path} (h : i.HasRoot executable fs r)
    (h' : i.HasRoot executable fs r') : r = r' := by
  obtain ⟨root, hroot, hr⟩ := h
  obtain ⟨root', hroot', hr'⟩ := h'
  cases hroot.symm.trans hroot'
  exact Except.ok.inj (hr.symm.trans hr')

/-! ### What a passed check gives -/

theorem passes_format_iff :
    i.Passes executable fs .format ↔ ∃ format, Format.ofName? i.format = some format := by
  constructor
  · intro h
    cases hformat : Format.ofName? i.format with
    | none => exact absurd (.format hformat) (h _)
    | some format => exact ⟨format, rfl⟩
  · rintro ⟨format, hformat⟩ e hfail
    cases hfail with
    | format hnone => simp [hnone] at hformat

theorem passes_root_iff : i.Passes executable fs .root ↔ ∃ r, i.HasRoot executable fs r := by
  constructor
  · intro h
    cases hroot : i.root executable with
    | error e => exact absurd (.noRoot hroot) (h _)
    -- There is a path of the root. What may fail is that it has a canonical form.
    | ok root =>
      cases hr : fs.canonicalize root with
      | error e => exact absurd (.root hroot hr) (h _)
      | ok r => exact ⟨r, root, hroot, hr⟩
  · rintro ⟨r, root, hroot, hr⟩ e hfail
    cases hfail with
    | noRoot hnone => simp [hroot] at hnone
    | root hroot' hnone =>
      cases hroot.symm.trans hroot'
      simp [hr] at hnone

theorem passes_target_iff (hr : i.HasRoot executable fs r) :
    i.Passes executable fs .target ↔ fs.isDirectory (i.target r) = true := by
  constructor
  · intro h
    cases hdir : fs.isDirectory (i.target r) with
    | false => exact absurd (.target hr hdir) (h _)
    | true => rfl
  · intro hdir e hfail
    cases hfail with
    | target hr' hnone =>
      cases hr.unique hr'
      simp [hdir] at hnone

/-- The check of the target inside the root passes for a canonical target that lies there and can be
asked for again. -/
theorem passes_inside_iff (hr : i.HasRoot executable fs r) :
    i.Passes executable fs .inside ↔
      ∃ c, fs.canonicalize (i.target r) = .ok c ∧ r.components <+: c.components ∧ fs.IsAskable c := by
  constructor
  · intro h
    -- Without a canonical path the check fails, and with one that is outside or cannot be asked for.
    cases hc : fs.canonicalize (i.target r) with
    | error e => exact absurd (.noPath hr hc) (h _)
    | ok c =>
      by_cases hinside : r.components <+: c.components ∧ fs.IsAskable c
      · exact ⟨c, rfl, hinside⟩
      · exact absurd (.outside hr hc hinside) (h _)
  · rintro ⟨c, hc, hinside⟩ e hfail
    -- Root and target are determined, so that a failure speaks of the same paths.
    cases hfail with
    | noPath hr' hnone =>
      cases hr.unique hr'
      simp [hc] at hnone
    | outside hr' hc' hnone =>
      cases hr.unique hr'
      cases hc.symm.trans hc'
      exact hnone hinside

theorem passes_tableText_iff :
    i.Passes executable fs .tableText ↔ ∃ text, fs.readText i.table = .ok text := by
  constructor
  · intro h
    cases htext : fs.readText i.table with
    | error e => exact absurd (.tableText htext) (h _)
    | ok text => exact ⟨text, rfl⟩
  · rintro ⟨text, htext⟩ e hfail
    cases hfail with
    | tableText hnone => simp [htext] at hnone

theorem passes_table_iff {text : String} (htext : fs.readText i.table = .ok text) :
    i.Passes executable fs .table ↔ ∃ moves, Moves.parse text = .ok moves := by
  constructor
  · intro h
    cases hmoves : Moves.parse text with
    | error e => exact absurd (.table htext hmoves) (h _)
    | ok moves => exact ⟨moves, rfl⟩
  · rintro ⟨moves, hmoves⟩ e hfail
    cases hfail with
    | table htext' hnone =>
      cases htext.symm.trans htext'
      simp [hmoves] at hnone

theorem readMoves_of_passes (htext : i.Passes executable fs .tableText)
    (htable : i.Passes executable fs .table) : ∃ moves, fs.readMoves i.table = .ok moves := by
  obtain ⟨text, htext⟩ := passes_tableText_iff.mp htext
  obtain ⟨moves, hmoves⟩ := (passes_table_iff htext).mp htable
  refine ⟨moves, ?_⟩
  simp only [FileSystem.readMoves, htext, hmoves]

theorem passes_search_iff (hr : i.HasRoot executable fs r)
    (hc : fs.canonicalize (i.target r) = .ok c) :
    i.Passes executable fs .search ↔ ∃ paths : List Path, fs.walk c = paths.map .ok := by
  constructor
  · intro h
    obtain ⟨paths, hpaths | ⟨e, rest, herror⟩⟩ := Project.exists_paths (fs.walk c)
    · exact ⟨paths, hpaths⟩
    · exact absurd (.search hr hc herror) (h _)
  · rintro ⟨paths, hpaths⟩ e hfail
    -- A failure of the search is one of the walk through the same target.
    cases hfail with
    | @search r' c' paths' e rest hr' hc' herror =>
      obtain rfl := hr.unique hr'
      obtain rfl := Except.ok.inj (hc.symm.trans hc')
      have hmem : .error e ∈ fs.walk c := herror ▸ List.mem_append_right _ List.mem_cons_self
      simp [hpaths] at hmem

/-- The project of an invocation whose root is there. -/
theorem ofPaths_eq {root : Path} (hcanonical : fs.canonicalize root = .ok r) :
    Project.ofPaths fs root i.target? =
      if !fs.isDirectory (i.target r) then .error (.invalidTarget (i.target r))
      else
        match fs.canonicalize (i.target r) with
        | .error e => .error (.io (i.target r) e)
        | .ok c => if fs.isWithin c r then .ok ⟨r, c⟩ else .error (.outsideRoot c r) :=
  Project.ofPaths_eq hcanonical

/-- **The project of an invocation**, once root and target have passed. -/
theorem project_of_passes (hfs : fs.IsTree) (hroot : i.Passes executable fs .root)
    (htarget : i.Passes executable fs .target) (hinside : i.Passes executable fs .inside) :
    ∃ root r c, i.root executable = .ok root ∧ i.HasRoot executable fs r ∧
      fs.canonicalize (i.target r) = .ok c ∧ c.isWithin r = true ∧
      Project.ofPaths fs root i.target? = .ok ⟨r, c⟩ := by
  obtain ⟨r, hr⟩ := passes_root_iff.mp hroot
  obtain ⟨c, hc, hinside⟩ := (passes_inside_iff hr).mp hinside
  have hdir := (passes_target_iff hr).mp htarget
  obtain ⟨root, hroot, hcanonical⟩ := id hr
  have hmade : Project.IsMadeFrom ⟨r, c⟩ fs root i.target? := ⟨hcanonical, hdir, hc, hinside.1, hinside.2⟩
  exact ⟨root, r, c, hroot, hr, hc, Path.isWithin_iff.mpr hinside.1, hmade.ofPaths_eq hfs⟩

/-! ### The first check that fails -/

/-- With format, root and project in hand, an invocation is a run of the project. -/
theorem run_eq_project_run {root : Path} {p : Project}
    (hformat : Format.ofName? i.format = some format) (hroot : i.root executable = .ok root)
    (hp : Project.ofPaths fs root i.target? = .ok p) :
    i.run executable colour faults fs out
      = p.run i.table (i.report format colour) i.verbose faults fs out := by
  simp only [run, hformat, hroot, hp, report]

theorem run_of_ofPaths_error {root : Path} {problem : Problem}
    (hformat : i.Passes executable fs .format) (hroot : i.root executable = .ok root)
    (hp : Project.ofPaths fs root i.target? = .error problem) :
    i.run executable colour faults fs out = ⟨.error (.failed problem), fs, out, ""⟩ := by
  obtain ⟨format, hformat⟩ := passes_format_iff.mp hformat
  simp only [run, hformat, hroot, hp]

theorem run_of_applyTable_error {root : Path} {p : Project}
    (hformat : i.Passes executable fs .format) (hroot : i.root executable = .ok root)
    (hp : Project.ofPaths fs root i.target? = .ok p)
    (happly : ∀ report : Reporter Output,
      p.applyTable i.table ⟨false, faults⟩ i.verbose report fs out = ⟨.error e, fs, out, ""⟩) :
    i.run executable colour faults fs out = ⟨.error e, fs, out, ""⟩ := by
  obtain ⟨format, hformat⟩ := passes_format_iff.mp hformat
  rw [run_eq_project_run hformat hroot hp, Project.run, happly]

/-- **The first check that fails decides.** The cases are the ways in which checks fail; the checks
before give what the run has by then. -/
theorem run_of_fails (hfs : fs.IsTree) (hfail : i.Fails executable fs check e)
    (hbefore : ∀ c ∈ check.before, i.Passes executable fs c) :
    i.run executable colour faults fs out = ⟨.error e, fs, out, ""⟩ := by
  -- A check that fails is evaluated with what the checks before it have given.
  cases hfail with
  | format hformat => simp only [run, hformat]
  | noRoot hroot =>
    obtain ⟨format, hformat⟩ := passes_format_iff.mp (hbefore .format (by decide))
    simp only [run, hformat, hroot]
  | root hroot hcanonical =>
    refine run_of_ofPaths_error (hbefore .format (by decide)) hroot ?_
    rw [Project.ofPaths, hcanonical]
  -- The target is not there, has no path, or is outside: the root is known.
  | target hr hdir =>
    obtain ⟨root, hroot, hcanonical⟩ := hr
    refine run_of_ofPaths_error (hbefore .format (by decide)) hroot ?_
    rw [ofPaths_eq hcanonical, hdir]
    rfl
  | noPath hr hc =>
    have hdir := (passes_target_iff hr).mp (hbefore .target (by decide))
    obtain ⟨root, hroot, hcanonical⟩ := hr
    refine run_of_ofPaths_error (hbefore .format (by decide)) hroot ?_
    rw [ofPaths_eq hcanonical, hdir, hc]
    rfl
  | outside hr hc houtside =>
    have hdir := (passes_target_iff hr).mp (hbefore .target (by decide))
    obtain ⟨root, hroot, hcanonical⟩ := hr
    have hrefuses : Project.Refuses fs root i.target? _ := .outside hcanonical hdir hc houtside
    exact run_of_ofPaths_error (hbefore .format (by decide)) hroot (hrefuses.ofPaths_eq hfs)
  -- The project is known, and the table is not.
  | tableText htext =>
    obtain ⟨root, r, c, hroot, -, -, -, hp⟩ := project_of_passes hfs
      (hbefore .root (by decide)) (hbefore .target (by decide)) (hbefore .inside (by decide))
    refine run_of_applyTable_error (hbefore .format (by decide)) hroot hp fun report => ?_
    simp only [Project.applyTable, FileSystem.readMoves, htext]
  | table htext htable =>
    obtain ⟨root, r, c, hroot, -, -, -, hp⟩ := project_of_passes hfs
      (hbefore .root (by decide)) (hbefore .target (by decide)) (hbefore .inside (by decide))
    refine run_of_applyTable_error (hbefore .format (by decide)) hroot hp fun report => ?_
    simp only [Project.applyTable, FileSystem.readMoves, htext, htable]
  | @search r c paths e rest hr hc hwalk =>
    obtain ⟨root, r', c', hroot, hr', hc', hwithin, hp⟩ := project_of_passes hfs
      (hbefore .root (by decide)) (hbefore .target (by decide)) (hbefore .inside (by decide))
    obtain rfl := hr'.unique hr
    obtain rfl := Except.ok.inj (hc'.symm.trans hc)
    obtain ⟨moves, hmoves⟩ := readMoves_of_passes
      (hbefore .tableText (by decide)) (hbefore .table (by decide))
    have hsources : Project.sources ⟨r', c'⟩ fs = .error (.walk e) :=
      -- The table is known as well, so the failure of the walk is what comes next.
      Project.sources_of_walk_eq hfs hwithin hwalk
    refine run_of_applyTable_error (hbefore .format (by decide)) hroot hp fun report => ?_
    simp only [Project.applyTable, hmoves, hsources]

/-! ### What the checks depend on -/

theorem HasRoot.of_sameTree (h : i.HasRoot executable fs r) (htree : fs.SameTree fs') :
    i.HasRoot executable fs' r := by
  obtain ⟨root, hroot, hr⟩ := h
  exact ⟨root, hroot, (htree.canonicalize root).trans hr⟩

/-- **A check fails in the same way on the same tree with the same text of the table**, whatever is in
the other files. -/
theorem Fails.of_sameTree (h : i.Fails executable fs check e) (htree : fs.SameTree fs')
    (htable : fs'.readText i.table = fs.readText i.table) : i.Fails executable fs' check e := by
  -- What each check looks at is the same in the same tree, and the text of the table is so by `htable`.
  cases h with
  | format hformat => exact .format hformat
  | noRoot hroot => exact .noRoot hroot
  | root hroot hr => exact .root hroot ((htree.canonicalize _).trans hr)
  | target hr hdir => exact .target (hr.of_sameTree htree) ((htree.isDirectory _).trans hdir)
  | noPath hr hc => exact .noPath (hr.of_sameTree htree) ((htree.canonicalize _).trans hc)
  | outside hr hc houtside =>
    refine .outside (hr.of_sameTree htree) ((htree.canonicalize _).trans hc) (mt ?_ houtside)
    rintro ⟨hinside, hshort, hopen⟩
    exact ⟨hinside, hshort, (htree.modes.maySearchAbove _).symm.trans hopen⟩
  | tableText htext => exact .tableText (htable.trans htext)
  | table htext hparse => exact .table (htable.trans htext) hparse
  | search hr hc hwalk =>
    exact .search (hr.of_sameTree htree) ((htree.canonicalize _).trans hc)
      ((htree.walk _).trans hwalk)

theorem Passes.of_sameTree (h : i.Passes executable fs check) (htree : fs.SameTree fs')
    (htable : fs'.readText i.table = fs.readText i.table) : i.Passes executable fs' check :=
  fun e hfail => h e (hfail.of_sameTree htree.symm htable.symm)

/-! ### All checks -/

/-- If all checks pass, there are a table and sources. -/
theorem revises_of_passes (hfs : fs.IsTree) (h : ∀ check, i.Passes executable fs check) :
    ∃ format p moves sources, i.Revises executable fs format p moves sources := by
  obtain ⟨format, hformat⟩ := passes_format_iff.mp (h .format)
  obtain ⟨root, r, c, hroot, hr, hc, hwithin, hp⟩ :=
    project_of_passes hfs (h .root) (h .target) (h .inside)
  obtain ⟨moves, hmoves⟩ := readMoves_of_passes (h .tableText) (h .table)
  obtain ⟨paths, hwalk⟩ := (passes_search_iff hr hc).mp (h .search)
  obtain ⟨sources, hsources⟩ : ∃ sources, Project.sources ⟨r, c⟩ fs = .ok sources :=
    Project.exists_sources hfs hwithin hwalk
  exact ⟨format, ⟨r, c⟩, moves, sources, hformat, ⟨root, hroot, hp⟩, hmoves, hsources⟩

/-- From the sources on, a run is the revision of the sources. Its result are the totals, or the problem
at which the revision has stopped. -/
theorem Revises.run_eq {p : Project} {sources : List Path}
    (h : i.Revises executable fs format p moves sources) (colour : Bool) (faults : WriteFaults)
    (out : Output) :
    ∃ result fs' out' log,
      p.reviseAll moves ⟨false, faults⟩ (Output.reporter (i.report format colour)) sources fs out
        = (result, fs', out') ∧
      i.run executable colour faults fs out
        = ⟨(result.map Tally.ofRevisions).mapError .failed, fs', out', log⟩ := by
  obtain ⟨root, hroot, hp⟩ := h.project
  obtain ⟨log, hrun⟩ := p.run_eq i.table (i.report format colour) i.verbose faults fs out
  -- All that comes before the revision of the sources is known.
  rw [run_eq_project_run h.format hroot hp, hrun, Project.applyTable, h.moves]
  simp only [h.sources]
  cases hall : p.reviseAll moves ⟨false, faults⟩ (Output.reporter (i.report format colour)) sources fs
      out with
  | mk result ended =>
    refine ⟨result, ended.1, ended.2, log, rfl, ?_⟩
    cases result <;> rfl

/-- **The checks come first, and in their order.** On every tree, whatever else is wrong:

* the first check that fails decides. The run ends with its error, it has changed nothing and printed
  nothing, and it ends in the same way on every tree that differs only in the contents of files, the
  table excepted. So none of those has been read;
* if no check fails, the run revises the sources that it has found, and nothing else can stop it. -/
theorem checks_in_order (i : Invocation) (executable : Path) (fs : FileSystem) (hfs : fs.IsTree) :
    (∀ check e, i.Fails executable fs check e →
      (∀ c ∈ check.before, i.Passes executable fs c) →
      ∀ fs', fs.SameTree fs' → fs'.readText i.table = fs.readText i.table →
        ∀ colour faults out,
          i.run executable colour faults fs' out = ⟨.error e, fs', out, ""⟩) ∧
    ((∀ check, i.Passes executable fs check) →
      ∃ format p moves sources, i.Revises executable fs format p moves sources ∧
        ∀ colour faults out, ∃ result fs' out' log,
          p.reviseAll moves ⟨false, faults⟩ (Output.reporter (i.report format colour)) sources fs out
            = (result, fs', out') ∧
          i.run executable colour faults fs out
            = ⟨(result.map Tally.ofRevisions).mapError .failed, fs', out', log⟩) := by
  refine ⟨fun check e hfail hbefore fs' htree htable colour faults out => ?_, fun hpasses => ?_⟩
  -- The first failed check is the one that the run reports, in the same tree as well.
  · exact run_of_fails (hfs.of_sameTree htree) (hfail.of_sameTree htree htable)
      fun c hc => (hbefore c hc).of_sameTree htree htable
  · obtain ⟨format, p, moves, sources, hrevises⟩ := revises_of_passes hfs hpasses
    exact ⟨format, p, moves, sources, hrevises, fun colour faults out =>
      hrevises.run_eq colour faults out⟩

/-- A project with a table and one entry beside the sources. Table and entry are chosen so that some of
the checks fail, or none. -/
def smallTree (table : String) (entry : Node) : FileSystem where
  entries := [
    ([(Path.ofString "src").bytes], .dir),
    ([(Path.ofString "a").bytes, (Path.ofString "src").bytes], entry),
    ([(Path.ofString "f.json").bytes], .file ⟨1, 0o644, table.toUTF8⟩)]
  cwd := []

/-- A table that is no object, and a link that leads back. -/
def tangledTree : FileSystem :=
  smallTree "[]" (.link (.ofString "."))

/-- A table without moves, and a file. -/
def plainTree : FileSystem :=
  smallTree "\x7b\x7d" (.file ⟨2, 0o644, "".toUTF8⟩)

/-- In the one tree the table and the search both fail, and the table is reported; in the other one all
checks pass. -/
theorem checks_in_order_smallTree :
    let i : Invocation := ⟨.ofString "/f.json", none, some (.ofString "/"), "text", false, false, false⟩
    tangledTree.IsTree ∧
      i.Fails ⟨[]⟩ tangledTree .search (.scanFailed (.ofString "/src")
        (.walk (.loop (.ofString "/src/a") (.ofString "/src")))) ∧
      (∀ colour faults out, i.run ⟨[]⟩ colour faults tangledTree out
        = ⟨.error (.failed (.badTable (.ofString "/f.json") .notObject)), tangledTree, out, ""⟩) ∧
      plainTree.IsTree ∧ (∀ check, i.Passes ⟨[]⟩ plainTree check) ∧
      ∃ format p moves sources, i.Revises ⟨[]⟩ plainTree format p moves sources := by
  intro i
  have htangled : tangledTree.IsTree := by decide
  have hplain : plainTree.IsTree := by decide
  refine ⟨htangled, ?_, fun colour faults out => ?_, hplain, ?_⟩
  -- In the tangled tree the search would fail, since a link there leads back.
  · have hwalk : tangledTree.walk (.ofString "/src") = ([] : List Path).map .ok
        ++ [.error (.loop (.ofString "/src/a") (.ofString "/src"))] := by cbv
    have hc : tangledTree.canonicalize (i.target (.ofString "/")) = .ok (.ofString "/src") := by decide
    exact .search ⟨.ofString "/", rfl, rfl⟩ hc hwalk
  -- But the table is read before the search, and it is a list. All checks before it are passed.
  · have hr : i.HasRoot ⟨[]⟩ tangledTree (.ofString "/") := ⟨.ofString "/", rfl, rfl⟩
    have htext : tangledTree.readText i.table = .ok "[]" := by cbv
    have hparse : Moves.parse "[]" = .error .notObject := by cbv
    refine (checks_in_order i ⟨[]⟩ tangledTree htangled).1 .table _ (.table htext hparse)
      (fun check hbefore => ?_) tangledTree (.refl _) rfl colour faults out
    have hchecks : Check.table.before = [.format, .root, .target, .inside, .tableText] := rfl
    simp only [hchecks, List.mem_cons, List.not_mem_nil, or_false] at hbefore
    rcases hbefore with rfl | rfl | rfl | rfl | rfl
    · exact passes_format_iff.mpr ⟨.text, by decide⟩
    · exact passes_root_iff.mpr ⟨_, hr⟩
    · exact (passes_target_iff hr).mpr (by decide)
    · exact (passes_inside_iff hr).mpr ⟨.ofString "/src", by decide, by decide, by decide⟩
    · exact passes_tableText_iff.mpr ⟨_, htext⟩
  -- In the plain tree every check is passed.
  · have hr : i.HasRoot ⟨[]⟩ plainTree (.ofString "/") := ⟨.ofString "/", rfl, rfl⟩
    have htext : plainTree.readText i.table = .ok "\x7b\x7d" := by cbv
    have hparse : Moves.parse "\x7b\x7d" = .ok .empty := by cbv
    have hwalk : plainTree.walk (.ofString "/src") = [Path.ofString "/src/a"].map .ok := by cbv
    have hc : plainTree.canonicalize (i.target (.ofString "/")) = .ok (.ofString "/src") := by decide
    have hpasses : ∀ check, i.Passes ⟨[]⟩ plainTree check := fun check => by
      cases check with
      | format => exact passes_format_iff.mpr ⟨.text, by decide⟩
      | root => exact passes_root_iff.mpr ⟨_, hr⟩
      | target => exact (passes_target_iff hr).mpr (by decide)
      | inside => exact (passes_inside_iff hr).mpr ⟨_, hc, by decide, by decide⟩
      | tableText => exact passes_tableText_iff.mpr ⟨_, htext⟩
      | table => exact (passes_table_iff htext).mpr ⟨_, hparse⟩
      | search => exact (passes_search_iff hr hc).mpr ⟨_, hwalk⟩
    obtain ⟨format, p, moves, sources, hrevises, -⟩ :=
      (checks_in_order i ⟨[]⟩ plainTree hplain).2 hpasses
    exact ⟨hpasses, format, p, moves, sources, hrevises⟩

/-! ### Targets inside the root that are refused -/

/-- A table without moves in the root. -/
def tableEntry : Location × Node :=
  ([(Path.ofString "f.json").bytes], .file ⟨1, 0o644, "\x7b\x7d".toUTF8⟩)

/-- Sixteen directories, one in the other, a link to the eighth, and the table. The places far below
have no canonical path, or none that can be asked for. -/
def deepTableTree (cwd : Location) : FileSystem :=
  Project.deepTreeWith 16 [Project.deepLink, tableEntry] cwd

theorem isTree_deepTableTree {cwd : Location} (hcwd : (deepTableTree cwd).isDir cwd = true) :
    (deepTableTree cwd).IsTree := by
  refine Project.isTree_deepTreeWith (fun e he => ?_) hcwd
  simp only [List.mem_cons, List.not_mem_nil, or_false] at he
  rcases he with rfl | rfl <;> exact ⟨by unfold Location.AreNames; decide, rfl⟩

/-- The walk through a directory whose path is too long fails at once. -/
theorem walk_longLocation (fs : FileSystem) : fs.walk (Project.longLocation 16).toPath
    = [.error (.io (Project.longLocation 16).toPath (.os .nameTooLong))] := by
  have hnames := Project.areNames_longLocation 16
  have hlong := Project.isTooLong_longLocation_iff.mpr (Nat.le_refl 16)
  have hlookup : fs.lookup .entry (Project.longLocation 16).toPath = .error (.os .nameTooLong) :=
    FileSystem.lookup_of_not_accepts hnames.nul_not_mem_toPath (Location.bytes_toPath_ne_nil _)
      (by simp [Route.accepts, hlong])
  rw [FileSystem.walk, hlookup]

/-- An invocation with the table on the root directory. -/
def onRoot (target : Path) : Invocation :=
  ⟨.ofString "/f.json", some target, some (.ofString "/"), "text", false, false, false⟩

/-- **That the target is inside the root is not all that is asked of it.** The innermost directory is a
directory over the link, but has no canonical path, and that is the answer. A process in it gets one inside
the root, with a table that can be read, so that the walk should be the first to fail; but nobody can ask
for that path again, and the answer is that it is outside. -/
theorem not_only_inside_deepTableTree :
    let here := deepTableTree []
    let inside := deepTableTree (Project.longLocation 16)
    (here.IsTree ∧ here.isDirectory (Project.overLink []).toPath = true ∧
      ∀ colour faults out, (onRoot (Project.overLink []).toPath).run ⟨[]⟩ colour faults here out
        = ⟨.error (.failed (.io (Project.overLink []).toPath (.os .nameTooLong))), here, out, ""⟩) ∧
      inside.IsTree ∧
      ¬∀ (i : Invocation) (r c : Path) (moves : Moves) (paths : List Path) (e : WalkError)
          (rest : List (Except WalkError Path)),
        i.Passes ⟨[]⟩ inside .format → i.HasRoot ⟨[]⟩ inside r → i.Passes ⟨[]⟩ inside .target →
        inside.canonicalize (i.target r) = .ok c → r.components <+: c.components →
        inside.readMoves i.table = .ok moves → inside.walk c = paths.map .ok ++ .error e :: rest →
        ∀ colour faults out, i.run ⟨[]⟩ colour faults inside out
          = ⟨.error (.scanFailed c (.walk e)), inside, out, ""⟩ := by
  -- What both trees have: the deepest directory, and a path too long for it.
  intro here inside
  have hlong := Project.isTooLong_longLocation_iff.mpr (Nat.le_refl 16)
  have htext : Format.ofName? "text" = some .text := by decide
  have hformat : ∀ target fs, (onRoot target).Passes ⟨[]⟩ fs .format := fun target fs =>
    passes_format_iff.mpr ⟨.text, htext⟩
  have hhere : here.IsTree := isTree_deepTableTree rfl
  have hdir : ∀ {cwd}, (deepTableTree cwd).isDir (Project.longLocation 16) = true :=
    FileSystem.isDir_eq_true.mpr (Project.node?_deepTreeWith (Nat.le_refl 16))
  have hinside : inside.IsTree := isTree_deepTableTree hdir
  -- The request over the link is for a path of half the length.
  have hres : here.resolve (Project.overLink []).toPath = .ok (Project.longLocation 16) := by
    decide +kernel
  have hdirectory : here.isDirectory (Project.overLink []).toPath = true :=
    FileSystem.isDirectory_iff.mpr ⟨_, hres, hdir⟩
  have hnone : here.canonicalize (Project.overLink []).toPath = .error (.os .nameTooLong) :=
    FileSystem.IsTree.canonicalize_of_isTooLong hres hlong (Location.isAbsolute_toPath _)
  refine ⟨⟨hhere, hdirectory, fun colour faults out => ?_⟩, hinside, fun hclaim => ?_⟩
  · have hrefuses : Project.Refuses here (.ofString "/") (some (Project.overLink []).toPath) _ :=
      .tooDeep rfl hdirectory hnone
    exact run_of_ofPaths_error (hformat _ _) rfl (hrefuses.ofPaths_eq hhere)
  -- From inside, the claim would give the failure of the walk.
  · have hroot : (onRoot Project.herePath).HasRoot ⟨[]⟩ inside (.ofString "/") := ⟨.ofString "/", rfl, rfl⟩
    have hcanonical : inside.canonicalize Project.herePath = .ok (Project.longLocation 16).toPath :=
      Project.canonicalize_herePath
    have hprefix : (Path.ofString "/").components <+: (Project.longLocation 16).toPath.components := by
      rw [Location.components_toPath (Project.areNames_longLocation 16)]
      exact List.prefix_append [Component.root] _
    have hread : inside.readText (.ofString "/f.json") = .ok "\x7b\x7d" :=
      FileSystem.readText_eq_ok.mpr
        ⟨tableEntry.1, ⟨1, 0o644, "\x7b\x7d".toUTF8⟩, by decide +kernel, by decide +kernel, rfl, rfl⟩
    have hmoves : inside.readMoves (.ofString "/f.json") = .ok .empty := by
      have hparse : Moves.parse "\x7b\x7d" = .ok .empty := by cbv
      simp only [FileSystem.readMoves, hread, hparse]
    have hrun := hclaim (onRoot Project.herePath) _ _ _ [] _ [] (hformat _ _) hroot
      ((passes_target_iff hroot).mpr Project.isDirectory_herePath) hcanonical hprefix hmoves
      (walk_longLocation inside) false .none ⟨"", none⟩
    -- The path cannot be asked for again, so the run has ended before the walk.
    have hrefuses : Project.Refuses inside (.ofString "/") (some Project.herePath) _ :=
      .outside rfl Project.isDirectory_herePath hcanonical (by simp [FileSystem.IsAskable, hlong])
    have hrun' : (onRoot Project.herePath).run ⟨[]⟩ false .none inside ⟨"", none⟩
        = ⟨.error (.failed _), inside, ⟨"", none⟩, ""⟩ :=
      run_of_ofPaths_error (hformat _ _) rfl (hrefuses.ofPaths_eq hinside)
    cases hrun.symm.trans hrun'

end Invocation

end IncludeMoves
