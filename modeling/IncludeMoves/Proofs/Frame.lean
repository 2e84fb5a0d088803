import IncludeMoves.CommandLine
import IncludeMoves.Proofs.Aliases
import IncludeMoves.Proofs.PathOrder

/-!
# What a run leaves alone

Whatever a command line asks for and however the run ends, no path appears or disappears, and links,
directories and permission bits stay. What may differ is the content of files to which sources lead,
and it is then a text to which the table has been applied, never a part of one.

* `Project.Discovers` — what a source is;
* `Project.applyTable_cases` — how far a run gets;
* `Invocation.LosesLink` — the one way in which a run changes more;
* `Invocation.run_frame` — the tree after a run.
-/

namespace IncludeMoves

namespace Project

variable {σ : Type} {p : Project} {fs : FileSystem} {source : Path} {sources : List Path}

/-- **A source**: the path from the root of a file that the walk through the target reaches and that
has the name of a source. -/
def Discovers (p : Project) (fs : FileSystem) (source : Path) : Prop :=
  ∃ path, .ok path ∈ fs.walk p.target ∧ path.isSource = true ∧
    path.relativeTo? p.root = some source

/-- What a collection of sources ends with was there at its beginning, or the walk has reported it. -/
theorem mem_of_collectSources {root : Path} {found : List Path}
    {walked : List (Except WalkError Path)}
    (h : collectSources root found walked = .ok sources) (hs : source ∈ sources) :
    source ∈ found ∨ ∃ path, .ok path ∈ walked ∧ path.isSource = true ∧
      path.relativeTo? root = some source := by
  induction walked generalizing found with
  | nil =>
    rw [collectSources] at h
    exact .inl (Except.ok.inj h ▸ hs)
  | cons entry walked ih =>
    -- What comes from a later entry comes from one of all entries.
    have hlater : ∀ found, collectSources root found walked = .ok sources →
        source ∈ found ∨ ∃ path, .ok path ∈ entry :: walked ∧ path.isSource = true ∧
          path.relativeTo? root = some source := by
      intro found h
      refine (ih h).imp_right ?_
      rintro ⟨path, hpath, hrest⟩
      exact ⟨path, List.mem_cons_of_mem _ hpath, hrest⟩
    cases entry with
    | error e =>
      rw [collectSources] at h
      cases h
    | ok path =>
      -- A path that is reported is put into the set if it is that of a source.
      rw [collectSources] at h
      split at h
      · next hsource =>
        split at h
        · next s hrel =>
          rcases hlater _ h with hmem | hmem
          · rcases Path.eq_or_mem_of_mem_insert hmem with rfl | hmem
            · exact .inr ⟨path, List.mem_cons_self, hsource, hrel⟩
            · exact .inl hmem
          · exact .inr hmem
        · cases h
      · exact hlater _ h

/-- What a run revises has been discovered. -/
theorem discovers_of_mem_sources (h : p.sources fs = .ok sources) (hs : source ∈ sources) :
    p.Discovers fs source :=
  (mem_of_collectSources h hs).resolve_left (List.not_mem_nil)

end Project

namespace Invocation

/-- The report that an invocation asks for. -/
def report (i : Invocation) (format : Format) (colour : Bool) : Report :=
  ⟨format, i.quiet, colour && !i.noColour⟩

/-- What an invocation revises, and with which table, if it gets so far. All of it is fixed by the
invocation and the tree, so there is at most one such project, table and list (`Revises.unique`). -/
structure Revises (i : Invocation) (executable : Path) (fs : FileSystem) (format : Format)
    (p : Project) (moves : Moves) (sources : List Path) : Prop where
  format : Format.ofName? i.format = some format
  project : ∃ root, i.root executable = .ok root ∧ Project.ofPaths fs root i.target? = .ok p
  moves : fs.readMoves i.table = .ok moves
  sources : p.sources fs = .ok sources

theorem Revises.unique {i : Invocation} {executable : Path} {fs : FileSystem}
    {format format' : Format} {p p' : Project} {moves moves' : Moves} {sources sources' : List Path}
    (h : i.Revises executable fs format p moves sources)
    (h' : i.Revises executable fs format' p' moves' sources') :
    format = format' ∧ p = p' ∧ moves = moves' ∧ sources = sources' := by
  obtain ⟨root, hroot, hp⟩ := h.project
  obtain ⟨root', hroot', hp'⟩ := h'.project
  cases hroot.symm.trans hroot'
  cases hp.symm.trans hp'
  exact ⟨Option.some.inj (h.format.symm.trans h'.format), rfl,
    Except.ok.inj (h.moves.symm.trans h'.moves), Except.ok.inj (h.sources.symm.trans h'.sources)⟩

/-- **An invocation in whose run a link is lost.** It takes a source that leads through a link to a
place with a path too long to be asked for. -/
def LosesLink (i : Invocation) (executable : Path) (colour : Bool) (faults : WriteFaults)
    (fs : FileSystem) (out : Output) : Prop :=
  ∃ format p moves sources, i.Revises executable fs format p moves sources ∧
    p.LosesLink moves ⟨false, faults⟩ (Output.reporter (i.report format colour)) sources fs out

/-- What an invocation revises is determined, so a link is lost in that run or in none. -/
theorem Revises.losesLink_iff {i : Invocation} {executable : Path} {colour : Bool}
    {faults : WriteFaults} {fs : FileSystem} {out : Output} {format : Format} {p : Project}
    {moves : Moves} {sources : List Path}
    (h : i.Revises executable fs format p moves sources) :
    i.LosesLink executable colour faults fs out ↔
      p.LosesLink moves ⟨false, faults⟩ (Output.reporter (i.report format colour)) sources fs
        out := by
  constructor
  -- Another format, project, table or list of sources cannot be what it revises.
  · rintro ⟨format', p', moves', sources', h', hlost⟩
    obtain ⟨rfl, rfl, rfl, rfl⟩ := h.unique h'
    exact hlost
  · exact fun hlost => ⟨format, p, moves, sources, h, hlost⟩

/-- **How far an invocation gets**: it stops with the tree as it was, or it revises sources. Everything
that is said of trees after an invocation is proved by this split, and then for `reviseAll`. -/
theorem run_cases (i : Invocation) (executable : Path) (colour : Bool) (faults : WriteFaults)
    (fs : FileSystem) (out : Output) :
    ((∀ format p moves sources, ¬i.Revises executable fs format p moves sources) ∧
      (i.run executable colour faults fs out).files = fs) ∨
      ∃ format p moves sources result out', i.Revises executable fs format p moves sources ∧
        p.reviseAll moves ⟨false, faults⟩ (Output.reporter (i.report format colour)) sources fs out
          = (result, (i.run executable colour faults fs out).files, out') := by
  unfold run
  -- Format, root and project are settled first; what fails there leaves nothing to revise.
  cases hformat : Format.ofName? i.format with
  | none => exact .inl ⟨fun _ _ _ _ h => by simpa [hformat] using h.format, rfl⟩
  | some format =>
    cases hroot : i.root executable with
    | error e =>
      refine .inl ⟨fun _ _ _ _ h => ?_, rfl⟩
      obtain ⟨root, hok, -⟩ := h.project
      rw [hroot] at hok
      cases hok
    | ok root =>
      cases hp : Project.ofPaths fs root i.target? with
      | error e =>
        refine .inl ⟨fun _ _ _ _ h => ?_, by simp only [hp]⟩
        obtain ⟨root', hok, hp'⟩ := h.project
        cases hroot.symm.trans hok
        rw [hp] at hp'
        cases hp'
      | ok p =>
        simp only [hp]
        -- With a project, it is up to the table and the search.
        obtain ⟨log, hrun⟩ := p.run_eq i.table (i.report format colour) i.verbose faults fs out
        rcases p.applyTable_cases i.table ⟨false, faults⟩ i.verbose
          (Output.reporter (i.report format colour)) fs out with
          ⟨e, hstop, hdone⟩ | ⟨moves, sources, result, fs', out', _, hmoves, hsources, hall, hdone⟩
        · rw [hdone] at hrun
          refine .inl ⟨fun _ p' moves sources h => ?_, congrArg Finished.files hrun⟩
          obtain ⟨root', hok, hp'⟩ := h.project
          cases hroot.symm.trans hok
          cases hp.symm.trans hp'
          exact hstop moves sources ⟨h.moves, h.sources⟩
        -- And if both are there the sources are revised.
        · rw [hdone] at hrun
          have hfiles : fs' = _ := (congrArg Finished.files hrun).symm
          refine .inr ⟨format, p, moves, sources, result, out',
            ⟨hformat, ⟨root, hroot, hp⟩, hmoves, hsources⟩, hall.trans ?_⟩
          rw [hfiles]
          rfl

/-- **What a run leaves alone.** For every tree, command line and outcome: exactly if no link is lost,
the run keeps all paths, the kinds of the entries, the links and the permission bits. Then the content
of a file differs only if a source leads to it; it was a text, and the table has been applied to it as
a whole some number of times. -/
theorem run_frame (i : Invocation) (executable : Path) (colour : Bool) (faults : WriteFaults)
    (fs : FileSystem) (out : Output) :
    let after := (i.run executable colour faults fs out).files
    (fs.SameTree after ↔ ¬i.LosesLink executable colour faults fs out) ∧
    (¬i.LosesLink executable colour faults fs out →
      ∀ l, after.content? l = fs.content? l ∨
        ∃ format p moves sources source text count,
          i.Revises executable fs format p moves sources ∧
          p.Discovers fs source ∧ fs.resolve (p.resolve source) = .ok l ∧
          fs.content? l = some text.toUTF8 ∧
          after.content? l = some (moves.revisedText^[count] text).toUTF8) := by
  intro after
  rcases i.run_cases executable colour faults fs out with
    ⟨hnone, hfiles⟩ | ⟨format, p, moves, sources, result, out', hrevises, hall⟩
  · -- Nothing has been revised.
    have hkept : ¬i.LosesLink executable colour faults fs out :=
      fun ⟨format, p, moves, sources, h, _⟩ => hnone format p moves sources h
    have hafter : after = fs := hfiles
    rw [hafter]
    exact ⟨⟨fun _ => hkept, fun _ => .refl fs⟩, fun _ l => .inl rfl⟩
  -- What was revised is fixed from here on.
  obtain ⟨root, -, hproject⟩ := hrevises.project
  have hplaced := Project.isPlaced_of_ofPaths hproject fs
  rw [hrevises.losesLink_iff]
  refine ⟨⟨fun htree h => ?_, fun hkept => ?_⟩, fun hkept l => ?_⟩
  · -- Where the link was, there is a file now.
    obtain ⟨l, t, hlink, hfile⟩ := h.exists_link hplaced hall
    have hlink' := (htree.node?_eq_some (by simp)).mpr hlink
    have hnone : after.file? l = none := FileSystem.file?_eq_none_of_link hlink'
    have hsome : (after.file? l).isSome = true := hfile
    simp [hnone] at hsome
  -- Without a lost link the run is a chain of steps.
  · obtain ⟨done, rest, revisions, -, hsweep, -⟩ := Project.sweep_of_reviseAll hall hkept
    exact hsweep.sameTree hplaced
  · obtain ⟨done, rest, revisions, hsources, hsweep, -⟩ := Project.sweep_of_reviseAll hall hkept
    rcases hsweep.content?_cases hplaced rfl l with
      hsame | ⟨source, hdone, text, count, hres, htext, hrevised⟩
    · exact .inl hsame
    · have hdiscovers : p.Discovers fs source :=
        Project.discovers_of_mem_sources hrevises.sources (hsources ▸ List.mem_append_left _ hdone)
      exact .inr ⟨format, p, moves, sources, source, text, count, hrevises, hdiscovers, hres, htext,
        hrevised⟩

end Invocation

end IncludeMoves
