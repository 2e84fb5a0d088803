import IncludeMoves.Proofs.KeptWays
import IncludeMoves.Proofs.RepeatedRevision

/-!
# Dry runs

A dry run reads all sources from the tree as it was, while a run that writes reads each of them behind
the writes of those before. No write changes what a later source reads, as long as no two sources lead
to one file: through links to files, through names that share a file, and through a link whose place has
been taken, every other path leads to the same file as before, with the same content. So a dry run
predicts the run, but for the writes that fail.

* `FileSystem.KeepsFile` — the same file at the end of a path;
* `Project.nodup_sources` — each source is found once;
* `Project.WriteFails` — a run that ends at a file that can be read and not be written;
* `Project.Foresees` — what a dry run knows of the run;
* `Project.Foresees.reviseAll` — the two runs over all sources;
* `Project.dry_run_predicts_run` — with the table and the search.
-/

namespace IncludeMoves

namespace FileSystem

variable {fs fs' : FileSystem} {q : Path}

/-- **The same file at the end of a path**, if there is one. Also its number and bits are the same, so
that a step has not replaced it. -/
def KeepsFile (fs fs' : FileSystem) (q : Path) : Prop :=
  ∀ k f, fs.resolve q = .ok k → fs.file? k = some f → fs'.resolve q = .ok k ∧ fs'.file? k = some f

/-- A path that is too long is refused by all trees. -/
theorem exists_resolve_of_isTooLong (h : q.isTooLong = true) :
    ∃ e, ∀ fs : FileSystem, fs.resolve q = .error e := by
  by_cases hnul : 0 ∈ q.bytes
  · exact ⟨.nulInName, fun fs => by simp [resolve, lookup, locate, hnul]⟩
  by_cases hempty : q.bytes = []
  · exact ⟨.os .notFound, fun fs => by simp [resolve, lookup, locate, hempty]⟩
  · exact ⟨.os .nameTooLong, fun fs =>
      lookup_of_not_accepts (by simpa using hnul) hempty (by simp [Route.accepts, h])⟩

/-- **What is found by a walk is read in the same way** as long as it is the same file. If it cannot be
read, because of its path or a closed directory, that stays so too. -/
theorem KeepsFile.readText (h : KeepsFile fs fs' q) (hways : fs.KeepsWays fs') (hq : fs.Reaches q) :
    fs'.readText q = fs.readText q := by
  have hbytes : fs'.readBytes q = fs.readBytes q := by
    -- A path that is too long leads nowhere in any tree.
    by_cases hlong : q.isTooLong = true
    · obtain ⟨e, he⟩ := exists_resolve_of_isTooLong hlong
      rw [readBytes, readBytes, he fs, he fs']
    have hlen : q.isTooLong = false := Bool.eq_false_iff.mpr hlong
    cases hq with
    | tooLong hlong' => exact absurd hlong' hlong
    | denied hdenied =>
      rw [readBytes, readBytes, hdenied.resolve_eq hlen, (hways.isDenied hdenied).resolve_eq hlen]
    | file hres hfile =>
      obtain ⟨hres', hfile'⟩ := h _ _ hres hfile
      simp only [readBytes, hres, hres', hfile, hfile']
  rw [FileSystem.readText, FileSystem.readText, hbytes]

end FileSystem

namespace Project

variable {σ : Type} {p : Project} {moves : Moves} {w : Writing} {report : Reporter σ}
  {source s : Path} {sources : List Path} {fs fs' cur cur' : FileSystem} {state state' : σ}
  {result : Except Problem (List Revision)} {r : Revision} {faults faults' : WriteFaults}

/-! ### Each source once -/

theorem pairwise_collectSources {root : Path} {found : List Path}
    {walked : List (Except WalkError Path)}
    (hfound : found.Pairwise fun s t => s.compare t = .lt)
    (h : collectSources root found walked = .ok sources) :
    sources.Pairwise fun s t => s.compare t = .lt := by
  induction walked generalizing found with
  | nil =>
    cases h
    exact hfound
  | cons entry walked ih =>
    cases entry with
    | error e => cases h
    | ok path =>
      rw [collectSources] at h
      -- An insertion keeps the order, and whatever else is done to the set does not change it.
      split at h
      · split at h
        · exact ih (Path.pairwise_insert hfound _) h
        · cases h
      · exact ih hfound h

/-- **Each source is found once.** -/
theorem nodup_sources (h : p.sources fs = .ok sources) : sources.Nodup := by
  refine (pairwise_collectSources .nil h).imp fun {s t} hlt heq => ?_
  rw [heq, Path.compare_eq_eq.mpr rfl] at hlt
  cases hlt

/-- **No two sources lead to one file.** Otherwise a dry run, which writes nothing, would read a text at
the second source that is no longer there in a run that writes. -/
def NoAliases (p : Project) (fs : FileSystem) : Prop :=
  ∀ s t k, p.Discovers fs s → p.Discovers fs t → fs.resolve (p.resolve s) = .ok k →
    fs.resolve (p.resolve t) = .ok k → s = t

/-! ### The two runs -/

/-- **A run in which a write fails**: it gets to a source that can be read and not be revised. This is
all that a dry run cannot know beforehand. -/
inductive WriteFails {σ : Type} (p : Project) (moves : Moves) (w : Writing) (report : Reporter σ) :
    List Path → FileSystem → σ → Prop
  | here {source : Path} {sources : List Path} {fs : FileSystem} {state : σ} {text : String}
      {e : Problem} :
      fs.readText (p.resolve source) = .ok text →
      p.reviseFile moves w source fs = (.error e, fs) →
      WriteFails p moves w report (source :: sources) fs state
  | later {source : Path} {sources : List Path} {fs fs₁ : FileSystem} {state state₁ : σ}
      {r : Revision} :
      p.reviseFile moves w source fs = (.ok r, fs₁) → report r state = (.ok (), state₁) →
      WriteFails p moves w report sources fs₁ state₁ →
      WriteFails p moves w report (source :: sources) fs state

/-- A run that succeeds gets to no write that fails. Every source that it has read it has revised. -/
theorem not_writeFails_of_reviseAll {revisions : List Revision}
    (h : p.reviseAll moves w report sources fs state = (.ok revisions, fs', state')) :
    ¬p.WriteFails moves w report sources fs state := by
  intro hfails
  induction hfails generalizing revisions with
  -- The write that fails ends the run.
  | here _ hfail =>
    rw [reviseAll, hfail] at h
    cases h
  -- Up to that write both runs do the same.
  | later hstep hreport _ ih =>
    obtain ⟨r, rs, fs₁, state₁, rfl, hstep', hreport', hrest⟩ := reviseAll_cons_ok h
    cases hstep.symm.trans hstep'
    cases hreport.symm.trans hreport'
    exact ih hrest

theorem files_reviseFile_of_dry (hw : w.dry = true) (source : Path) (fs : FileSystem) :
    (p.reviseFile moves w source fs).2 = fs := by
  rw [reviseFile]
  cases fs.readText (p.resolve source) with
  | error e => rfl
  | ok text => simp only [hw, true_or, if_true]

/-- **A dry run leaves the tree as it is**, however it ends. -/
theorem files_reviseAll_of_dry (hw : w.dry = true)
    (h : p.reviseAll moves w report sources fs state = (result, fs', state')) : fs' = fs :=
  reviseAll_induct (P := fun fs₁ => fs₁ = fs)
    (fun fs₁ source h₁ => (files_reviseFile_of_dry hw source fs₁).trans h₁) rfl h

/-- **A step leaves the files of other sources as they are.** It puts a file at one place, and that is
the one of its own source or of a link to it. -/
theorem keepsFile_reviseFile (hp : p.IsPlaced cur) (hways : fs.KeepsWays cur)
    (hs : fs.Reaches (p.resolve s))
    (hdistinct : ∀ k, fs.resolve (p.resolve s) = .ok k → fs.resolve (p.resolve source) ≠ .ok k)
    (hkeeps : fs.KeepsFile cur (p.resolve s)) (hkeeps' : fs.KeepsFile cur (p.resolve source))
    (h : p.reviseFile moves w s cur = (.ok r, cur')) : fs.KeepsFile cur' (p.resolve source) := by
  intro k f hres hfile
  obtain ⟨hres₁, hfile₁⟩ := hkeeps' k f hres hfile
  refine (resolve_reviseFile hp h hres₁ hfile₁).resolve_right ?_
  rintro ⟨hsame, -, -⟩
  -- Otherwise the step would have been on the same file.
  obtain ⟨m, g, hm, hg⟩ := hways.exists_file_of_resolve hs hsame
  obtain ⟨hm', -⟩ := hkeeps m g hm hg
  cases hm'.symm.trans hsame
  exact hdistinct _ hm hres

/-- **A dry step and one that writes**, of a source that reads the same: both fail with the same problem,
both return the same revision, or the write fails. -/
theorem reviseFile_dry (htext : cur.readText (p.resolve s) = fs.readText (p.resolve s)) :
    (∃ e, p.reviseFile moves ⟨true, faults'⟩ s fs = (.error e, fs) ∧
        p.reviseFile moves ⟨false, faults⟩ s cur = (.error e, cur)) ∨
      (∃ r cur', p.reviseFile moves ⟨true, faults'⟩ s fs = (.ok r, fs) ∧
        p.reviseFile moves ⟨false, faults⟩ s cur = (.ok r, cur')) ∨
      ∃ text e, cur.readText (p.resolve s) = .ok text ∧
        p.reviseFile moves ⟨false, faults⟩ s cur = (.error e, cur) := by
  cases hread : fs.readText (p.resolve s) with
  -- The read fails in both runs, with the same error.
  | error e =>
    rw [hread] at htext
    refine .inl ⟨.io (p.resolve s) e, ?_, ?_⟩
    · simp only [reviseFile, hread]
    · simp only [reviseFile, htext]
  | ok text =>
    rw [hread] at htext
    have hdry : p.reviseFile moves ⟨true, faults'⟩ s fs = (.ok (moves.revise s text), fs) := by
      simp only [reviseFile, hread, true_or, if_true]
    cases hstep : p.reviseFile moves ⟨false, faults⟩ s cur with
    | mk result cur' =>
      cases result with
      | error e =>
        cases reviseFile_error hstep
        exact .inr (.inr ⟨text, e, htext, rfl⟩)
      | ok r =>
        -- The revision is that of the text which both have read.
        obtain ⟨text', htext', rfl, -⟩ := reviseFile_ok hstep
        cases htext.symm.trans htext'
        exact .inr (.inl ⟨_, cur', hdry, rfl⟩)

/-- **What a dry run on `fs` knows of a run that writes** and has got to the tree `cur`: all sources ahead
are files of `fs` that are in `cur` still, each by one path, and no write ahead fails. -/
structure Foresees (p : Project) (moves : Moves) (faults : WriteFaults) (report : Reporter σ)
    (fs : FileSystem) (sources : List Path) (cur : FileSystem) (state : σ) : Prop where
  placed : p.IsPlaced cur
  ways : fs.KeepsWays cur
  nodup : sources.Nodup
  distinct : ∀ s ∈ sources, ∀ t ∈ sources, ∀ k, fs.resolve (p.resolve s) = .ok k →
    fs.resolve (p.resolve t) = .ok k → s = t
  reaches : ∀ s ∈ sources, fs.Reaches (p.resolve s)
  keeps : ∀ s ∈ sources, fs.KeepsFile cur (p.resolve s)
  writes : ¬p.WriteFails moves ⟨false, faults⟩ report sources cur state

/-- **It knows the same behind a step.** The file of the first source has changed, but no other source
reads it. -/
theorem Foresees.step {state₁ : σ} (h : p.Foresees moves faults report fs (s :: sources) cur state)
    (hstep : p.reviseFile moves ⟨false, faults⟩ s cur = (.ok r, cur'))
    (hreport : report r state = (.ok (), state₁)) :
    p.Foresees moves faults report fs sources cur' state₁ := by
  have hs : s ∈ s :: sources := List.mem_cons_self
  have hlater : ∀ t ∈ sources, t ∈ s :: sources := fun t ht => List.mem_cons_of_mem s ht
  obtain ⟨hnot, hnodup⟩ := List.nodup_cons.mp h.nodup
  have hplaced := h.placed.reviseFile moves ⟨false, faults⟩ s
  have hways : cur.KeepsWays (p.reviseFile moves ⟨false, faults⟩ s cur).2 :=
    keepsWays_reviseFile h.placed
  rw [hstep] at hplaced hways
  refine ⟨hplaced, h.ways.trans hways, hnodup, fun s hs t ht => h.distinct s (hlater s hs) t (hlater t ht),
    fun t ht => h.reaches t (hlater t ht), fun t ht => ?_,
    fun hfails => h.writes (.later hstep hreport hfails)⟩
  refine keepsFile_reviseFile h.placed h.ways (h.reaches s hs) (fun k hk hk' => ?_) (h.keeps s hs)
    (h.keeps t (hlater t ht)) hstep
  -- A source ahead that leads to the file of this step would be this source.
  rw [h.distinct s hs t (hlater t ht) k hk hk'] at hnot
  exact hnot ht

/-- **A dry run and a run that writes** have the same result and make the same reports. They go over the
sources side by side, and at each of them read the same text. -/
theorem Foresees.reviseAll (h : p.Foresees moves faults report fs sources cur state)
    (faults' : WriteFaults) :
    ∃ result fs₁ cur₁ state₁,
      p.reviseAll moves ⟨true, faults'⟩ report sources fs state = (result, fs₁, state₁) ∧
      p.reviseAll moves ⟨false, faults⟩ report sources cur state = (result, cur₁, state₁) ∧
      fs₁ = fs := by
  -- The one run stays at `fs`, the other goes on from `cur`.
  refine reviseAll_in_step (E := fun fs₁ _ => fs₁ = fs)
    (R := fun sources fs₁ cur state =>
      fs₁ = fs ∧ p.Foresees moves faults report fs sources cur state)
    (fun _ _ _ h => h.1) ?_ ⟨rfl, h⟩
  rintro s sources fs₁ cur state ⟨rfl, h⟩
  have hs : s ∈ s :: sources := List.mem_cons_self
  rcases reviseFile_dry ((h.keeps s hs).readText h.ways (h.reaches s hs)) with
    ⟨e, hdry, hstep⟩ | ⟨r, cur₁, hdry, hstep⟩ | ⟨text, e, htext, hstep⟩
  · exact ⟨.error e, fs₁, cur, hdry, hstep, rfl, fun r _ hr => nomatch hr⟩
  · refine ⟨.ok r, fs₁, cur₁, hdry, hstep, rfl, fun r' state₁ hr hreport => ⟨rfl, ?_⟩⟩
    cases hr
    exact h.step hstep hreport
  · exact absurd (.here htext hstep) h.writes

/-! ### The table and the search -/

/-- **A dry run predicts the run.** It leaves the tree as it is, whatever becomes of the table, the
search, the sources and the reports. If no two sources lead to one file, and the run that writes does not
get to a write that fails, the two have the same result, be it revisions or an error, and the same log,
and they leave the reporter in the same state. It may keep all that it is handed, so it has been handed
the same revisions in the same order. -/
theorem dry_run_predicts_run (p : Project) (table : Path) (verbose : Bool) (faults faults' : WriteFaults)
    (report : Reporter σ) (fs : FileSystem) (state : σ) :
    let dry := p.applyTable table ⟨true, faults'⟩ verbose report fs state
    let run := p.applyTable table ⟨false, faults⟩ verbose report fs state
    dry.files = fs ∧
      ((∃ root target?, ofPaths fs root target? = .ok p) → fs.IsTree → p.NoAliases fs →
        (∀ moves sources, fs.readMoves table = .ok moves → p.sources fs = .ok sources →
          ¬p.WriteFails moves ⟨false, faults⟩ report sources fs state) →
        dry.result = run.result ∧ dry.state = run.state ∧ dry.log = run.log) := by
  intro dry run
  refine ⟨?_, ?_⟩
  -- A dry run writes nothing, however far it gets.
  · rcases p.applyTable_cases table ⟨true, faults'⟩ verbose report fs state with
      ⟨e, -, hdone⟩ | ⟨moves, sources, result, fs', state', log, -, -, hall, hdone⟩
    · exact congrArg Finished.files hdone
    · exact (congrArg Finished.files hdone).trans (files_reviseAll_of_dry rfl hall)
  · rintro ⟨root, target?, hp⟩ hfs halone hwrites
    obtain ⟨r, below, hat⟩ := exists_isAt hfs hp
    -- The table and the search are the same for both; what fails there ends both runs alike.
    simp only [dry, run, applyTable]
    cases hmoves : fs.readMoves table with
    | error e => exact ⟨rfl, rfl, rfl⟩
    | ok moves =>
      cases hsources : p.sources fs with
      | error e => exact ⟨rfl, rfl, rfl⟩
      | ok sources =>
        -- Both go over the same sources, and at the beginning all is as the dry run knows it.
        have hfound : ∀ s ∈ sources, p.Discovers fs s :=
          fun s hs => discovers_of_mem_sources hsources hs
        have hforesees : p.Foresees moves faults report fs sources fs state :=
          { placed := isPlaced_of_ofPaths hp fs
            ways := .refl fs
            nodup := nodup_sources hsources
            distinct := fun s hs t ht k => halone s t k (hfound s hs) (hfound t ht)
            reaches := fun s hs => (hat.reaches_of_discovers hfs (hfound s hs)).2
            keeps := fun s hs k f hres hfile => ⟨hres, hfile⟩
            writes := hwrites moves sources hmoves hsources }
        obtain ⟨result, fs₁, cur₁, state₁, hdry, hrun, -⟩ := hforesees.reviseAll faults'
        simp only [hdry, hrun, and_self]

/-- Where the name `src/b.hpp` is. -/
def secondName : Location :=
  [(Path.ofString "b.hpp").bytes, (Path.ofString "src").bytes]

/-- A file with two names, `src/a.hpp` and `src/b.hpp`, and a table `f.json`. Both names are sources,
and yet there is no alias: when the first one is replaced, the other keeps the old file. -/
def twoNamesTree : FileSystem where
  entries := [
    ([(Path.ofString "src").bytes], .dir),
    (sharedFile, .file ⟨1, 0o644, "#include \"A\"\n".toUTF8⟩),
    (secondName, .file ⟨1, 0o644, "#include \"A\"\n".toUTF8⟩),
    ([(Path.ofString "f.json").bytes],
      .file ⟨2, 0o644, "\x7b\"A\":\"B\",\"B\":\"A\"\x7d".toUTF8⟩)]
  cwd := []

theorem noAliases_twoNamesTree : aliasProject.NoAliases twoNamesTree := by
  have hwalk : twoNamesTree.walk aliasProject.target
      = [.ok (.ofString "/src/a.hpp"), .ok (.ofString "/src/b.hpp")] := by cbv
  -- There are two names,
  have hfound : ∀ s, aliasProject.Discovers twoNamesTree s →
      s = .ofString "src/a.hpp" ∨ s = .ofString "src/b.hpp" := by
    rintro s ⟨path, hpath, -, hrel⟩
    rw [hwalk] at hpath
    simp only [List.mem_cons, Except.ok.injEq, List.not_mem_nil, or_false] at hpath
    rcases hpath with rfl | rfl
    · exact .inl (Option.some.inj hrel).symm
    · exact .inr (Option.some.inj hrel).symm
  -- and they are at two locations.
  have hfirst : twoNamesTree.resolve (aliasProject.resolve (.ofString "src/a.hpp"))
      = .ok sharedFile := rfl
  have hsecond : twoNamesTree.resolve (aliasProject.resolve (.ofString "src/b.hpp"))
      = .ok secondName := rfl
  have hne : sharedFile ≠ secondName := by decide
  intro s t k hs ht hk hk'
  rcases hfound s hs with rfl | rfl
  · rcases hfound t ht with rfl | rfl
    · rfl
    · rw [hfirst, Except.ok.injEq] at hk
      rw [hsecond, Except.ok.injEq] at hk'
      exact absurd (hk.trans hk'.symm) hne
  · rcases hfound t ht with rfl | rfl
    · rw [hsecond, Except.ok.injEq] at hk
      rw [hfirst, Except.ok.injEq] at hk'
      exact absurd (hk'.trans hk.symm) hne
    · rfl

/-- The dry run tells of both names what the run does: it writes the file of the first name, and the
second one shows the old file still. -/
theorem dry_run_predicts_run_twoNamesTree :
    let keep : Reporter (List Revision) := fun r handed => (.ok (), handed ++ [r])
    let dry := aliasProject.applyTable (.ofString "/f.json") ⟨true, .none⟩ true keep twoNamesTree []
    let run := aliasProject.applyTable (.ofString "/f.json") ⟨false, .none⟩ true keep twoNamesTree []
    ofPaths twoNamesTree (.ofString "/") none = .ok aliasProject ∧ twoNamesTree.IsTree ∧
      aliasProject.NoAliases twoNamesTree ∧
      run.files.content? sharedFile = some "#include \"B\"\n".toUTF8 ∧ dry.files = twoNamesTree ∧
      dry.result = run.result ∧ dry.state = run.state ∧ dry.log = run.log := by
  intro keep dry run
  have hp : ofPaths twoNamesTree (.ofString "/") none = .ok aliasProject := rfl
  have htree : twoNamesTree.IsTree := by decide
  have hmoves : twoNamesTree.readMoves (.ofString "/f.json") = .ok swap := by cbv
  have hsources : aliasProject.sources twoNamesTree
      = .ok [.ofString "src/a.hpp", .ofString "src/b.hpp"] := by cbv
  -- Each file has a name of its own, so both are revised from `A` to `B`.
  have hall : aliasProject.reviseAll swap ⟨false, .none⟩ keep
        [.ofString "src/a.hpp", .ofString "src/b.hpp"] twoNamesTree []
      = (.ok (["src/a.hpp", "src/b.hpp"].map fun name => ⟨.ofString name, "#include \"B\"\n",
            [⟨.ofString name, "A", .replaced "B" .quoted, none⟩]⟩),
        (twoNamesTree.put sharedFile (.file ⟨3, 0o644, "#include \"B\"\n".toUTF8⟩)).put
          secondName (.file ⟨4, 0o644, "#include \"B\"\n".toUTF8⟩),
        ["src/a.hpp", "src/b.hpp"].map fun name => ⟨.ofString name, "#include \"B\"\n",
          [⟨.ofString name, "A", .replaced "B" .quoted, none⟩]⟩) := by
    simp only [keep, reviseAll, reviseFile, Moves.revise_eq_reviseLines]
    rfl
  have hcontent : run.files.content? sharedFile = some "#include \"B\"\n".toUTF8 := by
    simp only [run, applyTable, hmoves, hsources, hall]
    rfl
  -- No write fails, since the run has gone through.
  obtain ⟨hfiles, hsame⟩ := dry_run_predicts_run aliasProject (.ofString "/f.json") true .none .none
    keep twoNamesTree []
  refine ⟨hp, htree, noAliases_twoNamesTree, hcontent, hfiles,
    hsame ⟨_, _, hp⟩ htree noAliases_twoNamesTree fun moves sources hmoves' hsources' => ?_⟩
  cases hmoves.symm.trans hmoves'
  cases hsources.symm.trans hsources'
  exact not_writeFails_of_reviseAll hall

end Project

end IncludeMoves
