import IncludeMoves.Proofs.Abort
import IncludeMoves.Proofs.InPlace
import IncludeMoves.Proofs.SecondRun

/-!
# Repeating a run that was stopped

A run that ends early can be repeated from where it is, or from the beginning. With a settled table it
makes no difference: the sources that have been dealt with are left alone by the second run, so it does
behind them what the run from the beginning does. Before it is repeated, a file that was no text may
have got one in place; no source before it has read that file, so the repair may be thought of as made
before the first run.

* `Project.IsRefused` — a run that is stopped by its reporter;
* `Project.EndAlike` — trees on which runs end alike, unless a report is refused;
* `Project.endAlike_of_treeAfter` — the trees before and behind a part of a run;
* `Project.Repairs` — what is done about the end of a run;
* `Project.stopped_run_can_be_repeated` — the repeated runs.
-/

namespace IncludeMoves

namespace Project

variable {σ : Type} {p : Project} {moves : Moves} {w : Writing} {report : Reporter σ}
  {source : Path} {sources done rest : List Path} {fs fs₁ fs' : FileSystem} {state state₁ state' : σ}
  {result : Except Problem (List Revision)} {revisions : List Revision} {e : Problem}
  {r below : Location}

/-! ### Reports that are refused -/

/-- **A run that its reporter stops**: a file has been revised and the report about it is refused. Then
the tree has one revision more than the reports tell. -/
def IsRefused (p : Project) (moves : Moves) (w : Writing) (report : Reporter σ) (sources : List Path)
    (fs : FileSystem) (state : σ) : Prop :=
  ∃ done source rest revisions r e fs' state', sources = done ++ source :: rest ∧
    StopsAt p moves w report fs state e fs' state' done revisions source (some r)

/-- A reporter that takes everything stops no run. -/
theorem not_isRefused (haccept : ∀ r st, (report r st).1 = .ok ()) :
    ¬p.IsRefused moves w report sources fs state := by
  rintro ⟨done, source, rest, revisions, r, e, fs', state', -, hstop⟩
  cases hstop with
  | @report fs₁ state₁ text _ _ _ _ hrefused =>
    have htaken := haccept (moves.revise source text) state₁
    rw [hrefused] at htaken
    cases htaken

/-- The reporter that takes everything and remembers nothing. A run with it shows what happens to the
tree alone. -/
def silent : Reporter Unit :=
  fun _ _ => (.ok (), ())

/-- **Reports make no difference**, but for those that are refused. Where no report is refused the
silent run is the same one. -/
theorem reviseAll_silent (hp : p.IsPlaced fs) (hw : w.dry = false)
    (h : p.reviseAll moves w report sources fs state = (result, fs', state')) :
    p.reviseAll moves w silent sources fs () = (result, fs', ()) ∨
      p.IsRefused moves w report sources fs state := by
  cases result with
  | ok revisions =>
    obtain ⟨u, hu⟩ := treeAfter_of_reviseAll h Unit silent () fun _ _ => rfl
    exact .inl hu
  | error e =>
    obtain ⟨done, source, rest, revisions, unreported, rfl, hstop⟩ := stopsAt_of_reviseAll hp hw h
    cases unreported with
    | some r => exact .inr ⟨done, source, rest, revisions, r, e, fs', state', rfl, hstop⟩
    | none =>
      -- The source at which the run ends cannot be revised, whoever is told of those before it.
      left
      cases hstop with
      | file hdone hfail =>
        obtain ⟨u, hu⟩ := treeAfter_of_reviseAll hdone.reviseAll_eq Unit silent () fun _ _ => rfl
        have hrest : p.reviseAll moves w silent (source :: rest) fs' u = (.error e, fs', u) := by
          rw [reviseAll, hfail]
        exact reviseAll_append hu hrest

/-- **Trees on which runs end alike**: wherever the reports go, a run over the sources succeeds on both
and leaves the same tree, or it fails on both with the same problem and leaves the same tree, unless one
of the two is stopped by its reporter. -/
def EndAlike (p : Project) (moves : Moves) (w : Writing) (sources : List Path)
    (fs fs' : FileSystem) : Prop :=
  ∀ (σ τ : Type) (report : Reporter σ) (report' : Reporter τ) (state : σ) (state' : τ),
    let ended := p.reviseAll moves w report sources fs state
    let ended' := p.reviseAll moves w report' sources fs' state'
    (∃ revisions revisions', ended.1 = .ok revisions ∧ ended'.1 = .ok revisions' ∧
      ended.2.1 = ended'.2.1) ∨
    (∃ e, ended.1 = .error e ∧ ended'.1 = .error e ∧ ended.2.1 = ended'.2.1) ∨
    p.IsRefused moves w report sources fs state ∨ p.IsRefused moves w report' sources fs' state'

/-- With reporters that take everything, both runs succeed or none, and the trees are the same. So it
may be asked for the result without saying who listens. -/
theorem EndAlike.of_accept {τ : Type} {report' : Reporter τ} {state' : τ}
    (h : p.EndAlike moves w sources fs fs') (haccept : ∀ r st, (report r st).1 = .ok ())
    (haccept' : ∀ r st, (report' r st).1 = .ok ()) :
    let ended := p.reviseAll moves w report sources fs state
    let ended' := p.reviseAll moves w report' sources fs' state'
    ((∃ revisions, ended.1 = .ok revisions) ↔ ∃ revisions, ended'.1 = .ok revisions) ∧
      ended.2.1 = ended'.2.1 := by
  intro ended ended'
  -- Both runs succeed, or both fail at the same problem, or one of them is refused.
  rcases h σ τ report report' state state' with
    ⟨revisions, revisions', hok, hok', hfiles⟩ | ⟨e, herror, herror', hfiles⟩ | hrefused | hrefused
  · exact ⟨⟨fun _ => ⟨revisions', hok'⟩, fun _ => ⟨revisions, hok⟩⟩, hfiles⟩
  · refine ⟨⟨?_, ?_⟩, hfiles⟩
    · rintro ⟨revisions, hok⟩
      cases herror.symm.trans hok
    · rintro ⟨revisions, hok⟩
      cases herror'.symm.trans hok
  · exact absurd hrefused (not_isRefused haccept)
  · exact absurd hrefused (not_isRefused haccept')

/-! ### A part of a run, made twice -/

/-- What a settled table has been applied to is left alone when it is applied again. -/
theorem TreeAfter.again (hm : moves.IsSettled) (hp : p.IsPlaced fs) (hw : w.dry = false)
    (h : p.TreeAfter moves w fs done revisions fs₁) :
    ∃ again, p.TreeAfter moves w fs₁ done again fs₁ := by
  obtain ⟨u, hu⟩ := h Unit silent () fun _ _ => rfl
  obtain ⟨again, -, -, hrun⟩ := reviseAll_of_isSpared (isSpared_of_reviseAll hm hp hw hu)
  exact ⟨again, fun τ accept start haccept =>
    ⟨_, hrun w τ accept start fun r _ st => haccept r st⟩⟩

/-- **A run may be repeated from the tree behind a part of it.** The sources of this part are spared
there, so the repeated run does nothing until it comes to the others. -/
theorem endAlike_of_treeAfter (hm : moves.IsSettled) (hp : p.IsPlaced fs) (hp₁ : p.IsPlaced fs₁)
    (hw : w.dry = false) (h : p.TreeAfter moves w fs done revisions fs₁) (rest : List Path) :
    p.EndAlike moves w (done ++ rest) fs fs₁ := by
  intro σ τ report report' state state' ended ended'
  obtain ⟨again, hagain⟩ := h.again hm hp hw
  -- Both trees are what the part leaves, so the part changes nothing when it is run again.
  obtain ⟨u, hu⟩ := h Unit silent () fun _ _ => rfl
  obtain ⟨u', hu'⟩ := hagain Unit silent () fun _ _ => rfl
  -- Behind the part, both runs go on from the same tree.
  obtain ⟨result, fs₂, hrest⟩ : ∃ result fs₂,
      p.reviseAll moves w silent rest fs₁ () = (result, fs₂, ()) := ⟨_, _, rfl⟩
  have hrun := reviseAll_append hu hrest
  have hrun' := reviseAll_append hu' hrest
  -- A reporter may refuse a report, and then there is no more to show.
  rcases reviseAll_silent hp hw (show _ = (ended.1, ended.2.1, ended.2.2) from rfl) with
    hended | hrefused
  · rcases reviseAll_silent hp₁ hw (show _ = (ended'.1, ended'.2.1, ended'.2.2) from rfl) with
      hended' | hrefused
    · obtain ⟨hresult, hfiles⟩ : ended.1 = result.map (revisions ++ ·) ∧ ended.2.1 = fs₂ := by
        simpa using hended.symm.trans hrun
      obtain ⟨hresult', hfiles'⟩ : ended'.1 = result.map (again ++ ·) ∧ ended'.2.1 = fs₂ := by
        simpa using hended'.symm.trans hrun'
      have hsame : ended.2.1 = ended'.2.1 := hfiles.trans hfiles'.symm
      cases result with
      | ok rs => exact .inl ⟨_, _, hresult, hresult', hsame⟩
      | error e => exact .inr (.inl ⟨e, hresult, hresult', hsame⟩)
    · exact .inr (.inr (.inr hrefused))
  · exact .inr (.inr (.inl hrefused))

/-! ### Repairs -/

/-- **What is done about the end of a run**: a source that is no text gets some text in place; about a
report that was refused, nothing. -/
inductive Repairs (p : Project) (fs₁ : FileSystem) (source : Path) :
    Option Revision → (FileSystem → FileSystem) → Prop
  | rewrite (text : String) : fs₁.readText (p.resolve source) = .error .notText →
      Repairs p fs₁ source none fun fs => fs.setText (p.resolve source) text
  | nothing (r : Revision) : Repairs p fs₁ source (some r) id

/-- **A source that is no text when the run gets there** has been the same file from the beginning.
Nothing that the run has written is no text. -/
theorem exists_file_of_notText (hfs : fs.IsTree) (hat : p.IsAt fs r below) (hp : p.IsPlaced fs)
    (hsource : p.Discovers fs source)
    (h : p.reviseAll moves w report sources fs state = (result, fs₁, state₁))
    (hnot : fs₁.readText (p.resolve source) = .error .notText) :
    ∃ k f, fs.resolve (p.resolve source) = .ok k ∧ fs.file? k = some f ∧
      fs₁.resolve (p.resolve source) = .ok k ∧ fs₁.file? k = some f ∧
      ∀ text : String, f.content ≠ text.toUTF8 := by
  obtain ⟨k₁, f₁, hres₁, hfile₁, hcontent⟩ := FileSystem.exists_of_readText_eq_notText hnot
  obtain ⟨-, hreaches⟩ := hat.reaches_of_discovers hfs hsource
  obtain ⟨k, f, hres, hfile⟩ := (keepsWays_reviseAll hp h).exists_file_of_resolve hreaches hres₁
  -- A step that changes what is at the end of the path leaves a text there.
  rcases resolve_reviseAll hp hres hfile h with ⟨hres', hfile'⟩ | ⟨text, htext⟩
  · cases hres'.symm.trans hres₁
    cases hfile'.symm.trans hfile₁
    exact ⟨_, _, hres, hfile, hres', hfile', hcontent⟩
  · rw [hnot] at htext
    cases htext

/-- **A repair in front of the run** is one behind what the run has done before it was stopped.
Therefore the repeated run on the one tree and a first run on the other one start from the same state of
affairs. -/
theorem StopsAt.treeAfter_repair {unreported : Option Revision} {repair : FileSystem → FileSystem}
    (hfs : fs.IsTree) (hshare : fs.SharesFiles) (hat : p.IsAt fs r below) (hp : p.IsPlaced fs)
    (hsource : p.Discovers fs source)
    (hstop : StopsAt p moves w report fs state e fs₁ state₁ done revisions source unreported)
    (hrepair : p.Repairs fs₁ source unreported repair) :
    fs.SameTree (repair fs) ∧ fs₁.SameTree (repair fs₁) ∧
      p.TreeAfter moves w (repair fs) (done ++ (unreported.map Revision.file).toList)
        (revisions ++ unreported.toList) (repair fs₁) := by
  have htree := hstop.treeAfter
  cases hrepair with
  -- There is nothing to repair in the tree,
  | nothing r => exact ⟨.refl fs, .refl fs₁, htree⟩
  -- or a file that was no text gets one; no step before has read it, so the change may come first.
  | rewrite text hnot =>
    obtain ⟨k, f, hres, hfile, hres₁, hfile₁, hcontent⟩ :=
      exists_file_of_notText hfs hat hp hsource (hstop.reviseAll_eq []) hnot
    simp only [FileSystem.setText_of_resolve hres hfile, FileSystem.setText_of_resolve hres₁ hfile₁]
    refine ⟨.updateFile fun _ => rfl, .updateFile fun _ => rfl, fun τ accept start haccept => ?_⟩
    obtain ⟨final, hrun⟩ := htree τ accept start haccept
    exact ⟨final, reviseAll_updateFile (hshare.lacksText hfile hcontent) (fun _ => rfl)
      (fun _ => rfl) hrun⟩

/-- **A run that was stopped can be repeated.** A run with a settled table over all sources that the
search finds ends early. Then it has ended at one of the sources, and if what has stopped it is repaired,
be it a file that was no text or a report that was refused, it can be repeated from where it is as well
as from the beginning: both trees have the same sources; the two runs end alike, so that if they succeed
the trees are the same, to the last inode number; and with reporters that take everything, one succeeds
exactly if the other does.

As for a second run, all files belong to the process. That a file which has been replaced can be read again
is due to that: it has the same permission bits, and they are still those of the owner. -/
theorem stopped_run_can_be_repeated {root : Path} {target? : Option Path} {faults : WriteFaults}
    (hfs : fs.IsTree) (hshare : fs.SharesFiles) (hp : ofPaths fs root target? = .ok p)
    (hm : moves.IsSettled) (hsources : p.sources fs = .ok sources)
    (h : p.reviseAll moves ⟨false, faults⟩ report sources fs state = (.error e, fs₁, state₁)) :
    (∃ done source rest revisions unreported, sources = done ++ source :: rest ∧
      StopsAt p moves ⟨false, faults⟩ report fs state e fs₁ state₁ done revisions source
        unreported) ∧
    ∀ done source rest revisions unreported repair, sources = done ++ source :: rest →
      StopsAt p moves ⟨false, faults⟩ report fs state e fs₁ state₁ done revisions source
        unreported →
      p.Repairs fs₁ source unreported repair →
      p.sources (repair fs) = .ok sources ∧ p.sources (repair fs₁) = .ok sources ∧
        p.EndAlike moves ⟨false, faults⟩ sources (repair fs) (repair fs₁) ∧
        ∀ (σ τ : Type) (report : Reporter σ) (report' : Reporter τ) (state : σ) (state' : τ),
          (∀ r st, (report r st).1 = .ok ()) → (∀ r st, (report' r st).1 = .ok ()) →
          let ended := p.reviseAll moves ⟨false, faults⟩ report sources (repair fs) state
          let ended' := p.reviseAll moves ⟨false, faults⟩ report' sources (repair fs₁) state'
          ((∃ revisions, ended.1 = .ok revisions) ↔ ∃ revisions, ended'.1 = .ok revisions) ∧
            ended.2.1 = ended'.2.1 := by
  have hplaced := isPlaced_of_ofPaths hp
  obtain ⟨r, below, hat⟩ := exists_isAt hfs hp
  refine ⟨stopsAt_of_reviseAll (hplaced fs) rfl h,
    fun done source rest revisions unreported repair hsplit hstop hrepair => ?_⟩
  have hsource : p.Discovers fs source := discovers_of_mem_sources hsources <| by
    rw [hsplit]
    exact List.mem_append_right done List.mem_cons_self
  -- What is repaired does not touch the part that has been dealt with.
  obtain ⟨hsame, hsame₁, htree⟩ :=
    hstop.treeAfter_repair hfs hshare hat (hplaced fs) hsource hrepair
  have hways₁ : fs.KeepsWays (repair fs₁) := (keepsWays_reviseAll (hplaced fs) h).trans hsame₁.keepsWays
  have halike : p.EndAlike moves ⟨false, faults⟩ sources (repair fs) (repair fs₁) := by
    cases hrepair with
    | rewrite text _ =>
      rw [Option.map_none, Option.toList_none, List.append_nil] at htree
      rw [hsplit]
      exact endAlike_of_treeAfter hm (hplaced _) (hplaced _) rfl htree (source :: rest)
    | nothing r =>
      -- The file whose report was refused is one that has been dealt with.
      have hfile : r.file = source := by
        cases hstop
        rfl
      rw [Option.map_some, hfile, Option.toList_some] at htree
      have halike := endAlike_of_treeAfter hm (hplaced _) (hplaced _) rfl htree rest
      rwa [List.append_assoc, List.singleton_append, ← hsplit] at halike
  exact ⟨sources_of_keepsWays hsame.keepsWays hfs hat hsources,
    sources_of_keepsWays hways₁ hfs hat hsources, halike,
    fun σ τ report report' state state' haccept haccept' => halike.of_accept haccept haccept'⟩

/-- A source `src/a.hpp` with an include, and `src/b.hpp`, which is no text. A run revises the first and
stops at the second. -/
def brokenTree : FileSystem where
  entries := [
    ([(Path.ofString "src").bytes], .dir),
    ([(Path.ofString "a.hpp").bytes, (Path.ofString "src").bytes],
      .file ⟨1, 0o644, "#include \"A\"\n".toUTF8⟩),
    ([(Path.ofString "b.hpp").bytes, (Path.ofString "src").bytes], .file ⟨2, 0o644, ⟨#[255]⟩⟩)]
  cwd := []

/-- The tree when the run has revised `src/a.hpp`. -/
def stoppedTree : FileSystem :=
  brokenTree.put sharedFile (.file ⟨3, 0o644, "#include \"C\"\n".toUTF8⟩)

theorem sharesFiles_brokenTree : brokenTree.SharesFiles := by
  -- There are two files, and they have different numbers.
  have hfile : ∀ l f, brokenTree.file? l = some f →
      f = ⟨1, 0o644, "#include \"A\"\n".toUTF8⟩ ∨ f = ⟨2, 0o644, ⟨#[255]⟩⟩ := by
    intro l f hf
    have hmem := FileSystem.mem_entries (FileSystem.ne_nil_of_file?_eq_some hf)
      (FileSystem.file?_eq_some.mp hf)
    simp only [brokenTree, List.mem_cons, Prod.mk.injEq, reduceCtorEq, and_false, false_or,
      Node.file.injEq, List.not_mem_nil, or_false] at hmem
    exact hmem.imp And.right And.right
  intro l k f g hf hg hinode
  rcases hfile l f hf with rfl | rfl
  · rcases hfile k g hg with rfl | rfl
    · rfl
    · cases hinode
  · rcases hfile k g hg with rfl | rfl
    · cases hinode
    · rfl

/-- The run revises `src/a.hpp` and ends at `src/b.hpp`; it can be repeated when that has got a text. -/
theorem stopped_run_can_be_repeated_brokenTree :
    let sources : List Path := [.ofString "src/a.hpp", .ofString "src/b.hpp"]
    let count : Reporter Nat := fun _ n => (.ok (), n + 1)
    let repair : FileSystem → FileSystem :=
      fun fs => fs.setText (.ofString "/src/b.hpp") "#include \"A\"\n"
    brokenTree.IsTree ∧ brokenTree.SharesFiles ∧
      ofPaths brokenTree (.ofString "/") none = .ok aliasProject ∧ oneMove.IsSettled ∧
      aliasProject.sources brokenTree = .ok sources ∧
      aliasProject.reviseAll oneMove ⟨false, .none⟩ count sources brokenTree 0
        = (.error (.io (.ofString "/src/b.hpp") .notText), stoppedTree, 1) ∧
      stoppedTree.content? sharedFile = some "#include \"C\"\n".toUTF8 ∧
      aliasProject.EndAlike oneMove ⟨false, .none⟩ sources (repair brokenTree)
        (repair stoppedTree) := by
  intro sources count repair
  have htree : brokenTree.IsTree := by decide
  have hp : ofPaths brokenTree (.ofString "/") none = .ok aliasProject := rfl
  have hsources : aliasProject.sources brokenTree = .ok sources := by cbv
  -- The run deals with the first source and ends at the second.
  have hstep : aliasProject.reviseFile oneMove ⟨false, .none⟩ (.ofString "src/a.hpp") brokenTree
      = (.ok (oneMove.revise (.ofString "src/a.hpp") "#include \"A\"\n"), stoppedTree) := by
    simp only [reviseFile, Moves.revise_eq_reviseLines]
    rfl
  have hback := readText_reviseFile (isPlaced_of_ofPaths hp brokenTree) rfl hstep
  have hdone : aliasProject.Completes oneMove ⟨false, .none⟩ count brokenTree 0
      [.ofString "src/a.hpp"] [oneMove.revise (.ofString "src/a.hpp") "#include \"A\"\n"]
      stoppedTree 1 := .cons rfl hstep hback rfl .nil
  have hfail : aliasProject.reviseFile oneMove ⟨false, .none⟩ (.ofString "src/b.hpp") stoppedTree
      = (.error (.io (.ofString "/src/b.hpp") .notText), stoppedTree) := rfl
  have hstop := StopsAt.file hdone hfail
  have h := hstop.reviseAll_eq []
  obtain ⟨-, hrepeat⟩ := stopped_run_can_be_repeated htree sharesFiles_brokenTree hp
    isSettled_oneMove hsources h
  obtain ⟨-, -, halike, -⟩ := hrepeat _ _ [] _ _ repair rfl hstop (.rewrite "#include \"A\"\n" rfl)
  exact ⟨htree, sharesFiles_brokenTree, hp, isSettled_oneMove, hsources, h, rfl, halike⟩

end Project

end IncludeMoves
