import IncludeMoves.Proofs.LineByLine
import IncludeMoves.Proofs.Sweep

/-!
# Runs that end early

The first problem ends a run, and it is one of two kinds: a file cannot be revised, or its report
does not get through. In both cases the sources in front of it have been dealt with completely, and
the run has not seen the sources behind it.

* `Project.Completes` — sources that have been dealt with completely;
* `Project.StopsAt` — the two ways to end;
* `Output.text_of_completes` — standard output behind completed sources;
* `Project.error_stops_at` — every run that fails ends in one of the two ways.
-/

namespace IncludeMoves

namespace Project

variable {σ : Type} {p : Project} {moves : Moves} {w : Writing} {report : Reporter σ}
  {source : Path} {sources done : List Path} {fs fs₁ fs' : FileSystem} {state state₁ state' : σ}
  {result : Except Problem (List Revision)} {revisions : List Revision} {e : Problem}

/-- **Sources that have been dealt with completely**, one after the other: each has been read and
revised, reads as the new text afterwards, and its revision has been taken by the reporter, once. -/
inductive Completes {σ : Type} (p : Project) (moves : Moves) (w : Writing) (report : Reporter σ) :
    FileSystem → σ → List Path → List Revision → FileSystem → σ → Prop
  | nil {fs : FileSystem} {state : σ} : Completes p moves w report fs state [] [] fs state
  | cons {fs fs₁ fs₂ : FileSystem} {state state₁ state₂ : σ} {source : Path} {sources : List Path}
      {text : String} {revisions : List Revision} :
      fs.readText (p.resolve source) = .ok text →
      p.reviseFile moves w source fs = (.ok (moves.revise source text), fs₁) →
      fs₁.readText (p.resolve source) = .ok (moves.revise source text).text →
      report (moves.revise source text) state = (.ok (), state₁) →
      Completes p moves w report fs₁ state₁ sources revisions fs₂ state₂ →
      Completes p moves w report fs state (source :: sources)
        (moves.revise source text :: revisions) fs₂ state₂

/-- **How a run ends early**, with the revision that has been made but not reported, if there is
one. -/
inductive StopsAt {σ : Type} (p : Project) (moves : Moves) (w : Writing) (report : Reporter σ)
    (fs : FileSystem) (state : σ) (e : Problem) (fs' : FileSystem) (state' : σ) :
    List Path → List Revision → Path → Option Revision → Prop
  | file {done : List Path} {revisions : List Revision} {source : Path} :
      Completes p moves w report fs state done revisions fs' state' →
      p.reviseFile moves w source fs' = (.error e, fs') →
      StopsAt p moves w report fs state e fs' state' done revisions source none
  | report {done : List Path} {revisions : List Revision} {source : Path} {fs₁ : FileSystem}
      {state₁ : σ} {text : String} :
      Completes p moves w report fs state done revisions fs₁ state₁ →
      fs₁.readText (p.resolve source) = .ok text →
      p.reviseFile moves w source fs₁ = (.ok (moves.revise source text), fs') →
      fs'.readText (p.resolve source) = .ok (moves.revise source text).text →
      report (moves.revise source text) state₁ = (.error e, state') →
      StopsAt p moves w report fs state e fs' state' done revisions source
        (some (moves.revise source text))

/-- **The tree after a successful run** over the sources, wherever the reports go. With it a run that
was stopped is compared to one that was not, although their reporters differ. -/
def TreeAfter (p : Project) (moves : Moves) (w : Writing) (fs : FileSystem) (sources : List Path)
    (revisions : List Revision) (fs' : FileSystem) : Prop :=
  ∀ (τ : Type) (accept : Reporter τ) (start : τ), (∀ r state, (accept r state).1 = .ok ()) →
    ∃ final, p.reviseAll moves w accept sources fs start = (.ok revisions, fs', final)

/-- A step that succeeds, read back. -/
theorem reviseFile_readback {r : Revision} (hp : p.IsPlaced fs) (hw : w.dry = false)
    (h : p.reviseFile moves w source fs = (.ok r, fs')) :
    ∃ text, fs.readText (p.resolve source) = .ok text ∧ r = moves.revise source text ∧
      fs'.readText (p.resolve source) = .ok r.text := by
  obtain ⟨text, htext, hr, -⟩ := reviseFile_ok h
  exact ⟨text, htext, hr, readText_reviseFile hp hw h⟩

/-- **Every run that fails ends in one of the two ways**, with the sources behind it unseen. The
induction is on the sources: what the first one does decides, or the run behind it does. -/
theorem stopsAt_of_reviseAll (hp : p.IsPlaced fs) (hw : w.dry = false)
    (h : p.reviseAll moves w report sources fs state = (.error e, fs', state')) :
    ∃ done source rest revisions unreported, sources = done ++ source :: rest ∧
      StopsAt p moves w report fs state e fs' state' done revisions source unreported := by
  -- On the sources, from every tree and state: the first step fails, its report fails, or both
  -- succeed and the failure is further on.
  induction sources generalizing fs state with
  | nil => cases h
  | cons source sources ih =>
    have hp₁ := hp.reviseFile moves w source
    rcases reviseAll_cons_cases h with ⟨e', hstep, he, rfl, rfl⟩ | ⟨r, e', hstep, hreport, he⟩ |
      ⟨r, fs₁, state₁, result₁, hstep, hreport, hrest, he⟩
    · cases he
      exact ⟨[], source, sources, [], none, rfl, .file .nil hstep⟩
    · cases he
      obtain ⟨text, htext, rfl, hback⟩ := reviseFile_readback hp hw hstep
      exact ⟨[], source, sources, [], some _, rfl, .report .nil htext hstep hback hreport⟩
    · obtain ⟨text, htext, rfl, hback⟩ := reviseFile_readback hp hw hstep
      rw [hstep] at hp₁
      cases result₁ with
      | ok rs => cases he
      | error e₁ =>
        cases he
        obtain ⟨done, source', rest, revisions, unreported, rfl, hstop⟩ := ih hp₁ hrest
        refine ⟨source :: done, source', rest, moves.revise source text :: revisions, unreported,
          rfl, ?_⟩
        cases hstop with
        | file hdone hfail => exact .file (.cons htext hstep hback hreport hdone) hfail
        | report hdone htext' hstep' hback' hfail =>
          exact .report (.cons htext hstep hback hreport hdone) htext' hstep' hback' hfail

namespace Completes

theorem map_file (h : Completes p moves w report fs state done revisions fs' state') :
    revisions.map Revision.file = done := by
  induction h with
  | nil => rfl
  | cons _ _ _ _ _ ih => rw [List.map_cons, ih]; rfl

/-- The run does not depend on the sources behind the one at which it ends. They may be any others, or
none. -/
theorem reviseAll_eq (h : Completes p moves w report fs state done revisions fs₁ state₁) :
    p.reviseAll moves w report done fs state = (.ok revisions, fs₁, state₁) := by
  induction h with
  | nil => rfl
  | cons _ hstep _ hreport _ ih => exact reviseAll_cons_of_ok hstep hreport ih

end Completes

/-! ### The tree behind a run -/

/-- **A run that succeeds leaves the same tree** behind whatever takes its reports. Reports change the
state of the reporter only, and never the tree. -/
theorem treeAfter_of_reviseAll
    (h : p.reviseAll moves w report sources fs state = (.ok revisions, fs', state')) :
    p.TreeAfter moves w fs sources revisions fs' := by
  intro τ accept start haccept
  induction sources generalizing fs state revisions start with
  | nil =>
    cases h
    exact ⟨start, rfl⟩
  | cons source sources ih =>
    obtain ⟨r, rs, fs₁, state₁, rfl, hstep, -, hrest⟩ := reviseAll_cons_ok h
    -- The reporter starts the rest in the state in which it takes the first revision.
    obtain ⟨final, hfinal⟩ := ih hrest (accept r start).2
    have htaken : accept r start = (.ok (), (accept r start).2) := Prod.ext (haccept r start) rfl
    exact ⟨final, reviseAll_cons_of_ok hstep htaken hfinal⟩

theorem TreeAfter.append {rest : List Path} {rs : List Revision}
    (h : p.TreeAfter moves w fs sources revisions fs₁)
    (hrest : p.TreeAfter moves w fs₁ rest rs fs') :
    p.TreeAfter moves w fs (sources ++ rest) (revisions ++ rs) fs' := by
  intro τ accept start haccept
  obtain ⟨middle, hmiddle⟩ := h τ accept start haccept
  obtain ⟨final, hfinal⟩ := hrest τ accept middle haccept
  exact ⟨final, reviseAll_append hmiddle hfinal⟩

theorem treeAfter_singleton {r : Revision}
    (h : p.reviseFile moves w source fs = (.ok r, fs')) :
    p.TreeAfter moves w fs [source] [r] fs' := by
  have hrun : p.reviseAll moves w (fun _ u => (.ok (), u)) [source] fs () = (.ok [r], fs', ()) := by
    rw [reviseAll, h]
    rfl
  exact treeAfter_of_reviseAll hrun

namespace StopsAt

variable {unreported : Option Revision}

/-- The run does not depend on the sources behind the one at which it ends. -/
theorem reviseAll_eq (h : StopsAt p moves w report fs state e fs' state' done revisions source
    unreported) (rest : List Path) :
    p.reviseAll moves w report (done ++ source :: rest) fs state = (.error e, fs', state') := by
  cases h with
  -- The source could not be revised,
  | file hdone hfail =>
    have hrest : p.reviseAll moves w report (source :: rest) fs' state' = (.error e, fs', state') := by
      rw [reviseAll, hfail]
    exact reviseAll_append hdone.reviseAll_eq hrest
  -- or its revision could not be reported.
  | @report fs₁ state₁ text hdone _ hstep _ hfail =>
    have hrest : p.reviseAll moves w report (source :: rest) fs₁ state₁ = (.error e, fs', state') := by
      rw [reviseAll, hstep]
      simp only [hfail]
    exact reviseAll_append hdone.reviseAll_eq hrest

theorem map_file (h : StopsAt p moves w report fs state e fs' state' done revisions source
    unreported) : revisions.map Revision.file = done := by
  cases h with
  | file hdone _ => exact hdone.map_file
  | report hdone _ _ _ _ => exact hdone.map_file

/-- The tree is that after a successful run over the completed sources, together with the one whose
report did not get through. -/
theorem treeAfter (h : StopsAt p moves w report fs state e fs' state' done revisions source
    unreported) :
    p.TreeAfter moves w fs (done ++ (unreported.map Revision.file).toList)
      (revisions ++ unreported.toList) fs' := by
  cases h with
  | file hdone _ =>
    have htree := treeAfter_of_reviseAll hdone.reviseAll_eq
    rwa [Option.map_none, Option.toList_none, List.append_nil, Option.toList_none, List.append_nil]
  | report hdone _ hstep _ _ =>
    exact (treeAfter_of_reviseAll hdone.reviseAll_eq).append (treeAfter_singleton hstep)

end StopsAt

end Project

/-! ### Standard output -/

namespace Output

variable {o o' : Output} {r : Revision} {report : Report} {e : Problem}

theorem fitting_isPrefix (room : Nat) (cs : List Char) : fitting room cs <+: cs := by
  induction cs generalizing room with
  | nil => exact List.nil_prefix
  | cons c cs ih =>
    rw [fitting]
    split
    · exact (List.prefix_cons_inj c).mpr (ih _)
    · exact List.nil_prefix

theorem text_of_write_ok {text : String} (h : o.write text = (.ok (), o')) :
    o'.text = o.text ++ text := by
  unfold write at h
  split at h
  · cases h
    rfl
  split at h
  · cases h
    rfl
  · cases (Prod.mk.inj h).1

theorem text_of_write_error {text : String} {e : OsError} (h : o.write text = (.error e, o')) :
    ∃ part, part.toList <+: text.toList ∧ o'.text = o.text ++ part := by
  unfold write at h
  split at h
  · cases (Prod.mk.inj h).1
  next room hroom =>
  -- Only if there is a limit can a text be refused, and then a part of it has been taken.
  split at h
  · cases (Prod.mk.inj h).1
  · cases h
    refine ⟨String.ofList (fitting room text.toList), ?_, rfl⟩
    rw [String.toList_ofList]
    exact fitting_isPrefix room _

theorem text_of_reporter_ok (h : reporter report r o = (.ok (), o')) :
    o'.text = o.text ++ report.output r := by
  unfold reporter at h
  cases hwrite : o.write (report.output r) with
  | mk result o₁ =>
    rw [hwrite] at h
    cases result with
    | error e => cases (Prod.mk.inj h).1
    | ok u =>
      cases h
      exact text_of_write_ok hwrite

theorem text_of_reporter_error (h : reporter report r o = (.error e, o')) :
    ∃ part, part.toList <+: (report.output r).toList ∧ o'.text = o.text ++ part := by
  unfold reporter at h
  cases hwrite : o.write (report.output r) with
  | mk result o₁ =>
    rw [hwrite] at h
    cases result with
    | error e =>
      cases h
      exact text_of_write_error hwrite
    | ok u => cases (Prod.mk.inj h).1

/-- **Behind completed sources, standard output has all their reports**, one after the other. -/
theorem text_of_completes {p : Project} {moves : Moves} {w : Writing} {fs fs' : FileSystem}
    {sources : List Path} {revisions : List Revision}
    (h : p.Completes moves w (reporter report) fs o sources revisions fs' o') :
    o'.text = o.text ++ String.join (revisions.map report.output) := by
  induction h with
  | nil => exact (String.append_empty).symm
  | @cons fs fs₁ fs₂ o o₁ o₂ source sources text revisions _ _ _ hreport _ ih =>
    rw [ih, text_of_reporter_ok hreport, List.map_cons, String.join_cons,
      String.append_assoc]

/-- Where a run ends early, standard output has all reports but the last, and as much of that as it
took. -/
theorem text_of_stopsAt {p : Project} {moves : Moves} {w : Writing} {fs fs' : FileSystem}
    {done : List Path} {revisions : List Revision} {source : Path} {unreported : Option Revision}
    (h : p.StopsAt moves w (reporter report) fs o e fs' o' done revisions source unreported) :
    ∃ part, o'.text = o.text ++ String.join (revisions.map report.output) ++ part ∧
      part.toList <+: ((unreported.map report.output).getD "").toList := by
  cases h with
  | file hdone _ =>
    exact ⟨"", by rw [text_of_completes hdone, String.append_empty], List.prefix_rfl⟩
  | report hdone _ _ _ hfail =>
    obtain ⟨part, hpart, htext⟩ := text_of_reporter_error hfail
    exact ⟨part, by rw [htext, text_of_completes hdone], hpart⟩

end Output

namespace Project

/-- **A run that fails has done exactly what it has reported**, but for one file at most. Whatever the
sources and the reporter are, it has dealt completely with the sources `done`, in their order, and it
ends at the next one: that cannot be revised and is as it was, or its new text is there and its report
does not get through. What is behind plays no part, and the tree is that after a successful run over
the sources whose text is there. For the program: standard output holds the reports of `done`, and a
part of the one that did not get through. Every project made from paths lies at a place
(`isPlaced_of_ofPaths`). -/
theorem error_stops_at (p : Project) (faults : WriteFaults) (fs : FileSystem)
    (hp : p.IsPlaced fs) :
    (∀ (σ : Type) (moves : Moves) (report : Reporter σ) (sources : List Path) (state state' : σ)
      (e : Problem) (fs' : FileSystem),
      p.reviseAll moves ⟨false, faults⟩ report sources fs state = (.error e, fs', state') →
      ∃ done source rest revisions unreported, sources = done ++ source :: rest ∧
        p.StopsAt moves ⟨false, faults⟩ report fs state e fs' state' done revisions source
          unreported ∧
        revisions.map Revision.file = done ∧
        (∀ rest', p.reviseAll moves ⟨false, faults⟩ report (done ++ source :: rest') fs state
          = (.error e, fs', state')) ∧
        p.TreeAfter moves ⟨false, faults⟩ fs (done ++ (unreported.map Revision.file).toList)
          (revisions ++ unreported.toList) fs') ∧
    ∀ (table : Path) (report : Report) (verbose : Bool) (out : Output) (e : RunError),
      let ended := p.run table report verbose faults fs out
      ended.result = .error e →
        (ended.files = fs ∧ ended.state = out ∧
          ∀ moves sources, ¬(fs.readMoves table = .ok moves ∧ p.sources fs = .ok sources)) ∨
        ∃ moves problem done source rest revisions unreported part, e = .failed problem ∧
          fs.readMoves table = .ok moves ∧ p.sources fs = .ok (done ++ source :: rest) ∧
          p.StopsAt moves ⟨false, faults⟩ (Output.reporter report) fs out problem ended.files
            ended.state done revisions source unreported ∧
          ended.state.text = out.text ++ String.join (revisions.map report.output) ++ part ∧
          part.toList <+: ((unreported.map report.output).getD "").toList ∧
          p.TreeAfter moves ⟨false, faults⟩ fs (done ++ (unreported.map Revision.file).toList)
            (revisions ++ unreported.toList) ended.files := by
  refine ⟨fun σ moves report sources state state' e fs' h => ?_,
    fun table report verbose out e => ?_⟩
  -- Of a run over given sources all parts are known of the place where it has stopped.
  · obtain ⟨done, source, rest, revisions, unreported, hsources, hstop⟩ :=
      stopsAt_of_reviseAll hp rfl h
    exact ⟨done, source, rest, revisions, unreported, hsources, hstop, hstop.map_file,
      hstop.reviseAll_eq, hstop.treeAfter⟩
  · obtain ⟨log, hrun⟩ := p.run_eq table report verbose faults fs out
    intro ended hended
    -- Of a run from the start it depends on how far it has got.
    rcases p.applyTable_cases table ⟨false, faults⟩ verbose (Output.reporter report) fs out with
      ⟨e', hstop, hdone⟩ | ⟨moves, sources, result, fs', out', log', hmoves, hsources, hall, hdone⟩
    · -- The table or the search has failed.
      left
      rw [hdone] at hrun
      have heq : ended = _ := hrun
      rw [heq]
      exact ⟨rfl, rfl, hstop⟩
    · -- All that is left to fail is the run over the sources.
      right
      rw [hdone] at hrun
      have heq : ended = _ := hrun
      rw [heq] at hended ⊢
      cases result with
      | ok revisions => cases hended
      | error problem =>
        cases hended
        obtain ⟨done, source, rest, revisions, unreported, rfl, hstop⟩ :=
          stopsAt_of_reviseAll hp rfl hall
        obtain ⟨part, htext, hpart⟩ := Output.text_of_stopsAt hstop
        exact ⟨moves, problem, done, source, rest, revisions, unreported, part, rfl, hmoves,
          hsources, hstop, htext, hpart, hstop.treeAfter⟩

/-- A tree with nothing but a file `a`. Every other source is missing there. -/
def oneFile : FileSystem where
  entries := [([(Path.ofString "a").bytes], .file ⟨1, 0o644, "#include \"x\"\n".toUTF8⟩)]
  cwd := []

/-- Behind `a`, the run ends at a source that is not there, and the last one is not reached. -/
theorem error_stops_at_oneFile :
    let p : Project := ⟨.ofString "/", .ofString "/"⟩
    let sources : List Path := [.ofString "a", .ofString "b", .ofString "c"]
    ∃ e fs', p.IsPlaced oneFile ∧
      p.reviseAll ⟨[("x", .gone)]⟩ ⟨false, .none⟩ (fun _ n => (.ok (), n + 1)) sources oneFile 0
        = (.error e, fs', 1) ∧
      ∃ done source rest revisions unreported, sources = done ++ source :: rest ∧
        p.StopsAt ⟨[("x", .gone)]⟩ ⟨false, .none⟩ (fun _ n => (.ok (), n + 1)) oneFile 0 e fs' 1
          done revisions source unreported := by
  intro p sources
  have hp : p.IsPlaced oneFile := FileSystem.IsPlace.root
  -- The first file is revised, and the second one is not there.
  have h : p.reviseAll ⟨[("x", .gone)]⟩ ⟨false, .none⟩ (fun _ n => (.ok (), n + 1)) sources oneFile 0
      = (.error (.io (.ofString "/b") (.os .notFound)),
          oneFile.put [(Path.ofString "a").bytes] (.file ⟨2, 0o644, "".toUTF8⟩), 1) := by
    simp only [p, sources, reviseAll, reviseFile, Moves.revise_eq_reviseLines]
    rfl
  obtain ⟨done, source, rest, revisions, unreported, hsources, hstop, -⟩ :=
    (error_stops_at p .none oneFile hp).1 _ _ _ _ _ _ _ _ h
  exact ⟨_, _, hp, h, done, source, rest, revisions, unreported, hsources, hstop⟩

end Project

end IncludeMoves
