import IncludeMoves.Proofs.KeptWays
import IncludeMoves.Proofs.RepeatedRevision

/-!
# A second run

A settled table has nothing to do where it has been applied. Behind a successful run every source reads
as a text that the table spares, since what a later step does to the file of an earlier one is to write
such a text again. So the same search finds the same sources, and the same table leaves all of them
alone: nothing is written, and there is nothing to tell.

* `Moves.Spares` — texts that a table leaves alone;
* `Moves.IsSettled.spares_revisedText` — what a settled table has written is such a text;
* `Project.isSpared_of_reviseAll` — behind a successful run, all sources read as such texts;
* `Project.second_run_changes_nothing` — the second run.
-/

namespace IncludeMoves

/-! ### Texts that are left alone -/

namespace Moves

variable {m : Moves} {text : String}

/-- **A table spares a text** if it has no move for a path that the text includes. Then all records say
that a directive was kept, and the text stays as it is. -/
def Spares (m : Moves) (text : String) : Prop :=
  ∀ line ∈ (Lines.of text.toList).terminated, ∀ s path,
    Directive.readLine? line = some (s, path) → m.get? (String.ofList path) = none

theorem reviseLine_of_forall {line : List Char}
    (h : ∀ s path, Directive.readLine? line = some (s, path) → m.get? (String.ofList path) = none) :
    m.reviseLine line = line := by
  cases hread : Directive.readLine? line with
  | none => exact reviseLine_of_readLine?_eq_none hread
  | some found =>
    rw [reviseLine_of_readLine?_eq_some hread, h found.1 found.2 hread, Option.map_none,
      Option.getD_none]

/-- **A text that is spared stays as it is.** -/
theorem Spares.revisedText (h : m.Spares text) : m.revisedText text = text :=
  revisedText_of_forall fun line hline => reviseLine_of_forall (h line hline)

/-- All its directives are kept, and none is malformed. -/
theorem Spares.kept (h : m.Spares text) (file : Path) :
    ∀ record ∈ (m.revise file text).records,
      record.outcome = .kept ∧ record.malformed = none := by
  intro record hrecord
  -- The records are those of the lines that read as directives, and those the table spares.
  rw [revise_eq_reviseLines] at hrecord
  obtain ⟨line, hline, hfound⟩ := List.mem_filterMap.mp hrecord
  rw [lineRecord?] at hfound
  split at hfound
  · cases hfound
  · next s path hread =>
    cases hfound
    simp only [outcomeOf, h line hline s path hread, and_self]

/-- **What a settled table has written is spared by it.** A line of the new text is one that was kept,
or the canonical line of a path to which something was moved, and the table has a move for neither. -/
theorem IsSettled.spares_revisedText (h : m.IsSettled) (text : String) :
    m.Spares (m.revisedText text) := by
  intro line hline s path hread
  rw [lines_revisedText h.keepsLines] at hline
  obtain ⟨hmem, hne⟩ := List.mem_filter.mp hline
  obtain ⟨old, -, rfl⟩ := List.mem_map.mp hmem
  -- The line is an old one that was kept, or the canonical line of a new path.
  -- On whether the old line is a directive, and then on what its path moves to.
  cases hold : Directive.readLine? old with
  | none =>
    rw [reviseLine_of_readLine?_eq_none hold, hold] at hread
    cases hread
  | some found =>
    rw [reviseLine_of_readLine?_eq_some hold] at hread hne
    cases hmove : m.get? (String.ofList found.2) with
    | none =>
      rw [hmove, Option.map_none, Option.getD_none, hold] at hread
      rwa [Option.some.inj hread] at hmove
    | some move =>
      rw [hmove, Option.map_some, Option.getD_some] at hread hne
      cases move with
      | gone => simp [Move.line] at hne
      | moved new =>
        rw [Move.line, Directive.readLine?_line] at hread
        split at hread
        · cases hread
        · cases hread
          rw [String.ofList_toList]
          exact h.not_moved _ new hmove

end Moves

/-! ### Reports of what was kept -/

namespace Record

theorem textLines_of_kept {r : Record} (h : r.outcome = .kept ∧ r.malformed = none)
    (colour : Bool) : r.textLines colour = [] := by
  rw [textLines, warning?, notice?, h.1, h.2]
  rfl

end Record

theorem Report.output_of_kept {r : Revision}
    (h : ∀ record ∈ r.records, record.outcome = .kept ∧ record.malformed = none)
    (quiet colour : Bool) : (⟨.text, quiet, colour⟩ : Report).output r = "" := by
  have hlines : (⟨.text, quiet, colour⟩ : Report).lines r = [] := by
    have hnone : r.records.flatMap (Record.textLines colour) = [] :=
      List.flatMap_eq_nil_iff.mpr fun record hrecord => Record.textLines_of_kept (h record hrecord) _
    rw [lines, hnone]
    exact ite_self _
  have hrender : (⟨.text, quiet, colour⟩ : Report).render r = "" := by
    rw [render, hlines]
    rfl
  rw [output, hrender]
  rfl

/-- Nothing can be written wherever there is no room. -/
theorem Output.write_empty (o : Output) : o.write "" = (.ok (), o) := by
  obtain ⟨text, room⟩ := o
  cases room with
  | none => rw [write, String.append_empty]
  | some room =>
    have hroom : "".utf8ByteSize ≤ room := Nat.zero_le room
    rw [write]
    simp only [if_pos hroom, String.append_empty]
    rfl

theorem Output.reporter_of_kept {r : Revision}
    (h : ∀ record ∈ r.records, record.outcome = .kept ∧ record.malformed = none)
    (quiet colour : Bool) (o : Output) :
    Output.reporter ⟨.text, quiet, colour⟩ r o = (.ok (), o) := by
  rw [reporter, Report.output_of_kept h, write_empty]
  rfl

namespace Project

variable {σ : Type} {p : Project} {moves : Moves} {w : Writing} {report : Reporter σ}
  {source s : Path} {sources : List Path} {fs fs' : FileSystem} {state state' : σ} {r : Revision}
  {result : Except Problem (List Revision)} {revisions : List Revision}

/-! ### Sources that are left alone -/

/-- **A spared source** reads as a text that the table spares. A run has nothing to write for it and
nothing to report in the text format. -/
def IsSpared (p : Project) (moves : Moves) (fs : FileSystem) (source : Path) : Prop :=
  ∃ text, fs.readText (p.resolve source) = .ok text ∧ moves.Spares text

/-- A step on a spared source does nothing. -/
theorem IsSpared.reviseFile_eq (h : p.IsSpared moves fs source) :
    ∃ r : Revision, r.file = source ∧
      (∀ record ∈ r.records, record.outcome = .kept ∧ record.malformed = none) ∧
      ∀ w, p.reviseFile moves w source fs = (.ok r, fs) := by
  obtain ⟨text, htext, hspares⟩ := h
  exact ⟨moves.revise source text, rfl, hspares.kept source,
    reviseFile_of_same htext hspares.revisedText⟩

/-- **A spared source stays one**, whatever a step does to its file. If another name leads there, the
text has been revised by the same table, and it is spared as well. -/
theorem IsSpared.reviseFile (hm : moves.IsSettled) (hp : p.IsPlaced fs)
    (h : p.IsSpared moves fs source) :
    p.IsSpared moves (p.reviseFile moves w s fs).2 source := by
  obtain ⟨text, htext, hspares⟩ := h
  cases hstep : p.reviseFile moves w s fs with
  | mk result fs' =>
    cases result with
    | error e =>
      rw [reviseFile_error hstep]
      exact ⟨text, htext, hspares⟩
    | ok r =>
      -- What is read now is what was read before, or something that has been revised.
      rcases readText_cases hp hstep htext with htext' | htext'
      · exact ⟨text, htext', hspares⟩
      · obtain ⟨old, -, rfl, -⟩ := reviseFile_ok hstep
        exact ⟨_, htext', hm.spares_revisedText old⟩

theorem IsSpared.reviseAll (hm : moves.IsSettled) (hp : p.IsPlaced fs)
    (h : p.IsSpared moves fs source)
    (hrun : p.reviseAll moves w report sources fs state = (result, fs', state')) :
    p.IsSpared moves fs' source := by
  have hkept : p.IsPlaced fs' ∧ p.IsSpared moves fs' source :=
    reviseAll_induct (P := fun fs => p.IsPlaced fs ∧ p.IsSpared moves fs source)
      (fun _ s ⟨hp, h⟩ => ⟨hp.reviseFile moves w s, h.reviseFile hm hp⟩) ⟨hp, h⟩ hrun
  exact hkept.2

/-- **Behind a successful run all sources are spared.** Each one is by its own step, and stays it by
those behind. -/
theorem isSpared_of_reviseAll (hm : moves.IsSettled) (hp : p.IsPlaced fs) (hw : w.dry = false)
    (h : p.reviseAll moves w report sources fs state = (.ok revisions, fs', state')) :
    ∀ source ∈ sources, p.IsSpared moves fs' source := by
  induction sources generalizing fs state revisions with
  | nil => exact fun _ hs => absurd hs List.not_mem_nil
  | cons source sources ih =>
    have hp₁ := hp.reviseFile moves w source
    obtain ⟨r, rs, fs₁, state₁, rfl, hstep, -, hrest⟩ := reviseAll_cons_ok h
    rw [hstep] at hp₁
    -- The source is spared behind its own step, and the steps after it leave it so.
    have hfirst : p.IsSpared moves fs₁ source := by
      obtain ⟨text, -, rfl, -⟩ := reviseFile_ok hstep
      exact ⟨_, readText_reviseFile hp hw hstep, hm.spares_revisedText text⟩
    intro source' hs
    rcases List.mem_cons.mp hs with rfl | hs
    · exact hfirst.reviseAll hm hp₁ hrest
    · exact ih hp₁ hrest source' hs

/-! ### Runs over them -/

/-- A run whose steps do nothing leaves the tree as it is, whatever becomes of its reports. -/
theorem files_reviseAll_of_unchanged
    (h : ∀ source ∈ sources, ∃ r, p.reviseFile moves w source fs = (.ok r, fs)) (state : σ) :
    (p.reviseAll moves w report sources fs state).2.1 = fs := by
  induction sources generalizing state with
  | nil => rfl
  | cons source sources ih =>
    obtain ⟨r, hstep⟩ := h source List.mem_cons_self
    have ih := ih fun s hs => h s (List.mem_cons_of_mem _ hs)
    cases hrun : p.reviseAll moves w report (source :: sources) fs state with
    | mk result rest =>
      obtain ⟨fs', state'⟩ := rest
      -- However the run ends, no step has changed the tree.
      rcases reviseAll_cons_cases hrun with ⟨e, -, -, rfl, -⟩ | ⟨r', e, hstep', -, -⟩ |
        ⟨r', fs₁, state₁, result₁, hstep', -, hrest, -⟩
      · rfl
      · exact (Prod.mk.inj (hstep'.symm.trans hstep)).2
      · cases hstep.symm.trans hstep'
        have hfiles := ih state₁
        rwa [hrest] at hfiles

/-- **A run over spared sources** changes nothing and keeps all directives; a reporter that takes its
revisions is handed these, in order. -/
theorem reviseAll_of_isSpared (h : ∀ source ∈ sources, p.IsSpared moves fs source) :
    ∃ revisions : List Revision, revisions.map Revision.file = sources ∧
      (∀ r ∈ revisions, ∀ record ∈ r.records,
        record.outcome = .kept ∧ record.malformed = none) ∧
      ∀ (w : Writing) (τ : Type) (report : Reporter τ) (state : τ),
        (∀ r ∈ revisions, ∀ st, (report r st).1 = .ok ()) →
        p.reviseAll moves w report sources fs state
          = (.ok revisions, fs, revisions.foldl (fun st r => (report r st).2) state) := by
  induction sources with
  | nil => exact ⟨[], rfl, fun _ hr => absurd hr List.not_mem_nil, fun _ _ _ _ _ => rfl⟩
  | cons source sources ih =>
    obtain ⟨revisions, hfiles, hkept, hrun⟩ := ih fun s hs => h s (List.mem_cons_of_mem _ hs)
    obtain ⟨r, hfile, hrecords, hstep⟩ := (h source List.mem_cons_self).reviseFile_eq
    refine ⟨r :: revisions, by rw [List.map_cons, hfile, hfiles], fun r' hr' => ?_,
      fun w τ report state haccept => ?_⟩
    -- Of the new revision nothing else is told than of the others.
    · rcases List.mem_cons.mp hr' with rfl | hr'
      · exact hrecords
      · exact hkept r' hr'
    -- The step needs no write, so it succeeds whatever becomes of writes.
    · have htaken : report r state = (.ok (), (report r state).2) :=
        Prod.ext (haccept r List.mem_cons_self state) rfl
      have hrest := hrun w τ report (report r state).2
        fun r' hr' => haccept r' (List.mem_cons_of_mem _ hr')
      exact reviseAll_cons_of_ok (hstep w) htaken hrest

/-- **A second run changes nothing.** If a settled table has been applied to all sources that the search
finds, the search finds the same sources again, and the second run succeeds: it keeps every directive,
leaves the tree as it is, and hands its revisions to the reporter, as long as that takes them; and it
tries no write, so no fault of the medium makes a difference. Whatever becomes of its reports, the tree
stays as it is. As text, there is nothing to report, so nothing is written even if there is no room.

All files belong to the process, as everywhere here. It matters, since a file in the place of which
another one has been put is the process's own now, with the same permission bits: a file of someone else
could have been read by bits that are not those of its owner, and then no more. -/
theorem second_run_changes_nothing {root : Path} {target? : Option Path} {faults : WriteFaults}
    (hfs : fs.IsTree) (hp : ofPaths fs root target? = .ok p) (hm : moves.IsSettled)
    (hsources : p.sources fs = .ok sources)
    (h : p.reviseAll moves ⟨false, faults⟩ report sources fs state = (.ok revisions, fs', state')) :
    p.sources fs' = .ok sources ∧
    ∃ again : List Revision, again.map Revision.file = sources ∧
      (∀ r ∈ again, ∀ record ∈ r.records, record.outcome = .kept ∧ record.malformed = none) ∧
      (∀ (w : Writing) (τ : Type) (accept : Reporter τ) (start : τ),
        (∀ r ∈ again, ∀ st, (accept r st).1 = .ok ()) →
        p.reviseAll moves w accept sources fs' start
          = (.ok again, fs', again.foldl (fun st r => (accept r st).2) start)) ∧
      (∀ (w : Writing) (τ : Type) (other : Reporter τ) (start : τ),
        (p.reviseAll moves w other sources fs' start).2.1 = fs') ∧
      ∀ (w : Writing) (quiet colour : Bool) (out : Output),
        p.reviseAll moves w (Output.reporter ⟨.text, quiet, colour⟩) sources fs' out
          = (.ok again, fs', out) := by
  -- What the first run has written is spared by the table.
  have hplaced := isPlaced_of_ofPaths hp fs
  obtain ⟨r, below, hat⟩ := exists_isAt hfs hp
  have hspared := isSpared_of_reviseAll hm hplaced rfl h
  obtain ⟨again, hfiles, hkept, hrun⟩ := reviseAll_of_isSpared hspared
  refine ⟨sources_of_keepsWays (keepsWays_reviseAll hplaced h) hfs hat hsources,
    again, hfiles, hkept, hrun, fun w τ other start => ?_, fun w quiet colour out => ?_⟩
  · refine files_reviseAll_of_unchanged (fun source hs => ?_) start
    obtain ⟨r, -, -, hstep⟩ := (hspared source hs).reviseFile_eq
    exact ⟨r, hstep w⟩
  · -- A revision that has kept everything is reported as nothing, so the output stays as it is.
    have htaken : ∀ r ∈ again, ∀ o,
        Output.reporter ⟨.text, quiet, colour⟩ r o = (.ok (), o) :=
      fun r hr o => Output.reporter_of_kept (hkept r hr) quiet colour o
    have hout : again.foldl (fun o r => (Output.reporter ⟨.text, quiet, colour⟩ r o).2) out = out := by
      refine List.foldlRecOn (motive := fun o => o = out) again _ rfl fun o ho r hr => ?_
      rw [htaken r hr, ho]
    have hall := hrun w Output (Output.reporter ⟨.text, quiet, colour⟩) out
      fun r hr o => by rw [htaken r hr o]
    rwa [hout] at hall

/-- A table that moves `A` to `C`. -/
def oneMove : Moves :=
  ⟨[("A", .moved "C")]⟩

theorem isSettled_oneMove : oneMove.IsSettled := by
  have hmove : ∀ path new, oneMove.get? path = some (.moved new) → path = "A" ∧ new = "C" := by
    intro path new h
    have hmem := FileSystem.mem_of_lookup_eq_some h
    simpa [oneMove] using hmem
  refine ⟨fun path new h => ?_, fun path new h => ?_⟩
  · rw [(hmove path new h).2]
    decide
  · rw [(hmove path new h).2]
    rfl

/-- The first run revises the file by its name, and the link behind it leads to a text that is spared
by then; the second run tells of two sources and writes nothing to a full output. -/
theorem second_run_changes_nothing_aliasTree :
    let sources : List Path := [.ofString "src/a.hpp", .ofString "src/b.hpp"]
    aliasTree.IsTree ∧ ofPaths aliasTree (.ofString "/") none = .ok aliasProject ∧
      oneMove.IsSettled ∧ aliasProject.sources aliasTree = .ok sources ∧
      ∃ revisions fs' again,
        aliasProject.reviseAll oneMove ⟨false, .none⟩ (fun _ n => (.ok (), n + 1)) sources aliasTree 0
          = (.ok revisions, fs', 2) ∧
        fs'.content? sharedFile = some "#include \"C\"\n".toUTF8 ∧
        aliasProject.sources fs' = .ok sources ∧
        again.map Revision.file = sources ∧
        aliasProject.reviseAll oneMove ⟨false, .none⟩ (Output.reporter ⟨.text, false, false⟩) sources
          fs' ⟨"", some 0⟩ = (.ok again, fs', ⟨"", some 0⟩) := by
  intro sources
  have htree : aliasTree.IsTree := by decide
  -- Behind the first revision the link leads to a file that has no `A` any more.
  have h : aliasProject.reviseAll oneMove ⟨false, .none⟩ (fun _ n => (.ok (), n + 1)) sources
      aliasTree 0
      = (.ok [⟨.ofString "src/a.hpp", "#include \"C\"\n",
            [⟨.ofString "src/a.hpp", "A", .replaced "C" .quoted, none⟩]⟩,
          ⟨.ofString "src/b.hpp", "#include \"C\"\n",
            [⟨.ofString "src/b.hpp", "C", .kept, none⟩]⟩],
        aliasTree.put sharedFile (.file ⟨3, 0o644, "#include \"C\"\n".toUTF8⟩), 2) := by
    simp only [sources, reviseAll, reviseFile, Moves.revise_eq_reviseLines]
    rfl
  obtain ⟨hagain, again, hfiles, -, -, -, htext⟩ := second_run_changes_nothing htree
    ofPaths_aliasTree isSettled_oneMove sources_aliasTree h
  exact ⟨htree, ofPaths_aliasTree, isSettled_oneMove, sources_aliasTree, _, _, again, h, rfl, hagain,
    hfiles, htext ⟨false, .none⟩ false false _⟩

end Project

end IncludeMoves
