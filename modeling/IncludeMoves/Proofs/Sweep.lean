import IncludeMoves.Proofs.Revising

/-!
# Runs over all sources

A run is a chain of steps. `Project.reviseAll_cons_cases` says what the first of them can do; from it
follows, by induction on the sources, what holds for whole runs.

* `Project.LosesLink` — a run in which a link is lost, as only happens to a source without a canonical
  path;
* `Project.Sweep` — a chain of steps that succeed and lose no link;
* `Project.sweep_of_reviseAll` — every other run is one, up to where it stops;
* `Project.Sweep.sameTree`, `Project.Sweep.content?_eq` — what such a chain leaves as it was, and what
  it makes of each file.
-/

namespace IncludeMoves

namespace Project

variable {σ : Type} {p : Project} {moves : Moves} {w : Writing} {report : Reporter σ}
  {source : Path} {sources : List Path} {fs fs' : FileSystem} {state state' : σ}
  {result : Except Problem (List Revision)} {revisions : List Revision}

/-- **What a run does with its first source.** The source cannot be revised, or its report is refused,
or the run goes on behind it. All facts on runs are proved by these three cases. -/
theorem reviseAll_cons_cases
    (h : p.reviseAll moves w report (source :: sources) fs state = (result, fs', state')) :
    (∃ e, p.reviseFile moves w source fs = (.error e, fs) ∧
        result = .error e ∧ fs' = fs ∧ state' = state) ∨
      (∃ r e, p.reviseFile moves w source fs = (.ok r, fs') ∧
        report r state = (.error e, state') ∧ result = .error e) ∨
      ∃ r fs₁ state₁ result₁, p.reviseFile moves w source fs = (.ok r, fs₁) ∧
        report r state = (.ok (), state₁) ∧
        p.reviseAll moves w report sources fs₁ state₁ = (result₁, fs', state') ∧
        result = result₁.map (r :: ·) := by
  rw [reviseAll] at h
  split at h
  -- The step fails, and with that it has changed nothing.
  · next e fs₁ hstep =>
    obtain ⟨rfl, rfl, rfl⟩ : .error e = result ∧ fs₁ = fs' ∧ state = state' := by simpa using h
    cases reviseFile_error hstep
    exact .inl ⟨e, hstep, rfl, rfl, rfl⟩
  next r fs₁ hstep =>
  split at h
  -- The report is refused.
  · next e state₁ hreport =>
    obtain ⟨rfl, rfl, rfl⟩ : .error e = result ∧ fs₁ = fs' ∧ state₁ = state' := by simpa using h
    exact .inr (.inl ⟨r, e, hstep, hreport, rfl⟩)
  next state₁ hreport =>
  -- The rest of the run decides about the result.
  split at h
  · next e fs₂ state₂ hrest =>
    obtain ⟨rfl, rfl, rfl⟩ : .error e = result ∧ fs₂ = fs' ∧ state₂ = state' := by simpa using h
    exact .inr (.inr ⟨r, fs₁, state₁, _, hstep, hreport, hrest, rfl⟩)
  · next rs fs₂ state₂ hrest =>
    obtain ⟨rfl, rfl, rfl⟩ : .ok (r :: rs) = result ∧ fs₂ = fs' ∧ state₂ = state' := by
      simpa using h
    exact .inr (.inr ⟨r, fs₁, state₁, _, hstep, hreport, hrest, rfl⟩)

/-- A run over more sources goes on behind a step that succeeds and whose report is taken. -/
theorem reviseAll_cons_of_ok {fs₁ : FileSystem} {state₁ : σ} {r : Revision}
    (hstep : p.reviseFile moves w source fs = (.ok r, fs₁))
    (hreport : report r state = (.ok (), state₁))
    (hrest : p.reviseAll moves w report sources fs₁ state₁ = (result, fs', state')) :
    p.reviseAll moves w report (source :: sources) fs state
      = (result.map (r :: ·), fs', state') := by
  rw [reviseAll, hstep]
  simp only [hreport, hrest]
  cases result <;> rfl

/-- **A run that succeeds** has made its first step, has had it reported, and has succeeded with the
rest. -/
theorem reviseAll_cons_ok
    (h : p.reviseAll moves w report (source :: sources) fs state = (.ok revisions, fs', state')) :
    ∃ r rs fs₁ state₁, revisions = r :: rs ∧ p.reviseFile moves w source fs = (.ok r, fs₁) ∧
      report r state = (.ok (), state₁) ∧
      p.reviseAll moves w report sources fs₁ state₁ = (.ok rs, fs', state') := by
  rcases reviseAll_cons_cases h with ⟨e, -, herror, -⟩ | ⟨r, e, -, -, herror⟩ |
    ⟨r, fs₁, state₁, result₁, hstep, hreport, hrest, hresult⟩
  · cases herror
  · cases herror
  -- If the rest had failed, so had the run.
  · cases result₁ with
    | error e => cases hresult
    | ok rs =>
      cases hresult
      exact ⟨r, rs, fs₁, state₁, rfl, hstep, hreport, hrest⟩

/-- Behind sources over which it succeeds, a run goes on as one that starts there. The first part has to
succeed, or else the second one is never reached. -/
theorem reviseAll_append {rest : List Path} {fs₁ : FileSystem} {state₁ : σ}
    (h : p.reviseAll moves w report sources fs state = (.ok revisions, fs₁, state₁))
    (hrest : p.reviseAll moves w report rest fs₁ state₁ = (result, fs', state')) :
    p.reviseAll moves w report (sources ++ rest) fs state
      = (result.map (revisions ++ ·), fs', state') := by
  induction sources generalizing fs state revisions with
  | nil =>
    cases h
    cases result <;> exact hrest
  -- The induction is on the first sources, each of which has gone well.
  | cons source sources ih =>
    obtain ⟨r, rs, fs₂, state₂, rfl, hstep, hreport, hlater⟩ := reviseAll_cons_ok h
    have hall := reviseAll_cons_of_ok hstep hreport (ih hlater)
    cases result <;> exact hall

/-- **Two runs in step**: if the steps have the same result, and keep whatever the sources ahead, the two
trees and the reporter's state have to do with each other, then the runs have the same result and make
the same reports. -/
theorem reviseAll_in_step {w' : Writing} {R : List Path → FileSystem → FileSystem → σ → Prop}
    {E : FileSystem → FileSystem → Prop} (hnil : ∀ fs fs' state, R [] fs fs' state → E fs fs')
    (hcons : ∀ source sources fs fs' state, R (source :: sources) fs fs' state →
      ∃ result fs₁ fs₁', p.reviseFile moves w source fs = (result, fs₁) ∧
        p.reviseFile moves w' source fs' = (result, fs₁') ∧ E fs₁ fs₁' ∧
        ∀ r state₁, result = .ok r → report r state = (.ok (), state₁) → R sources fs₁ fs₁' state₁)
    (h : R sources fs fs' state) :
    ∃ result fs₁ fs₁' state₁,
      p.reviseAll moves w report sources fs state = (result, fs₁, state₁) ∧
      p.reviseAll moves w' report sources fs' state = (result, fs₁', state₁) ∧ E fs₁ fs₁' := by
  induction sources generalizing fs fs' state with
  | nil => exact ⟨.ok [], fs, fs', state, rfl, rfl, hnil fs fs' state h⟩
  | cons source sources ih =>
    obtain ⟨result, fs₁, fs₁', hstep, hstep', hend, hrest⟩ := hcons source sources fs fs' state h
    cases result with
    -- Both steps fail, so both runs end here.
    | error e =>
      refine ⟨.error e, fs₁, fs₁', state, ?_, ?_, hend⟩
      · rw [reviseAll, hstep]
      · rw [reviseAll, hstep']
    | ok r =>
      cases hreport : report r state with
      | mk answer state₁ =>
        cases answer with
        -- Both reports are refused, since they are about the same revision and the state is the same.
        | error e =>
          refine ⟨.error e, fs₁, fs₁', state₁, ?_, ?_, hend⟩
          · simp only [reviseAll, hstep, hreport]
          · simp only [reviseAll, hstep', hreport]
        | ok u =>
          obtain ⟨rest, fs₂, fs₂', state₂, hrun, hrun', hend₂⟩ := ih (hrest r state₁ rfl hreport)
          exact ⟨rest.map (r :: ·), fs₂, fs₂', state₂, reviseAll_cons_of_ok hstep hreport hrun,
            reviseAll_cons_of_ok hstep' hreport hrun', hend₂⟩

/-! ### Lost links -/

/-- **A run in which a link is lost**: it gets to a source whose replacement takes the place of a
link. -/
inductive LosesLink {σ : Type} (p : Project) (moves : Moves) (w : Writing) (report : Reporter σ) :
    List Path → FileSystem → σ → Prop
  | here {source : Path} {sources : List Path} {fs fs₁ : FileSystem} {state : σ} {r : Revision} :
      p.reviseFile moves w source fs = (.ok r, fs₁) → fs₁ ≠ fs →
      fs.LosesLink (p.resolve source) → LosesLink p moves w report (source :: sources) fs state
  | later {source : Path} {sources : List Path} {fs fs₁ : FileSystem} {state state₁ : σ}
      {r : Revision} :
      p.reviseFile moves w source fs = (.ok r, fs₁) → report r state = (.ok (), state₁) →
      LosesLink p moves w report sources fs₁ state₁ →
      LosesLink p moves w report (source :: sources) fs state

/-- **What every step keeps, every run keeps.** However the run ends: a step that fails keeps it too. -/
theorem reviseAll_induct {P : FileSystem → Prop}
    (hstep : ∀ fs source, P fs → P (p.reviseFile moves w source fs).2) (h₀ : P fs)
    (h : p.reviseAll moves w report sources fs state = (result, fs', state')) : P fs' := by
  induction sources generalizing fs state result with
  | nil =>
    cases h
    exact h₀
  | cons source sources ih =>
    have h₁ := hstep fs source h₀
    rcases reviseAll_cons_cases h with ⟨e, -, -, rfl, -⟩ | ⟨r, e, hok, -, -⟩ |
      ⟨r, fs₁, state₁, result₁, hok, -, hrest, -⟩
    -- A step that fails leaves the tree as it is.
    · exact h₀
    · rwa [hok] at h₁
    · rw [hok] at h₁
      exact ih h₁ hrest

theorem IsPlaced.reviseAll (hp : p.IsPlaced fs)
    (h : p.reviseAll moves w report sources fs state = (result, fs', state')) : p.IsPlaced fs' :=
  reviseAll_induct (fun _ source hp => hp.reviseFile moves w source) hp h

/-- A file stays a file. -/
theorem isSome_file?_reviseAll {l : Location} (hl : (fs.file? l).isSome = true)
    (h : p.reviseAll moves w report sources fs state = (result, fs', state')) :
    (fs'.file? l).isSome = true :=
  reviseAll_induct (P := fun fs => (fs.file? l).isSome = true)
    (fun _ _ => isSome_file?_reviseFile) hl h

/-- **If a link is lost, there is a file in its place at the end of the run.** Nothing that comes later
can bring it back, for steps only put files in the place of files and links. -/
theorem LosesLink.exists_link (hlost : p.LosesLink moves w report sources fs state)
    (hp : p.IsPlaced fs)
    (h : p.reviseAll moves w report sources fs state = (result, fs', state')) :
    ∃ l t, fs.node? l = some (.link t) ∧ (fs'.file? l).isSome = true := by
  -- The step that loses the link makes a file there, and no later one makes anything else of it. The
  -- link was there from the start, since no step makes a link.
  induction hlost generalizing result with
  | @here source sources fs fs₁ state r hstep hne hlink =>
    obtain ⟨k, f, text, -, -, -, -, -, ⟨rfl, -⟩ | ⟨d, -, hd, hput, -, hcase⟩⟩ :=
      reviseFile_changes hp hstep
    · exact absurd rfl hne
    have ht : ∃ t, fs.node? d = some (.link t) := by
      rcases hcase with ⟨-, t, -, ht, -⟩ | ⟨hkept, -⟩
      · exact ⟨t, ht⟩
      · exact absurd hlink hkept
    obtain ⟨t, ht⟩ := ht
    have hfile : (fs₁.file? d).isSome = true := by
      rw [hput, FileSystem.file?_put fs hd, if_pos rfl]
      rfl
    refine ⟨d, t, ht, ?_⟩
    rcases reviseAll_cons_cases h with ⟨e, herror, -⟩ | ⟨r', e, hok, -, -⟩ |
      ⟨r', fs₂, state₂, result₂, hok, -, hrest, -⟩
    · rw [hstep] at herror
      cases (Prod.mk.inj herror).1
    · rw [hstep] at hok
      exact (Prod.mk.inj hok).2 ▸ hfile
    · rw [hstep] at hok
      exact isSome_file?_reviseAll ((Prod.mk.inj hok).2 ▸ hfile) hrest
  | @later source sources fs fs₁ state state₁ r hstep hreport _ ih =>
    have hp₁ := hp.reviseFile moves w source
    -- This step and its report succeed, so the run goes on behind it.
    rcases reviseAll_cons_cases h with ⟨e, herror, -⟩ | ⟨r', e, hok, herror, -⟩ |
      ⟨r', fs₂, state₂, result₂, hok, hreport', hrest, -⟩
    · rw [hstep] at herror
      cases (Prod.mk.inj herror).1
    · rw [hstep] at hok
      cases hok
      rw [hreport] at herror
      cases (Prod.mk.inj herror).1
    · rw [hstep] at hok hp₁
      cases hok
      cases hreport.symm.trans hreport'
      obtain ⟨l, t, hl, hfile⟩ := ih hp₁ hrest
      have hl₁ : (p.reviseFile moves w source fs).2.node? l = some (.link t) := by
        rw [hstep]
        exact hl
      exact ⟨l, t, link_of_reviseFile hl₁, hfile⟩

/-- **Only a source without a canonical path can cost a link.** With one the move goes to the file
itself, and since a run does not change the tree, the source keeps its canonical path until its turn
comes. -/
theorem not_losesLink (hp : p.IsPlaced fs)
    (hcanonical : ∀ source ∈ sources, ∃ c, fs.canonicalize (p.resolve source) = .ok c) :
    ¬p.LosesLink moves w report sources fs state := by
  intro hlost
  induction hlost with
  | here _ _ hlink =>
    obtain ⟨c, hc⟩ := hcanonical _ List.mem_cons_self
    exact FileSystem.not_losesLink_of_canonicalize hc hlink
  | @later source sources fs fs₁ state state₁ r hstep _ _ ih =>
    have hp₁ := hp.reviseFile moves w source
    rw [hstep] at hp₁
    obtain ⟨c, hc⟩ := hcanonical source List.mem_cons_self
    have htree := reviseFile_sameTree hp hstep fun _ =>
      FileSystem.not_losesLink_of_canonicalize hc
    -- The tree is the same after the step, so the other sources still have canonical paths.
    refine ih hp₁ fun s hs => ?_
    rw [htree.canonicalize]
    exact hcanonical s (List.mem_cons_of_mem _ hs)

/-! ### Runs that lose no link -/

/-- **A chain of steps** that succeed and lose no link. It is a run without its reporter: what is proved
of chains holds for runs with any reports, and for what a run has done before it stops. -/
inductive Sweep (p : Project) (moves : Moves) (w : Writing) :
    FileSystem → List Path → List Revision → FileSystem → Prop
  | nil {fs : FileSystem} : Sweep p moves w fs [] [] fs
  | cons {source : Path} {sources : List Path} {fs fs₁ fs₂ : FileSystem} {r : Revision}
      {revisions : List Revision} :
      p.reviseFile moves w source fs = (.ok r, fs₁) →
      (fs₁ ≠ fs → ¬fs.LosesLink (p.resolve source)) →
      Sweep p moves w fs₁ sources revisions fs₂ →
      Sweep p moves w fs (source :: sources) (r :: revisions) fs₂

/-- **A run that loses no link is a chain of steps**, over all sources if it succeeds, else over the
first ones. -/
theorem sweep_of_reviseAll
    (h : p.reviseAll moves w report sources fs state = (result, fs', state'))
    (hkept : ¬p.LosesLink moves w report sources fs state) :
    ∃ done rest revisions, sources = done ++ rest ∧ p.Sweep moves w fs done revisions fs' ∧
      ∀ rs, result = .ok rs → rest = [] ∧ revisions = rs := by
  -- On the sources, from every tree and state in which the rest of the run can start.
  induction sources generalizing fs state result with
  | nil =>
    cases h
    exact ⟨[], [], [], rfl, .nil, fun rs h => ⟨rfl, Except.ok.inj h⟩⟩
  | cons source sources ih =>
    rcases reviseAll_cons_cases h with ⟨e, -, rfl, rfl, -⟩ | ⟨r, e, hok, -, rfl⟩ |
      ⟨r, fs₁, state₁, result₁, hok, hreport, hrest, rfl⟩
    -- The file that has failed is none of those that are swept, one whose report has failed is.
    · exact ⟨[], source :: sources, [], rfl, .nil, fun rs h => by cases h⟩
    · exact ⟨[source], sources, [r], rfl, .cons hok (fun hne hl => hkept (.here hok hne hl)) .nil,
        fun rs h => by cases h⟩
    · obtain ⟨done, rest, revisions, rfl, hsweep, hall⟩ :=
        ih hrest fun hlost => hkept (.later hok hreport hlost)
      refine ⟨source :: done, rest, r :: revisions, rfl,
        .cons hok (fun hne hl => hkept (.here hok hne hl)) hsweep, fun rs hrs => ?_⟩
      cases result₁ with
      | error e => cases hrs
      | ok rs₁ =>
        obtain ⟨hnil, heq⟩ := hall rs₁ rfl
        rw [← Except.ok.inj hrs, heq]
        exact ⟨hnil, rfl⟩

namespace Sweep

/-- **The tree stays the same.** -/
theorem sameTree (h : p.Sweep moves w fs sources revisions fs') (hp : p.IsPlaced fs) :
    fs.SameTree fs' := by
  induction h with
  | nil => exact .refl _
  | @cons source sources fs fs₁ fs₂ r revisions hstep hkept _ ih =>
    have hp₁ := hp.reviseFile moves w source
    rw [hstep] at hp₁
    exact (reviseFile_sameTree hp hstep hkept).trans (ih hp₁)

end Sweep

theorem leadsTo_of_sameTree {l : Location} (h : fs.SameTree fs') (source : Path) :
    p.leadsTo fs' l source = p.leadsTo fs l source := by
  rw [leadsTo, leadsTo, h.resolve]

/-- How many of the sources lead to a location. They are counted in the tree at the beginning, for a
chain of steps does not change where sources lead. -/
def visits (p : Project) (fs : FileSystem) (l : Location) (sources : List Path) : Nat :=
  sources.countP (p.leadsTo fs l)

namespace Sweep

/-- **Each file is revised as often as sources lead to it.** The induction is on the chain; the first
step is one visit for the file to which its source leads, and none for the others. -/
theorem content?_eq (h : p.Sweep moves w fs sources revisions fs') (hp : p.IsPlaced fs)
    (hw : w.dry = false) (l : Location) :
    fs'.content? l = (fs.content? l).map moves.revisedBytes^[p.visits fs l sources] := by
  -- On the sweep, step by step.
  induction h with
  | nil => exact Option.map_id'.symm
  | @cons source sources fs fs₁ fs₂ r revisions hstep hkept _ ih =>
    have hp₁ := hp.reviseFile moves w source
    rw [hstep] at hp₁
    have htree := reviseFile_sameTree hp hstep hkept
    have hvisits : p.visits fs₁ l sources = p.visits fs l sources :=
      List.countP_congr fun s _ => by rw [leadsTo_of_sameTree htree]
    -- The first source adds one revision to those of the others, or none.
    have hfirst : (fs₁.content? l).map moves.revisedBytes^[p.visits fs l sources]
        = (fs.content? l).map moves.revisedBytes^[p.visits fs l (source :: sources)] := by
      rw [content?_reviseFile hp hw hstep hkept, visits, visits, List.countP_cons]
      split
      · rw [Option.map_map, ← Function.iterate_succ]
      · rfl
    calc fs₂.content? l
        = (fs₁.content? l).map moves.revisedBytes^[p.visits fs₁ l sources] := ih hp₁
      _ = (fs₁.content? l).map moves.revisedBytes^[p.visits fs l sources] := by rw [hvisits]
      _ = (fs.content? l).map moves.revisedBytes^[p.visits fs l (source :: sources)] := hfirst

/-- The step of a source in the middle of a chain. -/
theorem split {before after : List Path}
    (h : p.Sweep moves w fs (before ++ source :: after) revisions fs') :
    ∃ fs₁ fs₂ r, p.Sweep moves w fs before (revisions.take before.length) fs₁ ∧
      p.reviseFile moves w source fs₁ = (.ok r, fs₂) ∧ revisions[before.length]? = some r := by
  induction before generalizing fs revisions with
  | nil =>
    cases h with
    | cons hstep hkept hrest => exact ⟨_, _, _, .nil, hstep, rfl⟩
  | cons b before ih =>
    cases h with
    | cons hstep hkept hrest =>
      -- The source behind `b` is the one behind `before` in the rest of the run.
      obtain ⟨fs₁, fs₂, r, hsweep, hr, hindex⟩ := ih hrest
      exact ⟨fs₁, fs₂, r, .cons hstep hkept hsweep, hr, by simpa using hindex⟩

/-- **The revision of each source** is that of what the sources before it have left of the file. If no
other source leads there, it is that of the text at the beginning. -/
theorem exists_revision {before after : List Path}
    (h : p.Sweep moves w fs (before ++ source :: after) revisions fs') (hp : p.IsPlaced fs)
    (hw : w.dry = false) :
    ∃ l text, fs.resolve (p.resolve source) = .ok l ∧ fs.content? l = some text.toUTF8 ∧
      revisions[before.length]? =
        some (moves.revise source (moves.revisedText^[p.visits fs l before] text)) := by
  obtain ⟨fs₁, fs₂, r, hbefore, hstep, hindex⟩ := h.split
  obtain ⟨text', htext', rfl, -⟩ := reviseFile_ok hstep
  obtain ⟨l, f, hres, hfile, -, hcontent⟩ := FileSystem.readText_eq_ok.mp htext'
  rw [(hbefore.sameTree hp).resolve] at hres
  have hleft := hbefore.content?_eq hp hw l
  rw [FileSystem.content?, hfile, Option.map_some, hcontent] at hleft
  obtain ⟨bytes, hbytes, htext⟩ := Option.map_eq_some_iff.mp hleft.symm
  -- What a source reads was a text from the beginning.
  obtain ⟨text, rfl, rfl⟩ := Moves.exists_text_of_iterate htext
  exact ⟨l, text, hres, hbytes, hindex⟩

/-- **What may happen to a file**: nothing, or a source leads to it, and its text is revised a number
of times. -/
theorem content?_cases (h : p.Sweep moves w fs sources revisions fs') (hp : p.IsPlaced fs)
    (hw : w.dry = false) (l : Location) :
    fs'.content? l = fs.content? l ∨
      ∃ source ∈ sources, ∃ text count, fs.resolve (p.resolve source) = .ok l ∧
        fs.content? l = some text.toUTF8 ∧
        fs'.content? l = some (moves.revisedText^[count] text).toUTF8 := by
  -- What happens depends on whether a source leads there at all.
  have hcontent := h.content?_eq hp hw l
  by_cases hvisited : ∃ source ∈ sources, p.leadsTo fs l source = true
  · right
    obtain ⟨source, hs, hleads⟩ := hvisited
    have hl := leadsTo_iff.mp hleads
    -- The source has been read, so what is at `l` is a text.
    obtain ⟨before, after, rfl⟩ := List.append_of_mem hs
    obtain ⟨l', text, hres, htext, -⟩ := h.exists_revision hp hw
    cases hres.symm.trans hl
    refine ⟨source, hs, text, p.visits fs l (before ++ source :: after), hl, htext, ?_⟩
    rw [hcontent, htext, Option.map_some, Moves.iterate_revisedBytes_toUTF8]
  · left
    have hzero : p.visits fs l sources = 0 := by
      rw [visits, List.countP_eq_zero]
      exact fun source hs hleads => hvisited ⟨source, hs, hleads⟩
    rw [hcontent, hzero, Function.iterate_zero, Option.map_id, id_eq]

end Sweep

/-! ### The table and the search -/

/-- **How far a run gets**: it stops before a source is read, or it goes over all sources. In the first
case tree and output are as before. -/
theorem applyTable_cases (p : Project) (table : Path) (w : Writing) (verbose : Bool)
    (report : Reporter σ) (fs : FileSystem) (state : σ) :
    (∃ e, (∀ moves sources, ¬(fs.readMoves table = .ok moves ∧ p.sources fs = .ok sources)) ∧
      p.applyTable table w verbose report fs state = ⟨.error e, fs, state, ""⟩) ∨
      ∃ moves sources result fs' state' log, fs.readMoves table = .ok moves ∧
        p.sources fs = .ok sources ∧
        p.reviseAll moves w report sources fs state = (result, fs', state') ∧
        p.applyTable table w verbose report fs state
          = ⟨result.mapError .failed, fs', state', log⟩ := by
  unfold applyTable
  cases hmoves : fs.readMoves table with
  | error e => exact .inl ⟨_, fun _ _ h => by simp at h, rfl⟩
  | ok moves =>
    cases hsources : p.sources fs with
    | error e => exact .inl ⟨_, fun _ _ h => by simp at h, rfl⟩
    | ok sources => exact .inr ⟨moves, sources, _, _, _, _, rfl, rfl, rfl, rfl⟩

/-- A run of the program is one with reports on standard output. -/
theorem run_eq (p : Project) (table : Path) (report : Report) (verbose : Bool)
    (faults : WriteFaults) (fs : FileSystem) (out : Output) :
    let done := p.applyTable table ⟨false, faults⟩ verbose (Output.reporter report) fs out
    ∃ log, p.run table report verbose faults fs out
      = ⟨done.result.map Tally.ofRevisions, done.files, done.state, log⟩ := by
  intro done
  unfold run
  simp only
  split
  · next hresult => exact ⟨_, by rw [show done.result = _ from hresult]; rfl⟩
  · next hresult => exact ⟨_, by rw [show done.result = _ from hresult]; rfl⟩

end Project

end IncludeMoves
