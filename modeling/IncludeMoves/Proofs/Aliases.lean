import IncludeMoves.Proofs.LineByLine
import IncludeMoves.Proofs.Sweep

/-!
# Files with several names

Several sources may lead to one file, through links to it or to directories above it. Each of them
revises the file once more. A hard link is no such way: the other names of a file keep the old
content, since a replacement changes one entry only.

* `Project.contents_by_visits` — what a run makes of every file, and what it returns;
* `Project.linkedTree` — a file that two sources lead to.
-/

namespace IncludeMoves

namespace Project

variable {σ : Type} {p : Project} {moves : Moves} {w : Writing} {report : Reporter σ}
  {sources : List Path} {fs fs' : FileSystem} {state state' : σ} {revisions : List Revision}
  {root : Path} {target? : Option Path}

/-- **A successful run revises every file as often as sources lead to it**, and returns for each
source the revision of what the sources before it have left, whatever the sources are and wherever
the reports go. This is so exactly if no link is lost: a lost link makes a file where there was
none. -/
theorem contents_by_visits {faults : WriteFaults} (hp : ofPaths fs root target? = .ok p)
    (h : p.reviseAll moves ⟨false, faults⟩ report sources fs state
      = (.ok revisions, fs', state')) :
    ((∀ l, fs'.content? l = (fs.content? l).map moves.revisedBytes^[p.visits fs l sources]) ↔
      ¬p.LosesLink moves ⟨false, faults⟩ report sources fs state) ∧
    (¬p.LosesLink moves ⟨false, faults⟩ report sources fs state →
      ∀ before source after, sources = before ++ source :: after →
        ∃ l text r, fs.resolve (p.resolve source) = .ok l ∧
          (∀ c, fs.canonicalize (p.resolve source) = .ok c → c = l.toPath) ∧
          fs.content? l = some text.toUTF8 ∧
          revisions[before.length]? = some r ∧
          r = moves.revise source (moves.revisedText^[p.visits fs l before] text) ∧
          r.text = moves.revisedText^[p.visits fs l before + 1] text) := by
  have hplaced := isPlaced_of_ofPaths hp fs
  refine ⟨⟨fun hcontents hlost => ?_, fun hkept l => ?_⟩, fun hkept before source after hsplit => ?_⟩
  -- Where a link was lost there is a file, and so a content that was not there before.
  · obtain ⟨l, t, hlink, hfile⟩ := hlost.exists_link hplaced h
    have hcontent := hcontents l
    rw [FileSystem.content?, FileSystem.content?, FileSystem.file?_eq_none_of_link hlink] at hcontent
    obtain ⟨f, hf⟩ := Option.isSome_iff_exists.mp hfile
    simp [hf] at hcontent
  -- All sources have been dealt with, each as often as it has been visited.
  · obtain ⟨done, rest, rs, rfl, hsweep, hall⟩ := sweep_of_reviseAll h hkept
    obtain ⟨rfl, -⟩ := hall _ rfl
    rw [List.append_nil]
    exact hsweep.content?_eq hplaced rfl l
  · obtain ⟨done, rest, rs, hdone, hsweep, hall⟩ := sweep_of_reviseAll h hkept
    obtain ⟨rfl, rfl⟩ := hall _ rfl
    rw [List.append_nil] at hdone
    -- The run up to the source, and the revision of the source itself.
    rw [← hdone, hsplit] at hsweep
    obtain ⟨l, text, hres, hcontent, hindex⟩ := hsweep.exists_revision hplaced rfl
    refine ⟨l, text, _, hres, fun c hc => FileSystem.toPath_of_canonicalize hc hres, hcontent, hindex,
      rfl, ?_⟩
    rw [Moves.text_revise, Function.iterate_succ_apply']

/-- A directory with a file `a` and a link `b` to it. -/
def linkedTree : FileSystem where
  entries := [
    ([(Path.ofString "s").bytes], .dir),
    ([(Path.ofString "a").bytes, (Path.ofString "s").bytes],
      .file ⟨1, 0o644, "#include \"x\"\n".toUTF8⟩),
    ([(Path.ofString "b").bytes, (Path.ofString "s").bytes], .link (.ofString "a"))]
  cwd := []

/-- A table that moves a path twice. -/
def twoMoves : Moves := ⟨[("x", .moved "y"), ("y", .moved "z")]⟩

/-- The file is revised once for its own name and once for the link. -/
theorem contents_by_visits_linkedTree :
    let sources : List Path := [.ofString "s/a", .ofString "s/b"]
    ∃ p revisions fs', ofPaths linkedTree (.ofString "/") (some (.ofString "/s")) = .ok p ∧
      p.reviseAll twoMoves ⟨false, .none⟩ (fun _ n => (.ok (), n + 1)) sources linkedTree 0
        = (.ok revisions, fs', 2) ∧
      ∀ l, fs'.content? l = (linkedTree.content? l).map
        twoMoves.revisedBytes^[p.visits linkedTree l sources] := by
  have hp : ofPaths linkedTree (.ofString "/") (some (.ofString "/s"))
      = .ok ⟨.ofString "/", .ofString "/s"⟩ := rfl
  -- The run itself: what `s/a` has left is what is read for `s/b`.
  have h : (⟨.ofString "/", .ofString "/s"⟩ : Project).reviseAll twoMoves ⟨false, .none⟩
      (fun _ n => (.ok (), n + 1)) [.ofString "s/a", .ofString "s/b"] linkedTree 0
        = (.ok [⟨.ofString "s/a", "#include \"y\"\n",
              [⟨.ofString "s/a", "x", .replaced "y" .quoted, none⟩]⟩,
            ⟨.ofString "s/b", "#include \"z\"\n",
              [⟨.ofString "s/b", "y", .replaced "z" .quoted, none⟩]⟩],
          linkedTree.put [(Path.ofString "a").bytes, (Path.ofString "s").bytes]
            (.file ⟨3, 0o644, "#include \"z\"\n".toUTF8⟩), 2) := by
    simp only [reviseAll, reviseFile, Moves.revise_eq_reviseLines]
    rfl
  -- Both names can be asked for step by step, so no link is lost.
  have hcanonical : ∀ source ∈ [Path.ofString "s/a", Path.ofString "s/b"],
      ∃ c, linkedTree.canonicalize (resolve ⟨.ofString "/", .ofString "/s"⟩ source) = .ok c := by
    intro source hs
    simp only [List.mem_cons, List.not_mem_nil, or_false] at hs
    rcases hs with rfl | rfl
    · exact ⟨_, rfl⟩
    · exact ⟨_, rfl⟩
  exact ⟨_, _, _, hp, h, (contents_by_visits hp h).1.mpr
    (not_losesLink (isPlaced_of_ofPaths hp _) hcanonical)⟩

end Project

end IncludeMoves
