import IncludeMoves.Proofs.Composition
import IncludeMoves.Proofs.Sweep
import Mathlib

/-!
# Files that are revised more than once

Sources are told apart by their paths from the root, but a file is read and replaced through the links
on its path. So a file to which several sources lead is revised once for each of them, and each revision
reads what the one before it has written: a table that moves on what it has moved goes on step by step.

* `Moves.IsSettled` — a table whose second revision changes nothing;
* `Project.applyTable_revises_each_name` — what a run makes of a file with any number of names, and when
  that is one revision;
* `Project.swap_undone` — a table that swaps two paths leaves a file with two names as it was.
-/

namespace IncludeMoves

namespace Moves

variable {m n : Moves}

/-! ### Tables that need no second revision -/

/-- Tables that say the same of every path make the same of a text. -/
theorem revisedText_congr (h : ∀ path, m.get? path = n.get? path) (text : String) :
    m.revisedText text = n.revisedText text := by
  have hline : m.reviseLine = n.reviseLine := by
    funext line
    cases hread : Directive.readLine? line with
    | none =>
      rw [reviseLine_of_readLine?_eq_none hread, reviseLine_of_readLine?_eq_none hread]
    | some found =>
      rw [reviseLine_of_readLine?_eq_some hread, reviseLine_of_readLine?_eq_some hread, h]
  apply String.toList_injective
  rw [toList_revisedText, toList_revisedText, hline]

/-- **A table is settled** if it writes no newline and does not move on what it has moved. It may still
move one path to another one that it does not know, and remove paths. -/
structure IsSettled (m : Moves) : Prop where
  keepsLines : m.KeepsLines
  not_moved : ∀ path new, m.get? path = some (.moved new) → m.get? new = none

/-- A settled table has nothing to do where it has been applied. The composed table is the table itself,
since no second step of a path is another move. -/
theorem IsSettled.revisedText_revisedText (h : m.IsSettled) (text : String) :
    m.revisedText (m.revisedText text) = m.revisedText text := by
  -- Two revisions are one, by a table that says the same as the settled one.
  rw [revisedText_compose h.keepsLines]
  refine revisedText_congr (fun path => ?_) text
  rw [get?_compose]
  cases hmove : m.get? path with
  | none => rfl
  | some move =>
    cases move with
    | gone => rfl
    | moved new =>
      have hnew : m.follow (.moved new) = .moved new := by
        rw [follow, h.not_moved path new hmove, Option.getD_none, ite_self]
      rw [Option.map_some, hnew, Option.some_or]

theorem IsSettled.iterate_revisedText (h : m.IsSettled) {count : Nat} (hcount : 0 < count)
    (text : String) : m.revisedText^[count] text = m.revisedText text := by
  obtain ⟨count, rfl⟩ := Nat.exists_eq_add_of_lt hcount
  rw [Nat.zero_add, Function.iterate_succ_apply]
  exact Function.iterate_fixed (h.revisedText_revisedText text) count

end Moves

namespace Project

variable {σ : Type} {p : Project} {moves : Moves} {report : Reporter σ} {fs : FileSystem} {state : σ}
  {root table : Path} {target? : Option Path} {faults : WriteFaults} {verbose : Bool}
  {revisions : List Revision}

/-- **A run revises each file once for each of its names.** If a run over all sources succeeds and loses
no link, then each file to which a source leads was a text, and it is now that text revised as often as
sources lead to the file. If the table writes no newline, that moves each include by as many steps. It is
one revision exactly if the later ones change nothing, as for a file with one name, and for every file if
the table is settled. -/
theorem applyTable_revises_each_name (hp : ofPaths fs root target? = .ok p)
    (h : (p.applyTable table ⟨false, faults⟩ verbose report fs state).result = .ok revisions) :
    let after := (p.applyTable table ⟨false, faults⟩ verbose report fs state).files
    ∃ moves sources, fs.readMoves table = .ok moves ∧ p.sources fs = .ok sources ∧
      (¬p.LosesLink moves ⟨false, faults⟩ report sources fs state → ∀ source ∈ sources,
        ∃ l text, fs.resolve (p.resolve source) = .ok l ∧ fs.content? l = some text.toUTF8 ∧
          0 < p.visits fs l sources ∧
          after.content? l = some (moves.revisedText^[p.visits fs l sources] text).toUTF8 ∧
          (moves.KeepsLines → after.content? l
            = some ((moves.compose^[p.visits fs l sources] .empty).revisedText text).toUTF8) ∧
          (after.content? l = some (moves.revisedText text).toUTF8 ↔
            moves.revisedText^[p.visits fs l sources] text = moves.revisedText text) ∧
          (p.visits fs l sources = 1 ∨ moves.IsSettled →
            after.content? l = some (moves.revisedText text).toUTF8)) := by
  intro after
  -- Only a run over the sources ends with revisions.
  rcases p.applyTable_cases table ⟨false, faults⟩ verbose report fs state with
    ⟨e, -, hstop⟩ | ⟨moves, sources, result, fs', state', log, hmoves, hsources, hall, hdone⟩
  · rw [hstop] at h
    cases h
  have hafter : after = fs' := congrArg Finished.files hdone
  have hresult : result = .ok revisions := by
    rw [hdone] at h
    cases result with
    | error e => cases h
    | ok rs => exact congrArg Except.ok (Except.ok.inj h)
  subst hresult
  refine ⟨moves, sources, hmoves, hsources, fun hkept source hs => ?_⟩
  have hplaced := isPlaced_of_ofPaths hp fs
  -- Since no link is lost, the run is a sweep over all sources.
  obtain ⟨done, rest, rs, rfl, hsweep, hrest⟩ := sweep_of_reviseAll hall hkept
  obtain ⟨rfl, -⟩ := hrest _ rfl
  rw [List.append_nil] at hs ⊢
  -- The source has been read, so what it leads to is a text.
  obtain ⟨before, behind, hsplit⟩ := List.append_of_mem hs
  obtain ⟨l, text, hl, htext, -⟩ := (hsplit ▸ hsweep).exists_revision hplaced rfl
  have hvisits : 0 < p.visits fs l done :=
    List.countP_pos_iff.mpr ⟨source, hs, leadsTo_iff.mpr hl⟩
  have hcontent : after.content? l = some (moves.revisedText^[p.visits fs l done] text).toUTF8 := by
    rw [hafter, hsweep.content?_eq hplaced rfl, htext, Option.map_some,
      Moves.iterate_revisedBytes_toUTF8]
  have honce : after.content? l = some (moves.revisedText text).toUTF8 ↔
      moves.revisedText^[p.visits fs l done] text = moves.revisedText text := by
    rw [hcontent, Option.some_inj]
    exact String.toByteArray_inj
  refine ⟨l, text, hl, htext, hvisits, hcontent, fun hlines => ?_, honce, ?_⟩
  · rw [hcontent, Moves.iterate_revisedText hlines]
  · rintro (hone | hsettled)
    · rw [honce, hone]
      rfl
    · exact honce.mpr (hsettled.iterate_revisedText hvisits text)

/-! ### A swap that is undone -/

/-- A file `src/a.hpp`, a link `src/b.hpp` to it, and a table `f.json`. -/
def aliasTree : FileSystem where
  entries := [
    ([(Path.ofString "src").bytes], .dir),
    ([(Path.ofString "a.hpp").bytes, (Path.ofString "src").bytes],
      .file ⟨1, 0o644, "#include \"A\"\n".toUTF8⟩),
    ([(Path.ofString "b.hpp").bytes, (Path.ofString "src").bytes], .link (.ofString "a.hpp")),
    ([(Path.ofString "f.json").bytes],
      .file ⟨2, 0o644, "\x7b\"A\":\"B\",\"B\":\"A\"\x7d".toUTF8⟩)]
  cwd := []

/-- The table of `f.json`: `A` and `B` change places. -/
def swap : Moves :=
  ⟨[("A", .moved "B"), ("B", .moved "A")]⟩

/-- The project of this tree. -/
def aliasProject : Project :=
  ⟨.ofString "/", .ofString "/src"⟩

theorem ofPaths_aliasTree : ofPaths aliasTree (.ofString "/") none = .ok aliasProject :=
  rfl

theorem readMoves_aliasTree : aliasTree.readMoves (.ofString "/f.json") = .ok swap := by
  cbv

theorem sources_aliasTree :
    aliasProject.sources aliasTree = .ok [.ofString "src/a.hpp", .ofString "src/b.hpp"] := by
  cbv

/-- Where the file `src/a.hpp` is. -/
def sharedFile : Location :=
  [(Path.ofString "a.hpp").bytes, (Path.ofString "src").bytes]

/-- The run revises the file by its name and by the link. -/
theorem applyTable_aliasTree :
    aliasProject.applyTable (.ofString "/f.json") ⟨false, .none⟩ false (fun _ n => (.ok (), n + 1))
        aliasTree 0
      = ⟨.ok [⟨.ofString "src/a.hpp", "#include \"B\"\n",
            [⟨.ofString "src/a.hpp", "A", .replaced "B" .quoted, none⟩]⟩,
          ⟨.ofString "src/b.hpp", "#include \"A\"\n",
            [⟨.ofString "src/b.hpp", "B", .replaced "A" .quoted, none⟩]⟩],
        aliasTree.put sharedFile (.file ⟨4, 0o644, "#include \"A\"\n".toUTF8⟩), 2, ""⟩ := by
  rw [applyTable, readMoves_aliasTree]
  simp only [sources_aliasTree, reviseAll, reviseFile, Moves.revise_eq_reviseLines]
  rfl

/-- No link is lost in this run. -/
theorem not_losesLink_aliasTree :
    ¬aliasProject.LosesLink swap ⟨false, .none⟩ (fun _ n => (.ok (), n + 1))
      [.ofString "src/a.hpp", .ofString "src/b.hpp"] aliasTree 0 := by
  refine not_losesLink (isPlaced_of_ofPaths ofPaths_aliasTree _) fun source hs => ?_
  simp only [List.mem_cons, List.not_mem_nil, or_false] at hs
  rcases hs with rfl | rfl
  · exact ⟨_, rfl⟩
  · exact ⟨_, rfl⟩

/-- Two names, two revisions. -/
theorem applyTable_revises_each_name_aliasTree :
    let done := aliasProject.applyTable (.ofString "/f.json") ⟨false, .none⟩ false
      (fun _ n => (.ok (), n + 1)) aliasTree 0
    ofPaths aliasTree (.ofString "/") none = .ok aliasProject ∧
      (∃ revisions, done.result = .ok revisions) ∧
      ∃ moves sources, aliasTree.readMoves (.ofString "/f.json") = .ok moves ∧
        aliasProject.sources aliasTree = .ok sources ∧
        aliasProject.visits aliasTree sharedFile sources = 2 ∧
        done.files.content? sharedFile
          = some (moves.revisedText^[2] "#include \"A\"\n").toUTF8 := by
  intro done
  -- The run ends, and what it ends with is known.
  have hdone : done.result = .ok _ := congrArg Finished.result applyTable_aliasTree
  obtain ⟨moves, sources, hmoves, hsources, hrun⟩ :=
    applyTable_revises_each_name ofPaths_aliasTree hdone
  cases readMoves_aliasTree.symm.trans hmoves
  cases sources_aliasTree.symm.trans hsources
  -- What is known of every file is read at the first name of the shared one.
  obtain ⟨l, text, hl, htext, -, hcontent, -⟩ :=
    hrun not_losesLink_aliasTree (.ofString "src/a.hpp") List.mem_cons_self
  have hplace : aliasTree.resolve (aliasProject.resolve (.ofString "src/a.hpp"))
      = .ok sharedFile := rfl
  cases hplace.symm.trans hl
  have hshared : aliasTree.content? sharedFile = some "#include \"A\"\n".toUTF8 := rfl
  rw [hshared, Option.some_inj] at htext
  rw [← String.toByteArray_inj.mp htext] at hcontent
  exact ⟨ofPaths_aliasTree, ⟨_, hdone⟩, _, _, readMoves_aliasTree, sources_aliasTree, rfl, hcontent⟩

/-- **A swap is undone by a second name.** The run succeeds and loses no link, both sources lead to the
file, it has an include of a path that the table moves, and still it is as it was. -/
theorem swap_undone :
    let sources : List Path := [.ofString "src/a.hpp", .ofString "src/b.hpp"]
    let done := aliasProject.applyTable (.ofString "/f.json") ⟨false, .none⟩ false
      (fun _ n => (.ok (), n + 1)) aliasTree 0
    ofPaths aliasTree (.ofString "/") none = .ok aliasProject ∧
      aliasTree.readMoves (.ofString "/f.json") = .ok swap ∧
      aliasProject.sources aliasTree = .ok sources ∧
      (∀ source ∈ sources,
        aliasTree.resolve (aliasProject.resolve source) = .ok sharedFile) ∧
      ¬aliasProject.LosesLink swap ⟨false, .none⟩ (fun _ n => (.ok (), n + 1)) sources aliasTree 0 ∧
      (∃ revisions, done.result = .ok revisions) ∧
      aliasTree.content? sharedFile = some "#include \"A\"\n".toUTF8 ∧
      swap.revisedText "#include \"A\"\n" = "#include \"B\"\n" ∧
      done.files.content? sharedFile = some "#include \"A\"\n".toUTF8 := by
  intro sources done
  have hdone : done = _ := applyTable_aliasTree
  refine ⟨ofPaths_aliasTree, readMoves_aliasTree, sources_aliasTree, ?_, not_losesLink_aliasTree,
    ⟨_, congrArg Finished.result hdone⟩, rfl, ?_, ?_⟩
  -- Both names lead to the same file.
  · intro source hs
    simp only [sources, List.mem_cons, List.not_mem_nil, or_false] at hs
    rcases hs with rfl | rfl
    · rfl
    · rfl
  -- Alone, the table would move the path; applied twice, it moves it back.
  · rw [Moves.revisedText, Moves.revise_eq_reviseLines]
    rfl
  · rw [hdone]
    rfl

end Project

end IncludeMoves
