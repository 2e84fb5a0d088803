import IncludeMoves.Proofs.FoundDirectives
import IncludeMoves.Proofs.SecondRun
import Mathlib

/-!
# Revisions that are repeated

A table may move on what it has moved, so that a second revision has something to do. Each directive that
a further revision still finds a move for has come all the way along a chain of keys, one key for each
revision so far. If no such chain comes back to a key, all keys of a chain are different; then there is a
longest chain, and no more revisions than it has keys are needed until the text stays as it is.

* `Moves.LeadsTo`, `Moves.IsAcyclic`, `Moves.IsChain` — the moves of a table as a graph of paths;
* `Moves.IsChain.length_le` — without a cycle, chains are no longer than the table;
* `Moves.exists_chain_of_found` — what a repeated revision has left to do lies at the end of a chain;
* `Moves.revisions_settle` — the number of revisions that is enough.
-/

namespace IncludeMoves

namespace Moves

variable {m : Moves} {text : String}

/-! ### Chains of keys -/

/-- The table moves the first path to the second one. -/
def LeadsTo (m : Moves) (path new : String) : Prop :=
  m.get? path = some (.moved new)

/-- **No path comes back**, however often it is moved on. A path that is moved to itself comes back at
once. -/
def IsAcyclic (m : Moves) : Prop :=
  ∀ path, ¬Relation.TransGen m.LeadsTo path path

/-- **A chain of keys**: each is in the table, and each but the last is moved to the next one. The last
one may be moved to a path that the table does not know, or be gone. -/
structure IsChain (m : Moves) (keys : List String) : Prop where
  known : ∀ key ∈ keys, m.get? key ≠ none
  linked : keys.IsChain m.LeadsTo

theorem isChain_nil (m : Moves) : m.IsChain [] :=
  ⟨fun _ h => absurd h List.not_mem_nil, .nil⟩

theorem isChain_singleton {key : String} (h : m.get? key ≠ none) : m.IsChain [key] :=
  ⟨fun k hk => by rwa [List.mem_singleton.mp hk], .singleton key⟩

/-- A chain goes on where its last key is moved to one more. -/
theorem IsChain.concat {keys : List String} {last new : String} (h : m.IsChain (keys ++ [last]))
    (hlead : m.LeadsTo last new) (hnew : m.get? new ≠ none) : m.IsChain ((keys ++ [last]) ++ [new]) where
  known key hkey := by
    rcases List.mem_append.mp hkey with hkey | hkey
    · exact h.known key hkey
    · rwa [List.mem_singleton.mp hkey]
  linked := by
    refine h.linked.append (.singleton new) fun x hx y hy => ?_
    simp only [List.getLast?_concat, Option.mem_some_iff, List.head?_cons] at hx hy
    rwa [← hx, ← hy]

theorem mem_keys_of_get?_ne_none {key : String} (h : m.get? key ≠ none) :
    key ∈ m.entries.map Prod.fst := by
  obtain ⟨move, hmove⟩ := Option.ne_none_iff_exists'.mp h
  exact List.mem_map_of_mem (f := Prod.fst) (FileSystem.mem_of_lookup_eq_some hmove)

/-- Where no path comes back, no key is twice in a chain. -/
theorem IsChain.nodup {keys : List String} (h : m.IsChain keys) (hacyclic : m.IsAcyclic) :
    keys.Nodup := by
  have hpairwise : keys.Pairwise (Relation.TransGen m.LeadsTo) :=
    List.isChain_iff_pairwise.mp (h.linked.imp fun _ _ => .single)
  refine hpairwise.imp fun {a b} hab heq => ?_
  subst heq
  exact hacyclic a hab

/-- **Without a cycle, chains are no longer than the table.** -/
theorem IsChain.length_le {keys : List String} (h : m.IsChain keys) (hacyclic : m.IsAcyclic) :
    keys.length ≤ m.size := by
  have hkeys : keys ⊆ m.entries.map Prod.fst :=
    fun key hkey => mem_keys_of_get?_ne_none (h.known key hkey)
  have hlength := (List.subperm_of_subset (h.nodup hacyclic) hkeys).length_le
  rwa [List.length_map] at hlength

/-- Without a cycle, there is a longest chain. -/
theorem exists_longest_chain (hacyclic : m.IsAcyclic) :
    ∃ longest, m.IsChain longest ∧ ∀ keys, m.IsChain keys → keys.length ≤ longest.length := by
  let lengths : Set Nat := {n | ∃ keys, m.IsChain keys ∧ keys.length = n}
  have hbounded : BddAbove lengths := by
    refine ⟨m.size, ?_⟩
    rintro n ⟨keys, hkeys, rfl⟩
    exact hkeys.length_le hacyclic
  obtain ⟨longest, hlongest, hlength⟩ := Nat.sSup_mem (s := lengths) ⟨0, [], m.isChain_nil, rfl⟩ hbounded
  exact ⟨longest, hlongest, fun keys hkeys => hlength ▸ le_csSup hbounded ⟨keys, hkeys, rfl⟩⟩

/-! ### What a revision leaves to do -/

/-- A directive for which the table has a move, and which a revision has left, was moved by it. For a
directive that is kept has a path without a move. -/
theorem exists_leadsTo_of_found (hm : m.KeepsLines) {d : Style × String}
    (h : d ∈ Directive.found (m.revisedText text)) (hkey : m.get? d.2 ≠ none) :
    ∃ old, (d.1, old) ∈ Directive.found text ∧ m.LeadsTo old d.2 := by
  rw [found_revisedText hm] at h
  obtain ⟨e, he, hd⟩ := List.mem_filterMap.mp h
  rw [redirect?] at hd
  cases hmove : m.get? e.2 with
  | none =>
    -- What was kept has no move.
    simp only [hmove, Option.some.injEq] at hd
    rw [hd] at hmove
    exact absurd hmove hkey
  | some move =>
    cases move with
    | gone => simp [hmove] at hd
    | moved new =>
      simp only [hmove] at hd
      split at hd
      · cases hd
      · cases hd
        exact ⟨e.2, he, hmove⟩

/-- **What a number of revisions has left to do** lies at the end of a chain with one more key. The
induction is on the number: each revision adds the key from which the directive has come. -/
theorem exists_chain_of_found (hm : m.KeepsLines) {count : Nat} {d : Style × String}
    (h : d ∈ Directive.found (m.revisedText^[count] text)) (hkey : m.get? d.2 ≠ none) :
    ∃ keys, m.IsChain (keys ++ [d.2]) ∧ keys.length = count := by
  induction count generalizing d with
  | zero => exact ⟨[], isChain_singleton hkey, rfl⟩
  | succ count ih =>
    rw [Function.iterate_succ_apply'] at h
    -- The directive was made by the pass before, from one whose path was known as well.
    obtain ⟨old, hold, hlead⟩ := exists_leadsTo_of_found hm h hkey
    have hknown : m.get? old ≠ none := by
      rw [LeadsTo] at hlead
      rw [hlead]
      exact Option.some_ne_none _
    obtain ⟨keys, hkeys, hlength⟩ := ih hold hknown
    exact ⟨keys ++ [old], hkeys.concat hlead hkey, by rw [List.length_append, hlength]; rfl⟩

theorem spares_of_found (h : ∀ d ∈ Directive.found text, m.get? d.2 = none) : m.Spares text := by
  intro line hline s path hread
  refine h (s, String.ofList path) ?_
  rw [Directive.found_eq]
  exact List.mem_filterMap.mpr ⟨line, hline, by rw [Directive.ofLine?, hread, Option.map_some]⟩

/-- As many revisions as the chains have keys leave nothing to do. -/
theorem spares_iterate (hm : m.KeepsLines) {bound count : Nat}
    (hbound : ∀ keys, m.IsChain keys → keys.length ≤ bound) (hcount : bound ≤ count) (text : String) :
    m.Spares (m.revisedText^[count] text) := by
  refine spares_of_found fun d hd => ?_
  by_contra hkey
  -- There would be a chain that is too long.
  obtain ⟨keys, hkeys, hlength⟩ := exists_chain_of_found hm hd hkey
  have hle := hbound _ hkeys
  rw [List.length_append, hlength, List.length_singleton] at hle
  omega

/-- **Revisions that are repeated come to an end.** If the table writes no newline and no path comes back,
there is a longest chain of keys; it is no longer than the table, and after as many revisions as it has
keys, each of the text that the one before has left, the text stays as it is: every further revision
keeps every directive. -/
theorem revisions_settle (hm : m.KeepsLines) (hacyclic : m.IsAcyclic) :
    ∃ longest, m.IsChain longest ∧ (∀ keys, m.IsChain keys → keys.length ≤ longest.length) ∧
      longest.length ≤ m.size ∧
      ∀ (text : String) (count : Nat), longest.length ≤ count →
        m.revisedText^[count] text = m.revisedText^[longest.length] text ∧
        ∀ file : Path,
          let r := m.revise file (m.revisedText^[count] text)
          r.text = m.revisedText^[count] text ∧
            ∀ record ∈ r.records, record.outcome = .kept ∧ record.malformed = none := by
  obtain ⟨longest, hlongest, hbound⟩ := exists_longest_chain hacyclic
  refine ⟨longest, hlongest, hbound, hlongest.length_le hacyclic, fun text count hcount => ⟨?_, ?_⟩⟩
  -- Behind the longest chain the text is spared, so that more passes leave it alone.
  · obtain ⟨more, rfl⟩ := Nat.exists_eq_add_of_le hcount
    have hsettled := (spares_iterate hm hbound le_rfl text).revisedText
    rw [Nat.add_comm, Function.iterate_add_apply]
    exact Function.iterate_fixed hsettled more
  · intro file
    have hspares := spares_iterate hm hbound hcount text
    exact ⟨hspares.revisedText, hspares.kept file⟩

/-- A table that moves on what it has moved, once. -/
def twoSteps : Moves :=
  ⟨[("a", .moved "b"), ("b", .moved "c")]⟩

theorem leadsTo_twoSteps {path new : String} (h : twoSteps.LeadsTo path new) :
    path = "a" ∧ new = "b" ∨ path = "b" ∧ new = "c" := by
  have hmem := FileSystem.mem_of_lookup_eq_some h
  simpa [twoSteps] using hmem

/-- Its longest chain has two keys, and two revisions are as good as seven. -/
theorem revisions_settle_twoSteps :
    twoSteps.KeepsLines ∧ twoSteps.IsAcyclic ∧ twoSteps.IsChain ["a", "b"] ∧
      twoSteps.revisedText^[7] "# include <a>\n" = "#include <c>\n" ∧
      ∀ record ∈ (twoSteps.revise ⟨[]⟩ (twoSteps.revisedText^[7] "# include <a>\n")).records,
        record.outcome = .kept := by
  have hm : twoSteps.KeepsLines := forall_moved (by decide)
  have hacyclic : twoSteps.IsAcyclic := by
    intro path hback
    -- Each step goes up in the order of the paths.
    have hstep : ∀ a b, twoSteps.LeadsTo a b → a < b := by
      intro a b h
      rcases leadsTo_twoSteps h with ⟨rfl, rfl⟩ | ⟨rfl, rfl⟩
      · decide
      · decide
    have hlt : ∀ {a b : String}, Relation.TransGen twoSteps.LeadsTo a b → a < b := by
      intro a b hab
      induction hab with
      | single h => exact hstep _ _ h
      | tail _ h ih => exact ih.trans (hstep _ _ h)
    exact lt_irrefl path (hlt hback)
  have hchain : twoSteps.IsChain ["a", "b"] := ⟨by decide, .cons_cons rfl (.singleton "b")⟩
  -- The longest chain has the two paths, so seven passes are more than enough.
  obtain ⟨longest, -, hbound, hsize, hsettled⟩ := revisions_settle hm hacyclic
  have hlength : longest.length = 2 := le_antisymm hsize (hbound _ hchain)
  obtain ⟨htext, hkept⟩ := hsettled "# include <a>\n" 7 (by omega)
  refine ⟨hm, hacyclic, hchain, ?_, fun record hrecord => ((hkept ⟨[]⟩).2 record hrecord).1⟩
  rw [htext, hlength]
  simp only [Function.iterate_succ_apply, Function.iterate_zero_apply, revisedText,
    revise_eq_reviseLines]
  decide

end Moves

end IncludeMoves
