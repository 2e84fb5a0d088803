import IncludeMoves.Proofs.ListingOrder

/-!
# Sets of paths in their order

Paths that are put into a set one by one come out in one order, whatever the order in which they went in
and however they are spelled: by their components, and each place once, in the spelling that came first.
The order is said here without a comparison (`Component.Precedes`, `Path.Precedes`).

* `Component.compare_eq_lt`, `Path.compare_eq_lt` — what the comparison decides;
* `Path.mem_insert_iff` — one path put into a set that is in order;
* `Path.mem_sorted_iff` — what is in a set: the first spelling of each path;
* `FileSystem.sources_eq_sorted` — the sources that a search finds are such a set;
* `Path.sorted_fixes_order` — the order in which a set is visited.
-/

namespace IncludeMoves

open Std (OrientedCmp TransCmp)

/-! ### The order -/

/-- One list comes before another in this order if and only if it does so lexicographically, by whatever
its elements are compared. -/
theorem compareLists_eq_lt {α : Type} {cmp : α → α → Ordering} {R : α → α → Prop}
    (hlt : ∀ a b, cmp a b = .lt ↔ R a b) (heq : ∀ a b, cmp a b = .eq ↔ a = b) {as bs : List α} :
    compareLists cmp as bs = .lt ↔ List.Lex R as bs := by
  induction as generalizing bs with
  | nil =>
    cases bs with
    | nil => exact ⟨nofun, nofun⟩
    | cons b bs => exact ⟨fun _ => .nil, fun _ => rfl⟩
  | cons a as ih =>
    cases bs with
    | nil => exact ⟨nofun, nofun⟩
    | cons b bs =>
      -- The first elements decide, or they are equal and the rest does.
      rw [compareLists]
      constructor
      · intro h
        split at h
        · next hab =>
          obtain rfl := (heq a b).mp hab
          exact .cons (ih.mp h)
        · exact .rel ((hlt a b).mp h)
      · intro h
        cases h with
        | rel hab => rw [(hlt a b).mpr hab]
        | cons hrest =>
          rw [(heq a a).mpr rfl]
          exact ih.mpr hrest

namespace Component

/-- **The order of components**: the root directory, a leading `.`, the steps up, and then the names,
which go by their bytes. -/
inductive Precedes : Component → Component → Prop
  | root_here : Precedes root here
  | root_up : Precedes root up
  | root_name {n : Name} : Precedes root (name n)
  | here_up : Precedes here up
  | here_name {n : Name} : Precedes here (name n)
  | up_name {n : Name} : Precedes up (name n)
  | names {n m : Name} : n < m → Precedes (name n) (name m)

/-- Components are in the order of their kinds, and names in that of their bytes. -/
theorem compare_eq_lt {a b : Component} : a.compare b = .lt ↔ a.Precedes b := by
  have hnames : ∀ n m : Name, compareLists Ord.compare n m = .lt ↔ n < m := fun n m =>
    compareLists_eq_lt (fun _ _ => Std.compare_eq_lt) fun _ _ => Std.compare_eq_iff_eq
  constructor
  · intro h
    -- Components of two kinds are ordered by their kinds, whatever the names.
    cases a <;> cases b
    case root.here => exact .root_here
    case root.up => exact .root_up
    case root.name => exact .root_name
    case here.up => exact .here_up
    case here.name => exact .here_name
    case up.name => exact .up_name
    case name.name n m => exact .names ((hnames n m).mp h)
    all_goals cases h
  · intro h
    cases h with
    | names hlt => exact (hnames _ _).mpr hlt
    | _ => rfl

end Component

namespace Path

variable {s p q : Path} {set ps qs : List Path}

/-- **The order of paths**: the first component that differs decides, and a path comes before every longer
one that it begins. -/
def Precedes (p q : Path) : Prop :=
  List.Lex Component.Precedes p.components q.components

theorem compare_eq_lt : p.compare q = .lt ↔ p.Precedes q :=
  compareLists_eq_lt (fun _ _ => Component.compare_eq_lt) fun a b =>
    (Std.compare_eq_iff_eq : Ord.compare a b = .eq ↔ a = b)

/-! ### Sets -/

/-- **One path more in a set**: all that was there, and the path if its place was free. The set is in
order, so a path that is met first as larger leaves no equal one behind it. -/
theorem mem_insert_iff (h : set.Pairwise fun s t => s.compare t = .lt) :
    q ∈ s.insert set ↔ q ∈ set ∨ (q = s ∧ ∀ t ∈ set, t.components ≠ s.components) := by
  -- On the set. As it is sorted, the first comparison that is not greater decides.
  induction set with
  | nil => simp [insert]
  | cons t set ih =>
    obtain ⟨ht, hset⟩ := List.pairwise_cons.mp h
    cases hst : s.compare t with
    | lt =>
      -- The path belongs in front of all others, so none of them is at its place.
      have hfree : ∀ u ∈ t :: set, u.components ≠ s.components := by
        intro u hu hsame
        have hsu : s.compare u = .lt := by
          rcases List.mem_cons.mp hu with rfl | hu
          · exact hst
          · exact TransCmp.lt_trans hst (ht u hu)
        rw [compare_eq_eq.mpr hsame.symm] at hsu
        cases hsu
      rw [insert_cons_of_lt hst, List.mem_cons, or_comm, and_iff_left hfree]
    -- The place of the path is taken by `t`.
    | eq =>
      have htaken : ¬∀ u ∈ t :: set, u.components ≠ s.components :=
        fun hfree => hfree t List.mem_cons_self (compare_eq_eq.mp hst).symm
      rw [insert_cons_of_eq hst, or_iff_left (mt And.right htaken)]
    | gt =>
      have hne : t.components ≠ s.components := by
        intro hsame
        rw [compare_eq_eq.mpr hsame.symm] at hst
        cases hst
      rw [insert_cons_of_gt hst, List.mem_cons, ih hset, List.mem_cons, List.forall_mem_cons,
        and_iff_right hne, or_assoc]

/-- One path more to be put into a set. -/
theorem sorted_concat (ps : List Path) (p : Path) : sorted (ps ++ [p]) = p.insert (sorted ps) := by
  rw [sorted, List.foldl_append]
  rfl

/-- **A set is in order.** -/
theorem pairwise_sorted (ps : List Path) :
    (sorted ps).Pairwise fun p q => p.compare q = .lt := by
  induction ps using List.reverseRecOn with
  | nil => exact .nil
  | append_singleton ps p ih =>
    rw [sorted_concat]
    exact pairwise_insert ih p

/-- **What is in a set**: of the paths with the same components, the one that was put in first. The
induction is on the list from its end, where the last path is the one put in last. -/
theorem mem_sorted_iff :
    q ∈ sorted ps ↔ ps.find? (fun p => p.components = q.components) = some q := by
  induction ps using List.reverseRecOn generalizing q with
  | nil => simp [sorted]
  | append_singleton ps p ih =>
    -- The place of the last path is free exactly if no path before it has its components.
    have hfree : (∀ t ∈ sorted ps, t.components ≠ p.components) ↔
        ps.find? (fun t => t.components = p.components) = none := by
      constructor
      · intro h
        refine Option.eq_none_iff_forall_ne_some.mpr fun t ht => ?_
        have hsame : t.components = p.components := by simpa using List.find?_some ht
        exact h t (ih.mpr (hsame ▸ ht)) hsame
      · intro h t ht hsame
        rw [ih, hsame, h] at ht
        cases ht
    -- So the last path is found by its components, or an earlier one is.
    rw [sorted_concat, mem_insert_iff (pairwise_sorted ps), ih, hfree, List.find?_append,
      Option.or_eq_some_iff]
    refine or_congr_right ⟨?_, ?_⟩
    · rintro ⟨rfl, hnone⟩
      exact ⟨hnone, by simp⟩
    · rintro ⟨hnone, hp⟩
      obtain rfl : q = p := by simpa using List.mem_of_find?_eq_some hp
      exact ⟨rfl, hnone⟩

/-- A set has the places of the paths that were put in. -/
theorem mem_map_components_sorted {c : List Component} :
    c ∈ (sorted ps).map components ↔ c ∈ ps.map components := by
  constructor
  · intro h
    obtain ⟨q, hq, rfl⟩ := List.mem_map.mp h
    exact List.mem_map_of_mem (List.mem_of_find?_eq_some (mem_sorted_iff.mp hq))
  · intro h
    obtain ⟨p, hp, rfl⟩ := List.mem_map.mp h
    have hfound : (ps.find? fun t => t.components = p.components).isSome := by
      simpa using ⟨p, hp, rfl⟩
    obtain ⟨q, hq⟩ := Option.isSome_iff_exists.mp hfound
    -- The first path with these components stands for all of them.
    have hsame : q.components = p.components := by simpa using List.find?_some hq
    exact List.mem_map.mpr ⟨q, mem_sorted_iff.mpr (hsame ▸ hq), hsame⟩

/-- **No place is in a set twice.** -/
theorem nodup_map_components_sorted (ps : List Path) : ((sorted ps).map components).Nodup := by
  refine List.pairwise_map.mpr ((pairwise_sorted ps).imp fun {p q} hlt hsame => ?_)
  rw [compare_eq_eq.mpr hsame] at hlt
  cases hlt

/-- **Sets of the same paths** have the same places in the same order. Both are in strictly ascending
order with the same elements, and there is only one such list. -/
theorem map_components_sorted_of_perm (h : ps.Perm qs) :
    (sorted ps).map components = (sorted qs).map components := by
  have hperm : ((sorted ps).map components).Perm ((sorted qs).map components) := by
    rw [List.perm_ext_iff_of_nodup (nodup_map_components_sorted ps) (nodup_map_components_sorted qs)]
    intro c
    rw [mem_map_components_sorted, mem_map_components_sorted, (h.map components).mem_iff]
  -- Two lists in strict order that have the same members are the same.
  have hps : ((sorted ps).map components).Pairwise
      fun c d => compareLists Component.compare c d = .lt :=
    List.pairwise_map.mpr (pairwise_sorted ps)
  have hqs : ((sorted qs).map components).Pairwise
      fun c d => compareLists Component.compare c d = .lt :=
    List.pairwise_map.mpr (pairwise_sorted qs)
  refine hperm.eq_of_pairwise (fun c d hc hd hlt hgt => ?_) hps hqs
  obtain ⟨p, -, rfl⟩ := List.mem_map.mp hc
  obtain ⟨q, -, rfl⟩ := List.mem_map.mp hd
  have hlt : p.compare q = .lt := hlt
  have hgt : q.compare p = .lt := hgt
  exact absurd hgt (OrientedCmp.not_lt_of_lt hlt)

end Path

/-! ### The sources of a search -/

/-- The sources of a search are put into the set in the order in which the walk reports them. So of two
spellings of one source the set would have the one that was met first. -/
theorem eq_foldl_of_collectSources {root : Path} {found sources : List Path}
    {walked : List (Except WalkError Path)} (h : collectSources root found walked = .ok sources) :
    sources = (walked.filterMap (Project.sourceOf? root)).foldl (fun set s => s.insert set) found := by
  induction walked generalizing found with
  | nil => exact (Except.ok.inj h).symm
  | cons entry walked ih =>
    cases entry with
    | error e => cases h
    | ok path =>
      -- The name decides whether the path is a source, the root how it is spelled.
      rw [collectSources] at h
      split at h
      · next hname =>
        split at h
        · next source hsource =>
          have hfound : Project.sourceOf? root (.ok path) = some source := by
            rw [Project.sourceOf?, if_pos hname, hsource]
          rw [List.filterMap_cons_some hfound]
          exact ih h
        · cases h
      -- A path that has not the name of a source is passed over.
      · next hname =>
        have hnone : Project.sourceOf? root (.ok path) = none := by
          rw [Project.sourceOf?, if_neg hname]
        rw [List.filterMap_cons_none hnone]
        exact ih h

/-- **The sources that a search finds** are the set of the sources that its walk reports. -/
theorem FileSystem.sources_eq_sorted {fs : FileSystem} {root dir : Path} {sources : List Path}
    (h : fs.sources root dir = .ok sources) :
    sources = Path.sorted ((fs.walk dir).filterMap (Project.sourceOf? root)) :=
  eq_foldl_of_collectSources h

/-! ### The order of visits -/

namespace Path

/-- **A set of paths fixes one order.** Put into a set one by one, paths are visited in strictly ascending
order by their components. Each has one element of the set at its place, and an element is the path that
was the first one put in at its place. Put in in any other order, they are visited at the same places in
the same order. The comparison puts paths into a total order in which paths with the same components are
at the same place, and which is not that of the bytes. The sources that a search finds are such a set. -/
theorem sorted_fixes_order (ps : List Path) :
    (sorted ps).Pairwise Precedes ∧
    (∀ p ∈ ps, ∃! q, q ∈ sorted ps ∧ q.components = p.components) ∧
    (∀ q ∈ sorted ps, ∃ before after, ps = before ++ q :: after ∧
      ∀ p ∈ before, p.components ≠ q.components) ∧
    (∀ qs, qs.Perm ps → (sorted qs).map components = (sorted ps).map components) ∧
    ((∀ p q : Path, p.compare q ≠ .gt ∨ q.compare p ≠ .gt) ∧
      (∀ p q s : Path, p.compare q ≠ .gt → q.compare s ≠ .gt → p.compare s ≠ .gt) ∧
      (∀ p q : Path, p.compare q ≠ .gt ∧ q.compare p ≠ .gt ↔ p.components = q.components) ∧
      (∀ p q : Path, p.compare q = .lt ↔ p.Precedes q) ∧
      ∃ p q : Path, p.Precedes q ∧ q.bytes < p.bytes) ∧
    ∀ (fs : FileSystem) (root dir : Path) (sources : List Path),
      fs.sources root dir = .ok sources →
        sources = sorted ((fs.walk dir).filterMap (Project.sourceOf? root)) := by
  refine ⟨(pairwise_sorted ps).imp compare_eq_lt.mp, fun p hp => ?_, fun q hq => ?_,
    fun qs h => map_components_sorted_of_perm h, ⟨fun p q => ?_, fun p q s hpq hqs => ?_,
      fun p q => ?_, fun p q => compare_eq_lt, ?_⟩, fun fs root dir sources => fs.sources_eq_sorted⟩
  -- One spelling of each path is in the set, and no two spellings of one path are.
  · obtain ⟨q, hq, hsame⟩ := List.mem_map.mp (mem_map_components_sorted.mpr (List.mem_map_of_mem hp))
    refine ⟨q, ⟨hq, hsame⟩, fun t ht => ?_⟩
    exact List.inj_on_of_nodup_map (nodup_map_components_sorted ps) ht.1 hq (ht.2.trans hsame.symm)
  -- It is the first one.
  · obtain ⟨-, before, after, rfl, hbefore⟩ := List.find?_eq_some_iff_append.mp (mem_sorted_iff.mp hq)
    exact ⟨before, after, rfl, fun p hp => by simpa using hbefore p hp⟩
  -- Any two paths can be compared, one way or the other.
  · rcases Decidable.em (p.compare q = .gt) with h | h
    · exact .inr (by simp [OrientedCmp.lt_of_gt h])
    · exact .inl h
  · rw [ne_eq, Ordering.ne_gt_iff_isLE] at hpq hqs ⊢
    exact TransCmp.isLE_trans hpq hqs
  -- Both ways together say that neither path is before the other.
  · rw [← compare_eq_eq]
    constructor
    · rintro ⟨hpq, hqp⟩
      cases h : p.compare q with
      | lt => exact absurd (OrientedCmp.gt_of_lt h) hqp
      | eq => rfl
      | gt => exact absurd h hpq
    · intro h
      simp [h, OrientedCmp.eq_symm h]
  -- Bytes are ordered otherwise: a separator ends a name, whatever comes behind it.
  · exact ⟨.ofString "a/x", .ofString "a-x", compare_eq_lt.mp (by decide), by decide⟩

/-- Paths of all kinds, two of them at one place. In their order the root comes first, then a leading
`.`, then `..`, and then the names. -/
def oddSpellings : List Path :=
  ["b", "a//b", "a/./b", "..", "/x", "./a", "a-b", "a"].map ofString

/-- Of the two spellings the first one stays, whichever that is. -/
theorem sorted_fixes_order_oddSpellings :
    sorted oddSpellings = ["/x", "./a", "..", "a", "a//b", "a-b", "b"].map ofString ∧
      sorted oddSpellings.reverse = ["/x", "./a", "..", "a", "a/./b", "a-b", "b"].map ofString ∧
      (sorted oddSpellings.reverse).map components = (sorted oddSpellings).map components ∧
      ∃! q, q ∈ sorted oddSpellings ∧ q.components = (ofString "a/./b").components := by
  obtain ⟨-, hplace, -, hreorder, -⟩ := sorted_fixes_order oddSpellings
  exact ⟨by decide, by decide, hreorder _ (List.reverse_perm _), hplace _ (by decide)⟩

end Path

end IncludeMoves
