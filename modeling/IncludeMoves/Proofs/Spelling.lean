import IncludeMoves.Proofs.CanonicalPath
import Mathlib.Data.List.Basic

/-!
# The spelling of canonical paths

The absolute path of a location is spelled in one way: each name behind a separator. So its components
are the names, the path of an entry is that of its directory with a name more, and what stands behind
the path of a directory can be cut off and put back.

* `Location.components_toPath`, `Location.eq_of_components_toRelative` — the components show the names;
* `Location.child_toPath` — a name more;
* `Location.relativeTo?_toPath`, `Location.join_toRelative` — cutting off and putting back.
-/

namespace IncludeMoves

/-! ### Parts and components -/

namespace Path

variable {p : Path}

theorem chunks_ne_nil (bs : List UInt8) : chunks bs ≠ [] := by
  cases bs with
  | nil => exact List.cons_ne_nil _ _
  | cons b bs =>
    rw [chunks]
    split
    · exact List.cons_ne_nil _ _
    · split <;> exact List.cons_ne_nil _ _

theorem chunks_append_separator (bs cs : List UInt8) :
    chunks (bs ++ separator :: cs) = chunks bs ++ chunks cs := by
  induction bs with
  | nil => rfl
  | cons b bs ih =>
    rw [List.cons_append, chunks, chunks, ih]
    split
    · rfl
    · -- The byte belongs to the first part, which is the same on both sides.
      cases hchunks : chunks bs with
      | nil => exact absurd hchunks (chunks_ne_nil bs)
      | cons c rest => rfl

theorem map_component_bodySpans (start : Nat) (ns : List Name) :
    (bodySpans start ns).map Span.component = ns.filterMap component? := by
  induction ns generalizing start with
  | nil => rfl
  | cons n ns ih =>
    rw [bodySpans, List.filterMap_cons]
    cases component? n with
    | none => exact ih _
    | some c => exact congrArg (c :: ·) (ih _)

theorem components_of_isAbsolute (hp : p.isAbsolute = true) :
    p.components = .root :: (chunks p.bytes).filterMap component? := by
  obtain ⟨_ | ⟨b, bs⟩⟩ := p
  · cases hp
  · have hb : b = separator := by simpa [isAbsolute] using hp
    simp [components, spans, chunks, hb, map_component_bodySpans, component?]

end Path

theorem Component.name_injective : Function.Injective Component.name :=
  fun _ _ h => Component.name.inj h

namespace Location

variable {l k : Location} {n : Name} {names rest : List Name}

/-- **Names that entries can have**, and that can be looked up: without a zero byte. For such names a
location, its path and the components of the path say the same. -/
def AreNames (names : List Name) : Prop :=
  ∀ n ∈ names, FileSystem.IsEntryName n ∧ 0 ∉ n

theorem AreNames.nil : AreNames [] :=
  fun _ hm => absurd hm List.not_mem_nil

theorem AreNames.cons (hn : FileSystem.IsEntryName n ∧ 0 ∉ n) (h : AreNames names) :
    AreNames (n :: names) := by
  intro m hm
  rcases List.mem_cons.mp hm with rfl | hm
  · exact hn
  · exact h m hm

theorem AreNames.append (h : AreNames names) (hrest : AreNames rest) : AreNames (names ++ rest) := by
  intro m hm
  exact (List.mem_append.mp hm).elim (h m) (hrest m)

theorem AreNames.reverse (h : AreNames names) : AreNames names.reverse :=
  fun m hm => h m (List.mem_reverse.mp hm)

theorem AreNames.isEntryName (h : AreNames names) (hn : n ∈ names) : FileSystem.IsEntryName n :=
  (h n hn).1

theorem AreNames.head (h : AreNames (n :: names)) : FileSystem.IsEntryName n :=
  h.isEntryName List.mem_cons_self

theorem AreNames.tail (h : AreNames (n :: names)) : AreNames names :=
  fun m hm => h m (List.mem_cons_of_mem _ hm)

/-- The path of a location can be asked for. -/
theorem AreNames.nul_not_mem_toPath (h : AreNames l) : l.toPath.bytes.contains 0 = false := by
  rw [Bool.eq_false_iff, ne_eq, List.contains_iff_mem]
  intro hmem
  cases l with
  | nil => exact absurd hmem (by decide)
  | cons n l =>
    -- A byte of the path is a separator or a byte of one of the names.
    obtain ⟨m, hm, hzero⟩ := List.mem_flatMap.mp hmem
    rcases List.mem_cons.mp hzero with hzero | hzero
    · exact absurd hzero (by decide)
    · exact (h.reverse m hm).2 hzero

theorem component?_of_isEntryName (hn : FileSystem.IsEntryName n) :
    Path.component? n = some (.name n) := by
  rw [Path.component?, if_neg hn.nonempty, if_neg hn.not_dot, if_neg hn.not_up]

theorem filterMap_component? (h : AreNames names) :
    names.filterMap Path.component? = names.map .name := by
  induction names with
  | nil => rfl
  | cons n names ih =>
    rw [List.filterMap_cons, component?_of_isEntryName h.head, List.map_cons]
    exact congrArg _ (ih h.tail)

/-- The components of the path of a location are the root and the names. -/
theorem components_toPath (h : AreNames l) :
    l.toPath.components = .root :: l.reverse.map .name := by
  cases l with
  | nil => rfl
  | cons n l =>
    rw [Path.components_of_isAbsolute (isAbsolute_toPath _),
      FileSystem.chunks_toPath fun m hm => h.isEntryName hm, List.filterMap_cons,
      filterMap_component? h.reverse]
    rfl

/-- The steps of the path of a location are the names. -/
theorem AreNames.steps_toPath (h : AreNames l) : l.toPath.steps = l.reverse :=
  FileSystem.steps_toPath fun _ hn => h.isEntryName hn

/-! ### Spelling -/

theorem bytes_toPath (hl : l ≠ []) :
    l.toPath.bytes = l.reverse.flatMap fun n => separator :: n := by
  cases l with
  | nil => exact absurd rfl hl
  | cons n l => rfl

/-- The path of a location below another one. -/
theorem bytes_toPath_append (hl : l ≠ []) (hk : k ≠ []) :
    (l ++ k).toPath.bytes = k.toPath.bytes ++ l.toPath.bytes := by
  have hne : l ++ k ≠ [] := List.append_ne_nil_of_left_ne_nil hl k
  rw [bytes_toPath hne, bytes_toPath hl, bytes_toPath hk, List.reverse_append, List.flatMap_append]

/-- The names of a location as a path that starts wherever one is. It is the absolute path without its
first byte. -/
def toRelative (l : Location) : Path :=
  ⟨l.toPath.bytes.tail⟩

theorem cons_toRelative (l : Location) : separator :: l.toRelative.bytes = l.toPath.bytes := by
  have habsolute := isAbsolute_toPath l
  rw [Path.isAbsolute] at habsolute
  rw [toRelative]
  cases hbytes : l.toPath.bytes with
  | nil => exact absurd hbytes l.bytes_toPath_ne_nil
  | cons b bs =>
    have hb : b = separator := by simpa [hbytes] using habsolute
    rw [hb, List.tail_cons]

theorem toRelative_singleton (n : Name) : toRelative [n] = ⟨n⟩ := by
  rw [toRelative, bytes_toPath (List.cons_ne_nil n [])]
  simp

theorem not_isAbsolute_toRelative (h : AreNames l) : l.toRelative.isAbsolute = false := by
  rcases List.eq_nil_or_concat l with rfl | ⟨l, n, rfl⟩
  · rfl
  · -- The first byte is that of the outermost name.
    have hn : FileSystem.IsEntryName n := h.isEntryName (by simp)
    obtain ⟨b, bs, rfl⟩ := List.exists_cons_of_ne_nil hn.nonempty
    have hb : b ≠ separator := fun hb => hn.separator_not_mem (hb ▸ List.mem_cons_self)
    rw [toRelative, bytes_toPath (by simp), List.concat_eq_append, List.reverse_append]
    simp [Path.isAbsolute, hb]

/-- The components of the names of a location. -/
theorem components_toRelative (h : AreNames l) : l.toRelative.components = l.reverse.map .name := by
  cases l with
  | nil => rfl
  | cons n l =>
    obtain ⟨m, names, hnames⟩ := List.exists_cons_of_ne_nil
      (List.reverse_ne_nil_iff.mpr (List.cons_ne_nil n l))
    have hm : FileSystem.IsEntryName m := (hnames ▸ h.reverse).head
    have hchunks := FileSystem.chunks_toPath fun m hm => h.isEntryName hm
    rw [← cons_toRelative, Path.chunks, if_pos rfl, List.cons_inj_right, hnames] at hchunks
    -- The spelling starts with a name, so neither with the root nor with a `.`.
    have hspans : (toRelative (n :: l)).spans = Path.bodySpans 0 (m :: names) := by
      have habsolute := not_isAbsolute_toRelative h
      rw [Path.isAbsolute] at habsolute
      rw [Path.spans]
      cases hbytes : (toRelative (n :: l)).bytes with
      | nil =>
        rw [hbytes, Path.chunks] at hchunks
        exact absurd (List.cons.inj hchunks).1.symm hm.nonempty
      | cons b bs =>
        have hb : b ≠ separator := by simpa [hbytes] using habsolute
        rw [hbytes] at hchunks
        simp only [if_neg hb, hchunks, if_neg hm.not_dot]
    rw [Path.components, hspans, Path.map_component_bodySpans, ← hnames,
      filterMap_component? h.reverse]

/-- The components show the names. -/
theorem eq_of_components_toRelative (h : AreNames l) (hk : AreNames k)
    (heq : l.toRelative.components = k.toRelative.components) : l = k := by
  rw [components_toRelative h, components_toRelative hk] at heq
  exact List.reverse_injective (List.map_injective_iff.mpr Component.name_injective heq)

/-- **Putting back**: the names of a location behind the path of a directory. -/
theorem join_toRelative (hl : l ≠ []) (h : AreNames l) (hk : AreNames k) :
    k.toPath.join l.toRelative = (l ++ k).toPath := by
  rw [Path.join, if_neg (by simp [not_isAbsolute_toRelative h]), if_neg k.bytes_toPath_ne_nil]
  cases k with
  | nil =>
    have hlast : (toPath []).bytes.getLast? = some separator := rfl
    rw [if_pos hlast, List.append_nil]
    exact congrArg Path.mk (cons_toRelative l)
  | cons n k =>
    rw [if_neg (FileSystem.getLast?_toPath_ne hk.head), cons_toRelative,
      ← bytes_toPath_append hl (List.cons_ne_nil n k)]

/-- **A name more** is the path of the entry. -/
theorem child_toPath (hn : FileSystem.IsEntryName n ∧ 0 ∉ n) (hl : AreNames l) :
    l.toPath.child n = toPath (n :: l) := by
  rw [Path.child, ← toRelative_singleton, join_toRelative (List.cons_ne_nil n []) (.cons hn .nil) hl]
  rfl

/-! ### Below a directory -/

theorem bodySpans_cons (hn : FileSystem.IsEntryName n) (start : Nat) (names : List Name) :
    Path.bodySpans start (n :: names)
      = ⟨.name n, start, start + n.length⟩ :: Path.bodySpans (start + n.length + 1) names := by
  rw [Path.bodySpans, component?_of_isEntryName hn]

/-- The spans behind the first names. -/
theorem drop_bodySpans (h : AreNames names) (start : Nat) (rest : List Name) :
    (Path.bodySpans start (names ++ rest)).drop names.length
      = Path.bodySpans (start + (names.flatMap fun n => separator :: n).length) rest := by
  induction names generalizing start with
  | nil => rfl
  | cons n names ih =>
    rw [List.cons_append, bodySpans_cons h.head, List.length_cons, List.drop_succ_cons, ih h.tail,
      List.flatMap_cons, List.cons_append, List.length_cons, List.length_append]
    congr 1
    omega

/-- The spans of names go from the start to the end of their spelling. So cutting them out of the path
leaves out nothing. -/
theorem exists_spans (h : AreNames names) (hne : names ≠ []) (start : Nat) :
    ∃ s ss, Path.bodySpans start names = s :: ss ∧ s.start = start ∧
      ((s :: ss).getLast (List.cons_ne_nil s ss)).stop + 1
        = start + (names.flatMap fun n => separator :: n).length := by
  induction names generalizing start with
  | nil => exact absurd rfl hne
  | cons n names ih =>
    refine ⟨_, _, bodySpans_cons h.head start names, rfl, ?_⟩
    rw [List.flatMap_cons, List.length_append, List.length_cons]
    cases names with
    -- The only name ends the spelling.
    | nil =>
      simp only [Path.bodySpans, List.getLast_singleton, List.flatMap_nil, List.length_nil]
      omega
    | cons m names =>
      -- The last span is that of the later names.
      obtain ⟨s, ss, hspans, -, hstop⟩ := ih h.tail (List.cons_ne_nil m names) (start + n.length + 1)
      simp only [hspans, List.getLast_cons (List.cons_ne_nil s ss), hstop]
      omega

/-- What is cut off up to a span, if the spans go to the end of the path. -/
theorem dropComponents_of_drop_eq {p : Path} {first : Nat} {s : Path.Span} {ss : List Path.Span}
    (h : p.spans.drop first = s :: ss)
    (hstop : ((s :: ss).getLast (List.cons_ne_nil s ss)).stop = p.bytes.length) :
    p.dropComponents first = ⟨p.bytes.drop s.start⟩ := by
  simp only [Path.dropComponents, h, hstop, List.take_length]

/-- The spans of the path of a location: the root and, behind the first separator, the names. -/
theorem spans_toPath (h : AreNames l) :
    l.toPath.spans = ⟨.root, 0, 1⟩ :: Path.bodySpans 1 l.reverse := by
  cases l with
  | nil => rfl
  | cons n l =>
    have hchunks := FileSystem.chunks_toPath fun m hm => h.isEntryName hm
    rw [← cons_toRelative, Path.chunks, if_pos rfl, List.cons_inj_right] at hchunks
    rw [Path.spans, ← cons_toRelative]
    simp only [if_true, hchunks]

/-- **Cutting off** the path of a directory leaves the names behind it. Spelling and names match here,
since both paths are those of locations. -/
theorem relativeTo?_toPath (h : AreNames l) (hk : AreNames k) :
    (l ++ k).toPath.relativeTo? k.toPath = some l.toRelative := by
  have hall : AreNames (l ++ k) := h.append hk
  have hprefix : k.toPath.components.isPrefixOf (l ++ k).toPath.components = true := by
    rw [List.isPrefixOf_iff_prefix, components_toPath hk, components_toPath hall,
      List.reverse_append, List.map_append]
    exact List.prefix_append (Component.root :: k.reverse.map Component.name) _
  have hlength : k.toPath.components.length = k.reverse.length + 1 := by
    rw [components_toPath hk, List.length_cons, List.length_map]
  -- Behind the components of `k` come the spans of `l`.
  have hdrop : (l ++ k).toPath.spans.drop k.toPath.components.length
      = Path.bodySpans (1 + (k.reverse.flatMap fun n => separator :: n).length) l.reverse := by
    rw [hlength, spans_toPath hall, List.drop_succ_cons, List.reverse_append,
      drop_bodySpans hk.reverse]
  rw [Path.relativeTo?, if_pos hprefix]
  -- At the place itself nothing is left behind the components.
  by_cases hl : l = []
  · subst hl
    simp only [Path.dropComponents, hdrop]
    rfl
  have hbytes : (l ++ k).toPath.bytes
      = (k.reverse.flatMap fun n => separator :: n) ++ l.toPath.bytes := by
    rw [bytes_toPath (List.append_ne_nil_of_left_ne_nil hl k), bytes_toPath hl, List.reverse_append,
      List.flatMap_append]
  obtain ⟨s, ss, hspans, hstart, hstop⟩ := exists_spans h.reverse (List.reverse_ne_nil_iff.mpr hl)
    (1 + (k.reverse.flatMap fun n => separator :: n).length)
  have hend : ((s :: ss).getLast (List.cons_ne_nil s ss)).stop = (l ++ k).toPath.bytes.length := by
    rw [hbytes, List.length_append, bytes_toPath hl]
    omega
  rw [dropComponents_of_drop_eq (hdrop.trans hspans) hend, hstart, Nat.add_comm, ← List.drop_drop,
    hbytes, List.drop_left, List.drop_one, toRelative]

end Location

end IncludeMoves
