import IncludeMoves.Proofs.Spelling

/-!
# Paths below a root, and back

What stands behind the components of a root can be cut off a path and be put back, for paths of any
spelling: with separators that are repeated or at the end, with `.` and `..`, with the root directory, and
for the empty path. What is cut off is a piece of the spelling, but what is compared are components; so the
spelling is taken apart into its parts between separators (`Path.spell_chunks`), and a path has the
components of its parts, and in front of them those that only its beginning can have (`Path.anchor`).

* `Path.components_eq` — the components of a path, from its parts;
* `Path.exists_parts` — the parts to which the later components of a path belong;
* `Path.components_dropComponents` — what is left of the spelling has the later components;
* `Path.components_join` — the components of a path behind another one;
* `Path.relativeTo_join_inverse` — cutting off and putting back.
-/

namespace IncludeMoves

namespace Path

variable {p q r : Path} {n : Name} {ns ms : List Name} {s : Span} {ss : List Span}

/-! ### Parts of a spelling -/

/-- Names, each behind a separator. A path is spelled like this if its first byte is one, and else like
this without the first byte. -/
def spell (ns : List Name) : List UInt8 :=
  ns.flatMap fun n => separator :: n

theorem spell_append : spell (ns ++ ms) = spell ns ++ spell ms :=
  List.flatMap_append

theorem length_spell_cons : (spell (n :: ns)).length = n.length + 1 + (spell ns).length := by
  rw [spell, List.flatMap_cons, List.length_append, List.length_cons]
  rfl

/-- The parts of a spelling are the spelling again. -/
theorem spell_chunks (bs : List UInt8) : spell (chunks bs) = separator :: bs := by
  induction bs with
  | nil => rfl
  | cons b bs ih =>
    rw [chunks]
    split
    · next hb => rw [spell, List.flatMap_cons, ← spell, ih, hb]; rfl
    · split
      · next h => exact absurd h (chunks_ne_nil bs)
      · next c cs h =>
        -- The byte comes in front of the first part.
        rw [h, spell, List.flatMap_cons, List.cons_append, List.cons_inj_right] at ih
        rw [spell, List.flatMap_cons, List.cons_append, List.cons_append, ih]

theorem chunks_tail_spell (h : ∀ m ∈ n :: ns, separator ∉ m) :
    chunks (spell (n :: ns)).tail = n :: ns := by
  have hchunks := chunks_flatMap h
  rw [List.flatMap_cons, List.cons_append, chunks, if_pos rfl, List.cons_inj_right] at hchunks
  exact hchunks

/-- **What only the beginning of a path can be**: the root directory, or a leading `.`. Behind it the
components are those of the parts, each for itself. -/
def anchor (p : Path) : List Component :=
  if p.isAbsolute then [.root] else if (chunks p.bytes).head? = some [dot] then [.here] else []

/-- The spans of a path are one for its beginning, if that is a special one, and those of its parts. -/
theorem spans_eq (p : Path) :
    p.spans = p.anchor.map (fun c => ⟨c, 0, 1⟩) ++ bodySpans 0 (chunks p.bytes) := by
  obtain ⟨_ | ⟨b, bs⟩⟩ := p
  · rfl
  · rw [spans, anchor, isAbsolute]
    -- A separator in front is the root. Else a `.` in front is a component, as nowhere behind it.
    by_cases hb : b = separator
    · subst hb
      rw [chunks, if_pos rfl]
      rfl
    · cases hchunks : chunks (b :: bs) with
      | nil => exact absurd hchunks (chunks_ne_nil _)
      | cons n ns =>
        by_cases hn : n = [dot]
        · subst hn
          simp [hb, hchunks, bodySpans, component?]
        · simp [hb, hn, hchunks]

/-- **The components of a path** are those of its parts, behind what only its beginning can be. -/
theorem components_eq (p : Path) :
    p.components = p.anchor ++ (chunks p.bytes).filterMap component? := by
  rw [components, spans_eq, List.map_append, map_component_bodySpans, List.map_map]
  exact congrArg (· ++ _) (List.map_id p.anchor)

theorem length_anchor_le (p : Path) : p.anchor.length ≤ 1 := by
  rw [anchor]
  split
  · exact Nat.le_refl 1
  · split
    · exact Nat.le_refl 1
    · exact Nat.zero_le 1

/-! ### What is left of a spelling -/

/-- **The parts to which the later components belong**: a stretch of parts that begins with the part of
the first of them, ends with the part of the last one, and has no component in it but these. -/
theorem exists_parts {k start : Nat} (h : (bodySpans start ns).drop k = s :: ss) :
    ∃ front mid back, ns = front ++ (mid ++ back) ∧
      front.filterMap component? = ((bodySpans start ns).take k).map Span.component ∧
      mid.filterMap component? = (s :: ss).map Span.component ∧
      (∃ n rest, mid = n :: rest ∧ component? n ≠ none) ∧
      s.start = start + (spell front).length ∧
      ((s :: ss).getLast (List.cons_ne_nil s ss)).stop + 1 = s.start + (spell mid).length := by
  -- On the parts; `start` is where the first of them begins.
  induction ns generalizing k start s ss with
  | nil => simp [bodySpans] at h
  | cons n ns ih =>
    cases hn : component? n with
    | none =>
      -- The part is only spelling, so it comes in front of all components.
      rw [bodySpans, hn] at h ⊢
      obtain ⟨front, mid, back, rfl, hfront, hmid, hhead, hstart, hstop⟩ := ih h
      refine ⟨n :: front, mid, back, rfl, ?_, hmid, hhead, ?_, hstop⟩
      · rw [List.filterMap_cons_none hn]
        exact hfront
      · rw [hstart, length_spell_cons]
        omega
    | some c =>
      rw [bodySpans, hn] at h ⊢
      cases k with
      | succ k =>
        -- The component is one of the `k` that are cut off.
        obtain ⟨front, mid, back, rfl, hfront, hmid, hhead, hstart, hstop⟩ := ih h
        refine ⟨n :: front, mid, back, rfl, ?_, hmid, hhead, ?_, hstop⟩
        · rw [List.filterMap_cons_some hn, hfront]
          rfl
        · rw [hstart, length_spell_cons]
          omega
      -- The component is the first one that is left.
      | zero =>
        obtain ⟨rfl, rfl⟩ := List.cons.inj h
        have hne : component? n ≠ none := by simp [hn]
        cases hlater : bodySpans (start + n.length + 1) ns with
        | nil =>
          refine ⟨[], [n], ns, rfl, rfl, ?_, ⟨n, [], rfl, hne⟩, rfl, ?_⟩
          · rw [List.filterMap_cons_some hn]
            rfl
          · rw [length_spell_cons]
            exact Nat.add_assoc start n.length 1
        | cons s ss =>
          -- The stretch goes on to the end of that of the later components.
          obtain ⟨front, mid, back, rfl, hfront, hmid, -, hstart, hstop⟩ := ih (k := 0) hlater
          refine ⟨[], n :: (front ++ mid), back, by simp, rfl, ?_, ⟨n, _, rfl, hne⟩, rfl, ?_⟩
          · rw [List.filterMap_cons_some hn, List.filterMap_append, hfront, hmid]
            rfl
          · change _ = start + _
            rw [List.getLast_cons (List.cons_ne_nil s ss), hstop, hstart, length_spell_cons,
              spell_append, List.length_append]
            omega

/-- A stretch of the parts of a text, cut out of it. -/
theorem drop_take_spell {bs : List UInt8} {front mid back : List Name}
    (h : chunks bs = front ++ (mid ++ back)) {start stop : Nat} (hstart : start = (spell front).length)
    (hstop : stop + 1 = start + (spell mid).length) :
    (bs.take stop).drop start = (spell mid).tail := by
  have hbs : separator :: bs = spell front ++ (spell mid ++ spell back) := by
    rw [← spell_chunks, h, spell_append, spell_append]
  calc (bs.take stop).drop start
      = (((separator :: bs).take (stop + 1)).drop start).tail := by
        rw [List.take_succ_cons, List.tail_drop, List.drop_succ_cons]
    _ = (spell mid).tail := by
        rw [hbs, hstop, hstart, List.take_length_add_append, List.drop_left, List.take_left]

theorem ne_nil_of_component? (hn : component? n ≠ none) : n ≠ [] := by
  rintro rfl
  exact hn rfl

/-- A path that begins with a part that has a component begins in no special way. So what is cut out of
the middle of a path has just the components that it had there. -/
theorem chunks_of_mid {bs : List UInt8} {front mid back rest : List Name}
    (h : chunks bs = front ++ (mid ++ back)) (hmid : mid = n :: rest) (hn : component? n ≠ none) :
    chunks (spell mid).tail = mid ∧ anchor ⟨(spell mid).tail⟩ = [] := by
  have hsep : ∀ m ∈ mid, separator ∉ m := by
    intro m hm
    have hchunk : m ∈ chunks bs := by simp [h, hm]
    exact FileSystem.separator_not_mem_of_mem_chunks hchunk
  subst hmid
  have hchunks := chunks_tail_spell hsep
  refine ⟨hchunks, ?_⟩
  -- The middle starts with a name that is a component, so with neither a separator nor a `.`.
  have hdot : n ≠ [dot] := by
    rintro rfl
    exact hn rfl
  obtain ⟨b, bs, rfl⟩ := List.exists_cons_of_ne_nil (ne_nil_of_component? hn)
  have hb : b ≠ separator := fun hb => hsep _ List.mem_cons_self (hb ▸ List.mem_cons_self)
  have habsolute : isAbsolute ⟨(spell ((b :: bs) :: rest)).tail⟩ = false := by
    simp [isAbsolute, spell, hb]
  rw [anchor, habsolute, hchunks]
  simpa using hdot

theorem spans_drop_eq_cons {k : Nat} (h : p.spans.drop k = s :: ss) :
    p.dropComponents k
      = ⟨(p.bytes.take ((s :: ss).getLast (List.cons_ne_nil s ss)).stop).drop s.start⟩ := by
  simp only [dropComponents, h]

/-- What is left behind the components that only the beginning of a path can have. -/
theorem dropComponents_of_body {k : Nat} (h : (bodySpans 0 (chunks p.bytes)).drop k = s :: ss)
    {q : Path} (hq : q = ⟨(p.bytes.take ((s :: ss).getLast (List.cons_ne_nil s ss)).stop).drop
      s.start⟩) : q.components = (s :: ss).map Span.component ∧ q.anchor = [] := by
  obtain ⟨front, mid, back, hparts, -, hmid, ⟨n, rest, hhead, hn⟩, hstart, hstop⟩ := exists_parts h
  rw [Nat.zero_add] at hstart
  rw [drop_take_spell hparts hstart hstop] at hq
  obtain ⟨hchunks, hanchor⟩ := chunks_of_mid hparts hhead hn
  subst hq
  refine ⟨?_, hanchor⟩
  rw [components_eq, hanchor, List.nil_append, hchunks, hmid]

/-- The first byte shows that a path begins in a special way. For both ways it is one byte, a separator
or a dot. -/
theorem anchor_take_one {c : Component} (h : p.anchor = [c]) :
    components ⟨p.bytes.take 1⟩ = [c] := by
  -- On the bytes: an empty path has no anchor.
  obtain ⟨_ | ⟨b, bs⟩⟩ := p
  · cases h
  · rw [anchor] at h
    split at h
    · next habsolute =>
      have hb : b = separator := by simpa [isAbsolute] using habsolute
      rw [hb, ← h]
      rfl
    · next habsolute =>
      have hb : b ≠ separator := by simpa [isAbsolute] using habsolute
      split at h
      · next hhead =>
        -- The first part is a `.`, so that is the first byte.
        have hdot : b = dot := by
          rw [chunks, if_neg hb] at hhead
          split at hhead
          · simpa using hhead
          · exact (List.cons.inj (Option.some.inj hhead)).1
        rw [hdot, ← h]
        rfl
      · cases h

/-- What is left if nothing is cut off, and the path begins in a special way. Here the beginning is kept
together with the parts behind it. -/
theorem components_dropComponents_zero {c : Component} (h : p.anchor = [c]) :
    (p.dropComponents 0).components = p.components := by
  have hspans : p.spans.drop 0 = ⟨c, 0, 1⟩ :: bodySpans 0 (chunks p.bytes) := by
    rw [List.drop_zero, spans_eq, h]
    rfl
  rw [spans_drop_eq_cons hspans, List.drop_zero, components_eq p, h,
    ← map_component_bodySpans 0 (chunks p.bytes)]
  cases hbody : bodySpans 0 (chunks p.bytes) with
  | nil => exact anchor_take_one h
  | cons s ss =>
    rw [List.getLast_cons (List.cons_ne_nil s ss)]
    obtain ⟨front, mid, back, hparts, hfront, hmid, ⟨n, rest, rfl, hn⟩, hstart, hstop⟩ :=
      exists_parts (k := 0) hbody
    -- The spelling is kept up to the end of the last part that has a component.
    generalize ((s :: ss).getLast (List.cons_ne_nil s ss)).stop = stop at hstop ⊢
    have hlength := List.length_pos_iff.mpr (ne_nil_of_component? hn)
    rw [length_spell_cons] at hstop
    have htake : p.bytes.take stop = (spell (front ++ n :: rest)).tail := by
      have hall : chunks p.bytes = [] ++ ((front ++ n :: rest) ++ back) := by simp [hparts]
      have hend : stop + 1 = 0 + (spell (front ++ n :: rest)).length := by
        rw [spell_append, List.length_append, length_spell_cons]
        omega
      have hstart : 0 = (spell []).length := rfl
      simpa using drop_take_spell hall hstart hend
    obtain ⟨m, ms, hms⟩ := List.exists_cons_of_ne_nil
      (List.append_ne_nil_of_right_ne_nil front (List.cons_ne_nil n rest))
    have hchunks : chunks (p.bytes.take stop) = front ++ n :: rest := by
      rw [htake, hms]
      refine chunks_tail_spell fun k hk => ?_
      rw [← hms] at hk
      have hchunk : k ∈ chunks p.bytes := by
        rw [hparts, ← List.append_assoc]
        exact List.mem_append_left back hk
      exact FileSystem.separator_not_mem_of_mem_chunks hchunk
    -- The anchor is told from the first byte and the first part, and both are kept.
    have hanchor : anchor ⟨p.bytes.take stop⟩ = p.anchor := by
      have habsolute : isAbsolute ⟨p.bytes.take stop⟩ = p.isAbsolute := by
        rw [isAbsolute, isAbsolute, List.head?_take, if_neg (by omega)]
      rw [anchor, anchor, habsolute, hchunks, hparts, ← List.append_assoc, hms]
      rfl
    rw [components_eq, hanchor, h, hchunks, List.filterMap_append, hfront, hmid]
    rfl

/-- **What is left of the spelling of a path has its later components.** If something has been cut off,
it begins in no special way. -/
theorem components_dropComponents (p : Path) (k : Nat) :
    (p.dropComponents k).components = p.components.drop k ∧
      (k ≠ 0 → (p.dropComponents k).anchor = []) := by
  -- The anchor is one of the components that are cut off, or none of them is.
  by_cases hk : p.anchor.length ≤ k
  · have hspans : p.spans.drop k = (bodySpans 0 (chunks p.bytes)).drop (k - p.anchor.length) := by
      rw [spans_eq, List.drop_append, List.length_map,
        List.drop_eq_nil_of_le (by rwa [List.length_map]), List.nil_append]
    rw [components, components, ← List.map_drop]
    cases hdrop : p.spans.drop k with
    | nil =>
      have hnil : p.dropComponents k = ⟨[]⟩ := by simp only [dropComponents, hdrop]
      rw [hnil]
      exact ⟨rfl, fun _ => rfl⟩
    | cons s ss =>
      obtain ⟨hcomponents, hanchor⟩ :=
        dropComponents_of_body (hspans.symm.trans hdrop) (spans_drop_eq_cons hdrop)
      exact ⟨hcomponents, fun _ => hanchor⟩
  · -- The beginning of the path is left, so nothing has been cut off.
    have hlength := p.length_anchor_le
    obtain rfl : k = 0 := by omega
    obtain ⟨c, hc⟩ : ∃ c, p.anchor = [c] := List.length_eq_one_iff.mp (by omega)
    exact ⟨components_dropComponents_zero hc, fun h => absurd rfl h⟩

/-! ### A path behind another one -/

/-- A separator in the spelling: what stands in front of it decides how the path begins. -/
theorem components_append_separator {bs cs : List UInt8} (h : bs ≠ []) :
    components ⟨bs ++ separator :: cs⟩ = components ⟨bs⟩ ++ (chunks cs).filterMap component? := by
  have hchunks := chunks_append_separator bs cs
  have hanchor : anchor ⟨bs ++ separator :: cs⟩ = anchor ⟨bs⟩ := by
    have habsolute : isAbsolute ⟨bs ++ separator :: cs⟩ = isAbsolute ⟨bs⟩ := by
      rw [isAbsolute, isAbsolute, List.head?_append_of_ne_nil _ h]
    rw [anchor, anchor, habsolute, hchunks, List.head?_append_of_ne_nil _ (chunks_ne_nil bs)]
  rw [components_eq, components_eq, hanchor, hchunks, List.filterMap_append, List.append_assoc]

/-- A separator at the end of a path is only spelling, unless it is the root directory. -/
theorem components_concat_separator {bs : List UInt8} (h : bs ≠ []) :
    components ⟨bs ++ [separator]⟩ = components ⟨bs⟩ := by
  rw [components_append_separator h]
  exact List.append_nil _

/-- **A path that begins in no special way, behind another one**: the components of both. A separator is
put between them if there is none, and one more would not show. -/
theorem components_join (hq : q.anchor = []) : (r.join q).components = r.components ++ q.components := by
  have hrelative : q.isAbsolute = false := by
    cases habsolute : q.isAbsolute with
    | false => rfl
    | true => simp [anchor, habsolute] at hq
  have hparts : q.components = (chunks q.bytes).filterMap component? := by
    rw [components_eq, hq, List.nil_append]
  obtain ⟨bs⟩ := r
  rw [join, hrelative, if_neg Bool.false_ne_true]
  -- Joined to an empty path, behind a final separator, or with a separator in between:
  split
  · next hnil =>
    change bs = [] at hnil
    subst hnil
    rfl
  · next hne =>
    split
    · next hlast =>
      obtain ⟨us, rfl⟩ := List.getLast?_eq_some_iff.mp hlast
      rw [List.append_assoc, List.singleton_append, hparts]
      -- the path in front may be nothing but that separator.
      by_cases hus : us = []
      · subst hus
        have habsolute : isAbsolute ⟨separator :: q.bytes⟩ = true := rfl
        rw [List.nil_append, components_of_isAbsolute habsolute, chunks, if_pos rfl]
        rfl
      · rw [components_append_separator hus, components_concat_separator hus]
    · rw [components_append_separator hne, hparts]

/-- **The path of an entry** has its name behind the components of the directory. -/
theorem components_child (hn : FileSystem.IsEntryName n) :
    (p.child n).components = p.components ++ [.name n] := by
  -- A name is one part, and neither a root nor a `.` in front.
  have hchunks : chunks (spell [n]).tail = [n] :=
    chunks_tail_spell (by simpa using hn.separator_not_mem)
  rw [spell, List.flatMap_singleton, List.tail_cons] at hchunks
  have hanchor : anchor ⟨n⟩ = [] := by
    have hrelative : isAbsolute ⟨n⟩ = false := by
      obtain ⟨b, bs, rfl⟩ := List.exists_cons_of_ne_nil hn.nonempty
      have hb : b ≠ separator := fun hb => hn.separator_not_mem (hb ▸ List.mem_cons_self)
      simp [isAbsolute, hb]
    simp [anchor, hrelative, hchunks, hn.not_dot]
  rw [child, components_join hanchor, components_eq ⟨n⟩, hanchor, hchunks]
  simp [component?, hn.nonempty, hn.not_dot, hn.not_up]

/-! ### Cutting off and putting back -/

/-- What is below a root: its components come first, and the others are left. -/
theorem relativeTo?_eq_some_iff : p.relativeTo? r = some q ↔
    r.components <+: p.components ∧ q = p.dropComponents r.components.length := by
  rw [relativeTo?, ← List.isPrefixOf_iff_prefix]
  split
  · next h => simp [h, eq_comm]
  · next h => simp [h]

/-- A path without components is empty. Any byte belongs to a component, or is a separator at the
beginning and so the root. -/
theorem bytes_eq_nil_of_components (h : r.components = []) : r.bytes = [] := by
  rw [components_eq, List.append_eq_nil_iff] at h
  obtain ⟨hanchor, hparts⟩ := h
  -- An anchor would be a component, so the path starts with a part of its own.
  obtain ⟨_ | ⟨b, bs⟩⟩ := r
  · rfl
  · exfalso
    rw [anchor] at hanchor
    split at hanchor
    · cases hanchor
    next habsolute =>
    have hb : b ≠ separator := by simpa [isAbsolute] using habsolute
    split at hanchor
    · cases hanchor
    next hdot =>
    -- The first part is neither empty nor a `.`, so it has a component.
    obtain ⟨n, ns, hchunks⟩ : ∃ n ns, chunks (b :: bs) = (b :: n) :: ns := by
      rw [chunks, if_neg hb]
      split
      · exact ⟨[], [], rfl⟩
      · next c cs _ => exact ⟨c, cs, rfl⟩
    rw [hchunks, List.head?_cons, Option.some.injEq] at hdot
    have hnone : component? (b :: n) = none :=
      List.filterMap_eq_nil_iff.mp hparts _ (hchunks ▸ List.mem_cons_self)
    rw [component?, if_neg (List.cons_ne_nil b n), if_neg hdot] at hnone
    split at hnone <;> cases hnone

/-- **What is cut off can be put back.** A path is below a root exactly if the components of the root are
the first ones of its own. What is cut off then has the others, and behind the root it has the same
components as the path. The other way round, what stands behind a root can be cut off again, unless it is
absolute or begins with a `.`. -/
theorem relativeTo_join_inverse :
    (∀ p r : Path, ((∃ q, p.relativeTo? r = some q) ↔ r.components <+: p.components) ∧
      ∀ q, p.relativeTo? r = some q →
        p.components = r.components ++ q.components ∧ (r.join q).components = p.components) ∧
    ∀ r q : Path, q.isAbsolute = false → q.components.head? ≠ some .here →
      ∃ q', (r.join q).relativeTo? r = some q' ∧ q'.components = q.components := by
  refine ⟨fun p r => ⟨?_, fun q h => ?_⟩, fun r q habsolute hhead => ?_⟩
  · simp only [relativeTo?_eq_some_iff, exists_and_left, exists_eq, and_true]
  · obtain ⟨⟨rest, hrest⟩, rfl⟩ := relativeTo?_eq_some_iff.mp h
    obtain ⟨hleft, hanchor⟩ := p.components_dropComponents r.components.length
    rw [← hrest, List.drop_left] at hleft
    refine ⟨by rw [hleft, hrest], ?_⟩
    by_cases hr : r.components = []
    · -- Nothing has been cut off, and nothing is put back.
      have hjoin : ∀ q : Path, r.join q = q := by
        intro q
        rw [join, if_pos (bytes_eq_nil_of_components hr), ite_self]
      rw [hjoin, hleft, ← hrest, hr, List.nil_append]
    · rw [components_join (hanchor fun h => hr (List.length_eq_zero_iff.mp h)), hleft, hrest]
  -- Without a `.` in front, the relative path has no anchor.
  · have hanchor : q.anchor = [] := by
      rw [anchor, habsolute, if_neg Bool.false_ne_true]
      refine if_neg fun hdot => hhead ?_
      rw [components_eq, anchor, habsolute, if_neg Bool.false_ne_true, if_pos hdot]
      rfl
    have hjoin := components_join (r := r) hanchor
    obtain ⟨hleft, -⟩ := (r.join q).components_dropComponents r.components.length
    rw [hjoin, List.drop_left] at hleft
    exact ⟨_, relativeTo?_eq_some_iff.mpr ⟨hjoin ▸ List.prefix_append _ _, rfl⟩, hleft⟩

/-- What is cut off is a piece of the spelling, with all that is only spelling in the middle of it. -/
theorem relativeTo_join_inverse_oddSpelling :
    let path := ofString "/usr//./lib/.././/x/."
    let root := ofString "/usr/"
    path.relativeTo? root = some (ofString "lib/.././/x") ∧
      (root.join (ofString "lib/.././/x")).components = path.components ∧
      ∃ q, ((ofString "./a/").join (ofString "../b/")).relativeTo? (ofString "./a/") = some q ∧
        q.components = (ofString "../b/").components := by
  intro path root
  obtain ⟨hcut, hput⟩ := relativeTo_join_inverse
  have hpath : path.relativeTo? root = some (ofString "lib/.././/x") := by decide
  exact ⟨hpath, ((hcut path root).2 _ hpath).2, hput _ _ (by decide) (by decide)⟩

end Path

end IncludeMoves
