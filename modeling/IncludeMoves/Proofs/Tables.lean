import IncludeMoves.Json.Value
import IncludeMoves.Text.Utf8
import Mathlib.Data.List.Dedup
import Mathlib.Data.String.Basic

/-!
# Tables by names

`tableOf` makes a table of a list of pairs: it has the last value of each name (`lookup_tableOf`), in
ascending order of the names (`ascending_tableOf`). So two lists with the same last values have the same
table (`tableOf_congr`).

Names are compared by their characters, and that is the order of their bytes in UTF-8
(`Utf8.encode_lt_encode_iff`).
-/

namespace IncludeMoves

/-! ### The order of the bytes -/

namespace Utf8

theorem toNat_val_lt (c : Char) : c.val.toNat < 0x110000 := by
  have hvalid := c.valid
  unfold UInt32.isValidChar Nat.isValidChar at hvalid
  omega

/-- The bytes of a smaller character are smaller, whatever follows. So the order of bytes is that of the
characters, and tables may be sorted by either. -/
theorem utf8EncodeChar_append_lt {c d : Char} (h : c < d) (xs ys : List UInt8) :
    String.utf8EncodeChar c ++ xs < String.utf8EncodeChar d ++ ys := by
  have hlt : c.val.toNat < d.val.toNat := h
  have hc := toNat_val_lt c
  have hd := toNat_val_lt d
  -- A byte is a group of six bits or less, and none of the marks in front of it overflows.
  have h64 : ∀ k, (k % 64 + 128) % 2 ^ 8 = k % 64 + 128 := by omega
  have h32 : ∀ k, (k % 32 + 192) % 2 ^ 8 = k % 32 + 192 := by omega
  have h16 : ∀ k, (k % 16 + 224) % 2 ^ 8 = k % 16 + 224 := by omega
  have h8 : ∀ k, (k % 8 + 240) % 2 ^ 8 = k % 8 + 240 := by omega
  have hthird : ∀ k, k / 4096 = k / 64 / 64 := by omega
  have hfourth : ∀ k, k / 262144 = k / 64 / 64 / 64 := by omega
  unfold String.utf8EncodeChar
  generalize c.val.toNat = m at hlt hc
  generalize d.val.toNat = n at hlt hd
  simp only
  split_ifs <;>
    simp only [List.cons_append, List.nil_append, List.cons_lt_cons_iff, UInt8.lt_iff_toNat_lt,
      ← UInt8.toNat_inj, UInt8.toNat_ofNat', h64, h32, h16, h8, hthird, hfourth] <;>
    omega

theorem encode_cons (c : Char) (s : List Char) :
    encode (c :: s) = String.utf8EncodeChar c ++ encode s :=
  List.flatMap_cons

/-- The bytes of a smaller text are smaller. The induction is on the first text; where the characters
differ for the first time, their bytes decide. -/
theorem encode_lt_encode {s t : List Char} (h : s < t) : encode s < encode t := by
  induction s generalizing t with
  | nil =>
    cases t with
    | nil => exact absurd h (List.lt_irrefl [])
    | cons d t =>
      -- Every character has a byte.
      rw [encode_cons]
      have hne : String.utf8EncodeChar d ≠ [] := by
        rw [← List.length_pos_iff, String.length_utf8EncodeChar]
        exact Char.utf8Size_pos d
      obtain ⟨b, bs, hbytes⟩ := List.exists_cons_of_ne_nil hne
      rw [hbytes]
      exact List.nil_lt_cons _ _
  | cons c s ih =>
    cases t with
    | nil => exact absurd h (List.not_lt_nil _)
    | cons d t =>
      rw [encode_cons, encode_cons]
      -- The first characters differ, or they are equal and have the same bytes.
      rcases List.cons_lt_cons_iff.mp h with hlt | ⟨rfl, hst⟩
      · exact utf8EncodeChar_append_lt hlt _ _
      · exact List.append_left_lt (ih hst)

/-- **Texts are in the order of their bytes.** -/
theorem encode_lt_encode_iff {a b : String} : encode a.toList < encode b.toList ↔ a < b := by
  refine ⟨fun h => ?_, encode_lt_encode⟩
  rcases lt_trichotomy a b with hlt | rfl | hgt
  · exact hlt
  · exact absurd h (List.lt_irrefl _)
  · exact absurd (encode_lt_encode hgt) (List.lt_asymm h)

end Utf8

/-! ### Values by names -/

theorem lookup_cons_ite {α : Type} (k : String) (v : α) (es : List (String × α)) (q : String) :
    ((k, v) :: es).lookup q = if q = k then some v else es.lookup q := by
  rw [List.lookup_cons]
  by_cases hq : q = k
  · simp [hq]
  · have hne : (q == k) = false := by simpa using hq
    rw [hne, if_neg hq]

/-- A table with one name more has its value there, and everywhere else what it had. -/
theorem lookup_insertKey {α : Type} (k : String) (v : α) (es : List (String × α)) (q : String) :
    (insertKey k v es).lookup q = if q = k then some v else es.lookup q := by
  induction es with
  | nil => rw [insertKey, lookup_cons_ite]
  | cons e es ih =>
    obtain ⟨k', v'⟩ := e
    rw [insertKey]
    by_cases hlt : k < k'
    · -- In front of the first greater name.
      rw [if_pos hlt, lookup_cons_ite]
    · rw [if_neg hlt]
      by_cases hk : k = k'
      · -- In the place of what the name had.
        rw [if_pos hk, ← hk, lookup_cons_ite, lookup_cons_ite]
        by_cases hq : q = k
        · rw [if_pos hq, if_pos hq]
        · rw [if_neg hq, if_neg hq, if_neg hq]
      · rw [if_neg hk, lookup_cons_ite, ih, lookup_cons_ite]
        by_cases hq : q = k'
        · rw [if_pos hq, if_pos hq, if_neg fun h => hk (h.symm.trans hq)]
        · rw [if_neg hq, if_neg hq]

/-- The table of a list of pairs has the last value of each name. Of several values of one name, each
takes the place of the one before it. -/
theorem lookup_tableOf {α : Type} (pairs : List (String × α)) (q : String) :
    (tableOf pairs).lookup q = pairs.reverse.lookup q := by
  -- Whatever is in the table already counts only for names that are not in the list.
  have hfold : ∀ t : List (String × α),
      (pairs.foldl (fun t e => insertKey e.1 e.2 t) t).lookup q
        = (pairs.reverse.lookup q).or (t.lookup q) := by
    induction pairs with
    | nil => exact fun t => rfl
    | cons e pairs ih =>
      obtain ⟨k, v⟩ := e
      intro t
      rw [List.foldl_cons, ih, lookup_insertKey, List.reverse_cons, List.lookup_append,
        Option.or_assoc, lookup_cons_ite, List.lookup_nil]
      -- The first pair counts where no later one does, and before what was there.
      congr 1
      by_cases hq : q = k
      · rw [if_pos hq, if_pos hq, Option.some_or]
      · rw [if_neg hq, if_neg hq, Option.none_or]
  rw [tableOf, hfold, List.lookup_nil, Option.or_none]

/-- Where no name comes twice, what comes is what is looked up. -/
theorem lookup_eq_some_of_mem {κ α : Type} [BEq κ] [LawfulBEq κ] {es : List (κ × α)}
    (hdistinct : (es.map Prod.fst).Nodup) {e : κ × α} (he : e ∈ es) : es.lookup e.1 = some e.2 := by
  induction es with
  | nil => exact absurd he List.not_mem_nil
  | cons a es ih =>
    rw [List.map_cons, List.nodup_cons] at hdistinct
    rcases List.mem_cons.mp he with rfl | he
    · exact List.lookup_cons_self
    · have hne : (e.1 == a.1) = false := by
        -- A second entry under the first key would break `hdistinct`.
        rw [beq_eq_false_iff_ne]
        exact fun h => hdistinct.1 (h ▸ List.mem_map_of_mem he)
      rw [List.lookup_cons, hne]
      exact ih hdistinct.2 he

/-! ### Tables in order -/

/-- Pairs in strictly ascending order of their names. -/
def Ascending {α : Type} (es : List (String × α)) : Prop :=
  es.Pairwise fun a b => a.1 < b.1

theorem Ascending.nodup {α : Type} {es : List (String × α)} (h : Ascending es) :
    (es.map Prod.fst).Nodup :=
  List.pairwise_map.mpr (h.imp ne_of_lt)

theorem Ascending.lookup_eq_some_iff {α : Type} {es : List (String × α)} (h : Ascending es)
    {k : String} {v : α} : es.lookup k = some v ↔ (k, v) ∈ es := by
  refine ⟨fun hk => ?_, lookup_eq_some_of_mem h.nodup⟩
  obtain ⟨front, back, rfl, -⟩ := List.lookup_eq_some_iff.mp hk
  exact List.mem_append_right front List.mem_cons_self

/-- Tables that say the same of each name are the same. -/
theorem Ascending.ext {α : Type} {es es' : List (String × α)} (h : Ascending es) (h' : Ascending es')
    (hlookup : ∀ k, es.lookup k = es'.lookup k) : es = es' := by
  refine List.Perm.eq_of_pairwise (fun a b _ _ hab hba => absurd hba (lt_asymm hab)) h h' ?_
  rw [List.perm_ext_iff_of_nodup h.nodup.of_map h'.nodup.of_map]
  rintro ⟨k, v⟩
  rw [← h.lookup_eq_some_iff, ← h'.lookup_eq_some_iff, hlookup]

theorem eq_or_mem_of_mem_insertKey {α : Type} {k : String} {v : α} {es : List (String × α)}
    {e : String × α} (h : e ∈ insertKey k v es) : e = (k, v) ∨ e ∈ es := by
  induction es with
  | nil => exact .inl (List.mem_singleton.mp h)
  | cons a es ih =>
    rw [insertKey] at h
    split at h
    · exact List.mem_cons.mp h
    split at h
    · exact (List.mem_cons.mp h).imp_right (List.mem_cons_of_mem a)
    · rcases List.mem_cons.mp h with rfl | h
      · exact .inr List.mem_cons_self
      · exact (ih h).imp_right (List.mem_cons_of_mem a)

/-- A table that is in order stays so when a name is put into it. The name goes in front of the first
larger one. -/
theorem Ascending.insertKey {α : Type} {es : List (String × α)} (h : Ascending es) (k : String)
    (v : α) : Ascending (insertKey k v es) := by
  induction es with
  | nil => exact List.pairwise_singleton _ _
  | cons a es ih =>
    obtain ⟨ha, hes⟩ := List.pairwise_cons.mp h
    rw [IncludeMoves.insertKey]
    split
    · next hlt =>
      -- The new key comes before all that are there,
      refine List.pairwise_cons.mpr ⟨fun e he => ?_, h⟩
      rcases List.mem_cons.mp he with rfl | he
      · exact hlt
      · exact lt_trans hlt (ha e he)
    split
    -- takes the place of the first one,
    · next heq => exact List.pairwise_cons.mpr ⟨fun e he => heq ▸ ha e he, hes⟩
    -- or comes somewhere behind it.
    · next hlt hne =>
      refine List.pairwise_cons.mpr ⟨fun e he => ?_, ih hes⟩
      rcases eq_or_mem_of_mem_insertKey he with rfl | he
      · exact lt_of_le_of_ne (not_lt.mp hlt) (Ne.symm hne)
      · exact ha e he

/-- **The names of a table are in ascending order.** -/
theorem ascending_tableOf {α : Type} (pairs : List (String × α)) : Ascending (tableOf pairs) := by
  have hfold : ∀ t : List (String × α), Ascending t →
      Ascending (pairs.foldl (fun t e => IncludeMoves.insertKey e.1 e.2 t) t) := by
    induction pairs with
    | nil => exact fun t ht => ht
    | cons e pairs ih => exact fun t ht => ih _ (ht.insertKey e.1 e.2)
  exact hfold [] List.Pairwise.nil

/-- Lists with the same last values have the same table. -/
theorem tableOf_congr {α : Type} {pairs pairs' : List (String × α)}
    (h : ∀ k, pairs.reverse.lookup k = pairs'.reverse.lookup k) : tableOf pairs = tableOf pairs' := by
  refine (ascending_tableOf pairs).ext (ascending_tableOf pairs') fun k => ?_
  rw [lookup_tableOf, lookup_tableOf, h]

end IncludeMoves
