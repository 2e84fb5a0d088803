import IncludeMoves.Problem
import IncludeMoves.Proofs.JsonDocuments
import IncludeMoves.Proofs.Tables
import Mathlib

/-!
# The tables of documents

What a text is as a table of moves depends on the last value of each name of the object in it, and on
nothing else of how it is written. Names are compared as they are decoded.

The members of an object become a table before their values are looked at (`tableOf`), so a value counts
only if no later member has its name: it may be anything else. The table is in the order of the bytes of
the names, and its values are taken from the front, so of several values that are no moves the first one
in that order is reported.

* `Json.IsLast` — the last value of a name;
* `Moves.Holds` — the table that has the last values as moves;
* `Moves.IsFirstBad` — the value that is reported when some last values are no moves;
* `Moves.parse_last_values` — the table or the error for any text.
-/

namespace IncludeMoves

variable {members : List (String × Json)} {name : String} {v : Json}

namespace Json

/-- **The last value of a name** among the members of an object. It is the only one that counts, and the
others may be anything. -/
def IsLast (members : List (String × Json)) (name : String) (v : Json) : Prop :=
  ∃ front back, members = front ++ (name, v) :: back ∧ name ∉ back.map Prod.fst

/-- The values that stand for moves: strings and null. -/
def IsMove (v : Json) : Prop :=
  v = .null ∨ ∃ s, v = .string s

theorem isLast_iff_lookup : IsLast members name v ↔ members.reverse.lookup name = some v := by
  rw [List.lookup_eq_some_iff]
  constructor
  -- Behind the last pair with the name there is none with it; backwards, that is in front.
  · rintro ⟨front, back, rfl, hback⟩
    refine ⟨back.reverse, front.reverse, by simp, fun e he => ?_⟩
    rw [bne_iff_ne]
    rintro rfl
    exact hback (List.mem_map_of_mem (List.mem_reverse.mp he))
  · rintro ⟨back, front, hmembers, hback⟩
    refine ⟨front.reverse, back.reverse, ?_, fun hname => ?_⟩
    · rw [← List.reverse_reverse members, hmembers]
      simp
    · obtain ⟨e, he, rfl⟩ := List.mem_map.mp hname
      exact bne_iff_ne.mp (hback e (List.mem_reverse.mp he)) rfl

/-- The table of the members has their last values. -/
theorem isLast_iff_mem_tableOf : IsLast members name v ↔ (name, v) ∈ tableOf members := by
  rw [isLast_iff_lookup, ← lookup_tableOf, (ascending_tableOf members).lookup_eq_some_iff]

/-- Each name has a last value. -/
theorem exists_isLast_iff : (∃ v, IsLast members name v) ↔ name ∈ members.map Prod.fst := by
  constructor
  · rintro ⟨v, front, back, rfl, -⟩
    simp
  · intro h
    obtain ⟨e, he, rfl⟩ := List.mem_map.mp h
    have hsome : (members.reverse.lookup e.1).isSome :=
      List.lookup_isSome_iff.mpr ⟨e, List.mem_reverse.mpr he, beq_self_eq_true e.1⟩
    obtain ⟨v, hv⟩ := Option.isSome_iff_exists.mp hsome
    exact ⟨v, isLast_iff_lookup.mpr hv⟩

end Json

theorem Move.ofJson?_eq_none_iff : Move.ofJson? v = none ↔ ¬v.IsMove := by
  cases v <;> simp [ofJson?, Json.IsMove]

theorem Move.ofJson?_eq_moved_iff {new : String} :
    Move.ofJson? v = some (.moved new) ↔ v = .string new := by
  cases v <;> simp [ofJson?]

theorem Move.ofJson?_eq_gone_iff : Move.ofJson? v = some .gone ↔ v = .null := by
  cases v <;> simp [ofJson?]

/-- **There is one entry for each name.** -/
theorem length_tableOf (members : List (String × Json)) :
    (tableOf members).length = (members.map Prod.fst).dedup.length := by
  rw [← List.length_map Prod.fst]
  refine List.Perm.length_eq ?_
  rw [List.perm_ext_iff_of_nodup (ascending_tableOf members).nodup (List.nodup_dedup _)]
  intro name
  -- Both lists name each member once.
  rw [List.mem_dedup, ← @Json.exists_isLast_iff members]
  constructor
  · intro h
    obtain ⟨e, he, rfl⟩ := List.mem_map.mp h
    exact ⟨e.2, Json.isLast_iff_mem_tableOf.mpr he⟩
  · rintro ⟨v, hv⟩
    exact List.mem_map.mpr ⟨(name, v), Json.isLast_iff_mem_tableOf.mp hv, rfl⟩

namespace Moves

open Json (IsLast IsDocument)

/-- **The value that is reported**: of the last values that are no moves, the one whose name comes first
in the order of the bytes. -/
structure IsFirstBad (members : List (String × Json)) (name : String) (v : Json) : Prop where
  isLast : IsLast members name v
  not_isMove : ¬v.IsMove
  first : ∀ other w, IsLast members other w → ¬w.IsMove → other ≠ name →
    Utf8.encode name.toList < Utf8.encode other.toList

/-- **The table of the last values.** All is said by the members of the object alone, so two objects
with the same last values have the same table. -/
structure Holds (members : List (String × Json)) (m : Moves) : Prop where
  size : m.size = (members.map Prod.fst).dedup.length
  moved : ∀ name new, m.get? name = some (.moved new) ↔ IsLast members name (.string new)
  gone : ∀ name, m.get? name = some .gone ↔ IsLast members name .null
  unknown : ∀ name, m.get? name = none ↔ name ∉ members.map Prod.fst

/-! ### Tables of values -/

theorem ofValues_of_first_bad {front back : List (String × Json)} (hfront : ∀ e ∈ front, e.2.IsMove)
    (hv : ¬v.IsMove) : ofValues (front ++ (name, v) :: back) = .error v := by
  induction front with
  | nil => rw [List.nil_append, ofValues, Move.ofJson?_eq_none_iff.mpr hv]
  | cons e front ih =>
    have ih := ih fun a ha => hfront a (List.mem_cons_of_mem e ha)
    obtain ⟨move, hmove⟩ := Option.ne_none_iff_exists'.mp
      (mt Move.ofJson?_eq_none_iff.mp (not_not.mpr (hfront e List.mem_cons_self)))
    rw [List.cons_append, ofValues, hmove]
    simp only [ih]

/-- If all values are moves there is a table, with the same names in the same order, and with what each
value stands for. -/
theorem ofValues_of_moves {es : List (String × Json)} (h : ∀ e ∈ es, e.2.IsMove) :
    ∃ moves, ofValues es = .ok moves ∧ moves.map Prod.fst = es.map Prod.fst ∧
      ∀ name, moves.lookup name = (es.lookup name).bind Move.ofJson? := by
  induction es with
  | nil => exact ⟨[], rfl, rfl, fun _ => rfl⟩
  | cons e es ih =>
    obtain ⟨moves, hvalues, hnames, hlookup⟩ := ih fun a ha => h a (List.mem_cons_of_mem e ha)
    obtain ⟨move, hmove⟩ := Option.ne_none_iff_exists'.mp
      (mt Move.ofJson?_eq_none_iff.mp (not_not.mpr (h e List.mem_cons_self)))
    refine ⟨(e.1, move) :: moves, ?_, by rw [List.map_cons, List.map_cons, hnames], fun name => ?_⟩
    -- The first value is a move, as are the others.
    · rw [ofValues, hmove]
      simp only [hvalues]
    · rw [lookup_cons_ite, lookup_cons_ite, hlookup]
      split
      · rw [Option.bind_some, hmove]
      · rfl

/-- A list of values has a first one that is no move, or there are only moves. -/
theorem exists_first_bad (es : List (String × Json)) :
    (∀ e ∈ es, e.2.IsMove) ∨ ∃ front name v back, es = front ++ (name, v) :: back ∧
      (∀ e ∈ front, e.2.IsMove) ∧ ¬v.IsMove := by
  induction es with
  | nil => exact .inl fun e he => absurd he List.not_mem_nil
  | cons e es ih =>
    by_cases he : e.2.IsMove
    · rcases ih with hall | ⟨front, name, v, back, rfl, hfront, hv⟩
      · exact .inl (List.forall_mem_cons.mpr ⟨he, hall⟩)
      · exact .inr ⟨e :: front, name, v, back, rfl, List.forall_mem_cons.mpr ⟨he, hfront⟩, hv⟩
    · exact .inr ⟨[], e.1, e.2, es, rfl, fun a ha => absurd ha List.not_mem_nil, he⟩

/-- The first value of the table that is no move is the one that is reported. The table is in ascending
order, so no smaller name has such a value. -/
theorem isFirstBad_of_tableOf {front back : List (String × Json)}
    (htable : tableOf members = front ++ (name, v) :: back) (hfront : ∀ e ∈ front, e.2.IsMove)
    (hv : ¬v.IsMove) : IsFirstBad members name v := by
  have hascending := ascending_tableOf members
  rw [htable, Ascending, List.pairwise_append, List.pairwise_cons] at hascending
  refine ⟨Json.isLast_iff_mem_tableOf.mpr (by simp [htable]), hv, fun other w hw hbad hne => ?_⟩
  rw [Json.isLast_iff_mem_tableOf, htable] at hw
  rw [Utf8.encode_lt_encode_iff]
  -- In front of it there are only moves, and behind it only greater names.
  rcases List.mem_append.mp hw with hmem | hmem
  · exact absurd (hfront _ hmem) hbad
  · rcases List.mem_cons.mp hmem with heq | hmem
    · exact absurd (Prod.mk.inj heq).1 hne
    · exact hascending.2.1.1 _ hmem

/-- If all last values are moves, the table has them. A value that is overwritten may be no move at all.
-/
theorem exists_holds (h : ∀ name v, IsLast members name v → v.IsMove) :
    ∃ m, ofJson (.object members) = .ok m ∧ Holds members m := by
  have hmoves : ∀ e ∈ tableOf members, e.2.IsMove :=
    fun e he => h e.1 e.2 (Json.isLast_iff_mem_tableOf.mpr he)
  -- Since all last values are moves, the table can be read, and its lookup is theirs.
  obtain ⟨moves, hvalues, hnames, hlookup⟩ := ofValues_of_moves hmoves
  have hget : ∀ name move, get? ⟨moves⟩ name = some move ↔
      ∃ v, IsLast members name v ∧ Move.ofJson? v = some move := by
    intro name move
    rw [get?, hlookup, lookup_tableOf, Option.bind_eq_some_iff]
    simp only [Json.isLast_iff_lookup]
  refine ⟨⟨moves⟩, by rw [ofJson, hvalues], ?_, fun name new => ?_, fun name => ?_, fun name => ?_⟩
  · rw [size, ← length_tableOf, ← List.length_map Prod.fst, hnames, List.length_map]
  · rw [hget]
    simp [Move.ofJson?_eq_moved_iff]
  · rw [hget]
    simp [Move.ofJson?_eq_gone_iff]
  · -- A name that is among the members has a last value, and that is a move.
    rw [← Json.exists_isLast_iff, Option.eq_none_iff_forall_not_mem]
    constructor
    · rintro hnone ⟨v, hv⟩
      obtain ⟨move, hmove⟩ := Option.ne_none_iff_exists'.mp
        (mt Move.ofJson?_eq_none_iff.mp (not_not.mpr (h name v hv)))
      exact hnone move ((hget name move).mpr ⟨v, hv, hmove⟩)
    · intro hnone move hmove
      obtain ⟨v, hv, -⟩ := (hget name move).mp hmove
      exact hnone ⟨v, hv⟩

theorem parse_of_isDocument {text : String} (h : IsDocument text v) : parse text = ofJson v := by
  rw [parse, Json.parse_eq_ok_iff.mpr h]

/-- **The table of a text.** A text that is no document is an error, and so is a document that is no
object. An object is the table of its last values if they are all strings and null; else the error says
what the first value is, in the order of the bytes of the names, that is neither. Objects with the same
last values come to the same. -/
theorem parse_last_values (text : String) :
    ((∀ v, ¬IsDocument text v) → ∃ f, parse text = .error (.notJson f)) ∧
    (∀ v, IsDocument text v → (∀ members, v ≠ .object members) → parse text = .error .notObject) ∧
    ∀ members, IsDocument text (.object members) →
      ((∃ name v, IsLast members name v ∧ ¬v.IsMove) →
        ∃ name v, IsFirstBad members name v ∧ parse text = .error (.badValue v) ∧
          (TableError.badValue v).message = "invalid type: " ++ v.describe ++ ", expected a string") ∧
      ((∀ name v, IsLast members name v → v.IsMove) → ∃ m, parse text = .ok m ∧ Holds members m) ∧
      ∀ other others, IsDocument other (.object others) →
        (∀ name v, IsLast others name v ↔ IsLast members name v) → parse other = parse text := by
  refine ⟨fun hno => ?_, fun v hv hobject => ?_, fun members hdocument =>
    ⟨fun hbad => ?_, fun hmoves => ?_, fun other others hother hsame => ?_⟩⟩
  · cases hparse : Json.parse text with
    | ok v => exact absurd (Json.parse_eq_ok_iff.mp hparse) (hno v)
    | error f => exact ⟨f, by rw [parse, hparse]⟩
  · rw [parse_of_isDocument hv]
    cases v with
    | object members => exact absurd rfl (hobject members)
    | _ => rfl
  -- Only the table is looked at, in the order of its names.
  · rcases exists_first_bad (tableOf members) with hall | ⟨front, name, v, back, htable, hfront, hv⟩
    · obtain ⟨name, v, hlast, hv⟩ := hbad
      exact absurd (hall _ (Json.isLast_iff_mem_tableOf.mp hlast)) hv
    · refine ⟨name, v, isFirstBad_of_tableOf htable hfront hv, ?_, rfl⟩
      rw [parse_of_isDocument hdocument, ofJson, htable, ofValues_of_first_bad hfront hv]
  · rw [parse_of_isDocument hdocument]
    exact exists_holds hmoves
  · -- All that counts is the table of the members, and that is made of their last values.
    have htables : tableOf others = tableOf members := by
      refine tableOf_congr fun name => Option.ext fun v => ?_
      rw [← Json.isLast_iff_lookup, ← Json.isLast_iff_lookup, hsame]
    rw [parse_of_isDocument hdocument, parse_of_isDocument hother, ofJson, ofJson, htables]

/-- A number that a later value of the same name replaces, and an escape in the later name. -/
def repeatedName : String :=
  "\x7b\"a.hpp\": 1, \"\\u0061.hpp\": null\x7d"

/-- The later value is null, so the file is gone, and it is the only one in the table. -/
theorem parse_repeatedName :
    IsDocument repeatedName (.object [("a.hpp", .integer 1), ("a.hpp", .null)]) ∧
      ∃ m, parse repeatedName = .ok m ∧ m.get? "a.hpp" = some .gone ∧ m.size = 1 := by
  have hdocument : IsDocument repeatedName (.object [("a.hpp", .integer 1), ("a.hpp", .null)]) :=
    Json.parse_eq_ok_iff.mp (by cbv)
  have hlast : ∀ name v, IsLast [("a.hpp", .integer 1), ("a.hpp", .null)] name v ↔
      name = "a.hpp" ∧ v = .null := by
    intro name v
    rw [Json.isLast_iff_mem_tableOf]
    have htable : tableOf [("a.hpp", Json.integer 1), ("a.hpp", .null)] = [("a.hpp", .null)] := by
      simp [tableOf, insertKey]
    simp [htable]
  obtain ⟨m, hparse, hholds⟩ := ((parse_last_values repeatedName).2.2 _ hdocument).2.1 fun name v h =>
    .inl ((hlast name v).mp h).2
  refine ⟨hdocument, m, hparse, ?_, hholds.size⟩
  rw [hholds.gone, hlast]
  exact ⟨rfl, rfl⟩

end Moves

end IncludeMoves
