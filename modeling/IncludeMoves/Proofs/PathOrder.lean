import IncludeMoves.Path.Order
import Mathlib.Order.Compare

/-!
# The order of paths is an order

Components are ordered by their kinds, and those of one kind by their bytes; paths are ordered by their
components, one after the other. So two paths are at the same place of the order exactly if they have
the same components, and a set of paths does not depend on the order in which it was filled, as long as
no place is spelled in two ways.

* `compareLists_eq`, `Component.compare_eq` — the orders, put together of those of the library;
* `Path.compare_eq_eq` — the same place;
* `Path.pairwise_insert` — a set stays in order;
* `Path.insert_comm` — two paths put into a set, one after the other.
-/

namespace IncludeMoves

open Std (LawfulEqOrd OrientedCmp TransCmp TransOrd)

theorem compareLists_eq {α : Type} (cmp : α → α → Ordering) (as bs : List α) :
    compareLists cmp as bs = List.compareLex cmp as bs := by
  induction as generalizing bs with
  | nil => cases bs <;> rfl
  | cons a as ih =>
    cases bs with
    | nil => rfl
    | cons b bs =>
      rw [compareLists, List.compareLex_cons_cons, ih]
      cases cmp a b <;> rfl

namespace Component

/-- The bytes of a component that is a name. -/
def nameBytes : Component → List UInt8
  | name n => n
  | _ => []

/-- Components go by their kind and then by their bytes. -/
theorem compare_eq (a b : Component) :
    compare a b = compareLex (compareOn rank) (compareOn nameBytes) a b := by
  cases a <;> cases b <;>
    simp [compare, compareLex, compareOn, rank, nameBytes, compareLists_eq] <;> rfl

instance : Ord Component := ⟨compare⟩

theorem ord_compare_eq : (Ord.compare : Component → Component → Ordering)
    = compareLex (compareOn rank) (compareOn nameBytes) :=
  funext fun a => funext fun b => compare_eq a b

instance : TransOrd Component := by
  unfold TransOrd
  rw [ord_compare_eq]
  infer_instance

instance : LawfulEqOrd Component where
  compare_self := by
    intro a
    rw [ord_compare_eq]
    simp [compareLex, compareOn]
  eq_of_compare := by
    intro a b h
    rw [ord_compare_eq, compareLex, Ordering.then_eq_eq] at h
    have hrank : a.rank = b.rank := Std.compare_eq_iff_eq.mp h.1
    have hbytes : a.nameBytes = b.nameBytes := Std.compare_eq_iff_eq.mp h.2
    cases a <;> cases b <;> simp_all [rank, nameBytes]

end Component

namespace Path

theorem compare_eq_compareOn : compare = compareOn components :=
  funext fun p => funext fun q => compareLists_eq _ p.components q.components

instance : TransCmp compare := by
  rw [compare_eq_compareOn]
  infer_instance

/-- **The same place of the order**: the same components. -/
theorem compare_eq_eq {p q : Path} : p.compare q = .eq ↔ p.components = q.components := by
  rw [compare_eq_compareOn]
  exact Std.compare_eq_iff_eq

/-! ### Sets of paths -/

variable {s t q : Path}

theorem insert_cons_of_lt (h : s.compare q = .lt) (set : List Path) :
    s.insert (q :: set) = s :: q :: set := by
  rw [insert, h]

theorem insert_cons_of_eq (h : s.compare q = .eq) (set : List Path) :
    s.insert (q :: set) = q :: set := by
  rw [insert, h]

theorem insert_cons_of_gt (h : s.compare q = .gt) (set : List Path) :
    s.insert (q :: set) = q :: s.insert set := by
  rw [insert, h]

theorem eq_or_mem_of_mem_insert {set : List Path} (h : q ∈ s.insert set) : q = s ∨ q ∈ set := by
  induction set with
  | nil => exact .inl (List.mem_singleton.mp h)
  | cons t set ih =>
    rw [insert] at h
    split at h
    · exact List.mem_cons.mp h
    · exact .inr h
    · rcases List.mem_cons.mp h with rfl | h
      · exact .inr List.mem_cons_self
      · exact (ih h).imp_right (List.mem_cons_of_mem _)

/-- Nothing leaves a set when a path is put into it. -/
theorem mem_insert_of_mem {set : List Path} (h : q ∈ set) : q ∈ s.insert set := by
  induction set with
  | nil => exact absurd h List.not_mem_nil
  | cons t set ih =>
    rw [insert]
    split
    · exact List.mem_cons_of_mem s h
    · exact h
    · rcases List.mem_cons.mp h with rfl | h
      · exact List.mem_cons_self
      · exact List.mem_cons_of_mem t (ih h)

/-- A path that has been put into a set is there, in some spelling. -/
theorem exists_mem_insert (s : Path) (set : List Path) : ∃ t ∈ s.insert set, s.compare t = .eq := by
  induction set with
  | nil => exact ⟨s, List.mem_singleton_self s, compare_eq_eq.mpr rfl⟩
  | cons q set ih =>
    cases hs : s.compare q with
    | lt => exact ⟨s, by simp [insert_cons_of_lt hs], compare_eq_eq.mpr rfl⟩
    | eq => exact ⟨q, by simp [insert_cons_of_eq hs], hs⟩
    | gt =>
      obtain ⟨t, ht, hst⟩ := ih
      exact ⟨t, by simp [insert_cons_of_gt hs, ht], hst⟩

/-- **A set that is in order stays so** when a path is put into it. The induction is on the set, and the
path goes in front of the first larger one or is there already. -/
theorem pairwise_insert {set : List Path} (h : set.Pairwise fun s t => s.compare t = .lt) (s : Path) :
    (s.insert set).Pairwise fun s t => s.compare t = .lt := by
  induction set with
  | nil => exact List.pairwise_singleton _ s
  | cons q set ih =>
    obtain ⟨hq, hset⟩ := List.pairwise_cons.mp h
    cases hs : s.compare q with
    | lt =>
      rw [insert_cons_of_lt hs]
      refine .cons (fun t ht => ?_) h
      rcases List.mem_cons.mp ht with rfl | ht
      · exact hs
      · exact TransCmp.lt_trans hs (hq t ht)
    | eq => rwa [insert_cons_of_eq hs]
    | gt =>
      -- Behind `q` there are the paths that were there and the new one.
      rw [insert_cons_of_gt hs]
      refine .cons (fun t ht => ?_) (ih hset)
      rcases eq_or_mem_of_mem_insert ht with rfl | ht
      · exact OrientedCmp.lt_of_gt hs
      · exact hq t ht

/-- Two paths of which one belongs in front of all others. Then putting it in is putting it in front,
before the other one or behind it. -/
theorem insert_comm_of_lt (hsame : s.compare t = .eq → s = t) (hs : s.compare q = .lt)
    (set : List Path) : s.insert (t.insert (q :: set)) = t.insert (s.insert (q :: set)) := by
  rw [insert_cons_of_lt hs]
  -- The order in which the three stand decides where both come to stand.
  cases ht : t.compare q with
  | lt =>
    rw [insert_cons_of_lt ht]
    cases hst : s.compare t with
    | lt => rw [insert_cons_of_lt hst, insert_cons_of_gt (OrientedCmp.gt_of_lt hst),
        insert_cons_of_lt ht]
    | eq => rw [hsame hst]
    | gt => rw [insert_cons_of_gt hst, insert_cons_of_lt (OrientedCmp.lt_of_gt hst),
        insert_cons_of_lt hs]
  | eq =>
    have hst : s.compare t = .lt := TransCmp.lt_of_lt_of_eq hs (OrientedCmp.eq_symm ht)
    rw [insert_cons_of_eq ht, insert_cons_of_lt hs, insert_cons_of_gt (OrientedCmp.gt_of_lt hst),
      insert_cons_of_eq ht]
  | gt =>
    have hst : s.compare t = .lt := TransCmp.lt_trans hs (OrientedCmp.lt_of_gt ht)
    rw [insert_cons_of_gt ht, insert_cons_of_lt hs, insert_cons_of_gt (OrientedCmp.gt_of_lt hst),
      insert_cons_of_gt ht]

/-- **Two paths may be put into a set in any order**, unless they are two spellings of one. For of those
the set keeps the one that was put in first. -/
theorem insert_comm (hsame : s.compare t = .eq → s = t) (set : List Path) :
    s.insert (t.insert set) = t.insert (s.insert set) := by
  have hsame' : t.compare s = .eq → t = s := fun h => (hsame (OrientedCmp.eq_symm h)).symm
  -- Only if both belong behind the first path of the set, what they do is done to the rest of it.
  induction set with
  | nil =>
    cases hst : s.compare t with
    | lt =>
      rw [insert, insert, insert_cons_of_lt hst, insert_cons_of_gt (OrientedCmp.gt_of_lt hst)]
      rfl
    -- Equal components mean equal paths here, so it does not matter which one stays.
    | eq => rw [hsame hst]
    | gt =>
      rw [insert, insert, insert_cons_of_gt hst, insert_cons_of_lt (OrientedCmp.lt_of_gt hst)]
      rfl
  | cons q set ih =>
    cases hs : s.compare q with
    | lt => exact insert_comm_of_lt hsame hs set
    | eq =>
      cases ht : t.compare q with
      | lt => exact (insert_comm_of_lt hsame' ht set).symm
      | eq => rw [insert_cons_of_eq ht, insert_cons_of_eq hs, insert_cons_of_eq ht]
      | gt => rw [insert_cons_of_gt ht, insert_cons_of_eq hs, insert_cons_of_eq hs,
          insert_cons_of_gt ht]
    | gt =>
      cases ht : t.compare q with
      | lt => exact (insert_comm_of_lt hsame' ht set).symm
      | eq => rw [insert_cons_of_eq ht, insert_cons_of_gt hs, insert_cons_of_eq ht]
      | gt => rw [insert_cons_of_gt ht, insert_cons_of_gt hs, insert_cons_of_gt hs,
          insert_cons_of_gt ht, ih]

end Path

end IncludeMoves
