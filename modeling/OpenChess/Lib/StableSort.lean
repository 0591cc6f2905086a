import Mathlib.Data.List.Sort
import Mathlib.Tactic

/-!
# Filters of a stable sort

A stable sort by insertion keeps the order of what compares alike, so that the order of a
sublist does not depend on the rest of the list.
-/

namespace StableSort

variable {α : Type*} (r : α → α → Prop) [DecidableRel r] (p : α → Bool)

theorem filter_orderedInsert [IsTrans α r] (x : α) {l : List α} (h : l.Pairwise r) :
    (l.orderedInsert r x).filter p =
      if p x then (l.filter p).orderedInsert r x else l.filter p := by
  induction l with
  | nil => by_cases hx : p x <;> simp [hx]
  | cons y l ih =>
    obtain ⟨hy, hl⟩ := List.pairwise_cons.mp h
    by_cases hxy : r x y
    · -- everything that follows compares with the inserted element too
      have hall : ∀ z ∈ (y :: l).filter p, r x z := by
        intro z hz
        rcases List.mem_cons.mp (List.mem_of_mem_filter hz) with rfl | hz
        · exact hxy
        · exact IsTrans.trans x y z hxy (hy z hz)
      rw [List.orderedInsert_cons_of_le r l hxy, List.filter_cons]
      cases hfiltered : (y :: l).filter p with
      | nil => rfl
      | cons z rest =>
        have hz : r x z := hall z (by rw [hfiltered]; exact List.mem_cons_self)
        rw [List.orderedInsert_cons_of_le r rest hz]
    · rw [List.orderedInsert_of_not_le r l hxy, List.filter_cons, ih hl, List.filter_cons]
      by_cases hx : p x <;> by_cases hpy : p y <;> simp [hx, hpy, hxy]

/-- The sort of a filtered list is the filter of the sorted list. -/
theorem filter_insertionSort [IsTrans α r] [Std.Total r] (l : List α) :
    (l.insertionSort r).filter p = (l.filter p).insertionSort r := by
  induction l with
  | nil => rfl
  | cons x l ih =>
    rw [List.insertionSort_cons, filter_orderedInsert r p x (List.pairwise_insertionSort r l), ih,
      List.filter_cons]
    split_ifs <;> rfl

end StableSort
