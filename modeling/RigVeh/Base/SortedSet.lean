/-
  RigVeh.Base.SortedSet — a list sorted and freed of repeats stands for its set.

  `sortDedup` is the strictly increasing list of a list's members (`sortDedup_lt`,
  `mem_sortDedup`), so two lists come to the same one exactly if they have the same
  members (`sortDedup_eq_iff`).
-/

import Mathlib.Data.List.Destutter
import Mathlib.Data.List.Sort

namespace RigVeh.Base

variable {α : Type} [LinearOrder α]

/-- Sort, then drop what equals its neighbour before it. -/
def sortDedup (l : List α) : List α := (l.insertionSort (· ≤ ·)).destutter (· ≠ ·)

/-- In a sorted list what is equal stands together. -/
theorem sortDedup_eq_dedup (l : List α) : sortDedup l = (l.insertionSort (· ≤ ·)).dedup :=
  (List.pairwise_insertionSort (· ≤ ·) l).destutter_eq_dedup

@[simp] theorem mem_sortDedup {l : List α} {a : α} : a ∈ sortDedup l ↔ a ∈ l := by
  rw [sortDedup_eq_dedup, List.mem_dedup, List.mem_insertionSort]

theorem sortDedup_lt (l : List α) : (sortDedup l).Pairwise (· < ·) := by
  rw [sortDedup_eq_dedup]
  have hle : ((l.insertionSort (· ≤ ·)).dedup).Pairwise (· ≤ ·) :=
    (List.pairwise_insertionSort (· ≤ ·) l).sublist (List.dedup_sublist _)
  exact (hle.and (List.nodup_dedup _)).imp fun h => lt_of_le_of_ne h.1 h.2

theorem sortDedup_eq_iff {l l' : List α} : sortDedup l = sortDedup l' ↔ ∀ a, a ∈ l ↔ a ∈ l' := by
  constructor
  · intro h a
    rw [← mem_sortDedup, h, mem_sortDedup]
  · intro h
    have hperm : (sortDedup l).Perm (sortDedup l') := by
      apply (List.perm_ext_iff_of_nodup ((sortDedup_lt l).imp ne_of_lt) ((sortDedup_lt l').imp ne_of_lt)).mpr
      intro a
      rw [mem_sortDedup, mem_sortDedup, h]
    exact hperm.eq_of_pairwise (fun _ _ _ _ hab hba => absurd hab (lt_asymm hba)) (sortDedup_lt l) (sortDedup_lt l')

end RigVeh.Base
