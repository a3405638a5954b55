/-
  RigVeh.Base.Wheel — a wheel of weighted entries and where a draw lands.

  The entries stand end to end, each as wide as its weight. `land` walks them and stops
  at the first whose end the draw does not pass. With no negative weight, a positive
  draw lands inside an entry of positive weight (`land_lands`), and every draw inside an
  entry's span lands there (`land_of_split`). The draw 0 lands on the first entry,
  whatever its weight.
-/

import Mathlib.Algebra.BigOperators.Group.List.Basic
import Mathlib.Algebra.Order.BigOperators.Group.List
import Mathlib.Algebra.Order.Group.Defs

namespace RigVeh.Base

variable {R α : Type} [AddCommGroup R]

def span (wheel : List (R × α)) : R := (wheel.map Prod.fst).sum

@[simp] theorem span_nil : span ([] : List (R × α)) = 0 := rfl

@[simp] theorem span_cons (w : R) (a : α) (rest : List (R × α)) : span ((w, a) :: rest) = w + span rest := by
  simp [span]

variable [LinearOrder R]

def land (r : R) : List (R × α) → Option α
  | [] => none
  | (w, a) :: rest => if r ≤ w then some a else land (r - w) rest

/-- `r` is in the span of an entry of `a` that has one. -/
def Lands (r : R) (wheel : List (R × α)) (a : α) : Prop :=
  ∃ before w after, wheel = before ++ (w, a) :: after ∧ 0 < w ∧ span before ≤ r ∧ r ≤ span before + w

variable [IsOrderedAddMonoid R]

theorem span_nonneg {wheel : List (R × α)} (hw : ∀ e ∈ wheel, 0 ≤ e.1) : 0 ≤ span wheel := by
  apply List.sum_nonneg
  intro w hmem
  obtain ⟨e, he, rfl⟩ := List.mem_map.mp hmem
  exact hw e he

theorem span_nonpos {wheel : List (R × α)} (hw : ∀ e ∈ wheel, 0 ≤ e.1) : span wheel ≤ 0 ↔ ∀ e ∈ wheel, ¬ 0 < e.1 := by
  induction wheel with
  | nil => simp
  | cons e rest ih =>
    obtain ⟨w, a⟩ := e
    have hrest : ∀ e ∈ rest, 0 ≤ e.1 := fun e he => hw e (List.mem_cons_of_mem _ he)
    have hw : 0 ≤ w := hw (w, a) List.mem_cons_self
    rw [span_cons, List.forall_mem_cons, ← ih hrest, not_lt]
    constructor
    · intro h
      exact ⟨le_trans (le_add_of_nonneg_right (span_nonneg hrest)) h, le_trans (le_add_of_nonneg_left hw) h⟩
    · intro h
      exact add_nonpos h.1 h.2

theorem land_some {r : R} {wheel : List (R × α)} (hne : wheel ≠ []) (hr : r ≤ span wheel) : ∃ a, land r wheel = some a := by
  induction wheel generalizing r with
  | nil => exact absurd rfl hne
  | cons e rest ih =>
    obtain ⟨w, a⟩ := e
    unfold land
    by_cases hle : r ≤ w
    · exact ⟨a, if_pos hle⟩
    · rw [if_neg hle]
      rw [span_cons] at hr
      apply ih
      · intro hnil
        rw [hnil, span_nil, add_zero] at hr
        exact hle hr
      · exact sub_le_iff_le_add'.mpr hr

/-- A draw stops at the first entry whose end it does not pass. -/
theorem land_split {r : R} {wheel : List (R × α)} {a : α} (h : land r wheel = some a) :
    ∃ before w after, wheel = before ++ (w, a) :: after ∧ (before = [] ∨ span before < r) ∧ r ≤ span before + w := by
  induction wheel generalizing r with
  | nil => cases h
  | cons e rest ih =>
    obtain ⟨w, b⟩ := e
    unfold land at h
    by_cases hle : r ≤ w
    · rw [if_pos hle] at h
      cases h
      exact ⟨[], w, rest, rfl, .inl rfl, by simpa using hle⟩
    · rw [if_neg hle] at h
      obtain ⟨before, w', after, rfl, hlt, hend⟩ := ih h
      refine ⟨(w, b) :: before, w', after, rfl, .inr ?_, ?_⟩
      · rw [span_cons]
        obtain rfl | hlt := hlt
        · simpa using lt_of_not_ge hle
        · exact lt_sub_iff_add_lt'.mp hlt
      · rw [span_cons, add_assoc]
        exact sub_le_iff_le_add'.mp hend

theorem land_of_split {r w : R} {before : List (R × α)} (after : List (R × α)) (a : α) (hw : ∀ e ∈ before, 0 ≤ e.1)
    (hlt : span before < r) (hend : r ≤ span before + w) : land r (before ++ (w, a) :: after) = some a := by
  induction before generalizing r with
  | nil =>
    rw [span_nil, zero_add] at hend
    exact if_pos hend
  | cons e before ih =>
    obtain ⟨w₀, b⟩ := e
    rw [span_cons] at hlt hend
    have hpast : ¬ r ≤ w₀ := by
      apply not_le_of_gt
      refine lt_of_le_of_lt ?_ hlt
      exact le_add_of_nonneg_right (span_nonneg fun e he => hw e (List.mem_cons_of_mem _ he))
    rw [List.cons_append, land, if_neg hpast]
    apply ih
    · exact fun e he => hw e (List.mem_cons_of_mem _ he)
    · exact lt_sub_iff_add_lt'.mpr hlt
    · rw [add_assoc] at hend
      exact sub_le_iff_le_add'.mpr hend

/-- A positive draw lands inside an entry. -/
theorem land_lands {r : R} {wheel : List (R × α)} {a : α} (hr : 0 < r) (h : land r wheel = some a) : Lands r wheel a := by
  obtain ⟨before, w, after, rfl, hlt, hend⟩ := land_split h
  have hlt : span before < r := by
    obtain rfl | hlt := hlt
    · exact hr
    · exact hlt
  refine ⟨before, w, after, rfl, ?_, le_of_lt hlt, hend⟩
  exact pos_of_lt_add_right (lt_of_lt_of_le hlt hend)

/-- The draw 0 is inside the first entry that has a span. -/
theorem lands_zero {wheel : List (R × α)} {a : α} (hw : ∀ e ∈ wheel, 0 ≤ e.1) :
    Lands 0 wheel a ↔ (wheel.find? fun e => 0 < e.1).map Prod.snd = some a := by
  constructor
  · intro h
    obtain ⟨before, w, after, rfl, hpos, hle, -⟩ := h
    have hbefore : ∀ e ∈ before, 0 ≤ e.1 := fun e he => hw e (List.mem_append_left _ he)
    have hnone : before.find? (fun e => 0 < e.1) = none := by
      rw [List.find?_eq_none]
      intro e he
      simpa using (span_nonpos hbefore).mp hle e he
    rw [List.find?_append, hnone]
    simp [hpos]
  · intro h
    obtain ⟨e, he, rfl⟩ := Option.map_eq_some_iff.mp h
    obtain ⟨hpos, before, after, rfl, hnone⟩ := List.find?_eq_some_iff_append.mp he
    have hbefore : ∀ e ∈ before, 0 ≤ e.1 := fun e he => hw e (List.mem_append_left _ he)
    have hle : span before ≤ 0 := (span_nonpos hbefore).mpr fun e he => by simpa using hnone e he
    have hpos : 0 < e.1 := by simpa using hpos
    refine ⟨before, e.1, after, rfl, hpos, hle, ?_⟩
    exact add_nonneg (span_nonneg hbefore) (le_of_lt hpos)

end RigVeh.Base
