/-
  RigVeh.Base.Cut — texts that can be cut back into the parts they were written from.

  An encoder writes a part in front of some rest. `CutAt enc P R stop a` says that
  the part `a` can be cut off again: when `a` and some `b` (with `P b`) are each
  written before a rest that may follow them (`stop`), and the two texts are equal,
  then `a` and `b` are related by `R` and the rests are equal. With `R` equality this
  is injectivity that survives concatenation.

  `span_cut` is the case of parts written in an alphabet that no rest begins with.
  `flatMap_cut` carries `CutAt` from the items of a list to the list written item behind
  item, and `sep_cut` to the list written with a separator between the items and a
  closing mark behind them.
-/

import Mathlib.Data.List.Basic
import Mathlib.Tactic.Common

namespace RigVeh.Base

variable {α β : Type}

def CutAt (enc : α → List β) (P : α → Prop) (R : α → α → Prop) (stop : List β → Prop) (a : α) : Prop :=
  ∀ b t t', P b → stop t → stop t' → enc a ++ t = enc b ++ t' → R a b ∧ t = t'

/-- `t` begins with nothing of the alphabet `p`. -/
def Ends (p : β → Prop) (t : List β) : Prop := ∀ c ∈ t.head?, ¬ p c

@[simp] theorem ends_nil (p : β → Prop) : Ends p [] := by simp [Ends]
@[simp] theorem ends_cons (p : β → Prop) (c : β) (t : List β) : Ends p (c :: t) ↔ ¬ p c := by simp [Ends]

theorem span_cut {p : β → Prop} {a b t t' : List β} (ha : ∀ c ∈ a, p c) (hb : ∀ c ∈ b, p c) (ht : Ends p t)
    (ht' : Ends p t') (h : a ++ t = b ++ t') : a = b ∧ t = t' := by
  induction a generalizing b with
  | nil =>
    cases b with
    | nil => exact ⟨rfl, h⟩
    | cons y b =>
      simp only [List.nil_append, List.cons_append] at h
      subst h
      exact absurd (hb y (by simp)) ((ends_cons p y _).mp ht)
  | cons x a ih =>
    cases b with
    | nil =>
      simp only [List.nil_append, List.cons_append] at h
      subst h
      exact absurd (ha x (by simp)) ((ends_cons p x _).mp ht')
    | cons y b =>
      simp only [List.cons_append, List.cons.injEq] at h
      obtain ⟨rfl, h⟩ := h
      obtain ⟨rfl, h'⟩ := ih (fun c hc => ha c (by simp [hc])) (fun c hc => hb c (by simp [hc])) h
      exact ⟨rfl, h'⟩

/-- Items one behind the other that can be cut off one by one, where what later items
    begin with ends an item. -/
theorem flatMap_cut {enc : α → List β} {P : α → Prop} {R : α → α → Prop} {stop : List β → Prop}
    (hstop : ∀ l : List α, stop (l.flatMap enc)) (hne : ∀ a, enc a ≠ []) {xs ys : List α}
    (hx : ∀ x ∈ xs, CutAt enc P R stop x) (hy : ∀ y ∈ ys, P y) (h : xs.flatMap enc = ys.flatMap enc) :
    List.Forall₂ R xs ys := by
  induction xs generalizing ys with
  | nil =>
    cases ys with
    | nil => exact .nil
    | cons y ys =>
      rw [List.flatMap_nil, List.flatMap_cons] at h
      exact absurd (List.append_eq_nil_iff.mp h.symm).1 (hne y)
  | cons x xs ih =>
    cases ys with
    | nil =>
      rw [List.flatMap_nil, List.flatMap_cons] at h
      exact absurd (List.append_eq_nil_iff.mp h).1 (hne x)
    | cons y ys =>
      rw [List.flatMap_cons, List.flatMap_cons] at h
      obtain ⟨hxy, hrest⟩ := hx x (by simp) y _ _ (hy y (by simp)) (hstop xs) (hstop ys) h
      exact .cons hxy (ih (fun z hz => hx z (by simp [hz])) (fun z hz => hy z (by simp [hz])) hrest)

/-! ## Lists with separators -/

/-- What stands behind an item of a list: the closing mark, or a separator and the
    next item. -/
def sepTail (sep : β) (xs : List (List β)) (t : List β) : List β :=
  match xs with
  | [] => t
  | x :: xs => sep :: ([sep].intercalate (x :: xs) ++ t)

theorem intercalate_sepTail (sep : β) (x : List β) (xs : List (List β)) (t : List β) :
    [sep].intercalate (x :: xs) ++ t = x ++ sepTail sep xs t := by
  cases xs with
  | nil => simp [sepTail]
  | cons y ys => simp [List.intercalate_cons_cons, sepTail]

section

variable {enc : α → List β} {P : α → Prop} {R : α → α → Prop} {stop : List β → Prop} {sep close : β}

/-- A list whose items can be cut off one by one can be cut off. An item never begins
    with the closing mark, so the empty list is told apart. -/
theorem sep_cut (hsep : ∀ t, stop (sep :: t)) (hclose : ∀ t, stop (close :: t)) (hne : sep ≠ close)
    (hhead : ∀ a, P a → ∀ t t', enc a ++ t ≠ close :: t') (xs ys : List α) (hx : ∀ x ∈ xs, P x ∧ CutAt enc P R stop x)
    (hy : ∀ y ∈ ys, P y) (t t' : List β)
    (h : [sep].intercalate (xs.map enc) ++ close :: t = [sep].intercalate (ys.map enc) ++ close :: t') :
    List.Forall₂ R xs ys ∧ t = t' := by
  have hstop : ∀ (l : List α) (u : List β), stop (sepTail sep (l.map enc) (close :: u)) := by
    intro l u; cases l with
    | nil => exact hclose u
    | cons a l => exact hsep _
  induction xs generalizing ys with
  | nil =>
    cases ys with
    | nil => simpa using h
    | cons y ys =>
      rw [List.map_cons, intercalate_sepTail] at h
      exact absurd h.symm (hhead y (hy y (by simp)) _ _)
  | cons x xs ih =>
    cases ys with
    | nil =>
      rw [List.map_cons, intercalate_sepTail] at h
      exact absurd h (hhead x (hx x (by simp)).1 _ _)
    | cons y ys =>
      rw [List.map_cons, List.map_cons, intercalate_sepTail, intercalate_sepTail] at h
      obtain ⟨hxy, htail⟩ := (hx x (by simp)).2 y _ _ (hy y (by simp)) (hstop xs t) (hstop ys t') h
      have hrest : List.Forall₂ R xs ys ∧ t = t' := by
        cases xs with
        | nil =>
          cases ys with
          | nil => simpa [sepTail] using htail
          | cons b ys => simp [sepTail, hne.symm] at htail
        | cons a xs =>
          cases ys with
          | nil => simp [sepTail, hne] at htail
          | cons b ys =>
            simp only [List.map_cons, sepTail, List.cons.injEq, true_and] at htail
            exact ih (b :: ys) (fun z hz => hx z (by simp [hz])) (fun z hz => hy z (by simp [hz]))
              (by simpa using htail)
      exact ⟨List.Forall₂.cons hxy hrest.1, hrest.2⟩

end

end RigVeh.Base
