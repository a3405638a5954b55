/-
  RigVeh.Base.Scan — reading a text back part by part.

  A scanner takes a part off the front of a text and leaves the rest, or fails. What
  each one takes is said by an iff (`literal_run`, `span_run`, `upTo_run`,
  `orElse_run`), and `bind_run` puts these together, so a scanner built from them reads
  exactly what some writer wrote in front of the rest (`Scans`). `readAll_iff` carries
  that to a list of items up to a closing text.
-/

import Mathlib.Data.List.TakeWhile
import RigVeh.Base.Cut

namespace RigVeh.Base

variable {α β γ : Type}

abbrev Scan (β α : Type) := StateT (List β) Option α

namespace Scan

variable {p : Scan β α} {u t : List β}

theorem bind_run {q : α → Scan β γ} {c : γ} :
    (p >>= q).run u = some (c, t) ↔ ∃ a v, p.run u = some (a, v) ∧ (q a).run v = some (c, t) := by
  rw [StateT.run_bind]
  cases hp : p.run u with
  | none => simp
  | some out =>
    obtain ⟨a, v⟩ := out
    simp

theorem pure_run {a b : α} : (pure a : Scan β α).run u = some (b, t) ↔ b = a ∧ u = t := by
  rw [StateT.run_pure]
  simp [eq_comm]

/-- A value that is already there, or failure. -/
def ofOption (o : Option α) : Scan β α := fun u => o.map (·, u)

theorem ofOption_run {o : Option α} {a : α} : (ofOption o : Scan β α).run u = some (a, t) ↔ o = some a ∧ u = t := by
  show o.map (·, u) = some (a, t) ↔ _
  cases o <;> simp

/-- The second where the first fails. Nothing is read by both. -/
theorem orElse_run {q : Scan β α} {a : α} (h : ∀ x y, p.run u = some x → q.run u ≠ some y) :
    (p <|> q).run u = some (a, t) ↔ p.run u = some (a, t) ∨ q.run u = some (a, t) := by
  show (p.run u <|> q.run u) = _ ↔ _
  cases hp : p.run u with
  | none => simp
  | some x =>
    have hq : q.run u ≠ some (a, t) := h x (a, t) hp
    simp [hq]

/-- As long as `p` holds. -/
def span (p : β → Bool) : Scan β (List β) := fun u => some (u.takeWhile p, u.dropWhile p)

theorem span_run {p : β → Bool} {w : List β} :
    (span p).run u = some (w, t) ↔ u = w ++ t ∧ (∀ c ∈ w, p c = true) ∧ Ends (p · = true) t := by
  show some (u.takeWhile p, u.dropWhile p) = some (w, t) ↔ _
  have hends : Ends (p · = true) (u.dropWhile p) := by
    intro c hc
    have hnot := List.head?_dropWhile_not p u
    rw [hc] at hnot
    simp [hnot]
  constructor
  · intro h
    cases h
    refine ⟨List.takeWhile_append_dropWhile.symm, ?_, hends⟩
    exact fun c hc => List.mem_takeWhile_imp hc
  · intro h
    obtain ⟨rfl, hw, ht⟩ := h
    have hsplit : (w ++ t).takeWhile p ++ (w ++ t).dropWhile p = w ++ t := List.takeWhile_append_dropWhile
    obtain ⟨htake, hdrop⟩ := span_cut (fun c hc => List.mem_takeWhile_imp hc) hw hends ht hsplit
    rw [htake, hdrop]

section

variable [DecidableEq β]

def literal (w : List β) : Scan β Unit := fun u => if w <+: u then some ((), u.drop w.length) else none

theorem literal_run {w : List β} {x : Unit} : (literal w).run u = some (x, t) ↔ u = w ++ t := by
  show (if w <+: u then some ((), u.drop w.length) else none) = _ ↔ _
  by_cases h : w <+: u
  · obtain ⟨v, rfl⟩ := h
    simp
  · rw [if_neg h]
    simp only [reduceCtorEq, false_iff]
    intro hu
    exact h ⟨t, hu.symm⟩

/-- Up to a closing mark, which is taken too. -/
def upTo (p : β → Bool) (close : List β) : Scan β (List β) := do
  let w ← span p
  literal close
  return w

/-- Where the mark begins outside the alphabet, what stands before it is not ambiguous. -/
theorem upTo_run {p : β → Bool} {close w : List β} (hclose : close.head?.all p = false) :
    (upTo p close).run u = some (w, t) ↔ u = w ++ close ++ t ∧ ∀ c ∈ w, p c = true := by
  have hends : Ends (p · = true) (close ++ t) := by
    cases close with
    | nil => cases hclose
    | cons c rest => simpa using hclose
  simp only [upTo, bind_run, span_run, literal_run, pure_run]
  constructor
  · intro hread
    obtain ⟨_, _, ⟨rfl, hw, -⟩, _, _, rfl, rfl, rfl⟩ := hread
    exact ⟨(List.append_assoc ..).symm, hw⟩
  · intro hwritten
    obtain ⟨rfl, hw⟩ := hwritten
    exact ⟨w, close ++ t, ⟨List.append_assoc .., hw, hends⟩, (), t, rfl, rfl, rfl⟩

/-! ## Lists -/

/-- `item` reads what `enc` writes of anything with `P`, whatever stands behind it. -/
def Scans (item : Scan β α) (enc : α → List β) (P : α → Prop) : Prop :=
  ∀ u a t, item.run u = some (a, t) ↔ u = enc a ++ t ∧ P a

/-- Items one behind the other up to `close`, where the text ends. -/
def readAll (item : Scan β α) (close : List β) : Nat → List β → Option (List α)
  | 0, u => if u = close then some [] else none
  | fuel + 1, u =>
    if u = close then some []
    else do
      let (a, t) ← item.run u
      let rest ← readAll item close fuel t
      return a :: rest

theorem readAll_nil {item : Scan β α} {close : List β} {fuel : Nat} :
    readAll item close fuel u = some [] ↔ u = close := by
  cases fuel with
  | zero => simp [readAll]
  | succ fuel =>
    rw [readAll]
    by_cases hu : u = close
    · simp [hu]
    · rw [if_neg hu]
      cases hitem : item.run u with
      | none => simp [hu]
      | some out => cases hrest : readAll item close fuel out.2 <;> simp [hu, hrest]

theorem readAll_cons {item : Scan β α} {close : List β} {fuel : Nat} {a : α} {l : List α} :
    readAll item close (fuel + 1) u = some (a :: l) ↔
      u ≠ close ∧ ∃ t, item.run u = some (a, t) ∧ readAll item close fuel t = some l := by
  rw [readAll]
  by_cases hu : u = close
  · simp [hu]
  · rw [if_neg hu]
    cases hitem : item.run u with
    | none => simp
    | some out =>
      obtain ⟨b, t⟩ := out
      simp only [bind, Option.bind_some, Option.bind_eq_some_iff, pure, Option.some.injEq, Prod.mk.injEq, List.cons.injEq]
      constructor
      · intro hread
        obtain ⟨rest, hrest, rfl, rfl⟩ := hread
        exact ⟨hu, t, ⟨rfl, rfl⟩, hrest⟩
      · intro hread
        obtain ⟨-, v, ⟨rfl, rfl⟩, hrest⟩ := hread
        exact ⟨l, hrest, rfl, rfl⟩

/-- The length of the text is fuel enough. -/
theorem readAll_iff {item : Scan β α} {enc : α → List β} {P : α → Prop} {close : List β}
    (h : Scans item enc P) (hne : ∀ a, enc a ≠ []) (hclose : ∀ a t, enc a ++ t ≠ close) {fuel : Nat} {l : List α}
    (hf : u.length ≤ fuel) : readAll item close fuel u = some l ↔ u = l.flatMap enc ++ close ∧ ∀ a ∈ l, P a := by
  induction l generalizing u fuel with
  | nil => simp [readAll_nil]
  | cons a l ih =>
    have hlen (t : List β) : t.length < (enc a ++ t).length := by
      have := List.length_pos_iff.mpr (hne a)
      rw [List.length_append]
      omega
    rw [List.flatMap_cons, List.append_assoc, List.forall_mem_cons]
    constructor
    · intro hread
      cases fuel with
      | zero =>
        rw [readAll] at hread
        split at hread <;> cases hread
      | succ fuel =>
        obtain ⟨-, t, hitem, hrest⟩ := readAll_cons.mp hread
        obtain ⟨rfl, ha⟩ := (h u a t).mp hitem
        have := hlen t
        obtain ⟨rfl, hl⟩ := (ih (by omega)).mp hrest
        exact ⟨rfl, ha, hl⟩
    · intro hwritten
      obtain ⟨rfl, ha, hl⟩ := hwritten
      have := hlen (l.flatMap enc ++ close)
      cases fuel with
      | zero => omega
      | succ fuel =>
        refine readAll_cons.mpr ⟨hclose a _, l.flatMap enc ++ close, (h _ _ _).mpr ⟨rfl, ha⟩, ?_⟩
        exact (ih (by omega)).mpr ⟨rfl, hl⟩

end

end Scan

end RigVeh.Base
