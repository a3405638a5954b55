/-
  RigVeh.Base.Lines — records kept one to a line.

  `lines` is what a buffered reader yields: each line up to a newline, a carriage return
  before it dropped, and what follows the last newline unless nothing does. A `journal`
  is written one record at a time, each with a newline behind it. `lines_journal`: a
  journal with a piece of a record behind it reads back as its records and that piece.

  `drive` runs a machine through a history, the newest input first.
-/

import Mathlib.Data.List.Basic
import Mathlib.Tactic.Common

namespace RigVeh.Base

section

variable {β : Type} (nl cr : β)

def stripCr [DecidableEq β] (l : List β) : List β := if l.getLast? = some cr then l.dropLast else l

def lines [DecidableEq β] (b : List β) : List (List β) :=
  let pieces := b.splitOn nl
  pieces.dropLast.map (stripCr cr) ++ pieces.getLast?.toList.filter (· ≠ [])

def journal (records : List (List β)) : List β := records.flatMap (· ++ [nl])

@[simp] theorem journal_nil : journal nl ([] : List (List β)) = [] := rfl

theorem journal_append (xs ys : List (List β)) : journal nl (xs ++ ys) = journal nl xs ++ journal nl ys :=
  List.flatMap_append

@[simp] theorem journal_singleton (x : List β) : journal nl [x] = x ++ [nl] := by simp [journal]

/-- A record that is read back as it was written. -/
structure OneLine (l : List β) : Prop where
  newline : nl ∉ l
  ending : l.getLast? ≠ some cr

variable {nl cr} [DecidableEq β]

theorem splitOn_journal {records : List (List β)} {piece : List β} (hr : ∀ l ∈ records, nl ∉ l) (hp : nl ∉ piece) :
    (journal nl records ++ piece).splitOn nl = records ++ [piece] := by
  induction records with
  | nil => simpa using List.splitOn_eq_singleton hp
  | cons l records ih =>
    have hl : l.splitOn nl = [l] := List.splitOn_eq_singleton (hr l (by simp))
    simp only [journal, List.flatMap_cons, List.append_assoc, List.cons_append, List.nil_append]
    rw [List.splitOn_append_cons_of_beq _ _ (beq_self_eq_true nl), hl, ← journal, ih fun m hm => hr m (by simp [hm])]
    rfl

theorem lines_journal {records : List (List β)} {piece : List β} (hr : ∀ l ∈ records, OneLine nl cr l)
    (hp : nl ∉ piece) : lines nl cr (journal nl records ++ piece) = records ++ if piece = [] then [] else [piece] := by
  have hstrip : records.map (stripCr cr) = records := by
    refine (List.map_congr_left fun l hl => ?_).trans (List.map_id _)
    exact if_neg (hr l hl).ending
  simp only [lines, splitOn_journal (fun l hl => (hr l hl).newline) hp, List.dropLast_concat, hstrip, List.getLast?_concat]
  congr 1
  by_cases h : piece = [] <;> simp [h]

end

/-! ## Histories -/

section

variable {ι ρ σ τ : Type} (f : ι → σ → ρ × σ) (g : ι → τ → ρ × τ) (s₀ : σ) (t₀ : τ)

/-- The answers, newest first, and the state left. -/
def drive : List ι → List ρ × σ
  | [] => ([], s₀)
  | i :: older => ((f i (drive older).2).1 :: (drive older).1, (f i (drive older).2).2)

@[simp] theorem drive_nil : drive f s₀ [] = ([], s₀) := rfl
@[simp] theorem drive_cons (i : ι) (older : List ι) :
    drive f s₀ (i :: older) = ((f i (drive f s₀ older).2).1 :: (drive f s₀ older).1, (f i (drive f s₀ older).2).2) := rfl

variable {f g s₀ t₀}

/-- Answers may be summed up as they come or afterwards. -/
theorem drive_map {υ : Type} (φ : ρ → υ) (is : List ι) :
    drive (fun i s => (φ (f i s).1, (f i s).2)) s₀ is = ((drive f s₀ is).1.map φ, (drive f s₀ is).2) := by
  induction is with
  | nil => rfl
  | cons i older ih => simp only [drive_cons, ih, List.map_cons]

/-- Machines that answer alike step by step answer alike along a history. -/
theorem drive_sim {R : σ → τ → Prop} {P : ι → Prop} (h₀ : R s₀ t₀)
    (h : ∀ i s t, P i → R s t → (f i s).1 = (g i t).1 ∧ R (f i s).2 (g i t).2) (is : List ι) (hP : ∀ i ∈ is, P i) :
    (drive f s₀ is).1 = (drive g t₀ is).1 ∧ R (drive f s₀ is).2 (drive g t₀ is).2 := by
  induction is with
  | nil => exact ⟨rfl, h₀⟩
  | cons i older ih =>
    obtain ⟨hans, hR⟩ := ih fun j hj => hP j (by simp [hj])
    obtain ⟨h1, h2⟩ := h i _ _ (hP i (by simp)) hR
    exact ⟨by rw [drive_cons, drive_cons, h1, hans], h2⟩

end

end RigVeh.Base
