/-
  RigVeh.Base.Log — an append-only log of keyed records with a pointer into it.

  A `Log` keeps its two rules with it: no key is in it twice, and the pointer names a
  record that is. An append of a key already there is refused, and so is pointing
  at one that is not. `records_accepted` and `head_latest` say what a history of calls
  leaves: the records whose append was accepted, in order, and the key that was last
  pointed at or appended with a record that leads.
-/

import Mathlib.Data.List.Nodup
import RigVeh.Base.Lines

namespace RigVeh.Base

variable {ρ κ : Type}

structure Log (key : ρ → κ) where
  records : List ρ
  head : Option κ
  distinct : (records.map key).Nodup
  pointed : ∀ k ∈ head, k ∈ records.map key

namespace Log

variable {key : ρ → κ} [DecidableEq κ] (leads : ρ → Bool)

def empty : Log key := ⟨[], none, .nil, by simp⟩

/-- A record of a new key goes behind the others, and is pointed at if it leads. -/
def append (r : ρ) (l : Log key) : Bool × Log key :=
  if h : key r ∈ l.records.map key then (false, l)
  else (true, {
    records := l.records ++ [r]
    head := if leads r then some (key r) else l.head
    distinct := by
      rw [List.map_append, List.map_singleton, List.nodup_append]
      exact ⟨l.distinct, List.nodup_singleton _, fun a ha b hb => ne_of_mem_of_not_mem ha (by simp_all)⟩
    pointed := by
      intro k hk
      split at hk
      · simp_all
      · have := l.pointed k hk
        simp_all })

def point (k : κ) (l : Log key) : Bool × Log key :=
  if h : k ∈ l.records.map key then (true, { l with head := some k, pointed := by simpa using h }) else (false, l)

inductive Call (ρ κ : Type) where
  | append (r : ρ)
  | point (k : κ)

def answer : Call ρ κ → Log key → Bool × Log key
  | .append r => append leads r
  | .point k => point k

variable {leads}

theorem append_refused {r : ρ} {l : Log key} (h : key r ∈ l.records.map key) : l.append leads r = (false, l) := dif_pos h

theorem append_accepted {r : ρ} {l : Log key} (h : key r ∉ l.records.map key) :
    (l.append leads r).1 = true ∧ (l.append leads r).2.records = l.records ++ [r] ∧
      (l.append leads r).2.head = if leads r then some (key r) else l.head := by
  rw [append, dif_neg h]
  exact ⟨rfl, rfl, rfl⟩

theorem point_refused {k : κ} {l : Log key} (h : k ∉ l.records.map key) : l.point k = (false, l) := dif_neg h

theorem point_accepted {k : κ} {l : Log key} (h : k ∈ l.records.map key) :
    (l.point k).1 = true ∧ (l.point k).2.records = l.records ∧ (l.point k).2.head = some k := by
  rw [point, dif_pos h]
  exact ⟨rfl, rfl, rfl⟩

variable (leads) in
/-- A call is refused and changes nothing, or it appends, or it points. -/
theorem answer_cases (c : Call ρ κ) (l : Log key) :
    answer leads c l = (false, l) ∨
      (∃ r, c = .append r ∧ (answer leads c l).1 = true ∧ (answer leads c l).2.records = l.records ++ [r] ∧
        (answer leads c l).2.head = if leads r then some (key r) else l.head) ∨
      ∃ k, c = .point k ∧ (answer leads c l).1 = true ∧ (answer leads c l).2.records = l.records ∧
        (answer leads c l).2.head = some k := by
  cases c with
  | append r =>
    by_cases hk : key r ∈ l.records.map key
    · exact .inl (append_refused hk)
    · exact .inr (.inl ⟨r, rfl, append_accepted hk⟩)
  | point k =>
    by_cases hk : k ∈ l.records.map key
    · exact .inr (.inr ⟨k, rfl, point_accepted hk⟩)
    · exact .inl (point_refused hk)

theorem answer_extends (c : Call ρ κ) (l : Log key) : l.records <+: (answer leads c l).2.records := by
  obtain h | ⟨r, -, -, hrecords, -⟩ | ⟨k, -, -, hrecords, -⟩ := answer_cases leads c l
  · exact h ▸ List.prefix_rfl
  · rw [hrecords]
    exact List.prefix_append _ _
  · exact hrecords ▸ List.prefix_rfl

/-! ## Histories -/

/-- The calls with whether each was accepted, newest first. -/
abbrev Trace (ρ κ : Type) := List (Call ρ κ × Bool)

/-- The records whose append was accepted, oldest first. -/
def accepted : Trace ρ κ → List ρ
  | [] => []
  | (.append r, true) :: older => accepted older ++ [r]
  | _ :: older => accepted older

variable (key leads)

/-- The key last pointed at, or of the last leading record. -/
def latest : Trace ρ κ → Option κ
  | [] => none
  | (.append r, true) :: older => if leads r then some (key r) else latest older
  | (.point k, true) :: _ => some k
  | _ :: older => latest older

def trace (calls : List (Call ρ κ)) : Trace ρ κ := calls.zip (drive (answer leads) (empty : Log key) calls).1

variable {key leads}

theorem trace_cons (c : Call ρ κ) (older : List (Call ρ κ)) : trace key leads (c :: older) =
    (c, (answer leads c (drive (answer leads) (empty : Log key) older).2).1) :: trace key leads older :=
  rfl

theorem records_accepted (calls : List (Call ρ κ)) :
    (drive (answer leads) (empty : Log key) calls).2.records = accepted (trace key leads calls) := by
  induction calls with
  | nil => rfl
  | cons c older ih =>
    rw [trace_cons, drive_cons]
    generalize (drive (answer leads) (empty : Log key) older).2 = l at ih ⊢
    obtain h | ⟨r, rfl, hok, hrecords, -⟩ | ⟨k, rfl, hok, hrecords, -⟩ := answer_cases leads c l
    · rw [h]
      cases c <;> exact ih
    · rw [hok, hrecords, ih]
      rfl
    · rw [hok, hrecords, ih]
      rfl

theorem head_latest (calls : List (Call ρ κ)) :
    (drive (answer leads) (empty : Log key) calls).2.head = latest key leads (trace key leads calls) := by
  induction calls with
  | nil => rfl
  | cons c older ih =>
    rw [trace_cons, drive_cons]
    generalize (drive (answer leads) (empty : Log key) older).2 = l at ih ⊢
    obtain h | ⟨r, rfl, hok, -, hhead⟩ | ⟨k, rfl, hok, -, hhead⟩ := answer_cases leads c l
    · rw [h]
      cases c <;> exact ih
    · rw [hok, hhead, ih]
      rfl
    · rw [hok, hhead]
      rfl

/-- Earlier records are a prefix of later ones. -/
theorem drive_extends (newer older : List (Call ρ κ)) : (drive (answer leads) (empty : Log key) older).2.records <+:
    (drive (answer leads) (empty : Log key) (newer ++ older)).2.records := by
  induction newer with
  | nil => exact List.prefix_refl _
  | cons c newer ih => exact ih.trans (answer_extends c _)

end Log

end RigVeh.Base
