/-
  RigVeh.Base.Inserts — records put where their key is free.

  `put` binds a record to its key unless something is bound there, so of the records with
  one key the first wins. `place` is the store after a list of records, `admitted` are
  those it took. Put in any order, the same records bind the same keys
  (`place_free_perm`), and bind them alike exactly if records with one free key are one
  record (`place_perm_iff`).
-/

import Mathlib.Data.List.Perm.Basic
import Mathlib.Logic.Function.Basic

namespace RigVeh.Base

variable {κ ν : Type} [DecidableEq κ] (key : ν → κ)

def put (m : κ → Option ν) (v : ν) : κ → Option ν :=
  if (m (key v)).isSome then m else Function.update m (key v) (some v)

def place (m : κ → Option ν) (vs : List ν) : κ → Option ν := vs.foldl (put key) m

def admitted : (κ → Option ν) → List ν → List ν
  | _, [] => []
  | m, v :: vs => if (m (key v)).isSome then admitted m vs else v :: admitted (put key m v) vs

variable {key} {m : κ → Option ν} {v : ν} {vs ws : List ν} {k : κ}

theorem put_bound (h : (m (key v)).isSome) : put key m v = m := if_pos h

theorem put_free (h : m (key v) = none) : put key m v = Function.update m (key v) (some v) := by
  rw [put, h]
  rfl

theorem put_apply : put key m v k = (m k).or (if key v = k then some v else none) := by
  by_cases hk : key v = k
  · subst hk
    rcases h : m (key v) with _ | w
    · rw [put_free h, Function.update_self, if_pos rfl]
      rfl
    · rw [put_bound (by rw [h]; rfl), h]
      rfl
  · rw [if_neg hk, Option.or_none, put]
    split
    · rfl
    · exact Function.update_of_ne (Ne.symm hk) _ _

@[simp] theorem place_nil : place key m [] = m := rfl
@[simp] theorem place_cons : place key m (v :: vs) = place key (put key m v) vs := rfl

/-- What was bound stays; of the records with a free key the first is bound. -/
theorem place_apply : place key m vs k = (m k).or (vs.find? fun v => key v = k) := by
  induction vs generalizing m with
  | nil => simp
  | cons v vs ih =>
    rw [place_cons, ih, put_apply, Option.or_assoc, List.find?_cons]
    by_cases hk : key v = k <;> simp [hk]

theorem place_free : place key m vs k = none ↔ m k = none ∧ ∀ v ∈ vs, key v ≠ k := by
  rw [place_apply, Option.or_eq_none_iff, List.find?_eq_none]
  simp

/-- The order does not matter to which keys are bound. -/
theorem place_free_perm (h : vs.Perm ws) : place key m vs k = none ↔ place key m ws k = none := by
  rw [place_free, place_free]
  refine and_congr_right fun _ => ?_
  constructor
  · intro hv w hw
    exact hv w (h.mem_iff.mpr hw)
  · intro hw v hv
    exact hw v (h.mem_iff.mp hv)

/-- If there is no choice of what to bind, the order does not matter. -/
theorem place_agree (h : ∀ v ∈ vs, ∀ w ∈ vs, key v = key w → m (key v) = none → v = w) (hp : ws.Perm vs) :
    place key m ws = place key m vs := by
  funext k
  rw [place_apply, place_apply]
  rcases hm : m k with _ | u
  · rcases hv : vs.find? fun v => key v = k with _ | v
    · have hfree : place key m ws k = none := by
        rw [place_free_perm hp, place_apply, hm, hv]
        rfl
      rwa [place_apply, hm] at hfree
    · have hkv : key v = k := by simpa using List.find?_some hv
      rcases hw : ws.find? fun v => key v = k with _ | w
      · exact absurd hkv (by simpa using List.find?_eq_none.mp hw v (hp.mem_iff.mpr (List.mem_of_find?_eq_some hv)))
      · have hkw : key w = k := by simpa using List.find?_some hw
        have hmem := hp.mem_iff.mp (List.mem_of_find?_eq_some hw)
        rw [h w hmem v (List.mem_of_find?_eq_some hv) (hkw.trans hkv.symm) (hkw ▸ hm)]
  · rfl

section

variable {ι : Type} {f : ι → Option ν} {js : List ι}

/-- Of some jobs that each bring a record or none, any one may come first. -/
theorem place_first {j : ι} (hj : j ∈ js) (hv : f j = some v) (hf : m (key v) = none) :
    ∃ order : List ι, order.Perm js ∧ place key m (order.filterMap f) (key v) = some v := by
  obtain ⟨before, after, rfl⟩ := List.append_of_mem hj
  refine ⟨j :: (before ++ after), List.perm_middle.symm, ?_⟩
  rw [List.filterMap_cons_some hv, place_apply, hf]
  simp

/-- The order does not matter exactly if there is no choice of what to bind. -/
theorem place_perm_iff :
    (∀ order : List ι, order.Perm js → place key m (order.filterMap f) = place key m (js.filterMap f)) ↔
      ∀ v ∈ js.filterMap f, ∀ w ∈ js.filterMap f, key v = key w → m (key v) = none → v = w := by
  constructor
  · intro h v hv w hw hk hf
    obtain ⟨i, hi, hiv⟩ := List.mem_filterMap.mp hv
    obtain ⟨j, hj, hjw⟩ := List.mem_filterMap.mp hw
    obtain ⟨order₁, hp₁, hv₁⟩ := place_first hi hiv hf
    obtain ⟨order₂, hp₂, hw₂⟩ := place_first hj hjw (hk ▸ hf)
    rw [h order₁ hp₁] at hv₁
    rw [h order₂ hp₂, ← hk, hv₁] at hw₂
    exact Option.some.inj hw₂
  · intro h order hp
    exact place_agree h (hp.filterMap f)

end

end RigVeh.Base
