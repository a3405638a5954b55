/-
  RigVeh.Base.Forest — records that grow a forest.

  A list of records is a `Forest` if each is a root or a child of an earlier one. So
  the parents of a record come before it (`Forest.earlier`), and if a depth counts
  each child one more than its parent, then going up from a record reaches a root
  after as many steps as the record is deep, and not before (`Forest.climbs`).
-/

import Mathlib.Tactic.Common

namespace RigVeh.Base

variable {ρ : Type} (Root : ρ → Prop) (Child : ρ → ρ → Prop)

/-- `Child r p`: the record `r` says it is a child of `p`. -/
inductive Forest : List ρ → Prop
  | nil : Forest []
  | root {l : List ρ} {r : ρ} : Forest l → Root r → Forest (l ++ [r])
  | child {l : List ρ} {r p : ρ} : Forest l → p ∈ l → Child r p → Forest (l ++ [r])

/-- Go up `k` steps, if there are as many. -/
def climb (up : ρ → Option ρ) : Nat → ρ → Option ρ
  | 0, r => some r
  | k + 1, r => (up r).bind (climb up k)

/-- Records that go up alike climb alike. -/
theorem climb_rel {ρ' : Type} {R : ρ → ρ' → Prop} {up : ρ → Option ρ} {up' : ρ' → Option ρ'}
    (h : ∀ r r', R r r' → Option.Rel R (up r) (up' r')) (k : Nat) {r : ρ} {r' : ρ'} (hr : R r r') :
    Option.Rel R (climb up k r) (climb up' k r') := by
  induction k generalizing r r' with
  | zero => exact .some hr
  | succ k ih =>
    have hup := h r r' hr
    rw [climb, climb]
    generalize up r = o, up' r' = o' at hup
    cases hup with
    | none => exact .none
    | some hp => exact ih hp

/-- An element of a list is its last or one of the rest. -/
theorem snoc_split {l pre post : List ρ} {r s : ρ} (h : l ++ [s] = pre ++ r :: post) :
    (pre = l ∧ r = s) ∨ ∃ post', l = pre ++ r :: post' := by
  rcases List.eq_nil_or_concat post with rfl | ⟨post', s', rfl⟩
  · obtain ⟨rfl, hs⟩ := List.append_inj' h rfl
    exact .inl ⟨rfl, (List.singleton_inj.mp hs).symm⟩
  · rw [List.concat_eq_append, ← List.cons_append, ← List.append_assoc] at h
    exact .inr ⟨post', (List.append_inj' h rfl).1⟩

namespace Forest

variable {Root Child} {l : List ρ}

/-- Every record is a root or a child of one before it. -/
theorem earlier (h : Forest Root Child l) {pre post : List ρ} {r : ρ} (hl : l = pre ++ r :: post) :
    Root r ∨ ∃ p ∈ pre, Child r p := by
  induction h generalizing post with
  | nil => simp at hl
  | root _ hr ih =>
    rcases snoc_split hl with ⟨rfl, rfl⟩ | ⟨post', hl⟩
    · exact .inl hr
    · exact ih hl
  | child _ hp hc ih =>
    rcases snoc_split hl with ⟨rfl, rfl⟩ | ⟨post', hl⟩
    · exact .inr ⟨_, hp, hc⟩
    · exact ih hl

/-- From each record a root is reached by as many steps up as the record is deep; fewer
    lead to a child. -/
theorem climbs (h : Forest Root Child l) {up : ρ → Option ρ} {depth : ρ → Nat}
    (hroot : ∀ r ∈ l, Root r → depth r = 0)
    (hchild : ∀ r ∈ l, ∀ p ∈ l, Child r p → up r = some p ∧ depth r = depth p + 1) {r : ρ} (hr : r ∈ l) :
    (∃ t ∈ l, Root t ∧ climb up (depth r) r = some t) ∧
      ∀ k < depth r, ∃ m ∈ l, climb up k r = some m ∧ ∃ p ∈ l, Child m p := by
  have hcases {r : ρ} (hr : r ∈ l) : Root r ∨ ∃ p ∈ l, Child r p := by
    obtain ⟨pre, post, hl⟩ := List.append_of_mem hr
    rcases h.earlier hl with hroot | ⟨p, hp, hc⟩
    · exact .inl hroot
    · exact .inr ⟨p, hl ▸ List.mem_append_left _ hp, hc⟩
  -- on the depth: a parent is less deep by one
  induction hd : depth r generalizing r with
  | zero =>
    refine ⟨⟨r, hr, ?_, rfl⟩, fun k hk => absurd hk (Nat.not_lt_zero k)⟩
    rcases hcases hr with hroot | ⟨p, hp, hc⟩
    · exact hroot
    · have := (hchild r hr p hp hc).2
      omega
  | succ d ih =>
    rcases hcases hr with hroot' | ⟨p, hp, hc⟩
    · have := hroot r hr hroot'
      omega
    obtain ⟨hup, hdepth⟩ := hchild r hr p hp hc
    obtain ⟨⟨t, ht, hroot', hclimb⟩, hbelow⟩ := ih hp (by omega)
    refine ⟨⟨t, ht, hroot', by rw [climb, hup]; exact hclimb⟩, fun k hk => ?_⟩
    cases k with
    | zero => exact ⟨r, hr, rfl, p, hp, hc⟩
    | succ k =>
      obtain ⟨m, hm, hclimb, hparent⟩ := hbelow k (by omega)
      exact ⟨m, hm, by rw [climb, hup]; exact hclimb, hparent⟩

end Forest

end RigVeh.Base
