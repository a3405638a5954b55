/-
  RigVeh.Base.Line — records that follow the last marked one before them.

  `lastMarked l` is the last record of a list that is marked. A list is `Linked` if every
  record stands in the relation `Next` to the last marked one before it and to their
  number. It is told for a list that grows at the end (`linked_snoc`), and read anywhere
  in it.
-/

import RigVeh.Base.Forest

namespace RigVeh.Base

variable {ρ : Type} (marked : ρ → Bool)

def lastMarked (l : List ρ) : Option ρ := l.reverse.find? marked

theorem lastMarked_snoc (l : List ρ) (r : ρ) :
    lastMarked marked (l ++ [r]) = if marked r then some r else lastMarked marked l := by
  rw [lastMarked, List.reverse_append, List.reverse_singleton, List.singleton_append, List.find?_cons]
  cases marked r <;> rfl

/-- What comes after the last marked record is not marked. -/
theorem lastMarked_split {l : List ρ} {r : ρ} (h : lastMarked marked l = some r) :
    ∃ pre post, l = pre ++ r :: post ∧ marked r = true ∧ l.countP marked = pre.countP marked + 1 := by
  obtain ⟨hr, post, pre, hsplit, hpost⟩ := List.find?_eq_some_iff_append.mp h
  have hl : l = pre.reverse ++ r :: post.reverse := by
    rw [← List.reverse_reverse l, hsplit, List.reverse_append, List.reverse_cons, List.append_assoc, List.singleton_append]
  have hnone : post.reverse.countP marked = 0 := by
    rw [List.countP_eq_zero]
    intro b hb
    simpa using hpost b (List.mem_reverse.mp hb)
  refine ⟨pre.reverse, post.reverse, hl, hr, ?_⟩
  rw [hl, List.countP_append, List.countP_cons_of_pos hr, hnone]

/-- Every record follows the last marked one before it, and their number. -/
def Linked (Next : Option ρ → Nat → ρ → Prop) (l : List ρ) : Prop :=
  ∀ pre r post, l = pre ++ r :: post → Next (lastMarked marked pre) (pre.countP marked) r

variable {marked} {Next : Option ρ → Nat → ρ → Prop} {l : List ρ} {r : ρ}

theorem linked_nil : Linked marked Next [] := by
  intro pre r post h
  cases pre <;> cases h

theorem linked_snoc (h : Linked marked Next l) (hr : Next (lastMarked marked l) (l.countP marked) r) :
    Linked marked Next (l ++ [r]) := by
  intro pre s post hsplit
  rcases snoc_split hsplit with ⟨rfl, rfl⟩ | ⟨post', hl⟩
  · exact hr
  · exact h pre s post' hl

end RigVeh.Base
