/-
  RigVeh.Json.Form — canonical JSON is a canonical form.

  `Canonical` shows that values with one text are equal. Here is the converse: equal
  values (`≈`) have one text. An object equal to another is, entry by entry, a
  permutation of it (`object_same_iff`), and sorting by distinct keys forgets the order
  (`sort_perm`); the rest is induction on the value (`canon_same`). So two values have
  the same canonical bytes exactly if they are equal up to the order of keys at every
  depth (`canonical_form`).
-/

import Mathlib.Data.List.Perm.Subperm
import RigVeh.Reference

namespace RigVeh.Json

open RigVeh.Base

/-! ## Objects up to order -/

/-- Entries with the same key and equal values. -/
def SameEntry (e f : String × Tree) : Prop := e.1 = f.1 ∧ e.2.Same f.2

theorem mem_of_lookup {α : Type} {m : List (String × α)} {k : String} {v : α} (h : m.lookup k = some v) : (k, v) ∈ m := by
  induction m with
  | nil => cases h
  | cons e m ih =>
    rw [List.lookup_cons] at h
    by_cases hk : k = e.1
    · subst hk
      simp only [beq_self_eq_true, Option.some.injEq] at h
      subst h
      exact List.mem_cons_self
    · rw [beq_eq_false_iff_ne.mpr hk] at h
      exact List.mem_cons_of_mem _ (ih h)

/-- Objects are equal when one's entries, in some order, match the other's. -/
theorem object_same_iff {m n : List (String × Tree)} (hm : (m.map Prod.fst).Nodup) (hn : (n.map Prod.fst).Nodup) :
    (Tree.object m).Same (.object n) ↔ ∃ l, l.Perm n ∧ List.Forall₂ SameEntry m l := by
  constructor
  · intro ⟨hlen, hs⟩
    rw [Tree.sameEntries_iff] at hs
    -- the entries of `n`, in the order of `m`
    let l := m.map fun e => (e.1, (n.lookup e.1).getD .null)
    have hkeys : l.map Prod.fst = m.map Prod.fst := by simp [l, Function.comp_def]
    have hsub : l ⊆ n := by
      intro f hf
      obtain ⟨e, he, rfl⟩ := List.mem_map.mp hf
      obtain ⟨w, hw, -⟩ := hs e he
      rw [hw]
      exact mem_of_lookup hw
    have hnodup : l.Nodup := List.Nodup.of_map Prod.fst (hkeys ▸ hm)
    refine ⟨l, (hnodup.subperm hsub).perm_of_length_le (by simp [l, hlen]), ?_⟩
    rw [List.forall₂_map_right_iff, List.forall₂_same]
    intro e he
    obtain ⟨w, hw, hsame⟩ := hs e he
    exact ⟨rfl, by rw [hw]; exact hsame⟩
  · intro ⟨l, hp, hl⟩
    refine ⟨hl.length_eq.trans hp.length_eq, (Tree.sameEntries_iff m n).mpr ?_⟩
    intro e he
    obtain ⟨i, hi, rfl⟩ := List.getElem_of_mem he
    have hi' : i < l.length := hl.length_eq ▸ hi
    obtain ⟨hk, hs⟩ := hl.get hi hi'
    refine ⟨_, ?_, hs⟩
    rw [show m[i].1 = l[i].1 from hk]
    exact Tree.lookup_eq_some_of_mem hn (hp.subset (List.getElem_mem hi'))

instance {α : Type} : Std.Total (byKey (α := α)) := ⟨fun a b => String.le_total a.1 b.1⟩

instance {α : Type} : IsTrans (String × α) byKey := ⟨fun _ _ _ => String.le_trans⟩

/-- Sorting by distinct keys forgets the order. -/
theorem sort_perm {α : Type} {m n : List (String × α)} (hm : (m.map Prod.fst).Nodup) (h : m.Perm n) :
    m.insertionSort byKey = n.insertionSort byKey := by
  have hperm : (m.insertionSort byKey).Perm (n.insertionSort byKey) :=
    (List.perm_insertionSort byKey m).trans (h.trans (List.perm_insertionSort byKey n).symm)
  refine hperm.eq_of_pairwise ?_ (List.pairwise_insertionSort byKey m) (List.pairwise_insertionSort byKey n)
  intro a b ha hb hab hba
  have ha' : a ∈ m := (List.mem_insertionSort byKey).mp ha
  have hb' : b ∈ m := h.mem_iff.mpr ((List.mem_insertionSort byKey).mp hb)
  exact List.inj_on_of_nodup_map hm ha' hb' (String.le_antisymm hab hba)

/-! ## Equal values have one text -/

variable {X : Crates}

theorem wfEntries_perm {m n : List (String × Tree)} (h : m.Perm n) (hn : Tree.WfEntries n) : Tree.WfEntries m := by
  rw [Tree.wfEntries_iff] at hn ⊢
  exact fun e he => hn e (h.subset he)

mutual

theorem canon_same : ∀ v w : Tree, v.Wf → w.Wf → v.Same w → canon X v = canon X w
  | .null, .null, _, _, _ => rfl
  | .bool b, .bool b', _, _, h => by rw [show b = b' from h]
  | .number n, .number n', _, _, h => by rw [show n = n' from h]
  | .string s, .string s', _, _, h => by rw [show s = s' from h]
  | .array vs, .array ws, hv, hw, h => by rw [canon, canon, canon_same_items vs ws hv hw h]
  | .object m, .object n, hv, hw, h => by
    obtain ⟨l, hp, hl⟩ := (object_same_iff hv.1 hw.1).mp h
    have hsorted : (canonEntries X m).insertionSort byKey = (canonEntries X n).insertionSort byKey := by
      rw [canon_same_entries m l hv.2 (wfEntries_perm hp hw.2) hl, canonEntries_eq, canonEntries_eq]
      refine sort_perm ?_ (hp.map _)
      rw [List.map_map]
      exact (hp.map Prod.fst).nodup_iff.mpr hw.1
    rw [canon, canon, hsorted]

theorem canon_same_items : ∀ vs ws : List Tree, Tree.WfItems vs → Tree.WfItems ws → Tree.SameItems vs ws →
    canonItems X vs = canonItems X ws
  | [], [], _, _, _ => rfl
  | v :: vs, w :: ws, hv, hw, h => by
    rw [canonItems, canonItems, canon_same v w hv.1 hw.1 h.1, canon_same_items vs ws hv.2 hw.2 h.2]

theorem canon_same_entries : ∀ m l : List (String × Tree), Tree.WfEntries m → Tree.WfEntries l →
    List.Forall₂ SameEntry m l → canonEntries X m = canonEntries X l
  | [], [], _, _, _ => rfl
  | (k, v) :: m, (k', v') :: l, hm, hl, .cons h hr => by
    rw [canonEntries, canonEntries, canon_same v v' hm.1 hl.1 h.2, canon_same_entries m l hm.2 hl.2 hr, show k = k' from h.1]

end

theorem canonicalJson_congr {v w : Value} (h : v ≈ w) : canonicalJson X v = canonicalJson X w := by
  rw [canonicalJson_eq, canonicalJson_eq, canon_same v.1 w.1 v.2 w.2 h]

/-- Every value has canonical bytes, and two values have the same ones exactly if they
    are equal up to the order of object keys. -/
theorem canonical_form (hX : X.JsonText) (v w : Value) :
    ∃ b b', canonicalJson X v = .ok b ∧ canonicalJson X w = .ok b' ∧ (b = b' ↔ v ≈ w) := by
  refine ⟨_, _, canonicalJson_eq X v, canonicalJson_eq X w, ?_, ?_⟩
  · intro h
    refine canonicalJson_injective hX ?_
    rw [canonicalJson_eq, canonicalJson_eq, h]
  · intro h
    have hc := (canonicalJson_congr h : canonicalJson X v = canonicalJson X w)
    rw [canonicalJson_eq, canonicalJson_eq] at hc
    exact Except.ok.inj hc

namespace Value

theorem equiv_refl (v : Value) : v ≈ v := canonicalJson_injective Reference.jsonText rfl

/-- Objects with equal values under the same keys, in one order, are equal. -/
theorem object_congr {m n : List (String × Value)} {hm : (m.map Prod.fst).Nodup} {hn : (n.map Prod.fst).Nodup}
    (h : List.Forall₂ (fun e f => e.1 = f.1 ∧ e.2 ≈ f.2) m n) : object m hm ≈ object n hn := by
  refine (object_same_iff (object m hm).2.1 (object n hn).2.1).mpr ⟨_, .refl _, ?_⟩
  rw [List.forall₂_map_left_iff, List.forall₂_map_right_iff]
  exact h

end Value

end RigVeh.Json

namespace RigVeh.Reference

open RigVeh.Json

/-- An object in an array in an object, each with its keys in one order or the other. -/
def nested : Value :=
  .object [("a", .null), ("b", .array [.object [("x", .bool true), ("y", .string "z")] (by decide)])] (by decide)

def nested' : Value :=
  .object [("b", .array [.object [("y", .string "z"), ("x", .bool true)] (by decide)]), ("a", .null)] (by decide)

theorem canonical_form_nested : ∃ b b', canonicalJson Reference nested = .ok b ∧
    canonicalJson Reference nested' = .ok b' ∧ (b = b' ↔ nested ≈ nested') :=
  canonical_form jsonText nested nested'

example : canonicalJson Reference nested = canonicalJson Reference nested' := by rfl

end RigVeh.Reference
