/-
  RigVeh.Base.Ranking — the best entries of a list, ties to the earlier one.

  `le a b` says that `a` is at least as good as `b`. Entries are told apart by their
  positions, so `Before` is strict: better, or as good and earlier. `TopK` is what the
  first `k` of a stable sort are (`topK_sorted`); the first of all (`FirstBest`) is one
  entry (`firstBest_unique`), the head of the sorted list (`firstBest_sorted`) and what
  a running best that keeps on a tie ends with (`firstBest_keeps`, `firstBest_takes`).
  When the list grows at its end, what stays among the first `k` is a prefix of them
  (`TopK.stays`) and each place is filled as well as before (`TopK.rises`).
-/

import Mathlib.Data.List.Sigma
import Mathlib.Tactic.Common

namespace RigVeh.Base

variable {α : Type}

structure Ranks (le : α → α → Bool) : Prop where
  trans : ∀ a b c, le a b = true → le b c = true → le a c = true
  total : ∀ a b, (le a b || le b a) = true

/-- `a` comes before `b`, each with its position. -/
def Before (le : α → α → Bool) (a b : α × Nat) : Prop := le a.1 b.1 = true ∧ (le b.1 a.1 = true → a.2 < b.2)

/-- `picked` are the `k` best entries of `l`, or all of them, best first. -/
structure TopK (le : α → α → Bool) (l : List α) (k : Nat) (picked : List (α × Nat)) : Prop where
  listed : ∀ e ∈ picked, l[e.2]? = some e.1
  distinct : picked.Nodup
  length : picked.length = min k l.length
  ordered : picked.Pairwise (Before le)
  rest : ∀ e ∈ l.zipIdx, e ∉ picked → ∀ p ∈ picked, Before le p e

/-- `a` is better than every entry before it and no worse than any after it. -/
def FirstBest (le : α → α → Bool) (l : List α) (a : α) : Prop :=
  ∃ before after, l = before ++ a :: after ∧ (∀ b ∈ before, le b a = false) ∧ ∀ b ∈ after, le a b = true

variable {le : α → α → Bool} {l : List α} {a b : α} {k : Nat}

/-! ## Sorting -/

/-- A stable sort of the entries with their positions is strictly ordered. -/
theorem sorted_before (h : Ranks le) (l : List α) : (l.zipIdx.mergeSort (List.zipIdxLE le)).Pairwise (Before le) := by
  have hle := List.pairwise_mergeSort (List.zipIdxLE_trans h.trans) (List.zipIdxLE_total h.total) l.zipIdx
  have hpos : ((l.zipIdx.mergeSort (List.zipIdxLE le)).map Prod.snd).Nodup :=
    ((List.mergeSort_perm _ _).map Prod.snd).nodup_iff.mpr (List.nodup_zipIdx_map_snd l)
  have hne := List.pairwise_map.mp hpos
  refine (hle.and hne).imp ?_
  intro a b hab
  obtain ⟨hle, hne⟩ := hab
  unfold List.zipIdxLE at hle
  split at hle
  · rename_i hab
    refine ⟨hab, ?_⟩
    intro hba
    rw [if_pos hba, decide_eq_true_iff] at hle
    omega
  · cases hle

theorem topK_sorted (h : Ranks le) (l : List α) (k : Nat) :
    ∃ picked, TopK le l k picked ∧ picked.map Prod.fst = (l.mergeSort le).take k := by
  have hsorted := sorted_before h l
  have hmem (e : α × Nat) : e ∈ l.zipIdx.mergeSort (List.zipIdxLE le) ↔ e ∈ l.zipIdx := List.mem_mergeSort
  have hnodup : (l.zipIdx.mergeSort (List.zipIdxLE le)).Nodup :=
    (List.mergeSort_perm _ _).nodup_iff.mpr (List.Nodup.of_map _ (List.nodup_zipIdx_map_snd l))
  have hlength : (l.zipIdx.mergeSort (List.zipIdxLE le)).length = l.length := by simp
  have hfst : (l.zipIdx.mergeSort (List.zipIdxLE le)).map Prod.fst = l.mergeSort le := List.mergeSort_zipIdx
  generalize l.zipIdx.mergeSort (List.zipIdxLE le) = sorted at *
  refine ⟨sorted.take k, ⟨?_, ?_, ?_, ?_, ?_⟩, ?_⟩
  · intro e he
    exact List.mem_zipIdx_iff_getElem?.mp ((hmem e).mp (List.mem_of_mem_take he))
  · exact hnodup.sublist (List.take_sublist k sorted)
  · rw [List.length_take, hlength]
  · exact hsorted.sublist (List.take_sublist k sorted)
  · intro e he hout p hp
    rw [← List.take_append_drop k sorted] at hsorted hmem
    rcases List.mem_append.mp ((hmem e).mpr he) with he | he
    · exact absurd he hout
    · exact (List.pairwise_append.mp hsorted).2.2 p hp e he
  · rw [List.map_take, hfst]

/-! ## The first of the best -/

theorem FirstBest.best (h : Ranks le) (ha : FirstBest le l a) : ∀ b ∈ l, le a b = true := by
  intro b hb
  obtain ⟨before, after, rfl, hbefore, hafter⟩ := ha
  have htotal (c : α) (hc : le c a = false) : le a c = true := by simpa [hc] using h.total a c
  rcases List.mem_append.mp hb with hb | hb
  · exact htotal b (hbefore b hb)
  · rcases List.mem_cons.mp hb with rfl | hb
    · simpa using h.total b b
    · exact hafter b hb

theorem firstBest_unique (ha : FirstBest le l a) (hb : FirstBest le l b) : a = b := by
  obtain ⟨before, after, rfl, hbefore, hafter⟩ := ha
  obtain ⟨before', after', heq, hbefore', hafter'⟩ := hb
  rcases List.append_eq_append_iff.mp heq with ⟨c, rfl, hc⟩ | ⟨c, rfl, hc⟩
  · cases c with
    | nil => exact (List.cons.inj hc).1
    | cons a' c =>
      obtain ⟨rfl, rfl⟩ := List.cons.inj hc
      have hlt := hbefore' a (by simp)
      rw [hafter b (by simp)] at hlt
      cases hlt
  · cases c with
    | nil => exact (List.cons.inj hc).1.symm
    | cons b' c =>
      obtain ⟨rfl, rfl⟩ := List.cons.inj hc
      have hlt := hbefore b (by simp)
      rw [hafter' a (by simp)] at hlt
      cases hlt

/-- The head of the sorted list. -/
theorem firstBest_sorted (h : Ranks le) (ha : (l.mergeSort le).take 1 = [a]) : FirstBest le l a := by
  obtain ⟨picked, htop, hpicked⟩ := topK_sorted h l 1
  rw [ha] at hpicked
  obtain ⟨⟨a', i⟩, rest, rfl, rfl, hrest⟩ := List.map_eq_cons_iff.mp hpicked
  obtain rfl := List.map_eq_nil_iff.mp hrest
  have hi : l[i]? = some a' := htop.listed (a', i) (by simp)
  have hbefore {b : α} {j : Nat} (hj : l[j]? = some b) (hne : j ≠ i) : Before le (a', i) (b, j) := by
    refine htop.rest (b, j) (List.mem_zipIdx_iff_getElem?.mpr hj) ?_ (a', i) (by simp)
    simp [hne]
  obtain ⟨hlt, hget⟩ := List.getElem?_eq_some_iff.mp hi
  refine ⟨l.take i, l.drop (i + 1), ?_, ?_, ?_⟩
  · rw [← hget, List.getElem_cons_drop, List.take_append_drop]
  · intro b hb
    obtain ⟨j, hj, hb⟩ := List.mem_take_iff_getElem.mp hb
    have hji : j < i := by omega
    have hbef := hbefore (List.getElem?_eq_some_iff.mpr ⟨_, hb⟩) (by omega)
    apply eq_false_of_ne_true
    intro hba
    have := hbef.2 hba
    omega
  · intro b hb
    obtain ⟨j, hj, hb⟩ := List.mem_drop_iff_getElem.mp hb
    exact (hbefore (List.getElem?_eq_some_iff.mpr ⟨_, hb⟩) (by omega)).1

theorem firstBest_keeps (ha : FirstBest le l a) (hb : le a b = true) : FirstBest le (l ++ [b]) a := by
  obtain ⟨before, after, rfl, hbefore, hafter⟩ := ha
  refine ⟨before, after ++ [b], by simp, hbefore, ?_⟩
  intro c hc
  rcases List.mem_append.mp hc with hc | hc
  · exact hafter c hc
  · obtain rfl := List.mem_singleton.mp hc
    exact hb

theorem firstBest_takes (h : Ranks le) (ha : FirstBest le l a) (hb : le a b = false) : FirstBest le (l ++ [b]) b := by
  refine ⟨l, [], rfl, ?_, by simp⟩
  intro c hc
  apply eq_false_of_ne_true
  intro hcb
  rw [h.trans a c b (ha.best h c hc) hcb] at hb
  cases hb

/-! ## A longer list -/

section

variable {β : Type} {r : β → β → Prop} {o p : List β}

/-- A sorted list drawn from another, with everything of it that comes before, is a prefix. -/
theorem pairwise_prefix (hr : ∀ a b, r a b → ¬ r b a) (ho : o.Pairwise r) (hp : p.Pairwise r) (hsub : o ⊆ p)
    (hdown : ∀ a ∈ p, ∀ b ∈ o, r a b → a ∈ o) : o <+: p := by
  induction p generalizing o with
  | nil => exact List.subset_nil.mp hsub ▸ List.prefix_rfl
  | cons a p ih =>
    obtain ⟨ha, hpp⟩ := List.pairwise_cons.mp hp
    cases o with
    | nil => exact List.nil_prefix
    | cons b o =>
      obtain ⟨hb, ho⟩ := List.pairwise_cons.mp ho
      -- the first of both is the same
      have hba : b = a := by
        rcases List.mem_cons.mp (hsub List.mem_cons_self) with hba | hbp
        · exact hba
        · rcases List.mem_cons.mp (hdown a List.mem_cons_self b List.mem_cons_self (ha b hbp)) with hab | hao
          · exact hab.symm
          · exact absurd (ha b hbp) (hr _ _ (hb a hao))
      subst hba
      refine List.cons_prefix_cons.mpr ⟨rfl, ih ho hpp (fun c hc => ?_) fun c hc d hd hcd => ?_⟩
      · rcases List.mem_cons.mp (hsub (List.mem_cons_of_mem _ hc)) with rfl | hcp
        · exact absurd (hb _ hc) (hr _ _ (hb _ hc))
        · exact hcp
      · rcases List.mem_cons.mp (hdown c (List.mem_cons_of_mem _ hc) d (List.mem_cons_of_mem _ hd) hcd) with rfl | hco
        · exact absurd (ha _ hc) (hr _ _ (ha _ hc))
        · exact hco

end

theorem before_asymm {a b : α × Nat} (hab : Before le a b) : ¬ Before le b a := by
  intro hba
  have hlt := hab.2 hba.1
  have hlt' := hba.2 hab.1
  omega

section

variable {m : List α} {picked picked' : List (α × Nat)}

/-- What comes before a picked entry is picked. -/
theorem TopK.down (ht : TopK le l k picked) {e p : α × Nat} (he : e ∈ l.zipIdx) (hp : p ∈ picked) (hb : Before le e p) :
    e ∈ picked := by
  by_contra hn
  exact before_asymm hb (ht.rest e he hn p hp)

theorem TopK.longer (ht : TopK le l k picked) {e : α × Nat} (he : e ∈ picked) : e ∈ (l ++ m).zipIdx := by
  have hlt := (List.getElem?_eq_some_iff.mp (ht.listed e he)).1
  rw [List.mem_zipIdx_iff_getElem?, List.getElem?_append_left hlt]
  exact ht.listed e he

/-- An entry of `l` that is picked from more was picked from `l`. -/
theorem TopK.kept (ht : TopK le l k picked) (ht' : TopK le (l ++ m) k picked') {e : α × Nat} (he : e ∈ picked')
    (hl : e.2 < l.length) : e ∈ picked := by
  by_contra hout
  have hmem : e ∈ l.zipIdx := by
    have hget := ht'.listed e he
    rw [List.getElem?_append_left hl] at hget
    exact List.mem_zipIdx_iff_getElem?.mpr hget
  have hnodup : (e :: picked).Nodup := List.nodup_cons.mpr ⟨hout, ht.distinct⟩
  -- the picked of `l` and `e` are too many
  have hall : e :: picked ⊆ picked' := by
    intro p hp
    rcases List.mem_cons.mp hp with rfl | hp
    · exact he
    · exact ht'.down (ht.longer hp) he (ht.rest e hmem hout p hp)
  have hsome : e :: picked ⊆ l.zipIdx := by
    intro p hp
    rcases List.mem_cons.mp hp with rfl | hp
    · exact hmem
    · exact List.mem_zipIdx_iff_getElem?.mpr (ht.listed p hp)
  have hle := (List.subperm_of_subset hnodup hall).length_le
  have hle' := (List.subperm_of_subset hnodup hsome).length_le
  have hlen := ht.length
  have hlen' := ht'.length
  rw [List.length_cons] at hle hle'
  rw [List.length_zipIdx] at hle'
  omega

/-- What stays picked is a prefix of what was. -/
theorem TopK.stays (ht : TopK le l k picked) (ht' : TopK le (l ++ m) k picked') :
    picked'.filter (fun e => decide (e.2 < l.length)) <+: picked := by
  refine pairwise_prefix (fun _ _ => before_asymm) (ht'.ordered.sublist List.filter_sublist) ht.ordered ?_ ?_
  · intro e he
    obtain ⟨he, hl⟩ := List.mem_filter.mp he
    exact ht.kept ht' he (of_decide_eq_true hl)
  · intro e he p hp hb
    have hlt := (List.getElem?_eq_some_iff.mp (ht.listed e he)).1
    exact List.mem_filter.mpr ⟨ht'.down (ht.longer he) (List.mem_filter.mp hp).1 hb, decide_eq_true hlt⟩

/-- At each place what is picked from more is as good at least. -/
theorem TopK.rises (h : Ranks le) (ht : TopK le l k picked) (ht' : TopK le (l ++ m) k picked') {i : Nat} {p : α × Nat}
    (hp : picked[i]? = some p) : ∃ p', picked'[i]? = some p' ∧ le p'.1 p.1 = true := by
  obtain ⟨hi, hget⟩ := List.getElem?_eq_some_iff.mp hp
  have hlen := ht.length
  have hlen' := ht'.length
  rw [List.length_append] at hlen'
  have hi' : i < picked'.length := by omega
  refine ⟨picked'[i], List.getElem?_eq_getElem hi', ?_⟩
  by_contra hworse
  have hworse := eq_false_of_ne_true hworse
  -- all of the first `i + 1` come before the new one at `i`
  have hfirst : picked.take (i + 1) ⊆ picked'.take i := by
    intro q hq
    obtain ⟨j, hj, hqj⟩ := List.mem_take_iff_getElem.mp hq
    have hqp : le q.1 p.1 = true := by
      rcases Nat.lt_or_ge j i with hji | hji
      · rw [← hqj, ← hget]
        exact (List.pairwise_iff_getElem.mp ht.ordered j i _ hi hji).1
      · obtain rfl : j = i := by omega
        rw [← hqj, hget]
        simpa using h.total p.1 p.1
    have hpp : le p.1 picked'[i].1 = true := by simpa [hworse] using h.total p.1 picked'[i].1
    have hqb : Before le q picked'[i] := by
      refine ⟨h.trans _ _ _ hqp hpp, fun hback => ?_⟩
      rw [h.trans _ _ _ hback hqp] at hworse
      cases hworse
    have hmem := ht'.down (ht.longer (List.mem_of_mem_take hq)) (List.getElem_mem hi') hqb
    have hsplit : picked' = picked'.take i ++ picked'[i] :: picked'.drop (i + 1) := by
      rw [List.getElem_cons_drop, List.take_append_drop]
    rw [hsplit] at hmem
    rcases List.mem_append.mp hmem with hmem | hmem
    · exact hmem
    · rcases List.mem_cons.mp hmem with heq | hmem
      · exact absurd (heq ▸ hqb) (before_asymm (heq ▸ hqb))
      · have hord := ht'.ordered
        rw [hsplit] at hord
        exact absurd hqb (before_asymm ((List.pairwise_cons.mp (List.pairwise_append.mp hord).2.1).1 q hmem))
  have hle := (List.subperm_of_subset (ht.distinct.sublist (List.take_sublist _ _)) hfirst).length_le
  rw [List.length_take, List.length_take] at hle
  omega

end

end RigVeh.Base
