/-
  RigVeh.Runner.Ensemble — the best agents (`src/ensemble.rs`), and the best one.

  `BestByMetric::top_k` filters, sorts stably with the scores compared the other way
  round and truncates. `Best` (`src/selector.rs`) runs over the same nodes and keeps
  what it has on a tie. Over scores in a linear order (`Arith.Linear`):
  - `topK_best`: the first picks the k best nodes, best first, ties in order of
    insertion, and fewer are a prefix of more.
  - `best_agrees`: the second picks what the first picks for k = 1, the earliest node of
    the highest score.
-/

import RigVeh.Base.Ranking
import RigVeh.Runner.Weighted

namespace RigVeh

open RigVeh.Json RigVeh.Base

variable {X : Crates} {R : Type}

/-- `slice::sort_by`, which is stable. -/
def sortBy {α : Type} (cmp : α → α → Ordering) (l : List α) : List α := l.mergeSort fun a b => cmp a b != .gt

/-- `f64::partial_cmp`. -/
def Arith.partialCmp (A : Arith R) (a b : R) : Option Ordering :=
  match A.le a b, A.le b a with
  | false, false => none
  | false, true => some .gt
  | true, false => some .lt
  | true, true => some .eq

/-- `EnsembleSelector::score_of`. -/
def EnsembleSelector.scoreOf (A : Arith R) (node : AgentNode X) : R :=
  match (node.evalResults.bind fun v => v.1.get "score").bind Tree.asF64 with
  | some x => A.ofF64 x
  | none => A.ofNat 0

structure BestByMetric where
  k : Nat

namespace BestByMetric

def topK (k : Nat) : BestByMetric := ⟨k⟩

def compare (A : Arith R) (a b : AgentNode X) : Ordering :=
  (A.partialCmp (EnsembleSelector.scoreOf A b) (EnsembleSelector.scoreOf A a)).getD .eq

def choose (A : Arith R) (nodes : List (AgentNode X)) (b : BestByMetric) : List AgentId :=
  ((sortBy (compare A) (nodes.filter (·.validParent))).take b.k).map (·.agentId)

def select (A : Arith R) (b : BestByMetric) : Act X (List AgentId) := do
  let nodes ← Act.nodes
  return b.choose A nodes

end BestByMetric

/-! ## Scores in a linear order -/

structure Arith.Linear (A : Arith R) : Prop where
  trans : ∀ a b c, A.le a b = true → A.le b c = true → A.le a c = true
  total : ∀ a b, (A.le a b || A.le b a) = true

theorem rational_linear : rational.Linear where
  trans a b c hab hbc := decide_eq_true (le_trans (of_decide_eq_true hab) (of_decide_eq_true hbc))
  total a b := by
    rcases le_total a b with h | h
    · simp [rational, h]
    · simp [rational, h]

/-- `a` scores at least as high as `b`. -/
def NoWorse (A : Arith R) (a b : AgentNode X) : Bool := A.le (scoreOf A b) (scoreOf A a)

section

variable {A : Arith R} {nodes : List (AgentNode X)}

/-- The two score readers read the same. -/
theorem ensemble_scoreOf (A : Arith R) (node : AgentNode X) : EnsembleSelector.scoreOf A node = scoreOf A node := by
  have hscore : (node.evalResults.bind fun v => v.1.get "score").bind Tree.asF64 = storedScore node := Option.bind_assoc ..
  unfold EnsembleSelector.scoreOf scoreOf
  cases hs : storedScore node with
  | none =>
    rw [hs] at hscore
    simp only [hscore]
  | some x =>
    rw [hs] at hscore
    simp only [hscore]

theorem noWorse_ranks (hA : A.Linear) : Ranks (NoWorse A (X := X)) where
  trans _ _ _ hab hbc := hA.trans _ _ _ hbc hab
  total _ _ := hA.total _ _

theorem compare_noWorse (hA : A.Linear) (a b : AgentNode X) : (BestByMetric.compare A a b != .gt) = NoWorse A a b := by
  unfold BestByMetric.compare NoWorse Arith.partialCmp
  rw [ensemble_scoreOf, ensemble_scoreOf]
  have htotal := hA.total (scoreOf A b) (scoreOf A a)
  cases hab : A.le (scoreOf A b) (scoreOf A a) <;> cases hba : A.le (scoreOf A a) (scoreOf A b) <;> simp_all

theorem topK_choose (hA : A.Linear) (nodes : List (AgentNode X)) (k : Nat) :
    (BestByMetric.topK k).choose A nodes =
      (((nodes.filter (·.validParent)).mergeSort (NoWorse A)).take k).map (·.agentId) := by
  have hcmp : (fun a b : AgentNode X => BestByMetric.compare A a b != .gt) = NoWorse A :=
    funext fun a => funext fun b => compare_noWorse hA a b
  rw [BestByMetric.choose, sortBy, hcmp]
  rfl

variable {σ : Type} {f : Prog.Handler (calls X) σ} {s s₁ : σ}

theorem BestByMetric.select_run (A : Arith R) (hn : f (.ledger .nodes) s = (.ok nodes, s₁)) (b : BestByMetric) :
    Prog.run f (b.select A).run s = (.ok (b.choose A nodes), s₁) := by
  rw [select, nodes_run hn]
  rfl

/-- The k best nodes that may become a parent, as many as there are, best first. -/
theorem topK_best (hA : A.Linear) (hn : f (.ledger .nodes) s = (.ok nodes, s₁)) (k : Nat) :
    (∃ picked, TopK (NoWorse A) (nodes.filter (·.validParent)) k picked ∧
      (Prog.run f ((BestByMetric.topK k).select A).run s).1 = .ok (picked.map (·.1.agentId))) ∧
    ∀ k' ≥ k, ∃ ids ids', (Prog.run f ((BestByMetric.topK k).select A).run s).1 = .ok ids ∧
      (Prog.run f ((BestByMetric.topK k').select A).run s).1 = .ok ids' ∧ ids <+: ids' := by
  constructor
  · obtain ⟨picked, htop, hpicked⟩ := topK_sorted (noWorse_ranks hA) (nodes.filter (·.validParent)) k
    refine ⟨picked, htop, ?_⟩
    rw [BestByMetric.select_run A hn, topK_choose hA, ← hpicked, List.map_map]
    rfl
  · intro k' hk
    rw [BestByMetric.select_run A hn, BestByMetric.select_run A hn]
    refine ⟨_, _, rfl, rfl, ?_⟩
    rw [topK_choose hA, topK_choose hA]
    exact (List.take_prefix_take_left hk).map _

theorem Reference.topK_scored :
    (∃ picked, TopK (NoWorse rational) (scoredLedger.list.filter (·.validParent)) 2 picked ∧
      (exec host ((BestByMetric.topK 2).select rational) scoredLedger).1 = .ok (picked.map (·.1.agentId))) ∧
    ∀ k' ≥ 2, ∃ ids ids', (exec host ((BestByMetric.topK 2).select rational) scoredLedger).1 = .ok ids ∧
      (exec host ((BestByMetric.topK k').select rational) scoredLedger).1 = .ok ids' ∧ ids <+: ids' :=
  topK_best (f := host.answer) rational_linear rfl 2

/-! ## The best one -/

/-- The running best is the earliest of the highest score, where there is any. -/
theorem bestOf_firstBest (hA : A.Linear) (nodes : List (AgentNode X)) :
    (ParentSelector.bestOf A nodes = none ∧ nodes.filter (·.validParent) = []) ∨
      ∃ n, FirstBest (NoWorse A) (nodes.filter (·.validParent)) n ∧
        ParentSelector.bestOf A nodes = some (scoreOf A n, n.agentId) := by
  -- over the nodes seen so far, from the last one back
  induction nodes using List.reverseRecOn with
  | nil => exact .inl ⟨rfl, rfl⟩
  | append_singleton nodes node ih =>
    rw [bestOf_append, List.filter_append]
    generalize ParentSelector.bestOf A nodes = best at ih ⊢
    by_cases hv : node.validParent = true
    · rw [if_pos hv, List.filter_cons_of_pos hv, List.filter_nil]
      right
      obtain ⟨rfl, hnil⟩ | ⟨n, hn, rfl⟩ := ih
      · refine ⟨node, ?_, rfl⟩
        rw [hnil]
        exact ⟨[], [], rfl, by simp, by simp⟩
      · unfold ParentSelector.better
        by_cases hle : A.le (scoreOf A node) (scoreOf A n) = true
        · exact ⟨n, firstBest_keeps hn hle, if_pos hle⟩
        · exact ⟨node, firstBest_takes (noWorse_ranks hA) hn (eq_false_of_ne_true hle), if_neg hle⟩
    · rw [if_neg hv, List.filter_cons_of_neg hv, List.filter_nil, List.append_nil]
      exact ih

/-- What `top_k(1)` picks is the earliest of the highest score, where there is any. -/
theorem topOne_cases (hA : A.Linear) (nodes : List (AgentNode X)) :
    ((BestByMetric.topK 1).choose A nodes = [] ∧ nodes.filter (·.validParent) = []) ∨
      ∃ n, FirstBest (NoWorse A) (nodes.filter (·.validParent)) n ∧
        (BestByMetric.topK 1).choose A nodes = [n.agentId] := by
  rw [topK_choose hA]
  have hnil : (nodes.filter (·.validParent)).mergeSort (NoWorse A) = [] → nodes.filter (·.validParent) = [] := by
    intro h
    exact (h ▸ List.mergeSort_perm _ _).nil_eq.symm
  have hfirst (n : AgentNode X) := firstBest_sorted (noWorse_ranks hA) (l := nodes.filter (·.validParent)) (a := n)
  cases hsorted : (nodes.filter (·.validParent)).mergeSort (NoWorse A) with
  | nil => exact .inl ⟨rfl, hnil hsorted⟩
  | cons n rest =>
    rw [hsorted] at hfirst
    exact .inr ⟨n, hfirst n rfl, rfl⟩

/-- `Best` and `top_k(1)` pick the same node, the earliest of the highest score. -/
theorem best_agrees (hA : A.Linear) (hash : List Hashed → UInt64) (hn : f (.ledger .nodes) s = (.ok nodes, s₁)) :
    (∀ id, (Prog.run f (ParentSelector.best.select A hash).run s).1 = .ok id ↔
      (Prog.run f ((BestByMetric.topK 1).select A).run s).1 = .ok [id]) ∧
    ((∃ e, (Prog.run f (ParentSelector.best.select A hash).run s).1 = .error e) ↔
      (Prog.run f ((BestByMetric.topK 1).select A).run s).1 = .ok []) ∧
    ∀ id, (Prog.run f (ParentSelector.best.select A hash).run s).1 = .ok id →
      ∃ n, FirstBest (NoWorse A) (nodes.filter (·.validParent)) n ∧ n.agentId = id := by
  rw [ParentSelector.select_run A hash _ hn, BestByMetric.select_run A hn, ParentSelector.choose, Prog.run_attempt]
  obtain ⟨hb, hnil⟩ | ⟨n, hn, hb⟩ := bestOf_firstBest hA nodes
  · have ht : (BestByMetric.topK 1).choose A nodes = [] := by
      rw [topK_choose hA, hnil]
      simp
    rw [hb, ht]
    simp [orError]
  · obtain ⟨-, hnil⟩ | ⟨m, hm, ht⟩ := topOne_cases hA nodes
    · obtain ⟨before, after, hsplit, -⟩ := hn
      rw [hnil] at hsplit
      simp at hsplit
    · obtain rfl := firstBest_unique hn hm
      rw [hb, ht]
      refine ⟨by simp [orError], by simp [orError], ?_⟩
      intro id hid
      cases hid
      exact ⟨n, hn, rfl⟩

theorem Reference.best_agrees_scored :
    (∀ id, (exec host (ParentSelector.best.select rational fun _ => 0) scoredLedger).1 = .ok id ↔
      (exec host ((BestByMetric.topK 1).select rational) scoredLedger).1 = .ok [id]) ∧
    ((∃ e, (exec host (ParentSelector.best.select rational fun _ => 0) scoredLedger).1 = .error e) ↔
      (exec host ((BestByMetric.topK 1).select rational) scoredLedger).1 = .ok []) ∧
    ∀ id, (exec host (ParentSelector.best.select rational fun _ => 0) scoredLedger).1 = .ok id →
      ∃ n, FirstBest (NoWorse rational) (scoredLedger.list.filter (·.validParent)) n ∧ n.agentId = id :=
  best_agrees (f := host.answer) rational_linear (fun _ => 0) rfl

end

end RigVeh
