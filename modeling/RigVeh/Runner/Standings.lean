/-
  RigVeh.Runner.Standings — the k best agents of a ledger that grows.

  `BestByMetric` is asked again and again, and in between the ledger takes any calls.
  Nodes are appended and never taken away or moved, so what is picked changes by what is
  new alone (`standings_outdone`): of the agents that were stored already those picked
  again are a prefix of those picked before, and at no place stands a lower score.
-/

import RigVeh.Runner.Ensemble
import RigVeh.Runner.Plan

namespace RigVeh

open RigVeh.Json RigVeh.Base

variable {X : Crates} {R : Type}

/-- What was picked of `s'` against what was picked of `s` before. -/
structure Outdone (A : Arith R) (s s' : InMemoryInner X) (ids ids' : List AgentId) : Prop where
  stays : ids'.filter (fun id => (s.nodes id).isSome) <+: ids
  rises : ∀ (i : Nat) (id : AgentId), ids[i]? = some id → ∃ n id' n', s.nodes id = some n ∧ ids'[i]? = some id' ∧ s'.nodes id' = some n' ∧
    A.le (scoreOf A n) (scoreOf A n') = true

section

variable {A : Arith R} {s s' : InMemoryInner X} {more : List (AgentNode X)} {k : Nat}

/-- Whatever is called, the list only grows at its end, by new ids. -/
theorem LedgerCall.after_grows (calls : List (LedgerCall X)) (hs : s.Wf) : (after calls s).Wf ∧
    ∃ more, (after calls s).list = s.list ++ more ∧ ∀ n ∈ more, s.nodes n.agentId = none := by
  induction calls generalizing s with
  | nil => exact ⟨hs, [], (List.append_nil _).symm, fun _ h => by cases h⟩
  | cons c calls ih =>
    have hm := answer_moves c s
    show (after calls (c.answer s).2).Wf ∧ ∃ more, (after calls (c.answer s).2).list = s.list ++ more ∧ _
    generalize (c.answer s).2 = s₁ at hm
    obtain ⟨hwf, more, hlist, hnew⟩ := ih (hm.wf hs)
    refine ⟨hwf, ?_⟩
    cases hm with
    | stays => exact ⟨more, hlist, hnew⟩
    | points => exact ⟨more, hlist, hnew⟩
    | @pushes node hf =>
      rw [InMemoryInner.list_push hs hf, List.append_assoc, List.singleton_append] at hlist
      refine ⟨node :: more, hlist, fun n hn => ?_⟩
      rcases List.mem_cons.mp hn with rfl | hn
      · exact hf
      · by_contra hold
        obtain ⟨m, hm⟩ := Option.ne_none_iff_exists'.mp hold
        have hfresh := hnew n hn
        rw [InMemoryInner.push_stored hf hm] at hfresh
        cases hfresh

/-- The picks of a list and of the list that it grew to. -/
theorem choose_outdone (hA : A.Linear) (hs : s.Wf) (hs' : s'.Wf) (hlist : s'.list = s.list ++ more)
    (hnew : ∀ n ∈ more, s.nodes n.agentId = none) :
    Outdone A s s' ((BestByMetric.topK k).choose A s.list) ((BestByMetric.topK k).choose A s'.list) := by
  have hranks := noWorse_ranks (X := X) hA
  obtain ⟨picked, htop, hpicked⟩ := topK_sorted hranks (s.list.filter (·.validParent)) k
  obtain ⟨picked', htop', hpicked'⟩ := topK_sorted hranks (s'.list.filter (·.validParent)) k
  rw [topK_choose hA, topK_choose hA, ← hpicked, ← hpicked', List.map_map, List.map_map]
  have hin {e : AgentNode X × Nat} (he : e ∈ picked') : e.1 ∈ s'.list :=
    List.mem_of_mem_filter (List.mem_of_getElem? (htop'.listed e he))
  have hlisted' := htop'.listed
  rw [hlist, List.filter_append] at htop' hlisted'
  refine ⟨?_, fun i id hid => ?_⟩
  · -- a pick is old by its place if and only if its id is
    have hold : ∀ e ∈ picked', (s.nodes e.1.agentId).isSome = decide (e.2 < (s.list.filter (·.validParent)).length) := by
      intro e he
      have hget := hlisted' e he
      by_cases hlt : e.2 < (s.list.filter (·.validParent)).length
      · rw [List.getElem?_append_left hlt] at hget
        rw [(InMemoryInner.mem_list hs).mp (List.mem_of_mem_filter (List.mem_of_getElem? hget)), decide_eq_true hlt]
        rfl
      · rw [List.getElem?_append_right (Nat.not_lt.mp hlt)] at hget
        rw [hnew e.1 (List.mem_of_mem_filter (List.mem_of_getElem? hget)), decide_eq_false hlt]
        rfl
    have hfilter := List.filter_congr hold
    rw [List.filter_map]
    exact hfilter ▸ (htop.stays htop').map _
  · rw [List.getElem?_map] at hid
    obtain ⟨p, hp, rfl⟩ := Option.map_eq_some_iff.mp hid
    obtain ⟨p', hp', hle⟩ := htop.rises hranks htop' hp
    have hmem : p.1 ∈ s.list := List.mem_of_mem_filter (List.mem_of_getElem? (htop.listed p (List.mem_of_getElem? hp)))
    refine ⟨p.1, p'.1.agentId, p'.1, (InMemoryInner.mem_list hs).mp hmem, ?_,
      (InMemoryInner.mem_list hs').mp (hin (List.mem_of_getElem? hp')), hle⟩
    rw [List.getElem?_map, hp']
    rfl

end

/-- Whatever the ledger is called in between, of the agents it had the second pick keeps a
    prefix of the first, and it scores as high at every place. -/
theorem standings_outdone {A : Arith R} (hA : A.Linear) (h : Host X) {s : InMemoryInner X} (hs : s.Wf)
    (calls : List (LedgerCall X)) (k : Nat) :
    ∃ ids ids', (exec h ((BestByMetric.topK k).select A) s).1 = .ok ids ∧
      (exec h ((BestByMetric.topK k).select A) (LedgerCall.after calls s)).1 = .ok ids' ∧
      Outdone A s (LedgerCall.after calls s) ids ids' := by
  obtain ⟨hs', more, hlist, hnew⟩ := LedgerCall.after_grows calls hs
  exact ⟨_, _, rfl, rfl, choose_outdone hA hs hs' hlist hnew⟩

namespace Reference

/-- The child of the pinned root, promoted since. -/
theorem standings_outdone_child :
    ∃ ids ids', (exec host ((BestByMetric.topK 1).select rational) (.push .default snapshotNode)).1 = .ok ids ∧
      (exec host ((BestByMetric.topK 1).select rational)
        (LedgerCall.after [.append child] (.push .default snapshotNode))).1 = .ok ids' ∧
      Outdone rational (.push .default snapshotNode) (LedgerCall.after [.append child] (.push .default snapshotNode)) ids ids' :=
  standings_outdone rational_linear host (InMemoryInner.push_wf InMemoryInner.default_wf rfl) [.append child] 1

end Reference

end RigVeh
