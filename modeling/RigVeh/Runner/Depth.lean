/-
  RigVeh.Runner.Depth — where the generation counter wraps.

  The gate and the four ways to commit a child each add one to the parent's `u32`
  generation, and a release build wraps. `CommittedOn parent node` are the commits: by a
  cycle on `parent`, by an approval of such a cycle's pause, and by a rollback on the
  head. At the last generation the depth cap lets anything pass and the child is of
  generation 0; before it both count (`generation_counts_iff`).
-/

import RigVeh.Runner.Gate
import RigVeh.Runner.Plan

namespace RigVeh

open RigVeh.Json RigVeh.Base

variable {X : Crates}

theorem lt_succ_iff (n : UInt32) : n < n + 1 ↔ n.toNat < 2 ^ 32 - 1 := by
  have hn := n.toNat_lt
  rw [UInt32.lt_iff_toNat_lt, UInt32.toNat_add]
  simp only [UInt32.reduceToNat]
  omega

/-! ## The gate -/

section

variable {parent : AgentNode X} {intent : MutationIntent} {sbom : List String}

open DefaultPolicyGate

/-- The gate lets a child be made, at once or after an approval. -/
theorem passes_iff :
    (evaluate parent intent sbom = .approve ∨ ∃ reason, evaluate parent intent sbom = .requireApproval reason) ↔
      overDepth parent = none := by
  have hdeny : (∃ reason, evaluate parent intent sbom = .deny reason) ↔ ∃ reason, overDepth parent = some reason :=
    evaluate_deny
  rw [Option.eq_none_iff_forall_ne_some, ← not_exists, ← hdeny]
  cases evaluate parent intent sbom <;> simp

/-- At the last generation no cap applies. -/
theorem overDepth_last (hg : ¬ parent.generation.toNat < 2 ^ 32 - 1) : overDepth parent = none := by
  have hlast : parent.generation + 1 = 0 := by
    have hn := parent.generation.toNat_lt
    apply UInt32.toNat_inj.mp
    rw [UInt32.toNat_add]
    simp only [UInt32.reduceToNat]
    omega
  rw [overDepth_none, hlast]
  intro max _
  exact UInt32.le_iff_toNat_le.mpr (Nat.zero_le _)

theorem tooDeep_last (hg : ¬ parent.generation.toNat < 2 ^ 32 - 1) :
    TooDeep parent ↔ parent.allowedScope.maxGeneration ≠ none := by
  unfold TooDeep
  cases parent.allowedScope.maxGeneration with
  | none => simp
  | some max =>
    have hmax := max.toNat_lt
    simp only [Option.some.injEq, exists_eq_left', ne_eq, reduceCtorEq, not_false_eq_true, iff_true]
    omega

theorem capped_iff : (TooDeep parent → evaluate parent intent sbom ≠ .approve ∧
      ∀ reason, evaluate parent intent sbom ≠ .requireApproval reason) ↔
    parent.generation.toNat < 2 ^ 32 - 1 ∨ parent.allowedScope.maxGeneration = none := by
  rw [ne_eq, ← not_exists, ← not_or, passes_iff]
  by_cases hg : parent.generation.toNat < 2 ^ 32 - 1
  · refine ⟨fun _ => .inl hg, ?_⟩
    intro _ hdeep hnone
    obtain ⟨reason, hr⟩ := (overDepth_iff hg).mpr hdeep
    rw [hnone] at hr
    cases hr
  · rw [tooDeep_last hg]
    constructor
    · intro h
      by_cases hmax : parent.allowedScope.maxGeneration = none
      · exact .inr hmax
      · exact (h hmax (overDepth_last hg)).elim
    · intro h hmax
      rcases h with h | h
      · exact (hg h).elim
      · exact (hmax h).elim

end

/-! ## The commits -/

/-- `node` was committed as a child of `parent`. -/
inductive CommittedOn (parent : AgentNode X) (node : AgentNode X) : Prop
  | cycle {v : Veh X} {h : Host X} {i : CycleInputs X} {s : InMemoryInner X} {outcome : CycleOutcome X} :
      i.parent = parent → (exec h (v.runCycle i) s).1 = .ok outcome → outcome.node = some node → CommittedOn parent node
  | resumed {v : Veh X} {h h' : Host X} {i : CycleInputs X} {s s' : InMemoryInner X} {pending : PendingApproval X}
      {key : X.SigningKey} : i.parent = parent → (exec h (v.runCycle i) s).1 = .ok (.awaitingApproval pending) →
      (exec h' (Veh.resumeWithApproval pending key) s').1 = .ok node → CommittedOn parent node
  | rolledBack {v : Veh X} {h : Host X} {s : InMemoryInner X} {parentId targetId : AgentId} {createdAt : String} :
      s.head = some parentId → s.nodes parentId = some parent →
      (exec h (v.commitRollback targetId createdAt) s).1 = .ok node → CommittedOn parent node

theorem committedOn_generation {parent node : AgentNode X} (hc : CommittedOn parent node) :
    node.generation = parent.generation + 1 := by
  cases hc with
  | cycle hpar hr hnode =>
    subst hpar
    obtain ⟨_, hcy⟩ := cycle_of_result hr
    cases hcy with
    | promoted _ _ _ hn _ =>
      cases hnode
      exact congrArg CommitInputs.generation (signNode_inputs hn).1
    | rejected _ _ hn _ =>
      cases hnode
      exact congrArg CommitInputs.generation (signNode_inputs hn).1
    | awaiting => cases hnode
  | resumed hpar hr hresume =>
    subst hpar
    obtain ⟨_, hcy⟩ := cycle_of_result hr
    cases hcy with
    | awaiting => exact congrArg CommitInputs.generation (signNode_inputs (commit_ok hresume).1).1
  | rolledBack hh hpar hr =>
    obtain ⟨_, _, _, _, _, _, hh', hpar', hn, _, _⟩ := commitRollback_ok (Prod.ext hr rfl)
    obtain rfl := Option.some.inj (hh.symm.trans hh')
    obtain rfl := Option.some.inj (hpar.symm.trans hpar')
    exact congrArg CommitInputs.generation (signNode_inputs hn).1

/-- The depth cap holds and children are of a later generation, except where the parent's
    generation is the last one. -/
theorem generation_counts_iff (parent : AgentNode X) :
    (∀ intent sbom, (TooDeep parent → DefaultPolicyGate.evaluate parent intent sbom ≠ .approve ∧
        ∀ reason, DefaultPolicyGate.evaluate parent intent sbom ≠ .requireApproval reason) ↔
      parent.generation.toNat < 2 ^ 32 - 1 ∨ parent.allowedScope.maxGeneration = none) ∧
    ∀ node, CommittedOn parent node →
      (parent.generation < node.generation ↔ parent.generation.toNat < 2 ^ 32 - 1) := by
  refine ⟨fun _ _ => capped_iff, ?_⟩
  intro node hc
  rw [committedOn_generation hc, lt_succ_iff]

namespace Reference

theorem generation_counts_child :
    snapshotNode.generation < child.generation ↔ snapshotNode.generation.toNat < 2 ^ 32 - 1 :=
  (generation_counts_iff snapshotNode).2 child (.cycle (i := widening) rfl (congrArg Prod.fst child_promoted) rfl)

/-- A node of the last generation, whose scope lets no descendants be made. -/
def lastParent : AgentNode Reference := { snapshotNode with generation := 4294967295, allowedScope := capped }

/-- The gate lets its child pass, which is of generation 0. -/
theorem generation_wraps : TooDeep lastParent ∧ DefaultPolicyGate.evaluate lastParent (.new "x") [] = .approve ∧
    ∃ node, CommittedOn lastParent node ∧ node.generation = 0 := by
  refine ⟨⟨0, rfl, by decide⟩, by decide, ?_⟩
  let i : CycleInputs Reference := ⟨lastParent, .new "x", rootArtifact, capped, "2026-01-01T00:01:00Z"⟩
  have he : Evaluated veh host i "" ⟨half, .null⟩ := ⟨manifestDiff_self _, rfl⟩
  obtain ⟨node, hn⟩ := signNode_total (i := cycleInputs i "" ⟨half, .null⟩ .promoted true) rfl seed
  have hr := runCycle_promotes (v := veh) (s := .default) he rfl (by decide) hn rfl
  have hc : CommittedOn lastParent node := .cycle (i := i) rfl (congrArg Prod.fst hr) rfl
  exact ⟨node, hc, (committedOn_generation hc).trans (by decide)⟩

end Reference

end RigVeh
