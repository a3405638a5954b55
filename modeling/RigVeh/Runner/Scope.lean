/-
  RigVeh.Runner.Scope — the scope a child carries.

  `Within` orders scopes by what they grant. The gate judges a candidate by its
  parent's scope; the scope that rules the child's own descendants is an input of the
  cycle, stored as given. `AutoApproved` are the descendants reached by promotions
  without an approval, each with a scope within its parent's: they hold nothing outside
  the root's SBOM and scope (`auto_approved_confined`). Without that condition a second
  generation can (`scope_widened`).
-/

import RigVeh.Runner.History

namespace RigVeh

open RigVeh.Json RigVeh.Base

variable {X : Crates}

/-- The scope grants nothing that `p` does not. -/
structure AllowedScope.Within (c p : AllowedScope) : Prop where
  tools : c.allowedTools ⊆ p.allowedTools
  mcpServers : c.allowedMcpServers ⊆ p.allowedMcpServers
  delegates : c.allowedDelegates ⊆ p.allowedDelegates
  maxGeneration : ∀ m, p.maxGeneration = some m → ∃ k, c.maxGeneration = some k ∧ k ≤ m
  gated : p.gatedCapabilities ⊆ c.gatedCapabilities

namespace AllowedScope

theorem Within.refl (s : AllowedScope) : s.Within s where
  tools := List.Subset.refl _
  mcpServers := List.Subset.refl _
  delegates := List.Subset.refl _
  maxGeneration m hm := ⟨m, hm, UInt32.le_refl m⟩
  gated := List.Subset.refl _

theorem Within.trans {a b c : AllowedScope} (h : a.Within b) (h' : b.Within c) : a.Within c where
  tools := List.Subset.trans h.tools h'.tools
  mcpServers := List.Subset.trans h.mcpServers h'.mcpServers
  delegates := List.Subset.trans h.delegates h'.delegates
  maxGeneration m hm := by
    obtain ⟨k, hk, hkm⟩ := h'.maxGeneration m hm
    obtain ⟨j, hj, hjk⟩ := h.maxGeneration k hk
    exact ⟨j, hj, UInt32.le_trans hjk hkm⟩
  gated := List.Subset.trans h'.gated h.gated

theorem Within.admits {a b : AllowedScope} (h : a.Within b) {cap : String} (hc : a.Admits cap) : b.Admits cap := by
  cases hc with
  | tool hm => exact .tool (h.tools hm)
  | mcp hm => exact .mcp (h.mcpServers hm)
  | delegate hm => exact .delegate (h.delegates hm)

end AllowedScope

/-- A cycle under the default gate that promoted `node` at once. -/
structure Promotes (v : Veh X) (h : Host X) (i : CycleInputs X) (s : InMemoryInner X) (node : AgentNode X) : Prop where
  policy : v.policy = DefaultPolicyGate.evaluate
  result : ∃ eval, (exec h (v.runCycle i) s).1 = .ok (.promoted node eval)

/-- `root` and the descendants promoted from it without an approval, each under a scope
    within its parent's. -/
inductive AutoApproved (root : AgentNode X) : AgentNode X → Prop
  | root : AutoApproved root root
  | cycle {v : Veh X} {h : Host X} {i : CycleInputs X} {s : InMemoryInner X} {node : AgentNode X} :
      AutoApproved root i.parent → Promotes v h i s node → i.allowedScope.Within i.parent.allowedScope →
      AutoApproved root node

/-- A promoted child has the scope of the inputs and what the gate let it hold. -/
theorem promotes_child {v : Veh X} {h : Host X} {i : CycleInputs X} {s : InMemoryInner X} {node : AgentNode X}
    (hp : Promotes v h i s node) : node.allowedScope = i.allowedScope ∧
      ∀ cap ∈ node.capabilitySbom, cap ∈ i.parent.capabilitySbom ∨ i.parent.allowedScope.Admits cap := by
  obtain ⟨hpol, eval, hr⟩ := hp
  obtain ⟨_, hc⟩ := cycle_of_result hr
  cases hc with
  | promoted _ _ ha hn _ =>
    obtain ⟨hi, hsbom, -⟩ := signNode_inputs hn
    rw [hpol] at ha
    refine ⟨congrArg CommitInputs.allowedScope hi, ?_⟩
    rw [hsbom]
    exact (DefaultPolicyGate.evaluate_approve.mp ha).capability

/-- No auto-approved descendant holds a capability outside the root's SBOM and scope. -/
theorem auto_approved_confined {root node : AgentNode X} (ha : AutoApproved root node) :
    node.allowedScope.Within root.allowedScope ∧
      ∀ cap ∈ node.capabilitySbom, cap ∈ root.capabilitySbom ∨ root.allowedScope.Admits cap := by
  induction ha with
  | root => exact ⟨.refl _, fun cap hc => .inl hc⟩
  | cycle _ hp hw ih =>
    obtain ⟨hscope, hcaps⟩ := promotes_child hp
    refine ⟨hscope ▸ hw.trans ih.1, fun cap hc => ?_⟩
    rcases hcaps cap hc with hcap | hcap
    · exact ih.2 cap hcap
    · exact .inr (ih.1.admits hcap)

/-- The child of an auto-approved parent carries the supplied scope, within its
    parent's if and only if that is, and holds nothing outside the root's SBOM and scope. -/
theorem scope_carried {root : AgentNode X} {v : Veh X} {h : Host X} {i : CycleInputs X} {s : InMemoryInner X}
    {node : AgentNode X} (ha : AutoApproved root i.parent) (hp : Promotes v h i s node) :
    node.allowedScope = i.allowedScope ∧
      (node.allowedScope.Within i.parent.allowedScope ↔ i.allowedScope.Within i.parent.allowedScope) ∧
      ∀ cap ∈ node.capabilitySbom, cap ∈ root.capabilitySbom ∨ root.allowedScope.Admits cap := by
  obtain ⟨hscope, hcaps⟩ := promotes_child hp
  obtain ⟨hw, hroot⟩ := auto_approved_confined ha
  refine ⟨hscope, by rw [hscope], fun cap hc => ?_⟩
  rcases hcaps cap hc with hcap | hcap
  · exact hroot cap hcap
  · exact .inr (hw.admits hcap)

namespace Reference

theorem manifestDiff_self (a : AgentArtifact Reference) : manifestDiff a a = .ok "" := by
  obtain ⟨b, hb⟩ := AgentArtifact.canonicalBytes_total (a := a) rfl
  have hd : manifestDiff a a = .ok (Crates.unifiedDiff Reference b b) := by
    simp only [manifestDiff, hb, bind, Except.bind, pure, Except.pure]
  rw [hd]
  exact congrArg Except.ok (if_pos rfl)

/-- A scope that lets descendants have a shell. -/
def shellScope : AllowedScope := { AllowedScope.default with allowedTools := ["shell"] }

/-- The pinned root's artifact once more, to be committed under that scope. -/
def widening : CycleInputs Reference := ⟨snapshotNode, .new "x", rootArtifact, shellScope, "2026-01-01T00:01:00Z"⟩

def child : AgentNode Reference :=
  { snapshotNode with
    agentId := "389a5808c9204bad66f6c2e0a1e5b5d50b469ecff54a59aa5b4d170069b8df83"
    parentId := some snapshotNode.agentId
    generation := 1
    createdAt := "2026-01-01T00:01:00Z"
    mutationIntent := .new "x"
    evalResults := some (EvalResult.toValue ⟨half, .null⟩)
    allowedScope := shellScope
    signature := "b87730c7fa9b670498a5466d32393dbf90aef066c53ca593ba020ec473fb7abf" ++
      "301cd9f240e36696b16f701f94b56f71e9daed35ff41bfd67c4a3875fcc2da04" }

theorem child_signed : signNode (cycleInputs widening "" ⟨half, .null⟩ .promoted true) seed = .ok child :=
  signNode_eq rfl (by decide) (by decide +kernel)

theorem child_promoted : exec host (veh.runCycle widening) (.push .default snapshotNode) =
    (.ok (.promoted child ⟨half, .null⟩), .push (.push .default snapshotNode) child) := by
  have he : Evaluated veh host widening "" ⟨half, .null⟩ := ⟨manifestDiff_self _, rfl⟩
  exact runCycle_promotes he rfl (by decide) child_signed (by decide)

theorem child_committed : (exec host (Op.runCycle veh widening).act (.push .default snapshotNode)).2 =
    .push (.push .default snapshotNode) child := by
  rw [Op.act, exec_bind, child_promoted, Prog.andThen_ok, exec_pure]

theorem scope_carried_child : child.allowedScope = widening.allowedScope ∧
    (child.allowedScope.Within snapshotNode.allowedScope ↔ widening.allowedScope.Within snapshotNode.allowedScope) ∧
    ∀ cap ∈ child.capabilitySbom, cap ∈ snapshotNode.capabilitySbom ∨ snapshotNode.allowedScope.Admits cap :=
  scope_carried (i := widening) .root ⟨rfl, _, congrArg Prod.fst child_promoted⟩

/-- The child's scope grants what its parent's does not, and under it the gate lets
    the next generation have a shell, which is outside the root's SBOM and scope. -/
theorem scope_widened : Promotes veh host widening (.push .default snapshotNode) child ∧
    ¬ child.allowedScope.Within widening.parent.allowedScope ∧
    DefaultPolicyGate.evaluate child (.new "y") ["tool:shell"] = .approve ∧
    "tool:shell" ∉ snapshotNode.capabilitySbom ∧ ¬ snapshotNode.allowedScope.Admits "tool:shell" := by
  refine ⟨⟨rfl, _, congrArg Prod.fst child_promoted⟩, fun h => ?_, by decide, by decide, ?_⟩
  · exact absurd (h.tools (show "shell" ∈ ["shell"] by simp)) List.not_mem_nil
  · rw [← capabilityInScope_iff]
    decide

end Reference

end RigVeh
