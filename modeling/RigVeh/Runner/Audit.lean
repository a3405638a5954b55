/-
  RigVeh.Runner.Audit — which committed nodes can be audited.

  A cycle stores the evaluator's whole result, under which a bundle would be the
  `details`; the audit reads what is stored as the bundle itself. So a node is `Audited`
  exactly if it was committed without a result, by `commit_root` or `commit_rollback`
  (`audited_iff`).
-/

import RigVeh.Identity.Evidence
import RigVeh.Runner.Scope

namespace RigVeh

open RigVeh.Json RigVeh.Base

variable {X : Crates}

/-- A pause is resumed as some cycle returned it; its fields are private. -/
def Operated : Rule X := fun _ _ _ op =>
  match op with
  | .resumeWithApproval pending _ => ∃ i diff eval reason, pending = Veh.pause i diff eval reason
  | _ => True

/-- The node projects to a record that is valid and has the bundle its evaluator gave,
    if it gave one. -/
def Audited (n : AgentNode X) : Prop :=
  ∃ r, AuditRecord.fromNode n = .ok r ∧ r.verificationValid = true ∧
    ∀ eval : EvalResult, n.evalResults = some eval.toValue → ∀ bundle : EvidenceBundle, eval.details = bundle.toValue →
      EvidenceBundle.fromValue X eval.details = .ok r.evidence

/-- The operation commits a node without a result. -/
def Op.Scoreless : Op X → Prop
  | .commitRoot _ _ _ _ => True
  | .commitRollback _ _ _ => True
  | _ => False

/-- What an operation stores as `eval_results`. -/
theorem deed_results {t : List (Event X)} {s s' : InMemoryInner X} {h : Host X} {op : Op X} {n : AgentNode X}
    (hd : Deed h s op n) (hok : Operated t s' h op) : (op.Scoreless ∧ n.evalResults = none) ∨
      (¬ op.Scoreless ∧ ∃ eval : EvalResult, n.evalResults = some eval.toValue) := by
  cases hd with
  | root hn => exact .inl ⟨trivial, congrArg CommitInputs.evalResults (signNode_inputs hn).1⟩
  | rolledBack _ _ _ _ _ hn => exact .inl ⟨trivial, congrArg CommitInputs.evalResults (signNode_inputs hn).1⟩
  | promoted hc _ _ _ hn =>
    refine .inr ⟨?_, _, congrArg CommitInputs.evalResults (signNode_inputs hn).1⟩
    cases hc <;> exact id
  | rejected hc _ hn =>
    refine .inr ⟨?_, _, congrArg CommitInputs.evalResults (signNode_inputs hn).1⟩
    cases hc <;> exact id
  | resumed hn =>
    obtain ⟨i, diff, eval, reason, rfl⟩ := hok
    exact .inr ⟨id, eval, congrArg CommitInputs.evalResults (signNode_inputs hn).1⟩

theorem audited_none {n : AgentNode X} (hv : verifyNode n = .ok ()) (hn : n.evalResults = none) : Audited n := by
  have hrecord : ∃ r, AuditRecord.fromNode n = .ok r ∧ r.verificationValid = (verifyNode n).isOk := by
    rw [AuditRecord.fromNode, hn]
    exact ⟨_, rfl, rfl⟩
  obtain ⟨r, hr, hvalid⟩ := hrecord
  refine ⟨r, hr, by rw [hvalid, hv]; rfl, fun eval he => ?_⟩
  rw [hn] at he
  cases he

theorem not_audited {n : AgentNode X} {eval : EvalResult} (hn : n.evalResults = some eval.toValue) : ¬ Audited n := by
  rintro ⟨r, hr, -⟩
  rw [AuditRecord.fromNode, hn] at hr
  simp only [fromValue_evalResult] at hr
  cases hr

/-- A node of a reached ledger can be audited if and only if it was committed by
    `commit_root` or `commit_rollback`. -/
theorem audited_iff (hS : X.Signs) (hH : X.HexReads) {t : List (Event X)} {s : InMemoryInner X} (hr : Runs Operated t s)
    {n : AgentNode X} (hn : s.nodes n.agentId = some n) : Audited n ↔ ∃ e ∈ t, e.Commits n ∧ e.op.Scoreless := by
  constructor
  · intro ha
    obtain ⟨e, he, hc, hd⟩ := committed hr hn
    obtain ⟨⟨t', -, -, hok⟩, -, -⟩ := runs_event hr he
    rcases deed_results hd hok with ⟨hs, -⟩ | ⟨-, eval, hres⟩
    · exact ⟨e, he, hc, hs⟩
    · exact absurd ha (not_audited hres)
  · rintro ⟨e, he, hc, hs⟩
    obtain ⟨⟨t', -, -, hok⟩, -, -⟩ := runs_event hr he
    rcases deed_results (commits_deed hr he hc).1 hok with ⟨-, hres⟩ | ⟨hno, -⟩
    · exact audited_none (runs_verified hS hH hr hn) hres
    · exact absurd hs hno

namespace Reference

theorem child_run : ∃ t, Runs Operated t (.push (.push .default snapshotNode) child) := by
  have h₁ : Runs Operated _ (.push .default snapshotNode) := snapshot_run trivial
  exact ⟨_, h₁.then host (.runCycle veh widening) trivial trivial child_committed⟩

/-- Root and child are in one ledger, and the child was committed with a result. -/
theorem child_audited_iff : ∃ t, Runs Operated t (.push (.push .default snapshotNode) child) ∧
    (Audited child ↔ ∃ e ∈ t, e.Commits child ∧ e.op.Scoreless) ∧
    (Audited snapshotNode ↔ ∃ e ∈ t, e.Commits snapshotNode ∧ e.op.Scoreless) := by
  obtain ⟨t, hr⟩ := child_run
  have hroot : (InMemoryInner.push (.push .default snapshotNode) child).nodes snapshotNode.agentId = some snapshotNode :=
    InMemoryInner.push_stored (by decide) (InMemoryInner.push_same .default snapshotNode)
  exact ⟨t, hr, audited_iff signs hexReads hr (InMemoryInner.push_same _ child), audited_iff signs hexReads hr hroot⟩

/-- The root and its promoted child are in a ledger, and the child has no record. -/
theorem child_not_audited : ∃ t s, Runs Operated t s ∧ s.nodes child.agentId = some child ∧
    AuditRecord.fromNode child = .error (.json "missing field `version`") := by
  obtain ⟨t, hr⟩ := child_run
  refine ⟨t, _, hr, InMemoryInner.push_same _ _, ?_⟩
  rw [AuditRecord.fromNode, show child.evalResults = some (EvalResult.toValue ⟨half, .null⟩) from rfl]
  simp only [fromValue_evalResult]
  rfl

end Reference

end RigVeh
