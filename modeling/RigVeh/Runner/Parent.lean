/-
  RigVeh.Runner.Parent — the parent a cycle is given.

  `rollback_to` and `commit_rollback` look their target up and check it; `run_cycle`
  takes its parent as the caller hands it over. So a cycle that succeeds was given an
  `Admitted` parent exactly if the caller saw to it (`parent_admission_iff`). The other
  checks of the property follow for a stored node: in every ledger reached, it verifies.
-/

import RigVeh.Runner.Scope

namespace RigVeh

open RigVeh.Json RigVeh.Base

variable {X : Crates}

/-- The node is the stored one, verifies and is promoted: what `rollback_to` asks. -/
structure Admitted (s : InMemoryInner X) (p : AgentNode X) : Prop where
  verifies : verifyNode p = .ok ()
  stored : s.nodes p.agentId = some p
  promoted : p.status = .promoted

/-- The cycle returned `Promoted` or `AwaitingApproval`. -/
inductive Succeeds : Except Error (CycleOutcome X) → Prop
  | promoted (node : AgentNode X) (eval : EvalResult) : Succeeds (.ok (.promoted node eval))
  | awaiting (pending : PendingApproval X) : Succeeds (.ok (.awaitingApproval pending))

/-- The inputs pass the evaluator, FR-5 and the gate, and an approved child is not yet
    stored. -/
def Passes (v : Veh X) (h : Host X) (i : CycleInputs X) (s : InMemoryInner X) : Prop :=
  ∃ diff eval, Evaluated v h i diff eval ∧ v.notImproved i.parent eval = none ∧
    ((∃ reason, v.policy i.parent i.intent i.candidate.capabilitySbom = .requireApproval reason) ∨
      v.policy i.parent i.intent i.candidate.capabilitySbom = .approve ∧
        ∃ node, signNode (cycleInputs i diff eval .promoted true) v.signingKey = .ok node ∧ s.nodes node.agentId = none)

theorem succeeds_iff (v : Veh X) (h : Host X) (i : CycleInputs X) (s : InMemoryInner X) :
    Succeeds (exec h (v.runCycle i) s).1 ↔ Passes v h i s := by
  constructor
  · intro hs
    generalize hr : (exec h (v.runCycle i) s).1 = r at hs
    obtain ⟨_, hc⟩ := cycle_of_result hr
    cases hc with
    | failed => cases hs
    | rejected => cases hs
    | promoted he hi ha hn hf => exact ⟨_, _, he, hi, .inr ⟨ha, _, hn, hf⟩⟩
    | awaiting he hi ha => exact ⟨_, _, he, hi, .inl ⟨_, ha⟩⟩
  · rintro ⟨diff, eval, he, hi, ⟨reason, ha⟩ | ⟨ha, node, hn, hf⟩⟩
    · rw [runCycle_awaits he hi ha]
      exact .awaiting _
    · rw [runCycle_promotes he hi ha hn hf]
      exact .promoted _ _

/-- A cycle succeeds only on an admitted parent if and only if the parent is a stored
    promoted node, or the cycle does not get that far. -/
theorem parent_admission_iff (hS : X.Signs) (hH : X.HexReads) {ok : Rule X} {t : List (Event X)} {s : InMemoryInner X}
    (hr : Runs ok t s) (v : Veh X) (h : Host X) (i : CycleInputs X) :
    (Succeeds (exec h (v.runCycle i) s).1 → Admitted s i.parent) ↔
      (s.nodes i.parent.agentId = some i.parent ∧ i.parent.status = .promoted) ∨ ¬ Passes v h i s := by
  rw [succeeds_iff]
  constructor
  · intro himp
    by_cases hp : Passes v h i s
    · exact .inl ⟨(himp hp).stored, (himp hp).promoted⟩
    · exact .inr hp
  · rintro (⟨hstored, hprom⟩ | hno) hp
    · exact ⟨runs_verified hS hH hr hstored, hstored, hprom⟩
    · exact absurd hp hno

namespace Reference

/-- The pinned root, with a scope its signer did not give it. -/
def forged : AgentNode Reference := { snapshotNode with allowedScope := shellScope }

theorem parent_admission_snapshot :
    (Succeeds (exec host (veh.runCycle widening) (.push .default snapshotNode)).1 →
      Admitted (.push .default snapshotNode) snapshotNode) ↔
      ((InMemoryInner.push .default snapshotNode).nodes snapshotNode.agentId = some snapshotNode ∧
        snapshotNode.status = .promoted) ∨ ¬ Passes veh host widening (.push .default snapshotNode) :=
  have hr : Runs (fun _ _ _ _ => True) _ (.push .default snapshotNode) := snapshot_run trivial
  parent_admission_iff signs hexReads hr veh host widening

/-- A cycle on the forged root promotes its child into the ledger that stores the real
    one. -/
theorem forged_parent_promotes : ∃ t, Runs (fun _ _ _ _ => True) t (.push .default snapshotNode) ∧
    Succeeds (exec host (veh.runCycle { widening with parent := forged }) (.push .default snapshotNode)).1 ∧
    ¬ Admitted (.push .default snapshotNode) forged := by
  refine ⟨_, snapshot_run trivial, ?_, fun h => ?_⟩
  · have he : Evaluated veh host { widening with parent := forged } "" ⟨half, .null⟩ := ⟨manifestDiff_self _, rfl⟩
    rw [runCycle_promotes he rfl (by decide) child_signed (by decide)]
    exact .promoted _ _
  · have hstored := h.stored
    rw [show forged.agentId = snapshotNode.agentId from rfl, InMemoryInner.push_same, Option.some.injEq] at hstored
    exact absurd (congrArg (fun n => n.allowedScope) hstored) (by decide)

end Reference

end RigVeh
