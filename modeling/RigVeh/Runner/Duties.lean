/-
  RigVeh.Runner.Duties — who let a cycle through, told by its signer.

  `resume_with_approval` signs with a key of the approver's and everything else with the
  runner's own. `Divided` are the operations of runners that decide as one and share a
  key which no approver has. In every ledger they reach, however interleaved, a
  promoted cycle has the runner's public key if and only if the gate approved it at
  once, and an approver's if and only if the gate asked (`duties_divided`). So the
  approvals that were given can be counted on the ledger, and the gate run again on
  it must have asked for each of them.
-/

import RigVeh.Runner.Plan
import RigVeh.Runner.Provenance

namespace RigVeh

open RigVeh.Json RigVeh.Base RigVeh.Base.Prog

variable {X : Crates}

/-- What `sign_node` puts down as the signer. -/
def signerOf (key : X.SigningKey) : String := X.hexEncode (X.keyToBytes (X.verifyingKey key)).1

/-- The operation is a runner's, which decides and signs as `v`, or a resume with a key
    of the approvers. -/
def Divided (v : Veh X) (approver : X.SigningKey → Prop) : Op X → Prop
  | .commitRoot w _ _ _ => w.signingKey = v.signingKey
  | .runCycle w _ => w.Alike v ∧ w.signingKey = v.signingKey
  | .resumeWithApproval _ key => approver key
  | .rollbackTo _ => True
  | .commitRollback w _ _ => w.signingKey = v.signingKey
  | .runGeneration w _ _ _ _ _ => w.Alike v ∧ w.signingKey = v.signingKey

/-- A promoted cycle on its stored parent: an evaluation was recorded. -/
structure PromotedCycle (s : InMemoryInner X) (parent n : AgentNode X) : Prop where
  stored : s.nodes n.agentId = some n
  storedParent : s.nodes parent.agentId = some parent
  child : n.parentId = some parent.agentId
  status : n.status = .promoted
  evaluated : n.evalResults ≠ none

section

variable {v : Veh X} {approver : X.SigningKey → Prop} {s : InMemoryInner X}

theorem orders_divided {op : Op X} (hop : Divided v approver op) {w : Veh X} {i : CycleInputs X} (ho : op.Orders w i) :
    w.Alike v ∧ w.signingKey = v.signingKey := by
  cases ho with
  | cycle | generation => exact hop

/-- What was made of a cycle on `parent` and promoted, by the key it was signed with. -/
inductive Cleared (v : Veh X) (approver : X.SigningKey → Prop) (parent n : AgentNode X) (key : X.SigningKey) : Prop
  | approved : key = v.signingKey → v.policy parent n.mutationIntent n.artifact.capabilitySbom = .approve →
      Cleared v approver parent n key
  | asked {reason : String} : approver key →
      v.policy parent n.mutationIntent n.artifact.capabilitySbom = .requireApproval reason → Cleared v approver parent n key

theorem made_cleared {parent n : AgentNode X} (hn : PromotedCycle s parent n) {key : X.SigningKey}
    (hm : Made (Divided v approver) s n.inputs key) : Cleared v approver parent n key := by
  generalize hi : n.inputs = inputs at hm
  have hid : n.parentId = inputs.parentId := congrArg CommitInputs.parentId hi
  have hintent : n.mutationIntent = inputs.mutationIntent := congrArg CommitInputs.mutationIntent hi
  have hartifact : n.artifact = inputs.artifact := congrArg CommitInputs.artifact hi
  have hstatus : n.status = inputs.status := congrArg CommitInputs.status hi
  have hresults : n.evalResults = inputs.evalResults := congrArg CommitInputs.evalResults hi
  -- two stored nodes under one id are one
  have hsame {p : AgentNode X} (hp : s.nodes p.agentId = some p) (hpid : some p.agentId = inputs.parentId) : p = parent := by
    have heq : p.agentId = parent.agentId := Option.some.inj (hpid.trans (hid.symm.trans hn.child))
    rw [heq] at hp
    exact Option.some.inj (hp.symm.trans hn.storedParent)
  cases hm with
  | root => exact absurd hresults hn.evaluated
  | rolledBack => exact absurd hresults hn.evaluated
  | @cycle w i diff eval status valid hp hv =>
    obtain rfl := hsame hp.parent rfl
    obtain ⟨op, hop, ho⟩ := hp.asked
    obtain ⟨halike, hkey⟩ := orders_divided hop ho
    have hpromoted : status = .promoted := hstatus.symm.trans hn.status
    cases hv with
    | approved _ ha =>
      refine .approved hkey ?_
      rw [hintent, hartifact, ← halike.policy]
      exact ha
    | regressed | denied => cases hpromoted
  | @resumed w i diff eval reason key hp _ ha hok =>
    obtain rfl := hsame hp.parent rfl
    obtain ⟨op, hop, ho⟩ := hp.asked
    have hasked : v.policy i.parent n.mutationIntent n.artifact.capabilitySbom = .requireApproval reason := by
      rw [hintent, hartifact, ← (orders_divided hop ho).1.policy]
      exact ha
    exact .asked hok hasked

end

/-- In every ledger that divided operations reach, whatever is interleaved, the signer of a
    promoted cycle says whether the gate approved it or asked. -/
theorem duties_divided {v : Veh X} {approver : X.SigningKey → Prop}
    (hkeys : ∀ key, approver key → signerOf key ≠ signerOf v.signingKey) {s : InMemoryInner X}
    {ps : List (Prog (calls X) (Except Error (Outcome X)))} (hp : Pool Shared (Served (Divided v approver)) .default s ps)
    {parent n : AgentNode X} (hn : PromotedCycle s parent n) :
    (n.signerPublicKey = signerOf v.signingKey ↔ v.policy parent n.mutationIntent n.capabilitySbom = .approve) ∧
      ((∃ key, approver key ∧ n.signerPublicKey = signerOf key) ↔
        ∃ reason, v.policy parent n.mutationIntent n.capabilitySbom = .requireApproval reason) := by
  obtain ⟨-, hall, -⟩ := served_closed (made_closed (Divided v approver)) hp
  obtain ⟨key, hmade, hsign⟩ := hall _ n hn.stored
  obtain ⟨-, hsbom, hsigner⟩ := signNode_inputs hsign
  have hsbom : n.capabilitySbom = n.artifact.capabilitySbom := hsbom
  have hsigner : n.signerPublicKey = signerOf key := hsigner
  rw [hsbom, hsigner]
  cases made_cleared hn hmade with
  | approved hkey ha =>
    refine ⟨iff_of_true (by rw [hkey]) ha, iff_of_false ?_ ?_⟩
    · rintro ⟨key', happ, heq⟩
      exact hkeys key' happ (by rw [← heq, hkey])
    · rintro ⟨reason, hasked⟩
      rw [ha] at hasked
      cases hasked
  | asked happ hasked =>
    refine ⟨iff_of_false (hkeys key happ) ?_, iff_of_true ⟨key, happ, rfl⟩ ⟨_, hasked⟩⟩
    intro ha
    rw [ha] at hasked
    cases hasked

namespace Reference

theorem operator_differs : signerOf (X := Reference) operatorKey ≠ signerOf (X := Reference) seed := by decide +kernel

/-- The child of the pinned root, approved by the operator. -/
def approvedChild : AgentNode Reference :=
  { child with
    agentId := "4c246a0c23ec03933e22799d4db9837d32e5fc5173039fde62a320a98641b029"
    signerPublicKey := "1398f62c6d1a457c51ba6a4b5f3dbd2f69fca93216218dc8997e416bd17d93ca"
    signature := "87417b39d5bb1da14079a5caf68e7106b73308f89a894961a422a440b34adaf2" ++
      "ea9f6927ade31d46848b9a4c90162fd91329f3b3da1b36778f69194c4f99e506" }

theorem approvedChild_signed :
    signNode (cycleInputs widening "" ⟨half, .null⟩ .promoted true) operatorKey = .ok approvedChild :=
  signNode_eq rfl (by decide) (by decide +kernel)

/-- The cycle of that child pauses. -/
def pausing : PendingApproval Reference := Veh.pause widening "" ⟨half, .null⟩ "ask"

theorem pausing_paused : exec host (Op.runCycle askingVeh widening).act (.push .default snapshotNode) =
    (.ok (.cycle (.awaitingApproval pausing)), .push .default snapshotNode) := by
  rw [Op.act, exec_bind, asking_pauses, Prog.andThen_ok, exec_pure]
  rfl

theorem pausing_resumed : (exec host (Op.resumeWithApproval pausing operatorKey).act (.push .default snapshotNode)).2 =
    .push (.push .default snapshotNode) approvedChild := by
  have hn : signNode (approvedInputs pausing) operatorKey = .ok approvedChild := approvedChild_signed
  have hf : (InMemoryInner.push .default snapshotNode).nodes approvedChild.agentId = none := by decide
  simp only [Op.act, exec_bind, Veh.resumeWithApproval, commit_fresh hn hf, Prog.andThen_ok, exec_pure]

/-- The root is committed, its cycle pauses, and the operator resumes it. -/
theorem approved_served : ∃ ps, Pool Shared (Served (Divided askingVeh (· = operatorKey))) .default
    (.push (.push .default snapshotNode) approvedChild) ps := by
  obtain ⟨r, h₁⟩ := root_served (Divided askingVeh (· = operatorKey)) rfl
  have h₂ := h₁.spawn _ ⟨.runCycle askingVeh widening, rfl, ⟨⟨rfl, rfl⟩, rfl⟩, trivial,
    InMemoryInner.push_same .default snapshotNode⟩
  have h₃ := pool_run (host_shared host) [_] [] h₂
  rw [show run host.answer (Op.runCycle askingVeh widening).act.run (.push .default snapshotNode) = _ from pausing_paused]
    at h₃
  have h₄ := h₃.spawn _ ⟨.resumeWithApproval pausing operatorKey, rfl, rfl, trivial, .tail _ (.head _)⟩
  have h₅ := pool_run (host_shared host) [_, _] [] h₄
  rw [show (run host.answer (Op.resumeWithApproval pausing operatorKey).act.run (.push .default snapshotNode)).2 = _ from
    pausing_resumed] at h₅
  exact ⟨_, h₅⟩

/-- The gate asked for that child, and the runner did not sign it. -/
theorem duties_divided_approved :
    (approvedChild.signerPublicKey = signerOf (X := Reference) seed ↔
      askingVeh.policy snapshotNode approvedChild.mutationIntent approvedChild.capabilitySbom = .approve) ∧
    ((∃ key, key = operatorKey ∧ approvedChild.signerPublicKey = signerOf (X := Reference) key) ↔
      ∃ reason, askingVeh.policy snapshotNode approvedChild.mutationIntent approvedChild.capabilitySbom =
        .requireApproval reason) := by
  obtain ⟨ps, hp⟩ := approved_served
  have hcycle : PromotedCycle (.push (.push .default snapshotNode) approvedChild) snapshotNode approvedChild :=
    ⟨InMemoryInner.push_same _ approvedChild,
      InMemoryInner.push_stored (by decide) (InMemoryInner.push_same .default snapshotNode), rfl, rfl,
      by simp [approvedChild, child]⟩
  exact duties_divided (v := askingVeh) (by rintro _ rfl; exact operator_differs) hp hcycle

end Reference

end RigVeh
