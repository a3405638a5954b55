/-
  RigVeh.Runner.Provenance — every node explained by the ledger it is in.

  A node records its parent, its artifact, its diff and its evaluation, but not why it
  was promoted or refused. While all runners decide alike, the ledger tells: `Explained`
  says that a node is a root, or the cycle of its stored parent with the diff and the
  verdict that its parent and its evaluation give, or the rollback of one promoted node
  to another. Whatever is interleaved, and however long a pause lasted, every node is
  (`provenance`): who reads the ledger can decide each cycle once more.
-/

import RigVeh.Runner.Made
import RigVeh.Runner.Scope

namespace RigVeh

open RigVeh.Json RigVeh.Base RigVeh.Base.Prog

variable {X : Crates}

/-- Both decide alike; they may sign with different keys. -/
structure Veh.Alike (v w : Veh X) : Prop where
  policy : v.policy = w.policy
  strict : v.requireStrictImprovement = w.requireStrictImprovement

/-- The cycles that the operation asks for are decided as by `v`. -/
def Under (v : Veh X) (op : Op X) : Prop := ∀ w i, op.Orders w i → w.Alike v

/-- The cycle that a node records. -/
def AgentNode.cycleOf (n parent : AgentNode X) : CycleInputs X :=
  ⟨parent, n.mutationIntent, n.artifact, n.allowedScope, n.createdAt⟩

inductive Explained (v : Veh X) (s : InMemoryInner X) (n : AgentNode X) : Prop
  | root : n.inputs = rootInputs n.artifact n.allowedScope n.createdAt → Explained v s n
  | cycle {parent : AgentNode X} {eval : EvalResult} : s.nodes parent.agentId = some parent →
      manifestDiff parent.artifact n.artifact = .ok n.mutationDiff →
      Verdict v (n.cycleOf parent) eval n.status n.validParent →
      n.inputs = cycleInputs (n.cycleOf parent) n.mutationDiff eval n.status n.validParent → Explained v s n
  | resumed {parent : AgentNode X} {eval : EvalResult} {reason : String} : s.nodes parent.agentId = some parent →
      manifestDiff parent.artifact n.artifact = .ok n.mutationDiff → v.notImproved parent eval = none →
      v.policy parent n.mutationIntent n.artifact.capabilitySbom = .requireApproval reason →
      n.inputs = cycleInputs (n.cycleOf parent) n.mutationDiff eval .promoted true → Explained v s n
  | rolledBack {parent target : AgentNode X} : s.nodes parent.agentId = some parent → parent.status = .promoted →
      s.nodes target.agentId = some target → target.status = .promoted →
      n.inputs = rollbackInputs parent target target.agentId n.createdAt → Explained v s n

theorem Veh.Alike.notImproved {v w : Veh X} (h : v.Alike w) (parent : AgentNode X) (eval : EvalResult) :
    v.notImproved parent eval = w.notImproved parent eval := by
  rw [Veh.notImproved, Veh.notImproved, h.strict]

theorem Verdict.alike {v w : Veh X} (h : v.Alike w) {i : CycleInputs X} {eval : EvalResult} {status : NodeStatus}
    {valid : Bool} (hv : Verdict v i eval status valid) : Verdict w i eval status valid := by
  have hi := h.notImproved i.parent eval
  have hp := h.policy
  cases hv with
  | approved hn ha => exact .approved (hi ▸ hn) (hp ▸ ha)
  | regressed hn => exact .regressed (hi ▸ hn)
  | denied hn hd => exact .denied (hi ▸ hn) (hp ▸ hd)

/-- A node holds the cycle it was signed for. -/
theorem cycleOf_signed {n : AgentNode X} {i : CycleInputs X} {diff : String} {eval : EvalResult} {status : NodeStatus}
    {valid : Bool} (hi : n.inputs = cycleInputs i diff eval status valid) : n.cycleOf i.parent = i := by
  have hintent : n.mutationIntent = i.intent := congrArg CommitInputs.mutationIntent hi
  have hartifact : n.artifact = i.candidate := congrArg CommitInputs.artifact hi
  have hscope : n.allowedScope = i.allowedScope := congrArg CommitInputs.allowedScope hi
  have hcreated : n.createdAt = i.createdAt := congrArg CommitInputs.createdAt hi
  rw [AgentNode.cycleOf, hintent, hartifact, hscope, hcreated]

/-- What operations under `v` sign is explained. -/
theorem made_explained {v : Veh X} {s : InMemoryInner X} {n : AgentNode X} {key : X.SigningKey}
    (h : Made (Under v) s n.inputs key) : Explained v s n := by
  generalize hi : n.inputs = i at h
  cases h with
  | @root w artifact scope createdAt =>
    obtain rfl : n.artifact = artifact := congrArg CommitInputs.artifact hi
    obtain rfl : n.allowedScope = scope := congrArg CommitInputs.allowedScope hi
    obtain rfl : n.createdAt = createdAt := congrArg CommitInputs.createdAt hi
    exact .root hi
  | @cycle w i diff eval status valid hp hv =>
    obtain rfl : n.mutationDiff = diff := congrArg CommitInputs.mutationDiff hi
    obtain rfl : n.status = status := congrArg CommitInputs.status hi
    obtain rfl : n.validParent = valid := congrArg CommitInputs.validParent hi
    have hcycle := cycleOf_signed hi
    obtain ⟨op, hop, ho⟩ := hp.asked
    have hverdict : Verdict v (n.cycleOf i.parent) eval n.status n.validParent := by
      rw [hcycle]
      exact hv.alike (hop w i ho)
    refine .cycle hp.parent ?_ hverdict ?_
    · rw [show n.artifact = i.candidate from congrArg CommitInputs.artifact hi, hp.diff]
    · rw [hcycle, hi]
  | @resumed w i diff eval reason key hp hn ha hok =>
    obtain rfl : n.mutationDiff = diff := congrArg CommitInputs.mutationDiff hi
    have hcycle := cycleOf_signed hi
    have hartifact : n.artifact = i.candidate := congrArg CommitInputs.artifact hi
    obtain ⟨op, hop, ho⟩ := hp.asked
    have halike := hop w i ho
    have himproved : v.notImproved i.parent eval = none := by rw [← halike.notImproved, hn]
    have hasked : v.policy i.parent n.mutationIntent n.artifact.capabilitySbom = .requireApproval reason := by
      rw [← halike.policy, hartifact, show n.mutationIntent = i.intent from congrArg CommitInputs.mutationIntent hi, ha]
    refine .resumed hp.parent ?_ himproved hasked ?_
    · rw [hartifact, hp.diff]
    · rw [hcycle, hi]
  | @rolledBack w createdAt parent target _ ht htp hp hpp =>
    obtain rfl : n.createdAt = createdAt := congrArg CommitInputs.createdAt hi
    exact .rolledBack hp hpp ht htp hi

/-- What is stored was made, and signed with its key. -/
def AllMade (ok : Op X → Prop) (s : InMemoryInner X) : Prop :=
  ∀ id n, s.nodes id = some n → ∃ key, Made ok s n.inputs key ∧ signNode n.inputs key = .ok n

/-- Stored nodes stay made, and a new one is. -/
theorem made_closed (ok : Op X → Prop) : Closed ok (AllMade ok) where
  empty _ _ h := by cases h
  push {s i k node} _ hall hm hn hf id n h := by
    have hstays : NodesStay s (s.push node) := fun _ _ h => InMemoryInner.push_stored hf h
    rcases InMemoryInner.stored_push h with h | ⟨-, rfl⟩
    · obtain ⟨key, hmade, hsign⟩ := hall id n h
      exact ⟨key, hmade.later hstays, hsign⟩
    · rw [(signNode_inputs hn).1]
      exact ⟨k, hm.later hstays, hn⟩
  point _ hall _ _ id n h := by
    obtain ⟨key, hmade, hsign⟩ := hall id n h
    exact ⟨key, hmade.later fun _ _ h => h, hsign⟩

/-- In every ledger that operations under `v` reach, interleaved in any way, each node is
    explained by the ledger. -/
theorem provenance (v : Veh X) {s : InMemoryInner X} {ps : List (Prog (calls X) (Except Error (Outcome X)))}
    (hp : Pool Shared (Served (Under v)) .default s ps) : ∀ n ∈ s.list, Explained v s n := by
  intro n hn
  obtain ⟨hhead, hall, -⟩ := served_closed (made_closed (Under v)) hp
  obtain ⟨key, hmade, -⟩ := hall _ n ((InMemoryInner.mem_list hhead.wf).mp hn)
  exact made_explained hmade

namespace Reference

/-- The root is committed. -/
theorem root_served (ok : Op Reference → Prop) (hroot : ok (.commitRoot veh rootArtifact .default "2026-01-01T00:00:00Z")) :
    ∃ r, Pool Shared (Served ok) .default (.push .default snapshotNode) [.ret r] := by
  have h₀ : Pool (Shared (X := Reference)) (Served ok) .default .default [] := .init
  have h₁ := h₀.spawn _ ⟨.commitRoot veh rootArtifact .default "2026-01-01T00:00:00Z", rfl, hroot, trivial, trivial⟩
  have h₂ := pool_run (host_shared host) [] [] h₁
  have hcommit : (run host.answer (Op.commitRoot veh rootArtifact .default "2026-01-01T00:00:00Z").act.run .default).2 =
      .push .default snapshotNode := commitRoot_pushes snapshot_signed rfl
  rw [hcommit] at h₂
  exact ⟨_, h₂⟩

/-- Then a cycle promotes its child. -/
theorem child_served (ok : Op Reference → Prop) (hroot : ok (.commitRoot veh rootArtifact .default "2026-01-01T00:00:00Z"))
    (hcycle : ok (.runCycle veh widening)) :
    ∃ ps, Pool Shared (Served ok) .default (.push (.push .default snapshotNode) child) ps := by
  obtain ⟨r, h₁⟩ := root_served ok hroot
  have h₂ := h₁.spawn _ ⟨.runCycle veh widening, rfl, hcycle, trivial, InMemoryInner.push_same .default snapshotNode⟩
  have h₃ := pool_run (host_shared host) [_] [] h₂
  rw [show (run host.answer (Op.runCycle veh widening).act.run (.push .default snapshotNode)).2 = _ from child_committed] at h₃
  exact ⟨_, h₃⟩

theorem provenance_child : Explained veh (.push (.push .default snapshotNode) child) child := by
  obtain ⟨ps, hp⟩ := child_served (Under veh) (by rintro w i ⟨⟩) (by rintro w i ⟨⟩; exact ⟨rfl, rfl⟩)
  exact provenance veh hp child (.tail _ (.head _))

end Reference

end RigVeh
