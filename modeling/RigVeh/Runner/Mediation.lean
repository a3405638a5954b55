/-
  RigVeh.Runner.Mediation — what a promotion passed.

  Four operations append promoted nodes and one asks the gate. `Gated` are the
  histories under the default gate whose cycles have parents of the ledger and whose
  approvals resume what the history paused. `promotions_mediated`: in each, a promoted
  node is a root, has the gate's approval against its recorded parent, was resumed by
  an approval key, or repeats a stored promoted node. Roots and rollbacks are not asked
  (`rollback_unmediated`: a rollback goes beyond its parent's depth cap, and a root is
  committed late).
-/

import RigVeh.Runner.Scope

namespace RigVeh

open RigVeh.Json RigVeh.Base

variable {X : Crates}

/-- A pause that an earlier cycle of the trace returned. -/
def Paused (t : List (Event X)) (pending : PendingApproval X) : Prop :=
  ∃ e ∈ t, e.result = .ok (.cycle (.awaitingApproval pending))

def Gated : Rule X := fun t s _ op =>
  match op with
  | .runCycle v i => v.policy = DefaultPolicyGate.evaluate ∧ s.nodes i.parent.agentId = some i.parent
  | .runGeneration v _ _ _ _ _ => v.policy = DefaultPolicyGate.evaluate
  | .resumeWithApproval pending _ => Paused t pending
  | _ => True

/-- The default gate approves `n` against its recorded parent. -/
structure GateApproved (s : InMemoryInner X) (n parent : AgentNode X) : Prop where
  parentId : n.parentId = some parent.agentId
  stored : s.nodes parent.agentId = some parent
  approve : DefaultPolicyGate.evaluate parent n.mutationIntent n.capabilitySbom = .approve

/-- What `n` passed to be promoted by `op`. -/
inductive Mediated (s : InMemoryInner X) (n : AgentNode X) : Op X → Prop
  | root (v : Veh X) (artifact : AgentArtifact X) (allowedScope : AllowedScope) (createdAt : String) :
      n.parentId = none → Mediated s n (.commitRoot v artifact allowedScope createdAt)
  | gate {op : Op X} {parent : AgentNode X} : GateApproved s n parent →
      (∀ max, parent.allowedScope.maxGeneration = some max → n.generation ≤ max) →
      (∀ gated ∈ parent.allowedScope.gatedCapabilities, gated ∉ n.capabilitySbom) → Mediated s n op
  | approval (pending : PendingApproval X) (approvalKey : X.SigningKey) :
      Mediated s n (.resumeWithApproval pending approvalKey)
  | rollback (v : Veh X) {target : AgentNode X} (createdAt : String) : s.nodes target.agentId = some target →
      target.status = .promoted → verifyNode target = .ok () → n.artifact = target.artifact →
      n.capabilitySbom = target.capabilitySbom → n.allowedScope = target.allowedScope →
      Mediated s n (.commitRollback v target.agentId createdAt)

theorem gate_mediated {s : InMemoryInner X} {i : CycleInputs X} {diff : String} {eval : EvalResult} {k : X.SigningKey}
    {n : AgentNode X} (op : Op X) (hs : s.nodes i.parent.agentId = some i.parent)
    (ha : DefaultPolicyGate.evaluate i.parent i.intent i.candidate.capabilitySbom = .approve)
    (hn : signNode (cycleInputs i diff eval .promoted true) k = .ok n) : Mediated s n op := by
  obtain ⟨hi, hsbom, -⟩ := signNode_inputs hn
  have hgen : n.generation = i.parent.generation + 1 := congrArg CommitInputs.generation hi
  have hsbom : n.capabilitySbom = i.candidate.capabilitySbom := hsbom
  have hint : n.mutationIntent = i.intent := congrArg CommitInputs.mutationIntent hi
  have happ := DefaultPolicyGate.evaluate_approve.mp ha
  refine .gate ⟨congrArg CommitInputs.parentId hi, hs, ?_⟩ ?_ ?_
  · rw [hint, hsbom, ha]
  · rw [hgen]
    exact happ.depth
  · rw [hsbom]
    exact fun gated hg => (happ.ungated gated hg).1

/-- The parent of a cycle of the history is stored, under the default gate. -/
theorem gated_cycle {t : List (Event X)} {s : InMemoryInner X} (hr : Runs Gated t s) {h : Host X} {op : Op X}
    {v : Veh X} {i : CycleInputs X} (hok : Gated t s h op) (hc : op.Cycles h s v i) :
    v.policy = DefaultPolicyGate.evaluate ∧ s.nodes i.parent.agentId = some i.parent := by
  cases hc with
  | run => exact hok
  | generation _ hp =>
    refine ⟨hok, ?_⟩
    rwa [runs_keyed hr hp]

theorem promotions_mediated {t : List (Event X)} {s : InMemoryInner X} (hr : Runs Gated t s) {n : AgentNode X}
    (hn : s.nodes n.agentId = some n) (hp : n.status = .promoted) : ∃ e ∈ t, e.Commits n ∧ Mediated s n e.op := by
  obtain ⟨e, he, hc, hd⟩ := committed hr hn
  obtain ⟨⟨t', -, hr', hok⟩, heff, hl⟩ := runs_event hr he
  have hbefore {id : AgentId} {m : AgentNode X} (hm : e.before.nodes id = some m) : s.nodes id = some m :=
    hl id m (effect_keeps heff hm)
  refine ⟨e, he, hc, ?_⟩
  generalize e.op = op at hok hd ⊢
  cases hd with
  | root hn => exact .root _ _ _ _ (congrArg CommitInputs.parentId (signNode_inputs hn).1)
  | promoted hcy _ _ ha hn =>
    obtain ⟨hpol, hpar⟩ := gated_cycle hr' hok hcy
    rw [hpol] at ha
    exact gate_mediated _ (hbefore hpar) ha hn
  | rejected _ _ hn =>
    have : n.status = .rejected := congrArg CommitInputs.status (signNode_inputs hn).1
    rw [this] at hp
    cases hp
  | resumed => exact .approval _ _
  | rolledBack ht hv hpt _ _ hn =>
    obtain ⟨hi, hsbom, -⟩ := signNode_inputs hn
    obtain ⟨_, _, _, htd⟩ := committed hr' ht
    have hkey := runs_keyed hr' ht
    subst hkey
    exact .rollback _ _ (hbefore ht) hpt hv (congrArg CommitInputs.artifact hi) (hsbom.trans htd.derived.symm)
      (congrArg CommitInputs.allowedScope hi)

/-- A promoted node, not the ledger's first, that neither the gate nor an approval let in. -/
structure Unmediated (t : List (Event X)) (s : InMemoryInner X) (n : AgentNode X) : Prop where
  stored : s.nodes n.agentId = some n
  promoted : n.status = .promoted
  later : s.insertionOrder.head? ≠ some n.agentId
  gate : ¬ ∃ parent, GateApproved s n parent
  approval : ¬ ∃ e ∈ t, e.Commits n ∧ ∃ pending key, e.op = .resumeWithApproval pending key

namespace Reference

/-- The pinned root's child, which the gate approves. -/
theorem promotions_mediated_child : ∃ t, Runs Gated t (.push (.push .default snapshotNode) child) ∧
    ∃ e ∈ t, e.Commits child ∧ Mediated (.push (.push .default snapshotNode) child) child e.op := by
  have h₁ : Runs Gated _ (.push .default snapshotNode) := snapshot_run trivial
  have h₂ := h₁.then host (.runCycle veh widening) ⟨rfl, InMemoryInner.push_same .default snapshotNode⟩ trivial
    child_committed
  exact ⟨_, h₂, promotions_mediated h₂ (InMemoryInner.push_same _ child) rfl⟩

/-- A scope without descendants. -/
def capped : AllowedScope := { AllowedScope.default with maxGeneration := some 0 }

def cappedRoot : AgentNode Reference :=
  { snapshotNode with
    agentId := "d3d8b5cf35b76b5275c182fc9d570500dca234008f834d6f94a33fa6ac340921"
    allowedScope := capped
    signature := "38b9e2b8424745b85fbe95459b49001d02b71ccac3914a0a2362bf4465334327" ++
      "875ccbd819ddb84da48e75d23ff202a91000084c7fe2f8f0d46ae2ad7e207701" }

theorem cappedRoot_signed : signNode (rootInputs rootArtifact capped "2026-01-01T00:00:00Z") seed = .ok cappedRoot :=
  signNode_eq rfl (by decide) (by decide +kernel)

/-- The rollback of that root to itself. -/
def rolledBack : AgentNode Reference :=
  { cappedRoot with
    agentId := "7f65f37af6f0a845dda6c0de6722d0e3df5127f9bfb0188a50076f390fceec41"
    parentId := some cappedRoot.agentId
    generation := 1
    createdAt := "2026-01-01T00:01:00Z"
    mutationIntent := .rollback cappedRoot.agentId
    signature := "c6bbfdec034f4507cc58967621021b30fbca2060404650459f8210ccce3ac89f" ++
      "409a9eb19c25f4ce1ee902eb8f3468707193a06de60bb32cb2ea345069ae5c06" }

theorem rolledBack_signed :
    signNode (rollbackInputs cappedRoot cappedRoot cappedRoot.agentId "2026-01-01T00:01:00Z") seed = .ok rolledBack :=
  signNode_eq rfl (by decide) (by decide +kernel)

theorem rolledBack_committed :
    (exec host (Op.commitRollback veh cappedRoot.agentId "2026-01-01T00:01:00Z").act (.push .default cappedRoot)).2 =
      .push (.push .default cappedRoot) rolledBack := by
  have hv : verifyNode cappedRoot = .ok () := verify_signNode signs hexReads cappedRoot_signed
  have hroot : (InMemoryInner.push .default cappedRoot).nodes cappedRoot.agentId = some cappedRoot :=
    InMemoryInner.push_same _ _
  have h := commitRollback_commits (h := host) (v := veh) hroot hv rfl rfl hroot rolledBack_signed (by decide)
  rw [Op.act, exec_bind, h]
  rfl

/-- The capped root, its rollback to itself and a second root, in one ledger. -/
theorem rollback_unmediated : ∃ t s, Runs Gated t s ∧ Unmediated t s rolledBack ∧ Unmediated t s snapshotNode := by
  have h₁ : Runs Gated _ (.push .default cappedRoot) := commitRoot_commits .empty trivial cappedRoot_signed rfl
  have h₂ := h₁.then host (.commitRollback veh cappedRoot.agentId "2026-01-01T00:01:00Z") trivial trivial
    rolledBack_committed
  have h₃ := commitRoot_commits h₂ trivial snapshot_signed (by decide)
  have hroot : ∀ id, id = cappedRoot.agentId →
      (InMemoryInner.push (.push (.push .default cappedRoot) rolledBack) snapshotNode).nodes id = some cappedRoot := by
    rintro _ rfl
    rfl
  refine ⟨_, _, h₃, ⟨rfl, rfl, by decide, ?_, ?_⟩, ⟨rfl, rfl, by decide, ?_, ?_⟩⟩
  · rintro ⟨parent, hid, hstored, ha⟩
    rw [hroot parent.agentId (Option.some.inj hid).symm, Option.some.injEq] at hstored
    subst hstored
    exact absurd ha (by decide)
  · rintro ⟨e, he, -, pending, key, hop⟩
    simp only [List.nil_append, List.cons_append, List.mem_cons, List.not_mem_nil, or_false] at he
    rcases he with rfl | rfl | rfl <;> cases hop
  · rintro ⟨parent, hid, -, -⟩
    cases hid
  · rintro ⟨e, he, -, pending, key, hop⟩
    simp only [List.nil_append, List.cons_append, List.mem_cons, List.not_mem_nil, or_false] at he
    rcases he with rfl | rfl | rfl <;> cases hop

end Reference

end RigVeh
