/-
  RigVeh.Runner.Lineage — the lineage as a forest.

  `append` checks nothing about parents. What keeps the lineage a forest is that each
  operation read the parent it records, perhaps long before, and that stored nodes
  stay: `Lineage` is kept by every operation among any others (`op_lineage`), and a
  pause still names a stored parent when it is resumed (`Awaits`). So parents come
  before their children, one generation up, and following them from a node reaches a
  root in as many steps as the node has generations (`lineage_forest`).
-/

import RigVeh.Base.Forest
import RigVeh.Runner.Mediation
import RigVeh.Runner.Shared

namespace RigVeh

open RigVeh.Json RigVeh.Base RigVeh.Base.Prog

variable {X : Crates}

namespace AgentNode

def IsRoot (n : AgentNode X) : Prop := n.parentId = none ∧ n.generation = 0

def ChildOf (n p : AgentNode X) : Prop := n.parentId = some p.agentId ∧ n.generation = p.generation + 1

end AgentNode

structure Lineage (s : InMemoryInner X) : Prop where
  wf : s.Wf
  forest : Forest AgentNode.IsRoot AgentNode.ChildOf s.list

/-- The inputs are those of a root, or of a child of a stored node. -/
def Grafts (s : InMemoryInner X) (i : CommitInputs X) : Prop :=
  (i.parentId = none ∧ i.generation = 0) ∨
    ∃ p, s.nodes p.agentId = some p ∧ i.parentId = some p.agentId ∧ i.generation = p.generation + 1

theorem Grafts.later {s s' : InMemoryInner X} {i : CommitInputs X} (h : Grafts s i) (hl : NodesStay s s') :
    Grafts s' i := by
  rcases h with hroot | ⟨p, hp, hchild⟩
  · exact .inl hroot
  · exact .inr ⟨p, hl _ _ hp, hchild⟩

/-- A pause names a stored parent and its generation. -/
def Awaits (o : Outcome X) (s : InMemoryInner X) : Prop :=
  ∀ pending, o = .cycle (.awaitingApproval pending) →
    ∃ p, s.nodes p.agentId = some p ∧ pending.parentId = some p.agentId ∧ pending.parentGeneration = p.generation

/-- A call that may write a node. -/
def Call.Appends : Call X → Prop
  | .ledger (.append _) => True
  | _ => False

def Act.NeverAppends {α : Type} (x : Act X α) : Prop := Prog.Makes (S := calls X) (fun c => ¬ Call.Appends c) x.run

theorem lineage_default : Lineage (.default : InMemoryInner X) := ⟨InMemoryInner.default_wf, .nil⟩

theorem lineage_push {s : InMemoryInner X} (h : Lineage s) {node : AgentNode X} (hg : Grafts s node.inputs)
    (hf : s.nodes node.agentId = none) : Lineage (s.push node) := by
  refine ⟨InMemoryInner.push_wf h.wf hf, ?_⟩
  rw [InMemoryInner.list_push h.wf hf]
  rcases hg with hroot | ⟨p, hp, hchild⟩
  · exact .root h.forest hroot
  · exact .child h.forest ((InMemoryInner.mem_list h.wf).mpr hp) hchild

/-! ## Calls -/

section

variable {s : InMemoryInner X}

theorem append_lineage {node : AgentNode X} (hg : Grafts s node.inputs) :
    KeepsTo Lineage (fun _ _ => True) (Act.append node) s :=
  -- the parent is still stored
  append_keeps fun _ hl hi hf => lineage_push hi (hg.later hl) hf

/-- Any other call leaves the list of nodes as it is. -/
theorem call_lineage {c : Call X} (hc : ¬ c.Appends) {r : (calls X).Ans c} {s' : InMemoryInner X} (hi : Lineage s)
    (hm : Shared c s r s') : Lineage s' ∧ NodesStay s s' := by
  cases c with
  | ledger c =>
    cases c with
    | append => exact absurd trivial hc
    | setHead id =>
      rcases shared_setHead hm with ⟨-, rfl⟩ | ⟨-, rfl⟩
      · exact ⟨⟨InMemoryInner.head_wf hi.wf _, hi.forest⟩, fun _ _ h => h⟩
      · exact ⟨hi, fun _ _ h => h⟩
    | _ =>
      obtain rfl : s' = s := congrArg Prod.snd hm
      exact ⟨hi, fun _ _ h => h⟩
  | _ =>
    obtain rfl : s' = s := hm
    exact ⟨hi, fun _ _ h => h⟩

/-- A program that does not append may call what it likes. -/
theorem neverAppends_lineage {α : Type} {x : Act X α} (hx : x.NeverAppends) :
    KeepsTo Lineage (fun _ _ => True) x s :=
  safe_mono (fun _ _ _ _ _ _ => trivial)
    (safe_makes (P := keeping Lineage) (fun _ hc _ _ _ hi hm => call_lineage hc hi hm) hx s)

end

/-! ## Operations -/

section

variable {s : InMemoryInner X}

theorem commit_lineage (hi : Lineage s) {i : CommitInputs X} (hg : Grafts s i) (k : X.SigningKey) :
    KeepsTo Lineage (fun _ _ => True) (commit i k) s := by
  apply safeTo_check hi
  intro node hn s₁ hl hi₁
  obtain ⟨rfl, -⟩ := signNode_inputs hn
  apply safeTo_then hi₁ (append_lineage (hg.later hl))
  intro _ _ _ _ _
  exact safeTo_pure fun _ _ _ => trivial

/-- A cycle on a stored parent. -/
theorem runCycle_lineage (hi : Lineage s) (v : Veh X) (i : CycleInputs X) (hp : s.nodes i.parent.agentId = some i.parent) :
    KeepsTo Lineage (fun o s' => Awaits (.cycle o) s') (v.runCycle i) s := by
  apply safeTo_check hi
  intro diff _ s₁ hl₁ hi₁
  apply safeTo_then hi₁ (evaluate_keeps i.candidate)
  intro eval s₂ hl₂ hi₂ _
  have hp₂ : s₂.nodes i.parent.agentId = some i.parent := hl₂ _ _ (hl₁ _ _ hp)
  have hcommit (status : NodeStatus) (valid : Bool) {f : AgentNode X → CycleOutcome X}
      (hf : ∀ node pending, f node ≠ .awaitingApproval pending) :
      KeepsTo Lineage (fun o s' => Awaits (.cycle o) s')
        (commit (cycleInputs i diff eval status valid) v.signingKey >>= fun node => pure (f node)) s₂ := by
    apply safeTo_then hi₂ (commit_lineage hi₂ (.inr ⟨i.parent, hp₂, rfl, rfl⟩) _)
    intro node _ _ _ _
    exact safeTo_pure fun _ _ _ pending h => absurd (Outcome.cycle.inj h) (hf node pending)
  rcases v.notImproved i.parent eval with _ | reason
  · rcases v.policy i.parent i.intent i.candidate.capabilitySbom with _ | reason | reason
    · exact hcommit .promoted true (by simp)
    · exact hcommit .rejected false (by simp)
    · refine safeTo_pure fun s₃ hl₃ _ pending h => ?_
      cases h
      exact ⟨i.parent, hl₃ _ _ hp₂, rfl, rfl⟩
  · exact hcommit .rejected false (by simp)

theorem runGeneration_lineage (hi : Lineage s) (v : Veh X) {select : Act X AgentId} (hsel : select.NeverAppends)
    (intent : MutationIntent) (allowedScope : AllowedScope) (context : MutationContext) (createdAt : String) :
    KeepsTo Lineage (fun o s' => Awaits (.cycle o) s')
      (v.runGeneration select intent allowedScope context createdAt) s := by
  apply safeTo_then hi (neverAppends_lineage hsel)
  intro parentId s₁ _ hi₁ _
  apply safeTo_then hi₁ (get_keeps parentId)
  intro parent s₂ _ hi₂ hp₂
  apply safeTo_then hi₂ (propose_keeps parent intent context)
  intro candidate s₃ hl₃ hi₃ _
  apply safeTo_then hi₃ (enforce_keeps candidate allowedScope)
  intro _ s₄ hl₄ hi₄ _
  have hp₄ : s₄.nodes parent.agentId = some parent := by
    rw [hi₂.wf.keyed parentId parent hp₂]
    exact hl₄ _ _ (hl₃ _ _ hp₂)
  apply safeTo_then hi₄ (observe_keeps hi₄ (runCycle_lineage hi₄ v _ hp₄))
  intro outcome s₅ _ hi₅ ho
  apply safeTo_then hi₅ (observe_keeps hi₅ teardown_keeps)
  intro teardown s₆ hl₆ hi₆ _
  apply safeTo_check hi₆
  intro result hr s₇ hl₇ hi₇
  apply safeTo_check hi₇
  intro _ _ s₈ hl₈ _
  apply safeTo_pure
  intro s₉ hl₉ _ pending h
  obtain ⟨p, hp, hpar⟩ := ho result hr pending h
  exact ⟨p, hl₉ _ _ (hl₈ _ _ (hl₇ _ _ (hl₆ _ _ hp))), hpar⟩

theorem commitRollback_lineage (hi : Lineage s) (v : Veh X) (targetId : AgentId) (createdAt : String) :
    KeepsTo Lineage (fun _ _ => True) (v.commitRollback targetId createdAt) s := by
  apply safeTo_then hi (rollbackTarget_keeps hi targetId)
  intro target s₁ _ hi₁ _
  apply safeTo_then hi₁ head_keeps
  intro head s₂ _ hi₂ _
  rcases head with _ | parentId
  · exact safeTo_attempt fun _ he => by cases he
  apply safeTo_then hi₂ (get_keeps parentId)
  intro parent s₃ _ hi₃ hp
  have hp : s₃.nodes parent.agentId = some parent := by rw [hi₃.wf.keyed parentId parent hp, hp]
  exact commit_lineage hi₃ (.inr ⟨parent, hp, rfl, rfl⟩) _

/-! ## Interleavings -/

/-- Roots, generations with any selector that does not append, pauses that were
    returned and rollbacks, started at any time. -/
def Grown : InMemoryInner X → List (Prog (calls X) (Except Error (Outcome X))) →
    Prog (calls X) (Except Error (Outcome X)) → Prop :=
  fun _ ps p => ∃ op : Op X, p = op.act.run ∧
    match op with
    | .runGeneration _ select _ _ _ _ => select.NeverAppends
    | .resumeWithApproval pending _ => .ret (.ok (.cycle (.awaitingApproval pending))) ∈ ps
    | .runCycle _ _ => False
    | _ => True

/-- An operation may be started whenever the pauses it resumes have been returned. -/
theorem op_lineage (hi : Lineage s) {ps : List (Prog (calls X) (Except Error (Outcome X)))}
    (hps : ∀ q ∈ ps, Safe Shared (keeping Lineage) (fun r s' => ∀ o, r = .ok o → Awaits o s') q s)
    {p : Prog (calls X) (Except Error (Outcome X))} (hp : Grown s ps p) :
    Safe Shared (keeping Lineage) (fun r s' => ∀ o, r = .ok o → Awaits o s') p s := by
  obtain ⟨op, rfl, hop⟩ := hp
  have hdone {α : Type} {x : Act X α} (f : α → Outcome X) (hx : KeepsTo Lineage (fun _ _ => True) x s)
      (hf : ∀ a pending, f a ≠ .cycle (.awaitingApproval pending)) :
      KeepsTo Lineage Awaits (x >>= fun a => pure (f a)) s :=
    safeTo_then hi hx fun a _ _ _ _ => safeTo_pure fun _ _ _ pending h => absurd h (hf a pending)
  cases op with
  | commitRoot v artifact scope createdAt => exact hdone .node (commit_lineage hi (.inl ⟨rfl, rfl⟩) _) (by simp)
  | runCycle => exact hop.elim
  | resumeWithApproval pending key =>
    obtain ⟨p, hp, hid, hgen⟩ := hps _ hop s (fun _ _ h => h) hi _ rfl pending rfl
    refine hdone .node (commit_lineage hi (.inr ⟨p, hp, hid, ?_⟩) key) (by simp)
    exact congrArg (· + 1) hgen
  | rollbackTo id =>
    refine hdone (fun _ => .done) (safeTo_then hi (rollbackTarget_keeps hi id) fun _ _ _ _ _ => ?_) (by simp)
    exact neverAppends_lineage ⟨fun h => h, fun _ => trivial⟩
  | commitRollback v targetId createdAt => exact hdone .node (commitRollback_lineage hi v targetId createdAt) (by simp)
  | runGeneration v select intent scope context createdAt =>
    apply safeTo_then hi (runGeneration_lineage hi v hop intent scope context createdAt)
    intro o s₁ _ _ ho
    refine safeTo_pure fun s₂ hl _ pending h => ?_
    obtain ⟨p, hp, hpar⟩ := ho pending h
    exact ⟨p, hl _ _ hp, hpar⟩

theorem grown_lineage {ps : List (Prog (calls X) (Except Error (Outcome X)))}
    (hp : Pool Shared Grown (.default : InMemoryInner X) s ps) : Lineage s :=
  (pool_safe (P := keeping Lineage) (Q := fun r s' => ∀ o, r = .ok o → Awaits o s') lineage_default
    (fun _ _ _ hi hps hst => op_lineage hi hps hst) hp).1

/-- The node `k` parents up from `n`. -/
def InMemoryInner.follow (s : InMemoryInner X) : Nat → AgentNode X → Option (AgentNode X) :=
  climb fun n => n.parentId.bind s.nodes

/-- In every ledger an interleaving reaches, a parent was stored before its children and
    is one generation up, and following the parents from a node reaches a root in as
    many steps as the node has generations, not before. -/
theorem lineage_forest {ps : List (Prog (calls X) (Except Error (Outcome X)))}
    (hp : Pool Shared Grown (.default : InMemoryInner X) s ps)
    (hmax : ∀ n ∈ s.list, n.generation.toNat < 2 ^ 32 - 1) :
    (∀ pre n post, s.list = pre ++ n :: post →
      (∀ id, n.parentId = some id → ∃ p ∈ pre, p.agentId = id ∧ n.generation.toNat = p.generation.toNat + 1) ∧
        (n.parentId = none → n.generation = 0)) ∧
      ∀ n ∈ s.list, (∃ root ∈ s.list, root.parentId = none ∧ s.follow n.generation.toNat n = some root) ∧
        ∀ k < n.generation.toNat, ∃ m ∈ s.list, s.follow k n = some m ∧ m.parentId ≠ none := by
  have hl := grown_lineage hp
  have hnext {n p : AgentNode X} (hp : p ∈ s.list) (hc : n.ChildOf p) :
      n.generation.toNat = p.generation.toNat + 1 := by
    have hlt := hmax p hp
    have h1 : (1 : UInt32).toNat = 1 := rfl
    rw [hc.2, UInt32.toNat_add, h1]
    omega
  refine ⟨fun pre n post hsplit => ?_, fun n hn => ?_⟩
  · rcases hl.forest.earlier hsplit with ⟨hnone, hzero⟩ | ⟨p, hpre, hc⟩
    · refine ⟨fun id hid => ?_, fun _ => hzero⟩
      rw [hnone] at hid
      cases hid
    · refine ⟨fun id hid => ⟨p, hpre, ?_, hnext (hsplit ▸ List.mem_append_left _ hpre) hc⟩, fun hnone => ?_⟩
      · exact Option.some.inj (hc.1.symm.trans hid)
      · rw [hc.1] at hnone
        cases hnone
  · have hup : ∀ r ∈ s.list, ∀ p ∈ s.list, r.ChildOf p →
        r.parentId.bind s.nodes = some p ∧ r.generation.toNat = p.generation.toNat + 1 := by
      intro r _ p hp hc
      refine ⟨?_, hnext hp hc⟩
      rw [hc.1]
      exact (InMemoryInner.mem_list hl.wf).mp hp
    have hroot : ∀ r ∈ s.list, r.IsRoot → r.generation.toNat = 0 := by
      intro r _ hr
      rw [hr.2]
      rfl
    obtain ⟨⟨root, hmem, hr, hclimb⟩, hbelow⟩ := hl.forest.climbs hroot hup hn
    refine ⟨⟨root, hmem, hr.1, hclimb⟩, fun k hk => ?_⟩
    obtain ⟨m, hm, hclimb, p, -, hc⟩ := hbelow k hk
    refine ⟨m, hm, hclimb, ?_⟩
    rw [hc.1]
    simp

end

namespace Reference

/-- A root, and its rollback to itself, each run without interruption. -/
theorem lineage_forest_rolledBack : ∃ (s : InMemoryInner Reference) (ps : List (Prog (calls Reference) _)),
    Pool Shared Grown .default s ps ∧ rolledBack ∈ s.list ∧
      ∃ root ∈ s.list, root.parentId = none ∧ s.follow rolledBack.generation.toNat rolledBack = some root := by
  have h₀ : Pool (Shared (X := Reference)) Grown .default .default [] := .init
  have h₁ := h₀.spawn _ ⟨.commitRoot veh rootArtifact capped "2026-01-01T00:00:00Z", rfl, trivial⟩
  have h₂ := pool_run (host_shared host) [] [] h₁
  have hroot : (run host.answer (Op.commitRoot veh rootArtifact capped "2026-01-01T00:00:00Z").act.run .default).2 =
      .push .default cappedRoot := commitRoot_pushes cappedRoot_signed rfl
  rw [hroot] at h₂
  have h₃ := h₂.spawn _ ⟨.commitRollback veh cappedRoot.agentId "2026-01-01T00:01:00Z", rfl, trivial⟩
  have h₄ := pool_run (host_shared host) [_] [] h₃
  have hback : (run host.answer (Op.commitRollback veh cappedRoot.agentId "2026-01-01T00:01:00Z").act.run
      (.push .default cappedRoot)).2 = .push (.push .default cappedRoot) rolledBack := rolledBack_committed
  rw [hback] at h₄
  have hlist : (InMemoryInner.push (.push .default cappedRoot) rolledBack).list = [cappedRoot, rolledBack] := rfl
  have hmax : ∀ n ∈ [cappedRoot, rolledBack], n.generation.toNat < 2 ^ 32 - 1 := by simp; decide
  have hmem : rolledBack ∈ [cappedRoot, rolledBack] := by simp
  refine ⟨_, _, h₄, hlist ▸ hmem, ?_⟩
  exact ((lineage_forest h₄ (hlist ▸ hmax)).2 rolledBack (hlist ▸ hmem)).1

end Reference

end RigVeh
