/-
  RigVeh.Runner.Capped — how deep interleaved operations can go under one cap.

  Every root and cycle has a scope with the cap `m`, and the default gate decides. A
  generation is the parent's and one more, in `u32`, and the gate looks at the parent's
  only; `commit_rollback` asks no gate. So no cycle or resume promotes beyond the cap,
  and a rollback beyond it goes one further than the head it replaces: the promoted
  nodes of a ledger with `r` rollbacks are of generation `m + r` at most
  (`depth_capped`).
-/

import RigVeh.Runner.Ancestry
import RigVeh.Runner.Gate

namespace RigVeh

open RigVeh.Json RigVeh.Base RigVeh.Base.Prog

variable {X : Crates}

/-- Scopes with the cap `m`, and cycles that the default gate decides. -/
def Bounded (m : UInt32) : Op X → Prop
  | .commitRoot _ _ allowedScope _ => allowedScope.maxGeneration = some m
  | .runCycle v i => v.policy = DefaultPolicyGate.evaluate ∧ i.allowedScope.maxGeneration = some m
  | .runGeneration v _ _ allowedScope _ _ => v.policy = DefaultPolicyGate.evaluate ∧ allowedScope.maxGeneration = some m
  | _ => True

/-- What `commit_rollback` signs: a parent and no evaluation. -/
def AgentNode.isRollback (n : AgentNode X) : Bool := n.parentId.isSome && n.evalResults.isNone

def InMemoryInner.rollbacks (s : InMemoryInner X) : Nat := s.list.countP (·.isRollback)

structure Capped (m : UInt32) (s : InMemoryInner X) : Prop where
  scope : ∀ n ∈ s.list, n.allowedScope.maxGeneration = some m
  /-- No generation has wrapped. -/
  counted : ∀ n ∈ s.list, n.generation.toNat < s.list.length
  promoted : ∀ n ∈ s.list, n.status = .promoted → n.generation.toNat ≤ m.toNat + s.rollbacks
  cycles : ∀ n ∈ s.list, n.status = .promoted → n.evalResults ≠ none → n.generation ≤ m

section

variable {m : UInt32} {s : InMemoryInner X}

theorem rollbacks_push (hs : s.Wf) {node : AgentNode X} (hf : s.nodes node.agentId = none) :
    (s.push node).rollbacks = s.rollbacks + if node.isRollback then 1 else 0 := by
  rw [InMemoryInner.rollbacks, InMemoryInner.list_push hs hf, List.countP_append, List.countP_singleton]
  rfl

theorem orders_bounded {op : Op X} (hop : Bounded m op) {v : Veh X} {i : CycleInputs X} (ho : op.Orders v i) :
    v.policy = DefaultPolicyGate.evaluate ∧ i.allowedScope.maxGeneration = some m := by
  cases ho with
  | cycle | generation => exact hop

/-- What the default gate does not deny is within its parent's cap. -/
theorem passed_capped {parent : AgentNode X} {intent : MutationIntent} {sbom : List String}
    (hcap : parent.allowedScope.maxGeneration = some m)
    (hpass : ∀ reason, DefaultPolicyGate.evaluate parent intent sbom ≠ .deny reason) : parent.generation + 1 ≤ m := by
  refine DefaultPolicyGate.overDepth_none.mp ?_ m hcap
  by_contra hover
  obtain ⟨reason, hover⟩ := Option.ne_none_iff_exists'.mp hover
  obtain ⟨reason, hdeny⟩ := DefaultPolicyGate.evaluate_deny.mpr ⟨reason, hover⟩
  exact hpass reason hdeny

/-- One more node, told by its own bounds. -/
theorem capped_push (hs : s.Wf) (hc : Capped m s) {node : AgentNode X} (hf : s.nodes node.agentId = none)
    (hscope : node.allowedScope.maxGeneration = some m) (hcount : node.generation.toNat ≤ s.list.length)
    (hpromoted : node.status = .promoted → node.generation.toNat ≤ m.toNat + (s.push node).rollbacks)
    (hcycle : node.status = .promoted → node.evalResults ≠ none → node.generation ≤ m) : Capped m (s.push node) := by
  have hlist := InMemoryInner.list_push hs hf
  have hroll := rollbacks_push hs hf
  have hmem {n : AgentNode X} (hn : n ∈ (s.push node).list) : n ∈ s.list ∨ n = node := by
    rw [hlist] at hn
    exact (List.mem_append.mp hn).imp_right List.mem_singleton.mp
  have hlen : (s.push node).list.length = s.list.length + 1 := by rw [hlist, List.length_append, List.length_singleton]
  refine ⟨fun n hn => ?_, fun n hn => ?_, fun n hn hp => ?_, fun n hn hp he => ?_⟩
  · rcases hmem hn with hn | rfl
    · exact hc.scope n hn
    · exact hscope
  · rcases hmem hn with hn | rfl
    · have := hc.counted n hn
      omega
    · omega
  · rcases hmem hn with hn | rfl
    · have := hc.promoted n hn hp
      omega
    · exact hpromoted hp
  · rcases hmem hn with hn | rfl
    · exact hc.cycles n hn hp he
    · exact hcycle hp he

/-- One up from a stored node, without wrapping. -/
theorem capped_up (hs : s.Wf) (hc : Capped m s) (hlen : s.list.length < 2 ^ 32) {p : AgentNode X}
    (hp : s.nodes p.agentId = some p) :
    (p.generation + 1).toNat = p.generation.toNat + 1 ∧ p.generation.toNat < s.list.length := by
  have hlt := hc.counted p ((InMemoryInner.mem_list hs).mpr hp)
  refine ⟨?_, hlt⟩
  rw [UInt32.toNat_add, show (1 : UInt32).toNat = 1 from rfl, Nat.mod_eq_of_lt (by omega)]

/-- A cycle on a stored parent, not denied where it was promoted. -/
theorem capped_cycle (hs : s.Wf) (hc : Capped m s) (hlen : s.list.length < 2 ^ 32) {v : Veh X} {i : CycleInputs X}
    {diff : String} {eval : EvalResult} {status : NodeStatus} {valid : Bool} (hp : Planned (Bounded m) s v i diff)
    (hpass : status = .promoted → ∀ reason, v.policy i.parent i.intent i.candidate.capabilitySbom ≠ .deny reason)
    {node : AgentNode X} (hi : node.inputs = cycleInputs i diff eval status valid) (hf : s.nodes node.agentId = none) :
    Capped m (s.push node) := by
  have hst : node.status = status := congrArg CommitInputs.status hi
  have hsc : node.allowedScope = i.allowedScope := congrArg CommitInputs.allowedScope hi
  have hgen : node.generation = i.parent.generation + 1 := congrArg CommitInputs.generation hi
  obtain ⟨op, hop, ho⟩ := hp.asked
  obtain ⟨hpol, hscope⟩ := orders_bounded hop ho
  obtain ⟨hnat, hlt⟩ := capped_up hs hc hlen hp.parent
  have hwithin (hpr : node.status = .promoted) : node.generation ≤ m := by
    rw [hgen]
    rw [hpol] at hpass
    exact passed_capped (hc.scope _ ((InMemoryInner.mem_list hs).mpr hp.parent)) (hpass (hst ▸ hpr))
  refine capped_push hs hc hf (hsc ▸ hscope) ?_ (fun hpr => ?_) fun hpr _ => hwithin hpr
  · rw [hgen, hnat]
    exact hlt
  · exact Nat.le_add_right_of_le (UInt32.le_iff_toNat_le.mp (hwithin hpr))

theorem capped_made (hs : s.Wf) (hc : Capped m s) (hlen : s.list.length < 2 ^ 32) {i : CommitInputs X}
    {key : X.SigningKey} (hm : Made (Bounded m) s i key) {node : AgentNode X} (hi : node.inputs = i)
    (hf : s.nodes node.agentId = none) : Capped m (s.push node) := by
  have hgen : node.generation = i.generation := congrArg CommitInputs.generation hi
  have hev : node.evalResults = i.evalResults := congrArg CommitInputs.evalResults hi
  have hsc : node.allowedScope = i.allowedScope := congrArg CommitInputs.allowedScope hi
  cases hm with
  | root hok =>
    have hzero : node.generation = 0 := hgen
    refine capped_push hs hc hf (hsc ▸ hok) ?_ (fun _ => ?_) fun _ he => absurd hev he
    · rw [hzero]
      exact Nat.zero_le _
    · rw [hzero]
      exact Nat.zero_le _
  | cycle hp hv =>
    refine capped_cycle hs hc hlen hp (fun hst reason hdeny => ?_) hi hf
    cases hv with
    | approved _ ha =>
      rw [hdeny] at ha
      cases ha
    | regressed | denied => cases hst
  | resumed hp _ ha _ =>
    refine capped_cycle hs hc hlen hp (fun _ reason hdeny => ?_) hi hf
    rw [hdeny] at ha
    cases ha
  | @rolledBack v createdAt parent target hok ht htp hp hpp =>
    obtain ⟨hnat, hlt⟩ := capped_up hs hc hlen hp
    have hgen : node.generation = parent.generation + 1 := hgen
    have hscope := hc.scope _ ((InMemoryInner.mem_list hs).mpr ht)
    refine capped_push hs hc hf (hsc ▸ hscope) ?_ (fun _ => ?_) fun _ he => absurd hev he
    · rw [hgen, hnat]
      exact hlt
    · have hparent := hc.promoted _ ((InMemoryInner.mem_list hs).mpr hp) hpp
      have hroll := rollbacks_push hs hf
      have hone : node.isRollback = true := by
        rw [AgentNode.isRollback, hev, show node.parentId = some parent.agentId from congrArg CommitInputs.parentId hi]
        rfl
      rw [hone] at hroll
      rw [hgen, hnat, hroll, if_pos rfl]
      omega

end

/-- Ledgers of fewer nodes than generations are capped. -/
theorem capped_closed (m : UInt32) : Closed (Bounded m) fun s : InMemoryInner X => s.list.length < 2 ^ 32 → Capped m s where
  empty _ := by constructor <;> intro n hn <;> cases hn
  push {s i k node} hh hi hm hn hf hlen := by
    rw [InMemoryInner.list_push hh.wf hf, List.length_append, List.length_singleton] at hlen
    exact capped_made hh.wf (hi (by omega)) (by omega) hm (signNode_inputs hn).1 hf
  point _ hi _ _ hlen := by
    obtain ⟨hscope, hcount, hpromoted, hcycles⟩ := hi hlen
    exact ⟨hscope, hcount, hpromoted, hcycles⟩

/-- In every ledger that bounded operations reach, whatever is interleaved, what a cycle
    or a resume promoted is within the cap, and a promoted node is beyond it by no more
    than there are rollbacks. -/
theorem depth_capped {m : UInt32} {s : InMemoryInner X} {ps : List (Prog (calls X) (Except Error (Outcome X)))}
    (hp : Pool Shared (Served (Bounded m)) .default s ps) (hlen : s.list.length < 2 ^ 32) {n : AgentNode X}
    (hn : n ∈ s.list) (hpr : n.status = .promoted) :
    (n.evalResults ≠ none → n.generation ≤ m) ∧ n.generation.toNat ≤ m.toNat + s.rollbacks := by
  have hc := (served_closed (capped_closed m) hp).2.1 hlen
  exact ⟨hc.cycles n hn hpr, hc.promoted n hn hpr⟩

namespace Reference

/-- A rollback under the cap 0 is of generation 1. -/
theorem depth_capped_branch : rolledBack.generation = 1 ∧ rolledBack.generation.toNat ≤ (0 : UInt32).toNat + branch.rollbacks := by
  obtain ⟨ps, hp⟩ := branch_served (Bounded 0) rfl trivial
  exact ⟨rfl, (depth_capped hp (show 2 < 2 ^ 32 by decide) (.tail _ (.head _)) rfl).2⟩

end Reference

end RigVeh
