/-
  RigVeh.Runner.History — histories of operations on one ledger.

  `Runs ok t s`: the operations of the trace `t`, each allowed by `ok` when it was
  started, lead from the empty ledger to `s`. Each event keeps the ledgers before and
  after it, so `Commits` is what it says: the node was not stored before and is after.
  `Deed` is the way an operation commits a node. Every stored node was committed by one
  event of the trace (`committed`), and what was stored after an event still is
  (`runs_event`).
-/

import RigVeh.Reference
import RigVeh.Runner.Runs

namespace RigVeh

open RigVeh.Json RigVeh.Base

variable {X : Crates}

/-- How `op`, started in `s`, commits `n`. -/
inductive Deed (h : Host X) (s : InMemoryInner X) : Op X → AgentNode X → Prop
  | root {v : Veh X} {artifact : AgentArtifact X} {allowedScope : AllowedScope} {createdAt : String} {n : AgentNode X} :
      signNode (rootInputs artifact allowedScope createdAt) v.signingKey = .ok n →
      Deed h s (.commitRoot v artifact allowedScope createdAt) n
  | promoted {op : Op X} {v : Veh X} {i : CycleInputs X} {diff : String} {eval : EvalResult} {n : AgentNode X} :
      op.Cycles h s v i → Evaluated v h i diff eval → v.notImproved i.parent eval = none →
      v.policy i.parent i.intent i.candidate.capabilitySbom = .approve →
      signNode (cycleInputs i diff eval .promoted true) v.signingKey = .ok n → Deed h s op n
  | rejected {op : Op X} {v : Veh X} {i : CycleInputs X} {diff : String} {eval : EvalResult} {n : AgentNode X} :
      op.Cycles h s v i → Evaluated v h i diff eval →
      signNode (cycleInputs i diff eval .rejected false) v.signingKey = .ok n → Deed h s op n
  | resumed {pending : PendingApproval X} {approvalKey : X.SigningKey} {n : AgentNode X} :
      signNode (approvedInputs pending) approvalKey = .ok n → Deed h s (.resumeWithApproval pending approvalKey) n
  | rolledBack {v : Veh X} {targetId parentId : AgentId} {createdAt : String} {target parent n : AgentNode X} :
      s.nodes targetId = some target → verifyNode target = .ok () → target.status = .promoted →
      s.head = some parentId → s.nodes parentId = some parent →
      signNode (rollbackInputs parent target targetId createdAt) v.signingKey = .ok n →
      Deed h s (.commitRollback v targetId createdAt) n

/-- Every committed node is a signed one. -/
theorem Deed.signed {h : Host X} {s : InMemoryInner X} {op : Op X} {n : AgentNode X} (hd : Deed h s op n) :
    ∃ i k, signNode i k = .ok n := by
  cases hd with
  | root hn => exact ⟨_, _, hn⟩
  | promoted _ _ _ _ hn => exact ⟨_, _, hn⟩
  | rejected _ _ hn => exact ⟨_, _, hn⟩
  | resumed hn => exact ⟨_, _, hn⟩
  | rolledBack _ _ _ _ _ hn => exact ⟨_, _, hn⟩

theorem Deed.verifies (hS : X.Signs) (hH : X.HexReads) {h : Host X} {s : InMemoryInner X} {op : Op X}
    {n : AgentNode X} (hd : Deed h s op n) : verifyNode n = .ok () := by
  obtain ⟨i, k, hn⟩ := hd.signed
  exact verify_signNode hS hH hn

theorem Deed.derived {h : Host X} {s : InMemoryInner X} {op : Op X} {n : AgentNode X} (hd : Deed h s op n) :
    n.capabilitySbom = n.artifact.capabilitySbom := by
  obtain ⟨i, k, hn⟩ := hd.signed
  obtain ⟨hi, hs, -⟩ := signNode_inputs hn
  rw [hs, ← hi]
  rfl

/-- An operation leaves the stored nodes as they were and adds at most the node of its
    deed. -/
theorem effect_stored {h : Host X} {s s' : InMemoryInner X} {op : Op X} {r : Except Error (Outcome X)}
    (he : Effect h s op r s') : s'.nodes = s.nodes ∨ ∃ n, Deed h s op n ∧ s.nodes n.agentId = none ∧ s' = s.push n := by
  cases he with
  | failed => exact .inl rfl
  | pointed => exact .inl rfl
  | root hn hf => exact .inr ⟨_, .root hn, hf, rfl⟩
  | resumed hn hf => exact .inr ⟨_, .resumed hn, hf, rfl⟩
  | rolledBack ht hv hp hh hpar hn hf => exact .inr ⟨_, .rolledBack ht hv hp hh hpar hn, hf, rfl⟩
  | cycle hc hcy _ =>
    cases hcy with
    | failed => exact .inl rfl
    | awaiting => exact .inl rfl
    | promoted he hi hp hn hf => exact .inr ⟨_, .promoted hc he hi hp hn, hf, rfl⟩
    | rejected _ he hn hf => exact .inr ⟨_, .rejected hc he hn, hf, rfl⟩

theorem effect_keeps {h : Host X} {s s' : InMemoryInner X} {op : Op X} {r : Except Error (Outcome X)}
    (he : Effect h s op r s') {id : AgentId} {n : AgentNode X} (hn : s.nodes id = some n) : s'.nodes id = some n := by
  rcases effect_stored he with h | ⟨m, -, hf, rfl⟩
  · rw [h, hn]
  · exact InMemoryInner.push_stored hf hn

theorem effect_wf {h : Host X} {s s' : InMemoryInner X} {op : Op X} {r : Except Error (Outcome X)}
    (he : Effect h s op r s') (hs : s.Wf) : s'.Wf := by
  cases he with
  | failed => exact hs
  | pointed => exact InMemoryInner.head_wf hs _
  | root _ hf => exact InMemoryInner.push_wf hs hf
  | resumed _ hf => exact InMemoryInner.push_wf hs hf
  | rolledBack _ _ _ _ _ _ hf => exact InMemoryInner.push_wf hs hf
  | cycle _ hcy _ =>
    cases hcy with
    | failed => exact hs
    | awaiting => exact hs
    | promoted _ _ _ _ hf => exact InMemoryInner.push_wf hs hf
    | rejected _ _ _ hf => exact InMemoryInner.push_wf hs hf

/-! ## Histories -/

structure Event (X : Crates) where
  host : Host X
  op : Op X
  before : InMemoryInner X
  result : Except Error (Outcome X)
  after : InMemoryInner X

def Event.Commits (e : Event X) (n : AgentNode X) : Prop :=
  e.before.nodes n.agentId = none ∧ e.after.nodes n.agentId = some n

/-- The event of running `op` in `s`. -/
def Op.event (op : Op X) (h : Host X) (s : InMemoryInner X) : Event X :=
  ⟨h, op, s, (exec h op.act s).1, (exec h op.act s).2⟩

/-- Which operations may be started, after a trace and in a ledger, with collaborators
    that behave as the host does. -/
abbrev Rule (X : Crates) := List (Event X) → InMemoryInner X → Host X → Op X → Prop

inductive Runs (ok : Rule X) : List (Event X) → InMemoryInner X → Prop
  | empty : Runs ok [] .default
  | next {t : List (Event X)} {s : InMemoryInner X} (h : Host X) (op : Op X) : Runs ok t s → ok t s h op → op.ReadsOnly →
      Runs ok (t ++ [op.event h s]) (op.event h s).after

variable {ok : Rule X} {t : List (Event X)} {s : InMemoryInner X}

theorem Runs.mono {ok' : Rule X} (hok : ∀ t s h op, ok t s h op → ok' t s h op) (hr : Runs ok t s) : Runs ok' t s := by
  induction hr with
  | empty => exact .empty
  | next h op _ ho hro ih => exact .next h op ih (hok _ _ _ _ ho) hro

/-- One more operation, of which the ledger left is known. -/
theorem Runs.then {s' : InMemoryInner X} (hr : Runs ok t s) (h : Host X) (op : Op X) (ho : ok t s h op) (hro : op.ReadsOnly)
    (hs : (exec h op.act s).2 = s') : Runs ok (t ++ [op.event h s]) s' := by
  subst hs
  exact .next h op hr ho hro

theorem runs_wf (hr : Runs ok t s) : s.Wf := by
  induction hr with
  | empty => exact InMemoryInner.default_wf
  | next h op _ _ hro ih => exact effect_wf (effect h op hro _) ih

/-- An event of a trace: it was allowed and had one of its operation's effects, and
    what it stored is stored at the end. -/
structure Happened (ok : Rule X) (t : List (Event X)) (s : InMemoryInner X) (e : Event X) : Prop where
  before : ∃ t', t' <+: t ∧ Runs ok t' e.before ∧ ok t' e.before e.host e.op
  effect : Effect e.host e.before e.op e.result e.after
  later : ∀ id n, e.after.nodes id = some n → s.nodes id = some n

theorem runs_event (hr : Runs ok t s) {e : Event X} (he : e ∈ t) : Happened ok t s e := by
  induction hr with
  | empty => cases he
  | @next t s h op hr ho hro ih =>
    have heff := effect h op hro s
    rcases List.mem_append.mp he with he | he
    · obtain ⟨⟨t', hp, hr', ho'⟩, heff', hl⟩ := ih he
      exact ⟨⟨t', hp.trans (List.prefix_append _ _), hr', ho'⟩, heff', fun id n hn => effect_keeps heff (hl id n hn)⟩
    · obtain rfl := List.mem_singleton.mp he
      exact ⟨⟨t, List.prefix_append _ _, hr, ho⟩, heff, fun _ _ hn => hn⟩

/-- An event is what running its operation gave. -/
theorem runs_executed (hr : Runs ok t s) {e : Event X} (he : e ∈ t) :
    e.op.ReadsOnly ∧ e.result = (exec e.host e.op.act e.before).1 := by
  induction hr with
  | empty => cases he
  | next h op _ _ hro ih =>
    rcases List.mem_append.mp he with he | he
    · exact ih he
    · obtain rfl := List.mem_singleton.mp he
      exact ⟨hro, rfl⟩

/-- Every stored node was committed by an event. -/
theorem committed (hr : Runs ok t s) {id : AgentId} {n : AgentNode X} (hn : s.nodes id = some n) :
    ∃ e ∈ t, e.Commits n ∧ Deed e.host e.before e.op n := by
  induction hr with
  | empty => cases hn
  | @next t s h op hr ho hro ih =>
    rcases effect_stored (effect h op hro s) with hsame | ⟨m, hd, hf, hpush⟩
    · rw [Op.event, hsame] at hn
      obtain ⟨e, he, hc⟩ := ih hn
      exact ⟨e, by simp [he], hc⟩
    rw [Op.event, hpush] at hn
    rcases InMemoryInner.stored_push hn with hn | ⟨-, rfl⟩
    · obtain ⟨e, he, hc⟩ := ih hn
      exact ⟨e, by simp [he], hc⟩
    · refine ⟨op.event h s, by simp, ⟨hf, ?_⟩, hd⟩
      rw [Op.event, hpush, InMemoryInner.push_same]

/-- What an event commits is its deed. -/
theorem commits_deed (hr : Runs ok t s) {e : Event X} (he : e ∈ t) {n : AgentNode X} (hn : e.Commits n) :
    Deed e.host e.before e.op n ∧ e.after = e.before.push n := by
  rcases effect_stored (runs_event hr he).effect with hsame | ⟨k, hd, -, hpush⟩
  · have hafter := hn.2
    rw [hsame, hn.1] at hafter
    cases hafter
  · have hafter := hn.2
    rw [hpush] at hafter
    rcases InMemoryInner.stored_push hafter with h | ⟨-, rfl⟩
    · rw [hn.1] at h
      cases h
    · exact ⟨hd, hpush⟩

theorem commits_unique (hr : Runs ok t s) {e : Event X} (he : e ∈ t) {n m : AgentNode X} (hn : e.Commits n)
    (hm : e.Commits m) : n = m := by
  have hafter := hn.2
  rw [(commits_deed hr he hm).2] at hafter
  rcases InMemoryInner.stored_push hafter with h | ⟨-, h⟩
  · rw [hn.1] at h
    cases h
  · exact h

theorem runs_keyed (hr : Runs ok t s) {id : AgentId} {n : AgentNode X} (hn : s.nodes id = some n) : n.agentId = id :=
  (runs_wf hr).keyed id n hn

/-- Every stored node verifies. -/
theorem runs_verified (hS : X.Signs) (hH : X.HexReads) (hr : Runs ok t s) {id : AgentId} {n : AgentNode X}
    (hn : s.nodes id = some n) : verifyNode n = .ok () := by
  obtain ⟨e, -, -, hd⟩ := committed hr hn
  exact hd.verifies hS hH

/-! ## A runner to run -/

namespace Reference

/-- `Veh::new(..).with_strict_improvement(false)`. -/
def veh : Veh Reference := ⟨DefaultPolicyGate.evaluate, seed, false⟩

/-- `StubEvaluator::new(0.5)`, a mutator that proposes the parent's artifact and
    `NoopSandbox`. -/
def host : Host Reference where
  evaluate _ := .ok ⟨half, .null⟩
  propose parent _ _ := .ok parent.artifact
  enforce _ _ := .ok ()
  teardown := .ok ()
  now := 0

section

variable {ok : Rule Reference} {t : List (Event Reference)} {s : InMemoryInner Reference}
  {artifact : AgentArtifact Reference} {scope : AllowedScope} {createdAt : String} {node : AgentNode Reference}

theorem commitRoot_pushes (hn : signNode (rootInputs artifact scope createdAt) seed = .ok node)
    (hf : s.nodes node.agentId = none) : (exec host (Op.commitRoot veh artifact scope createdAt).act s).2 = s.push node := by
  simp only [Op.act, exec_bind, Veh.commitRoot, commit_fresh (k := veh.signingKey) hn hf, Prog.andThen_ok, exec_pure]

theorem commitRoot_commits (hr : Runs ok t s) (ho : ok t s host (.commitRoot veh artifact scope createdAt))
    (hn : signNode (rootInputs artifact scope createdAt) seed = .ok node) (hf : s.nodes node.agentId = none) :
    Runs ok (t ++ [(Op.commitRoot veh artifact scope createdAt).event host s]) (s.push node) :=
  hr.then host _ ho trivial (commitRoot_pushes hn hf)

end

/-- The pinned root, committed first. -/
theorem snapshot_run {ok : Rule Reference}
    (ho : ok [] .default host (.commitRoot veh rootArtifact .default "2026-01-01T00:00:00Z")) :
    Runs ok [(Op.commitRoot veh rootArtifact .default "2026-01-01T00:00:00Z").event host .default]
      (.push .default snapshotNode) :=
  commitRoot_commits .empty ho snapshot_signed rfl

end Reference

end RigVeh
