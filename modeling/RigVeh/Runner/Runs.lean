/-
  RigVeh.Runner.Runs — the runner's operations run one after the other on a ledger.

  `Host` is how the collaborators behave during one operation, `exec` runs a program
  against it and a ledger. What one operation can do is said once: `Sealed` for a
  commit, `Cycle` for `runCycle`, `Effect` for any operation (`effect`).
-/

import RigVeh.Runner.Selector

namespace RigVeh

open RigVeh.Json RigVeh.Base

variable {X : Crates}

structure Host (X : Crates) where
  evaluate : AgentArtifact X → Except Error EvalResult
  propose : AgentNode X → MutationIntent → MutationContext → Except Error (AgentArtifact X)
  enforce : AgentArtifact X → AllowedScope → Except Error Unit
  teardown : Except Error Unit
  now : Nat

def Host.answer (h : Host X) : Prog.Handler (calls X) (InMemoryInner X)
  | .ledger c, s => c.answer s
  | .evaluate artifact, s => (h.evaluate artifact, s)
  | .propose parent intent context, s => (h.propose parent intent context, s)
  | .enforce artifact scope, s => (h.enforce artifact scope, s)
  | .teardown, s => (h.teardown, s)
  | .now, s => (h.now, s)

def exec {α : Type} (h : Host X) (x : Act X α) (s : InMemoryInner X) : Except Error α × InMemoryInner X :=
  Prog.run h.answer x.run s

section

variable {α β : Type} (h : Host X) (s : InMemoryInner X)

theorem exec_bind (x : Act X α) (f : α → Act X β) :
    exec h (x >>= f) s = Prog.andThen (exec h x s) fun a s' => exec h (f a) s' := Prog.run_seq h.answer x f s

@[simp] theorem exec_attempt (r : Except Error α) : exec h (Prog.attempt r) s = (r, s) := rfl
@[simp] theorem exec_pure (a : α) : exec h (pure a : Act X α) s = (.ok a, s) := rfl
@[simp] theorem exec_append (node : AgentNode X) : exec h (Act.append node) s = s.append node := rfl
@[simp] theorem exec_get (id : AgentId) : exec h (Act.get id) s = (s.get id, s) := rfl
@[simp] theorem exec_head : exec h Act.head s = (.ok s.head, s) := rfl
@[simp] theorem exec_setHead (id : AgentId) : exec h (Act.setHead id) s = s.setHead id := rfl
@[simp] theorem exec_nodes : exec h Act.nodes s = (.ok s.list, s) := rfl
@[simp] theorem exec_evaluate (a : AgentArtifact X) : exec h (Act.evaluate a) s = (h.evaluate a, s) := rfl
@[simp] theorem exec_propose (p : AgentNode X) (i : MutationIntent) (c : MutationContext) :
    exec h (Act.propose p i c) s = (h.propose p i c, s) := rfl
@[simp] theorem exec_enforce (a : AgentArtifact X) (c : AllowedScope) :
    exec h (Act.enforce a c) s = (h.enforce a c, s) := rfl
@[simp] theorem exec_teardown : exec h Act.teardown s = (h.teardown, s) := rfl
@[simp] theorem exec_now : exec h Act.now s = (.ok h.now, s) := rfl

theorem exec_observe (x : Act X α) : exec h (observe x) s = (.ok (exec h x s).1, (exec h x s).2) := by
  rw [exec, observe, ExceptT.run_mk, Prog.run_bind]
  rfl

end

variable {h : Host X} {s s' : InMemoryInner X}

/-- What succeeds went through its first part, and succeeded from there. -/
theorem exec_bind_ok {α β : Type} {x : Act X α} {f : α → Act X β} {b : β} (hr : (exec h (x >>= f) s).1 = .ok b) :
    ∃ a s', exec h x s = (.ok a, s') ∧ (exec h (f a) s').1 = .ok b := by
  rw [exec_bind] at hr
  generalize exec h x s = out at hr ⊢
  obtain ⟨e | a, s'⟩ := out
  · cases hr
  · exact ⟨a, s', rfl, hr⟩

/-! ## What a commit can do -/

inductive Sealed (i : CommitInputs X) (k : X.SigningKey) (s : InMemoryInner X) :
    Except Error (AgentNode X) → InMemoryInner X → Prop
  | failed (e : Error) : Sealed i k s (.error e) s
  | done {node : AgentNode X} : signNode i k = .ok node → s.nodes node.agentId = none →
      Sealed i k s (.ok node) (s.push node)

theorem commit_fresh {i : CommitInputs X} {k : X.SigningKey} {node : AgentNode X} (hn : signNode i k = .ok node)
    (hf : s.nodes node.agentId = none) : exec h (commit i k) s = (.ok node, s.push node) := by
  simp only [commit, exec_bind, exec_attempt, hn, Prog.andThen_ok, exec_append, InMemoryInner.append_fresh hf, exec_pure]

theorem commit_refused {i : CommitInputs X} {k : X.SigningKey} {node : AgentNode X} (hn : signNode i k = .ok node)
    (hf : s.nodes node.agentId ≠ none) : exec h (commit i k) s = (.error (InMemoryInner.duplicate node.agentId), s) := by
  simp only [commit, exec_bind, exec_attempt, hn, Prog.andThen_ok, exec_append, InMemoryInner.append_duplicate hf,
    Prog.andThen_error]

theorem commit_sealed (h : Host X) (i : CommitInputs X) (k : X.SigningKey) (s : InMemoryInner X) :
    Sealed i k s (exec h (commit i k) s).1 (exec h (commit i k) s).2 := by
  rcases hn : signNode i k with e | node
  · simp only [commit, exec_bind, exec_attempt, hn]
    exact .failed e
  by_cases hf : s.nodes node.agentId = none
  · rw [commit_fresh hn hf]
    exact .done hn hf
  · simp only [commit, exec_bind, exec_attempt, hn, Prog.andThen_ok, exec_append, InMemoryInner.append_duplicate hf]
    exact .failed _

/-- What a commit is followed by sees its failure, or the node it stored. -/
theorem commit_then (h : Host X) (i : CommitInputs X) (k : X.SigningKey) (s : InMemoryInner X) {γ : Type}
    (f : AgentNode X → γ) (P : Except Error γ → InMemoryInner X → Prop) (hfail : ∀ e, P (.error e) s)
    (hdone : ∀ node, signNode i k = .ok node → s.nodes node.agentId = none → P (.ok (f node)) (s.push node)) :
    P (exec h (commit i k >>= fun node => pure (f node)) s).1 (exec h (commit i k >>= fun node => pure (f node)) s).2 := by
  have hc := commit_sealed h i k s
  rw [exec_bind]
  generalize exec h (commit i k) s = out at hc ⊢
  obtain ⟨r, s'⟩ := out
  cases hc with
  | failed e => exact hfail e
  | done hn hf => exact hdone _ hn hf

/-- A commit that returned a node signed it and stored it under a new id. -/
theorem commit_ok {i : CommitInputs X} {k : X.SigningKey} {node : AgentNode X}
    (hr : (exec h (commit i k) s).1 = .ok node) :
    signNode i k = .ok node ∧ s.nodes node.agentId = none ∧ (exec h (commit i k) s).2 = s.push node := by
  have hc := commit_sealed h i k s
  rw [hr] at hc
  generalize (exec h (commit i k) s).2 = s' at hc ⊢
  cases hc with
  | done hn hf => exact ⟨hn, hf, rfl⟩

theorem rollbackTarget_found {id : AgentId} {target : AgentNode X} (hn : s.nodes id = some target)
    (hv : verifyNode target = .ok ()) (hp : target.status = .promoted) :
    exec h (rollbackTarget id) s = (.ok target, s) := by
  simp only [rollbackTarget, exec_bind, exec_get, InMemoryInner.get_ok.mpr hn, Prog.andThen_ok, exec_attempt, hv, hp,
    ne_eq, not_true, if_false, exec_pure]

/-- `rollbackTarget` reads, and returns a stored promoted node that verifies. -/
theorem rollbackTarget_cases (h : Host X) (id : AgentId) (s : InMemoryInner X) :
    (∃ e, exec h (rollbackTarget id) s = (.error e, s)) ∨
      ∃ target, exec h (rollbackTarget id) s = (.ok target, s) ∧ s.nodes id = some target ∧
        verifyNode target = .ok () ∧ target.status = .promoted := by
  rcases hg : s.get id with e | target
  · refine .inl ⟨e, ?_⟩
    simp only [rollbackTarget, exec_bind, exec_get, hg, Prog.andThen_error]
  have hn := InMemoryInner.get_ok.mp hg
  rcases hv : verifyNode target with e | ⟨⟩
  · refine .inl ⟨e, ?_⟩
    simp only [rollbackTarget, exec_bind, exec_get, hg, Prog.andThen_ok, exec_attempt, hv, Prog.andThen_error]
  by_cases hp : target.status = .promoted
  · exact .inr ⟨target, rollbackTarget_found hn hv hp, hn, hv, hp⟩
  · refine .inl ⟨.policyDenied ("cannot roll back to non-promoted node " ++ id), ?_⟩
    simp only [rollbackTarget, exec_bind, exec_get, hg, Prog.andThen_ok, exec_attempt, hv, ne_eq, hp, not_false_eq_true,
      if_true]

/-! ## What a cycle can do -/

/-- The candidate was compared with its parent's artifact and evaluated. -/
structure Evaluated (v : Veh X) (h : Host X) (i : CycleInputs X) (diff : String) (eval : EvalResult) : Prop where
  diff : manifestDiff i.parent.artifact i.candidate = .ok diff
  eval : h.evaluate i.candidate = .ok eval

inductive Cycle (v : Veh X) (h : Host X) (i : CycleInputs X) (s : InMemoryInner X) :
    Except Error (CycleOutcome X) → InMemoryInner X → Prop
  | failed (e : Error) : Cycle v h i s (.error e) s
  | promoted {diff : String} {eval : EvalResult} {node : AgentNode X} : Evaluated v h i diff eval →
      v.notImproved i.parent eval = none → v.policy i.parent i.intent i.candidate.capabilitySbom = .approve →
      signNode (cycleInputs i diff eval .promoted true) v.signingKey = .ok node → s.nodes node.agentId = none →
      Cycle v h i s (.ok (.promoted node eval)) (s.push node)
  | rejected {diff : String} {eval : EvalResult} {node : AgentNode X} (reason : String) : Evaluated v h i diff eval →
      signNode (cycleInputs i diff eval .rejected false) v.signingKey = .ok node → s.nodes node.agentId = none →
      Cycle v h i s (.ok (.rejected node reason)) (s.push node)
  | awaiting {diff : String} {eval : EvalResult} {reason : String} : Evaluated v h i diff eval →
      v.notImproved i.parent eval = none →
      v.policy i.parent i.intent i.candidate.capabilitySbom = .requireApproval reason →
      Cycle v h i s (.ok (.awaitingApproval (Veh.pause i diff eval reason))) s

theorem rejects_cycle {v : Veh X} {i : CycleInputs X} {diff : String} {eval : EvalResult}
    (he : Evaluated v h i diff eval) (reason : String) :
    let out := exec h (do
      let node ← v.commitRejected i diff eval
      return CycleOutcome.rejected node reason) s
    Cycle v h i s out.1 out.2 :=
  commit_then h (cycleInputs i diff eval .rejected false) v.signingKey s (CycleOutcome.rejected · reason)
    (Cycle v h i s) .failed fun _ hn hf => .rejected reason he hn hf

theorem promotes_cycle {v : Veh X} {i : CycleInputs X} {diff : String} {eval : EvalResult}
    (he : Evaluated v h i diff eval) (hi : v.notImproved i.parent eval = none)
    (hp : v.policy i.parent i.intent i.candidate.capabilitySbom = .approve) :
    let out := exec h (do
      let node ← v.commitPromoted i diff eval
      return CycleOutcome.promoted node eval) s
    Cycle v h i s out.1 out.2 :=
  commit_then h (cycleInputs i diff eval .promoted true) v.signingKey s (CycleOutcome.promoted · eval)
    (Cycle v h i s) .failed fun _ hn hf => .promoted he hi hp hn hf

theorem runCycle_cycle (v : Veh X) (h : Host X) (i : CycleInputs X) (s : InMemoryInner X) :
    Cycle v h i s (exec h (v.runCycle i) s).1 (exec h (v.runCycle i) s).2 := by
  rw [Veh.runCycle, exec_bind, exec_attempt]
  rcases hd : manifestDiff i.parent.artifact i.candidate with e | diff
  · exact .failed e
  rw [Prog.andThen_ok, exec_bind, exec_evaluate]
  rcases hv : h.evaluate i.candidate with e | eval
  · exact .failed e
  rw [Prog.andThen_ok]
  have he : Evaluated v h i diff eval := ⟨hd, hv⟩
  rcases hi : v.notImproved i.parent eval with _ | reason
  · rcases hp : v.policy i.parent i.intent i.candidate.capabilitySbom with _ | reason | reason
    · exact promotes_cycle he hi hp
    · exact rejects_cycle he reason
    · exact .awaiting he hi hp
  · exact rejects_cycle he reason

/-- What a cycle returned, it returned in one of these ways. -/
theorem cycle_of_result {v : Veh X} {i : CycleInputs X} {r : Except Error (CycleOutcome X)}
    (hr : (exec h (v.runCycle i) s).1 = r) : ∃ s', Cycle v h i s r s' := by
  have hc := runCycle_cycle v h i s
  rw [hr] at hc
  exact ⟨_, hc⟩

theorem runCycle_promotes {v : Veh X} {i : CycleInputs X} {diff : String} {eval : EvalResult} {node : AgentNode X}
    (he : Evaluated v h i diff eval) (hi : v.notImproved i.parent eval = none)
    (hp : v.policy i.parent i.intent i.candidate.capabilitySbom = .approve)
    (hn : signNode (cycleInputs i diff eval .promoted true) v.signingKey = .ok node)
    (hf : s.nodes node.agentId = none) : exec h (v.runCycle i) s = (.ok (.promoted node eval), s.push node) := by
  simp only [Veh.runCycle, exec_bind, exec_attempt, he.diff, Prog.andThen_ok, exec_evaluate, he.eval, hi, hp,
    Veh.commitPromoted, commit_fresh hn hf, exec_pure]

/-- An approved candidate whose node is stored already. -/
theorem runCycle_refused {v : Veh X} {i : CycleInputs X} {diff : String} {eval : EvalResult} {node : AgentNode X}
    (he : Evaluated v h i diff eval) (hi : v.notImproved i.parent eval = none)
    (hp : v.policy i.parent i.intent i.candidate.capabilitySbom = .approve)
    (hn : signNode (cycleInputs i diff eval .promoted true) v.signingKey = .ok node)
    (hf : s.nodes node.agentId ≠ none) :
    exec h (v.runCycle i) s = (.error (InMemoryInner.duplicate node.agentId), s) := by
  simp only [Veh.runCycle, exec_bind, exec_attempt, he.diff, Prog.andThen_ok, exec_evaluate, he.eval, hi, hp,
    Veh.commitPromoted, commit_refused hn hf, Prog.andThen_error]

theorem runCycle_awaits {v : Veh X} {i : CycleInputs X} {diff : String} {eval : EvalResult} {reason : String}
    (he : Evaluated v h i diff eval) (hi : v.notImproved i.parent eval = none)
    (hp : v.policy i.parent i.intent i.candidate.capabilitySbom = .requireApproval reason) :
    exec h (v.runCycle i) s = (.ok (.awaitingApproval (Veh.pause i diff eval reason)), s) := by
  simp only [Veh.runCycle, exec_bind, exec_attempt, he.diff, Prog.andThen_ok, exec_evaluate, he.eval, hi, hp, exec_pure]

/-- A generation whose collaborators all answer ends as its cycle does. -/
theorem runGeneration_cycles {v : Veh X} {select : Act X AgentId} {intent : MutationIntent} {allowedScope : AllowedScope}
    {context : MutationContext} {createdAt : String} {parentId : AgentId} {parent : AgentNode X}
    {candidate : AgentArtifact X} {s₁ : InMemoryInner X} {outcome : CycleOutcome X}
    (hsel : exec h select s = (.ok parentId, s)) (hpar : s.nodes parentId = some parent)
    (hprop : h.propose parent intent context = .ok candidate) (henf : h.enforce candidate allowedScope = .ok ())
    (hdown : h.teardown = .ok ())
    (hcycle : exec h (v.runCycle ⟨parent, intent, candidate, allowedScope, createdAt⟩) s = (.ok outcome, s₁)) :
    exec h (v.runGeneration select intent allowedScope context createdAt) s = (.ok outcome, s₁) := by
  simp only [Veh.runGeneration, exec_bind, hsel, exec_get, InMemoryInner.get_ok.mpr hpar, Prog.andThen_ok, exec_propose,
    hprop, exec_enforce, henf, exec_observe, hcycle, exec_teardown, hdown, exec_attempt, exec_pure]

theorem commitRollback_commits {v : Veh X} {targetId parentId : AgentId} {createdAt : String}
    {target parent node : AgentNode X} (ht : s.nodes targetId = some target) (hv : verifyNode target = .ok ())
    (hp : target.status = .promoted) (hh : s.head = some parentId) (hpar : s.nodes parentId = some parent)
    (hn : signNode (rollbackInputs parent target targetId createdAt) v.signingKey = .ok node)
    (hf : s.nodes node.agentId = none) : exec h (v.commitRollback targetId createdAt) s = (.ok node, s.push node) := by
  simp only [Veh.commitRollback, exec_bind, rollbackTarget_found ht hv hp, Prog.andThen_ok, exec_head, hh, exec_get,
    InMemoryInner.get_ok.mpr hpar, commit_fresh hn hf]

/-! ## What an operation can do -/

inductive Op (X : Crates) where
  | commitRoot (v : Veh X) (artifact : AgentArtifact X) (allowedScope : AllowedScope) (createdAt : String)
  | runCycle (v : Veh X) (i : CycleInputs X)
  | resumeWithApproval (pending : PendingApproval X) (approvalKey : X.SigningKey)
  | rollbackTo (agentId : AgentId)
  | commitRollback (v : Veh X) (targetId : AgentId) (createdAt : String)
  | runGeneration (v : Veh X) (select : Act X AgentId) (intent : MutationIntent) (allowedScope : AllowedScope)
      (context : MutationContext) (createdAt : String)

inductive Outcome (X : Crates) where
  | node (node : AgentNode X)
  | cycle (outcome : CycleOutcome X)
  | done

namespace Op

def act : Op X → Act X (Outcome X)
  | commitRoot v artifact allowedScope createdAt => do return .node (← v.commitRoot artifact allowedScope createdAt)
  | runCycle v i => do return .cycle (← v.runCycle i)
  | resumeWithApproval pending approvalKey => do return .node (← Veh.resumeWithApproval pending approvalKey)
  | rollbackTo agentId => do
    Veh.rollbackTo agentId
    return .done
  | commitRollback v targetId createdAt => do return .node (← v.commitRollback targetId createdAt)
  | runGeneration v select intent allowedScope context createdAt => do
    return .cycle (← v.runGeneration select intent allowedScope context createdAt)

/-- A selector only reads. -/
def ReadsOnly : Op X → Prop
  | runGeneration _ select _ _ _ _ => ∀ h s, (exec h select s).2 = s
  | _ => True

/-- The cycle an operation runs, if it comes to one. -/
inductive Cycles (h : Host X) (s : InMemoryInner X) : Op X → Veh X → CycleInputs X → Prop
  | run (v : Veh X) (i : CycleInputs X) : Cycles h s (.runCycle v i) v i
  | generation {v : Veh X} {select : Act X AgentId} {intent : MutationIntent} {allowedScope : AllowedScope}
      {context : MutationContext} {createdAt : String} {parentId : AgentId} {parent : AgentNode X}
      {candidate : AgentArtifact X} : (exec h select s).1 = .ok parentId → s.nodes parentId = some parent →
      Cycles h s (.runGeneration v select intent allowedScope context createdAt) v
        ⟨parent, intent, candidate, allowedScope, createdAt⟩

end Op

inductive Effect (h : Host X) (s : InMemoryInner X) : Op X → Except Error (Outcome X) → InMemoryInner X → Prop
  | failed (op : Op X) (e : Error) : Effect h s op (.error e) s
  | root {v : Veh X} {artifact : AgentArtifact X} {allowedScope : AllowedScope} {createdAt : String}
      {node : AgentNode X} : signNode (rootInputs artifact allowedScope createdAt) v.signingKey = .ok node →
      s.nodes node.agentId = none → Effect h s (.commitRoot v artifact allowedScope createdAt) (.ok (.node node)) (s.push node)
  /-- A driver's teardown may fail after its cycle. -/
  | cycle {op : Op X} {v : Veh X} {i : CycleInputs X} {r : Except Error (CycleOutcome X)}
      {r' : Except Error (Outcome X)} {s' : InMemoryInner X} : op.Cycles h s v i → Cycle v h i s r s' →
      (r' = r.map .cycle ∨ ∃ e, r' = .error e) → Effect h s op r' s'
  | resumed {pending : PendingApproval X} {approvalKey : X.SigningKey} {node : AgentNode X} :
      signNode (approvedInputs pending) approvalKey = .ok node → s.nodes node.agentId = none →
      Effect h s (.resumeWithApproval pending approvalKey) (.ok (.node node)) (s.push node)
  | pointed {agentId : AgentId} {target : AgentNode X} : s.nodes agentId = some target →
      verifyNode target = .ok () → target.status = .promoted →
      Effect h s (.rollbackTo agentId) (.ok .done) { s with head := some agentId }
  | rolledBack {v : Veh X} {targetId parentId : AgentId} {createdAt : String} {target parent node : AgentNode X} :
      s.nodes targetId = some target → verifyNode target = .ok () → target.status = .promoted →
      s.head = some parentId → s.nodes parentId = some parent →
      signNode (rollbackInputs parent target targetId createdAt) v.signingKey = .ok node →
      s.nodes node.agentId = none → Effect h s (.commitRollback v targetId createdAt) (.ok (.node node)) (s.push node)

theorem commitRollback_effect (v : Veh X) (h : Host X) (targetId : AgentId) (createdAt : String) (s : InMemoryInner X) :
    let op := Op.commitRollback v targetId createdAt
    Effect h s op (exec h op.act s).1 (exec h op.act s).2 := by
  simp only [Op.act, Veh.commitRollback, exec_bind]
  rcases rollbackTarget_cases h targetId s with ⟨e, htarget⟩ | ⟨target, htarget, ht, hv, hp⟩
  · rw [htarget]
    exact .failed _ e
  simp only [htarget, Prog.andThen_ok, exec_head]
  rcases hh : s.head with _ | parentId
  · exact .failed _ _
  simp only [exec_bind, exec_get]
  rcases hg : s.get parentId with e | parent
  · exact .failed _ e
  have hc := commit_sealed h (rollbackInputs parent target targetId createdAt) v.signingKey s
  simp only [Prog.andThen_ok]
  generalize exec h (commit _ _) s = out at hc ⊢
  obtain ⟨r, s'⟩ := out
  cases hc with
  | failed e => exact .failed _ e
  | done hn hf => exact .rolledBack ht hv hp hh (InMemoryInner.get_ok.mp hg) hn hf

/-- A signed rollback that returned found its target and a head, and stored what it signed. -/
theorem commitRollback_ok {v : Veh X} {targetId : AgentId} {createdAt : String} {node : AgentNode X}
    (hr : exec h (v.commitRollback targetId createdAt) s = (.ok node, s')) :
    ∃ parentId target parent, s.nodes targetId = some target ∧ verifyNode target = .ok () ∧ target.status = .promoted ∧
      s.head = some parentId ∧ s.nodes parentId = some parent ∧
      signNode (rollbackInputs parent target targetId createdAt) v.signingKey = .ok node ∧
      s.nodes node.agentId = none ∧ s' = s.push node := by
  have he := commitRollback_effect v h targetId createdAt s
  simp only [Op.act, exec_bind, hr, Prog.andThen_ok, exec_pure] at he
  cases he with
  | cycle hc => cases hc
  | rolledBack ht hv hp hh hpar hn hf => exact ⟨_, _, _, ht, hv, hp, hh, hpar, hn, hf, rfl⟩

theorem rollbackTo_effect (h : Host X) (agentId : AgentId) (s : InMemoryInner X) :
    let op := Op.rollbackTo agentId
    Effect h s op (exec h op.act s).1 (exec h op.act s).2 := by
  simp only [Op.act, Veh.rollbackTo, exec_bind]
  rcases rollbackTarget_cases h agentId s with ⟨e, htarget⟩ | ⟨target, htarget, ht, hv, hp⟩
  · rw [htarget]
    exact .failed _ e
  have hset : s.setHead agentId = (.ok (), { s with head := some agentId }) := by
    simp [InMemoryInner.setHead, ht]
  simp only [htarget, Prog.andThen_ok, exec_setHead, hset]
  exact .pointed ht hv hp

theorem runGeneration_effect (v : Veh X) (h : Host X) {select : Act X AgentId} (hr : ∀ h s, (exec h select s).2 = s)
    (intent : MutationIntent) (allowedScope : AllowedScope) (context : MutationContext) (createdAt : String)
    (s : InMemoryInner X) :
    let op := Op.runGeneration v select intent allowedScope context createdAt
    Effect h s op (exec h op.act s).1 (exec h op.act s).2 := by
  have hs := hr h s
  simp only [Op.act, Veh.runGeneration, exec_bind]
  rcases hsel : exec h select s with ⟨e | parentId, s'⟩
  · rw [hsel] at hs
    obtain rfl : s' = s := hs
    exact .failed _ e
  rw [hsel] at hs
  obtain rfl : s' = s := hs
  simp only [Prog.andThen_ok, exec_get]
  rcases hg : s'.get parentId with e | parent
  · exact .failed _ e
  simp only [Prog.andThen_ok, exec_propose]
  rcases hp : h.propose parent intent context with e | candidate
  · exact .failed _ e
  simp only [Prog.andThen_ok, exec_enforce]
  rcases he : h.enforce candidate allowedScope with e | ⟨⟩
  · exact .failed _ e
  have hcycle := runCycle_cycle v h ⟨parent, intent, candidate, allowedScope, createdAt⟩ s'
  simp only [Prog.andThen_ok, exec_observe, exec_teardown, exec_attempt]
  generalize exec h (v.runCycle _) s' = out at hcycle ⊢
  obtain ⟨r, s''⟩ := out
  have hgen : Op.Cycles h s' (.runGeneration v select intent allowedScope context createdAt) v
      ⟨parent, intent, candidate, allowedScope, createdAt⟩ :=
    .generation (by rw [hsel]) (InMemoryInner.get_ok.mp hg)
  rcases r with e | o
  · exact .cycle hgen hcycle (.inl rfl)
  · rcases h.teardown with e | ⟨⟩
    · exact .cycle hgen hcycle (.inr ⟨e, rfl⟩)
    · exact .cycle hgen hcycle (.inl rfl)

/-- Every operation has one of the effects above. -/
theorem effect (h : Host X) (op : Op X) (hr : op.ReadsOnly) (s : InMemoryInner X) :
    Effect h s op (exec h op.act s).1 (exec h op.act s).2 := by
  cases op with
  | commitRoot v artifact allowedScope createdAt =>
    exact commit_then h (rootInputs artifact allowedScope createdAt) v.signingKey s _
      (Effect h s (.commitRoot v artifact allowedScope createdAt)) (.failed _) fun _ hn hf => .root hn hf
  | runCycle v i =>
    have hc := runCycle_cycle v h i s
    simp only [Op.act, exec_bind]
    generalize exec h (v.runCycle i) s = out at hc ⊢
    obtain ⟨r, s'⟩ := out
    rcases r with e | o <;> exact .cycle (.run v i) hc (.inl rfl)
  | resumeWithApproval pending approvalKey =>
    exact commit_then h (approvedInputs pending) approvalKey s _ (Effect h s (.resumeWithApproval pending approvalKey))
      (.failed _) fun _ hn hf => .resumed hn hf
  | rollbackTo agentId => exact rollbackTo_effect h agentId s
  | commitRollback v targetId createdAt => exact commitRollback_effect v h targetId createdAt s
  | runGeneration v select intent allowedScope context createdAt =>
    exact runGeneration_effect v h hr intent allowedScope context createdAt s

end RigVeh
