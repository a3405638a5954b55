/-
  RigVeh.Runner.Veh — the lifecycle runner (`src/graph.rs`).

  An operation of the runner is a program (`Act`): it makes calls on the ledger and on
  the host's collaborators (evaluator, mutator, sandbox, clock) and stops at the first
  error. The same program is run alone against a ledger and a `Host` (`Runs`) or
  interleaved with others (`Head`).
-/

import RigVeh.Ledger.Memory
import RigVeh.Runner.Policy

namespace RigVeh

open RigVeh.Json RigVeh.Base

variable {X : Crates}

structure MutationContext where
  iterationsLeft : Option UInt32
  metadata : Value

/-- What the runner, the selectors and the driver call. -/
inductive Call (X : Crates) where
  | ledger (c : LedgerCall X)
  /-- `Evaluator::evaluate`. -/
  | evaluate (artifact : AgentArtifact X)
  /-- `Mutator::propose`. -/
  | propose (parent : AgentNode X) (intent : MutationIntent) (context : MutationContext)
  /-- `Sandbox::enforce`. -/
  | enforce (artifact : AgentArtifact X) (scope : AllowedScope)
  /-- `Sandbox::teardown`. -/
  | teardown
  /-- Nanoseconds since the epoch. -/
  | now

namespace Call

@[reducible] def Ans : Call X → Type
  | ledger c => c.Ans
  | evaluate _ => Except Error EvalResult
  | propose _ _ _ => Except Error (AgentArtifact X)
  | enforce _ _ => Except Error Unit
  | teardown => Except Error Unit
  | now => Nat

end Call

@[reducible] def calls (X : Crates) : Sig := ⟨Call X, Call.Ans⟩

/-- A program that may fail with an `Error`. -/
abbrev Act (X : Crates) (α : Type) := ExceptT Error (Prog (calls X)) α

namespace Act

def append (node : AgentNode X) : Act X Unit := .mk (Prog.op (S := calls X) (.ledger (.append node)))
def get (id : AgentId) : Act X (AgentNode X) := .mk (Prog.op (S := calls X) (.ledger (.get id)))
def head : Act X (Option AgentId) := .mk (Prog.op (S := calls X) (.ledger .head))
def setHead (id : AgentId) : Act X Unit := .mk (Prog.op (S := calls X) (.ledger (.setHead id)))
def nodes : Act X (List (AgentNode X)) := .mk (Prog.op (S := calls X) (.ledger .nodes))
def evaluate (artifact : AgentArtifact X) : Act X EvalResult := .mk (Prog.op (S := calls X) (.evaluate artifact))
def propose (parent : AgentNode X) (intent : MutationIntent) (context : MutationContext) : Act X (AgentArtifact X) :=
  .mk (Prog.op (S := calls X) (.propose parent intent context))
def enforce (artifact : AgentArtifact X) (scope : AllowedScope) : Act X Unit :=
  .mk (Prog.op (S := calls X) (.enforce artifact scope))
def teardown : Act X Unit := .mk (Prog.op (S := calls X) .teardown)
def now : Act X Nat := .mk (.call .now fun n => .ret (.ok n))

end Act

/-- `manifest_diff` (`src/diff.rs`). -/
def manifestDiff (parent candidate : AgentArtifact X) : Except Error String := do
  let parentBytes ← parent.canonicalBytes
  let candidateBytes ← candidate.canonicalBytes
  return X.unifiedDiff parentBytes candidateBytes

structure CycleInputs (X : Crates) where
  parent : AgentNode X
  intent : MutationIntent
  candidate : AgentArtifact X
  allowedScope : AllowedScope
  createdAt : String

structure PendingApproval (X : Crates) where
  parentId : Option AgentId
  parentGeneration : UInt32
  intent : MutationIntent
  candidate : AgentArtifact X
  allowedScope : AllowedScope
  createdAt : String
  evalResults : Value
  mutationDiff : String
  decisionReason : String

inductive CycleOutcome (X : Crates) where
  | promoted (node : AgentNode X) (eval : EvalResult)
  | rejected (node : AgentNode X) (reason : String)
  | awaitingApproval (pending : PendingApproval X)

/-- The runner's own fields; the ledger and the evaluator are what it calls. -/
structure Veh (X : Crates) where
  policy : PolicyGate X
  signingKey : X.SigningKey
  requireStrictImprovement : Bool

/-- `eval_results.score`, where there is a number. -/
def storedScore (node : AgentNode X) : Option F64 :=
  node.evalResults.bind fun v => (v.1.get "score").bind Tree.asF64

/-! ## The inputs of each commit -/

/-- `commit_root`. -/
def rootInputs (artifact : AgentArtifact X) (allowedScope : AllowedScope) (createdAt : String) : CommitInputs X where
  parentId := none
  generation := 0
  createdAt := createdAt
  mutationIntent := .new "genesis"
  mutationDiff := ""
  allowedScope := allowedScope
  evalResults := none
  artifact := artifact
  status := .promoted
  parentAgentSuccess := true
  validParent := true
  evalStage := none

/-- `commit_promoted` and `commit_rejected`, which differ in the status and in
    whether the node may become a parent. -/
def cycleInputs (i : CycleInputs X) (mutationDiff : String) (eval : EvalResult) (status : NodeStatus)
    (validParent : Bool) : CommitInputs X where
  parentId := some i.parent.agentId
  generation := i.parent.generation + 1
  createdAt := i.createdAt
  mutationIntent := i.intent
  mutationDiff := mutationDiff
  allowedScope := i.allowedScope
  evalResults := some eval.toValue
  artifact := i.candidate
  status := status
  parentAgentSuccess := true
  validParent := validParent
  evalStage := none

/-- `resume_with_approval`. -/
def approvedInputs (p : PendingApproval X) : CommitInputs X where
  parentId := p.parentId
  generation := p.parentGeneration + 1
  createdAt := p.createdAt
  mutationIntent := p.intent
  mutationDiff := p.mutationDiff
  allowedScope := p.allowedScope
  evalResults := some p.evalResults
  artifact := p.candidate
  status := .promoted
  parentAgentSuccess := true
  validParent := true
  evalStage := none

/-- `commit_rollback`, on the current head `parent`. -/
def rollbackInputs (parent target : AgentNode X) (targetId : AgentId) (createdAt : String) : CommitInputs X where
  parentId := some parent.agentId
  generation := parent.generation + 1
  createdAt := createdAt
  mutationIntent := .rollback targetId
  mutationDiff := ""
  allowedScope := target.allowedScope
  evalResults := none
  artifact := target.artifact
  status := .promoted
  parentAgentSuccess := true
  validParent := true
  evalStage := none

/-! ## The operations -/

/-- Sign and append: the end of every operation that commits. -/
def commit (inputs : CommitInputs X) (signingKey : X.SigningKey) : Act X (AgentNode X) := do
  let node ← Prog.attempt (signNode inputs signingKey)
  Act.append node
  return node

/-- A rollback target: stored, verified and promoted. -/
def rollbackTarget (agentId : AgentId) : Act X (AgentNode X) := do
  let target ← Act.get agentId
  Prog.attempt (verifyNode target)
  if target.status ≠ .promoted then
    Prog.attempt (.error (.policyDenied ("cannot roll back to non-promoted node " ++ agentId)))
  else return target

namespace Veh

variable (v : Veh X)

def commitRoot (artifact : AgentArtifact X) (allowedScope : AllowedScope) (createdAt : String) : Act X (AgentNode X) :=
  commit (rootInputs artifact allowedScope createdAt) v.signingKey

def commitPromoted (i : CycleInputs X) (mutationDiff : String) (eval : EvalResult) : Act X (AgentNode X) :=
  commit (cycleInputs i mutationDiff eval .promoted true) v.signingKey

def commitRejected (i : CycleInputs X) (mutationDiff : String) (eval : EvalResult) : Act X (AgentNode X) :=
  commit (cycleInputs i mutationDiff eval .rejected false) v.signingKey

/-- FR-5: why the candidate's score does not do, if it does not. -/
def notImproved (parent : AgentNode X) (eval : EvalResult) : Option String :=
  if v.requireStrictImprovement then
    (storedScore parent).bind fun parentScore =>
      if eval.score.le parentScore then
        some ("candidate score " ++ X.f64 eval.score ++ " did not exceed parent " ++ X.f64 parentScore)
      else none
  else none

/-- The state kept over a pause. -/
def pause (i : CycleInputs X) (mutationDiff : String) (eval : EvalResult) (reason : String) : PendingApproval X where
  parentId := some i.parent.agentId
  parentGeneration := i.parent.generation
  intent := i.intent
  candidate := i.candidate
  allowedScope := i.allowedScope
  createdAt := i.createdAt
  evalResults := eval.toValue
  mutationDiff := mutationDiff
  decisionReason := reason

def runCycle (i : CycleInputs X) : Act X (CycleOutcome X) := do
  let mutationDiff ← Prog.attempt (manifestDiff i.parent.artifact i.candidate)
  let eval ← Act.evaluate i.candidate
  match v.notImproved i.parent eval with
  | some reason =>
    let node ← v.commitRejected i mutationDiff eval
    return .rejected node reason
  | none =>
    match v.policy i.parent i.intent i.candidate.capabilitySbom with
    | .approve =>
      let node ← v.commitPromoted i mutationDiff eval
      return .promoted node eval
    | .deny reason =>
      let node ← v.commitRejected i mutationDiff eval
      return .rejected node reason
    | .requireApproval reason => return .awaitingApproval (pause i mutationDiff eval reason)

def resumeWithApproval (pending : PendingApproval X) (approvalKey : X.SigningKey) : Act X (AgentNode X) :=
  commit (approvedInputs pending) approvalKey

def rollbackTo (agentId : AgentId) : Act X Unit := do
  let _ ← rollbackTarget agentId
  Act.setHead agentId

def commitRollback (targetId : AgentId) (createdAt : String) : Act X (AgentNode X) := do
  let target ← rollbackTarget targetId
  match ← Act.head with
  | none => Prog.attempt (.error (.ledger "ledger has no head; nothing to roll back"))
  | some parentId =>
    let parent ← Act.get parentId
    commit (rollbackInputs parent target targetId createdAt) v.signingKey

end Veh

end RigVeh
