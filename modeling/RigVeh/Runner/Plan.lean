/-
  RigVeh.Runner.Plan — a cycle is decided before it touches the ledger.

  `plan` is what a cycle comes to on its inputs and its evaluation: an error, a pause, or
  a node already signed. The ledger has the last word on one thing only, whether the
  node's id is new (`runCycle_plan`). So an approval given after a pause commits what
  an approving gate would have committed at once, whatever was done to the ledger in
  between (`resumed_alike`).
-/

import RigVeh.Runner.Improvement

namespace RigVeh

open RigVeh.Json RigVeh.Base

variable {X : Crates}

/-- The node an outcome commits. -/
def CycleOutcome.node : CycleOutcome X → Option (AgentNode X)
  | promoted node _ => some node
  | rejected node _ => some node
  | awaitingApproval _ => none

/-- `runCycle` without its appends. -/
def Veh.plan (v : Veh X) (h : Host X) (i : CycleInputs X) : Except Error (CycleOutcome X) := do
  let mutationDiff ← manifestDiff i.parent.artifact i.candidate
  let eval ← h.evaluate i.candidate
  match v.notImproved i.parent eval with
  | some reason => return .rejected (← signNode (cycleInputs i mutationDiff eval .rejected false) v.signingKey) reason
  | none =>
    match v.policy i.parent i.intent i.candidate.capabilitySbom with
    | .approve => return .promoted (← signNode (cycleInputs i mutationDiff eval .promoted true) v.signingKey) eval
    | .deny reason => return .rejected (← signNode (cycleInputs i mutationDiff eval .rejected false) v.signingKey) reason
    | .requireApproval reason => return .awaitingApproval (pause i mutationDiff eval reason)

/-- What a plan leads to on a ledger. -/
def InMemoryInner.settle (s : InMemoryInner X) (o : CycleOutcome X) : Except Error (CycleOutcome X) × InMemoryInner X :=
  match o.node with
  | some node => Prog.andThen (s.append node) fun _ s' => (.ok o, s')
  | none => (.ok o, s)

section

variable {v : Veh X} {h : Host X} {i : CycleInputs X} {s : InMemoryInner X}

theorem exec_commit (inputs : CommitInputs X) (k : X.SigningKey) :
    exec h (commit inputs k) s =
      Prog.andThen (signNode inputs k, s) fun node s => Prog.andThen (s.append node) fun _ s' => (.ok node, s') := by
  simp only [commit, exec_bind, exec_attempt, exec_append, exec_pure]

/-- Signing and appending, as one commit or in two steps. -/
theorem commit_settle {o : AgentNode X → CycleOutcome X} (ho : ∀ node, (o node).node = some node)
    (inputs : CommitInputs X) (k : X.SigningKey) :
    (exec h (do return o (← commit inputs k)) s : Except Error (CycleOutcome X) × InMemoryInner X) =
      Prog.andThen (signNode inputs k >>= fun node => pure (o node), s) fun o s => s.settle o := by
  rw [exec_bind, exec_commit]
  rcases signNode inputs k with e | node
  · rfl
  · simp only [Prog.andThen_ok, Prog.ok_bind, pure, Except.pure, InMemoryInner.settle, ho]
    rcases s.append node with ⟨e | ⟨⟩, s'⟩ <;> rfl

/-- A cycle is its plan, and the plan's node appended. -/
theorem runCycle_plan (v : Veh X) (h : Host X) (i : CycleInputs X) (s : InMemoryInner X) :
    exec h (v.runCycle i) s = Prog.andThen (v.plan h i, s) fun o s => s.settle o := by
  rw [Veh.runCycle, Veh.plan, exec_bind, exec_attempt]
  rcases manifestDiff i.parent.artifact i.candidate with e | diff
  · rfl
  rw [Prog.andThen_ok, Prog.ok_bind, exec_bind, exec_evaluate]
  rcases h.evaluate i.candidate with e | eval
  · rfl
  rw [Prog.andThen_ok, Prog.ok_bind]
  rcases v.notImproved i.parent eval with _ | reason
  · rcases v.policy i.parent i.intent i.candidate.capabilitySbom with _ | reason | reason
    · exact commit_settle (o := fun node => .promoted node eval) (fun _ => rfl) _ _
    · exact commit_settle (o := fun node => .rejected node reason) (fun _ => rfl) _ _
    · rfl
  · exact commit_settle (o := fun node => .rejected node reason) (fun _ => rfl) _ _

theorem plan_promotes {diff : String} {eval : EvalResult} {node : AgentNode X} (he : Evaluated v h i diff eval)
    (hi : v.notImproved i.parent eval = none) (hp : v.policy i.parent i.intent i.candidate.capabilitySbom = .approve)
    (hn : signNode (cycleInputs i diff eval .promoted true) v.signingKey = .ok node) :
    v.plan h i = .ok (.promoted node eval) := by
  simp only [Veh.plan, he.diff, Prog.ok_bind, he.eval, hi, hp, hn]
  rfl

end

/-! ## Pausing and resuming -/

namespace LedgerCall

/-- The ledger after some calls. -/
def after (calls : List (LedgerCall X)) (s : InMemoryInner X) : InMemoryInner X :=
  calls.foldl (fun s c => (c.answer s).2) s

theorem Moves.keeps {s s' : InMemoryInner X} (h : Moves s s') {id : AgentId} {n : AgentNode X}
    (hn : s.nodes id = some n) : s'.nodes id = some n := by
  cases h with
  | stays => exact hn
  | pushes hf => exact InMemoryInner.push_stored hf hn
  | points => exact hn

theorem after_keeps (calls : List (LedgerCall X)) {s : InMemoryInner X} {id : AgentId} {n : AgentNode X}
    (hn : s.nodes id = some n) : (after calls s).nodes id = some n := by
  induction calls generalizing s with
  | nil => exact hn
  | cons c calls ih => exact ih ((answer_moves c s).keeps hn)

/-- What is new in the end was new before. -/
theorem after_fresh {calls : List (LedgerCall X)} {s : InMemoryInner X} {id : AgentId}
    (hf : (after calls s).nodes id = none) : s.nodes id = none := by
  rcases hs : s.nodes id with _ | n
  · rfl
  · rw [after_keeps calls hs] at hf
    cases hf

end LedgerCall

/-- The inputs that a pause keeps are those of an immediate promotion. -/
theorem approvedInputs_pause (i : CycleInputs X) (diff : String) (eval : EvalResult) (reason : String) :
    approvedInputs (Veh.pause i diff eval reason) = cycleInputs i diff eval .promoted true := rfl

section

variable {v v' : Veh X} {h h' h₁ : Host X} {i : CycleInputs X} {s : InMemoryInner X} {pending : PendingApproval X}
  {key : X.SigningKey} {node : AgentNode X}

/-- The rule passes what it passed when it was as strict. -/
theorem notImproved_weaker {eval : EvalResult} (hs : v'.requireStrictImprovement = true → v.requireStrictImprovement = true)
    (hi : v.notImproved i.parent eval = none) : v'.notImproved i.parent eval = none := by
  by_cases hv' : v'.requireStrictImprovement = true
  · rw [notImproved_none hv']
    exact (notImproved_none (hs hv')).mp hi
  · rw [Veh.notImproved, if_neg hv']

/-- The node of an approval is the one that an approving gate would have committed, in the
    ledger of the pause and in that of the approval. -/
theorem resumed_alike (hpause : (exec h (v.runCycle i) s).1 = .ok (.awaitingApproval pending))
    (calls : List (LedgerCall X))
    (hresume : (exec h' (Veh.resumeWithApproval pending key) (LedgerCall.after calls s)).1 = .ok node)
    (hkey : v'.signingKey = key) (hgate : v'.policy i.parent i.intent i.candidate.capabilitySbom = .approve)
    (hstrict : v'.requireStrictImprovement = true → v.requireStrictImprovement = true)
    (heval : h₁.evaluate i.candidate = h.evaluate i.candidate) :
    ∃ eval, h.evaluate i.candidate = .ok eval ∧
      exec h₁ (v'.runCycle i) s = (.ok (.promoted node eval), s.push node) ∧
      exec h₁ (v'.runCycle i) (LedgerCall.after calls s) =
        (.ok (.promoted node eval), (LedgerCall.after calls s).push node) ∧
      (exec h' (Veh.resumeWithApproval pending key) (LedgerCall.after calls s)).2 =
        (LedgerCall.after calls s).push node := by
  subst hkey
  obtain ⟨_, hc⟩ := cycle_of_result hpause
  cases hc with
  | @awaiting diff eval reason he hi _ =>
    obtain ⟨hn, hf, hpushed⟩ := commit_ok hresume
    rw [approvedInputs_pause] at hn
    have he' : Evaluated v' h₁ i diff eval := ⟨he.diff, heval.trans he.eval⟩
    have hi' := notImproved_weaker hstrict hi
    exact ⟨eval, he.eval, runCycle_promotes he' hi' hgate hn (LedgerCall.after_fresh hf),
      runCycle_promotes he' hi' hgate hn hf, hpushed⟩

end

namespace Reference

/-- `veh`, with a gate that always asks. -/
def askingVeh : Veh Reference := ⟨fun _ _ _ => .requireApproval "ask", seed, true⟩

theorem asking_pauses : exec host (askingVeh.runCycle widening) (.push .default snapshotNode) =
    (.ok (.awaitingApproval (Veh.pause widening "" ⟨half, .null⟩ "ask")), .push .default snapshotNode) :=
  runCycle_awaits ⟨manifestDiff_self _, rfl⟩ rfl rfl

/-- While the approval is pending, another root is committed and the head moved back. -/
def meanwhile : List (LedgerCall Reference) := [.append cappedRoot, .setHead snapshotNode.agentId, .nodes]

theorem asking_resumes : (exec host (Veh.resumeWithApproval (Veh.pause widening "" ⟨half, .null⟩ "ask") seed)
    (LedgerCall.after meanwhile (.push .default snapshotNode))).1 = .ok child :=
  congrArg Prod.fst (commit_fresh child_signed (by decide))

theorem resumed_alike_child : ∃ eval, host.evaluate widening.candidate = .ok eval ∧
    exec host (veh.runCycle widening) (.push .default snapshotNode) =
      (.ok (.promoted child eval), .push (.push .default snapshotNode) child) ∧
    exec host (veh.runCycle widening) (LedgerCall.after meanwhile (.push .default snapshotNode)) =
      (.ok (.promoted child eval), (LedgerCall.after meanwhile (.push .default snapshotNode)).push child) ∧
    (exec host (Veh.resumeWithApproval (Veh.pause widening "" ⟨half, .null⟩ "ask") seed)
        (LedgerCall.after meanwhile (.push .default snapshotNode))).2 =
      (LedgerCall.after meanwhile (.push .default snapshotNode)).push child :=
  resumed_alike (congrArg Prod.fst asking_pauses) meanwhile asking_resumes rfl (by decide) (fun _ => rfl) rfl

end Reference

end RigVeh
