/-
  RigVeh.Runner.Regression — strict improvement on top of a rollback.

  A signed rollback repeats its target's artifact and not its evaluation. `Carries` is
  the score its artifact has all the same, that of the first scored node down the
  rollback targets. A strict cycle on a node that carries a score turns a candidate
  at or below it down exactly if the node is not a rollback, or the cycle would not
  get further anyway; and every node but the roots records an evaluation exactly
  if none is a rollback (`regression_iff`).
-/

import RigVeh.Runner.Improvement

namespace RigVeh

open RigVeh.Json RigVeh.Base

variable {X : Crates}

/-- A `commit_rollback` of the trace committed `p`. -/
def RolledBack (t : List (Event X)) (p : AgentNode X) : Prop :=
  ∃ e ∈ t, e.Commits p ∧ ∃ v targetId createdAt, e.op = .commitRollback v targetId createdAt

/-- It committed `p` to restore the stored node `target`. -/
def Restores (t : List (Event X)) (s : InMemoryInner X) (p target : AgentNode X) : Prop :=
  s.nodes target.agentId = some target ∧
    ∃ e ∈ t, e.Commits p ∧ ∃ v createdAt, e.op = .commitRollback v target.agentId createdAt

/-- The artifact of `p` was scored at `x` when it was committed: in `p`, or in what `p`
    restores. -/
inductive Carries (t : List (Event X)) (s : InMemoryInner X) : AgentNode X → F64 → Prop
  | own {p : AgentNode X} {x : F64} : storedScore p = some x → Carries t s p x
  | restored {p target : AgentNode X} {x : F64} : Restores t s p target → Carries t s target x → Carries t s p x

/-- The gate approves the candidate and its node can be committed. -/
def GateApproves (v : Veh X) (h : Host X) (i : CycleInputs X) (s : InMemoryInner X) : Prop :=
  ∃ diff eval node, Evaluated v h i diff eval ∧
    v.policy i.parent i.intent i.candidate.capabilitySbom = .approve ∧
    signNode (cycleInputs i diff eval .promoted true) v.signingKey = .ok node ∧ s.nodes node.agentId = none

/-- The gate asks for an approval. -/
def GatePauses (v : Veh X) (h : Host X) (i : CycleInputs X) : Prop :=
  ∃ diff eval reason, Evaluated v h i diff eval ∧
    v.policy i.parent i.intent i.candidate.capabilitySbom = .requireApproval reason

section

variable {ok : Rule X} {t : List (Event X)} {s : InMemoryInner X} {v : Veh X} {h : Host X} {i : CycleInputs X}
  {eval : EvalResult}

theorem runCycle_promoted_iff (he : h.evaluate i.candidate = .ok eval) :
    (∃ node e, (exec h (v.runCycle i) s).1 = .ok (.promoted node e)) ↔
      v.notImproved i.parent eval = none ∧ GateApproves v h i s := by
  constructor
  · intro ⟨node, e, hr⟩
    obtain ⟨_, hc⟩ := cycle_of_result hr
    cases hc with
    | promoted he' hi ha hn hf =>
      obtain rfl := Except.ok.inj (he.symm.trans he'.eval)
      exact ⟨hi, _, _, _, he', ha, hn, hf⟩
  · intro ⟨hi, diff, eval', node, he', ha, hn, hf⟩
    obtain rfl := Except.ok.inj (he.symm.trans he'.eval)
    exact ⟨node, eval, congrArg Prod.fst (runCycle_promotes he' hi ha hn hf)⟩

theorem runCycle_awaiting_iff (he : h.evaluate i.candidate = .ok eval) :
    (∃ pending, (exec h (v.runCycle i) s).1 = .ok (.awaitingApproval pending)) ↔
      v.notImproved i.parent eval = none ∧ GatePauses v h i := by
  constructor
  · intro ⟨pending, hr⟩
    obtain ⟨_, hc⟩ := cycle_of_result hr
    cases hc with
    | awaiting he' hi ha =>
      obtain rfl := Except.ok.inj (he.symm.trans he'.eval)
      exact ⟨hi, _, _, _, he', ha⟩
  · intro ⟨hi, diff, eval', reason, he', ha⟩
    obtain rfl := Except.ok.inj (he.symm.trans he'.eval)
    exact ⟨_, congrArg Prod.fst (runCycle_awaits he' hi ha)⟩

/-! ## What a rollback records -/

/-- A rollback has a parent and no evaluation. -/
theorem rolledBack_unscored (hr : Runs ok t s) {p : AgentNode X} (hp : RolledBack t p) :
    p.parentId ≠ none ∧ p.evalResults = none := by
  obtain ⟨e, he, hc, v, targetId, createdAt, hop⟩ := hp
  have hd := (commits_deed hr he hc).1
  rw [hop] at hd
  cases hd with
  | promoted hcy => cases hcy
  | rejected hcy => cases hcy
  | rolledBack _ _ _ _ _ hn =>
    have hi := (signNode_inputs hn).1
    rw [show p.parentId = _ from congrArg CommitInputs.parentId hi,
      show p.evalResults = _ from congrArg CommitInputs.evalResults hi]
    simp [rollbackInputs]

/-- Any other node is a root or records its evaluation. -/
theorem stored_scored (hr : Runs ok t s) {id : AgentId} {n : AgentNode X} (hn : s.nodes id = some n) :
    RolledBack t n ∨ n.parentId = none ∨ n.evalResults ≠ none := by
  obtain ⟨e, he, hc, hd⟩ := committed hr hn
  generalize hop : e.op = op at hd
  have hrecords {i : CommitInputs X} {k : X.SigningKey} (hn : signNode i k = .ok n) (hi : i.evalResults ≠ none) :
      n.evalResults ≠ none := by
    rwa [show n.evalResults = i.evalResults from congrArg CommitInputs.evalResults (signNode_inputs hn).1]
  cases hd with
  | root hn => exact .inr (.inl (congrArg CommitInputs.parentId (signNode_inputs hn).1))
  | rolledBack => exact .inl ⟨e, he, hc, _, _, _, hop⟩
  | promoted _ _ _ _ hn => exact .inr (.inr (hrecords hn (by simp [cycleInputs])))
  | rejected _ _ hn => exact .inr (.inr (hrecords hn (by simp [cycleInputs])))
  | resumed hn => exact .inr (.inr (hrecords hn (by simp [approvedInputs])))

/-- Of the nodes that carry a score only a rollback lets a candidate at or below it pass. -/
theorem notImproved_iff (hr : Runs ok t s) (hs : v.requireStrictImprovement = true) {x : F64}
    (hx : Carries t s i.parent x) (hle : eval.score.le x = true) :
    v.notImproved i.parent eval = none ↔ RolledBack t i.parent := by
  rw [notImproved_none hs]
  constructor
  · intro hno
    cases hx with
    | own hscore =>
      rw [hno x hscore] at hle
      cases hle
    | restored hm =>
      obtain ⟨-, e, he, hc, v', createdAt, hop⟩ := hm
      exact ⟨e, he, hc, v', _, createdAt, hop⟩
  · intro hback b hscore
    rw [storedScore, (rolledBack_unscored hr hback).2] at hscore
    cases hscore

/-- In every ledger reached, a strict cycle on a node that carries the score `x` does not
    promote a candidate at or below `x`, or pause for it, if and only if that node is not
    a rollback or the gate does not; and every node with a parent records an evaluation
    if and only if no node is a rollback. -/
theorem regression_iff (hr : Runs ok t s) :
    (∀ (v : Veh X) (h : Host X) (i : CycleInputs X) (x : F64) (eval : EvalResult),
      v.requireStrictImprovement = true → Carries t s i.parent x → h.evaluate i.candidate = .ok eval →
      eval.score.le x = true → ((¬ ∃ node e, (exec h (v.runCycle i) s).1 = .ok (.promoted node e)) ↔
          ¬ RolledBack t i.parent ∨ ¬ GateApproves v h i s) ∧
        ((¬ ∃ pending, (exec h (v.runCycle i) s).1 = .ok (.awaitingApproval pending)) ↔
          ¬ RolledBack t i.parent ∨ ¬ GatePauses v h i)) ∧
      ((∀ n ∈ s.list, n.parentId ≠ none → n.evalResults ≠ none) ↔ ∀ n ∈ s.list, ¬ RolledBack t n) := by
  refine ⟨fun v h i x eval hs hx he hle => ?_, fun hall n hn hback => ?_, fun hno n hn hpar => ?_⟩
  · have hrule := notImproved_iff hr hs hx hle
    rw [runCycle_promoted_iff he, runCycle_awaiting_iff he, hrule, not_and_or, not_and_or]
    exact ⟨Iff.rfl, Iff.rfl⟩
  · obtain ⟨hpar, hnone⟩ := rolledBack_unscored hr hback
    exact hall n hn hpar hnone
  · rcases stored_scored hr ((InMemoryInner.mem_list (runs_wf hr)).mp hn) with hback | hroot | hscored
    · exact absurd hback (hno n hn)
    · exact absurd hroot hpar
    · exact hscored

end

namespace Reference

/-- The rollback to the pinned root's child, on that child. -/
def restored : AgentNode Reference :=
  { child with
    agentId := "f956f701344b45cf1a1ad244fdab771aa196905d27cb68dfcc93f738a510b8b0"
    parentId := some child.agentId
    generation := 2
    createdAt := "2026-01-01T00:02:00Z"
    mutationIntent := .rollback child.agentId
    evalResults := none
    signature := "b0ac52dfbf4d50e47ffd350b00d9b7929591156f7f5ac4c051cd280ff060dc2f" ++
      "9d800f2b0d5fdf97b3c4bf8877c52ac03efdc7de913e222c86c4fa4da58df506" }

theorem restored_signed : signNode (rollbackInputs child child child.agentId "2026-01-01T00:02:00Z") seed = .ok restored :=
  signNode_eq rfl (by decide) (by decide +kernel)

/-- The same artifact, evaluated at 0.5 again. -/
def onRestored : CycleInputs Reference := ⟨restored, .new "x", rootArtifact, shellScope, "2026-01-01T00:03:00Z"⟩

def regressed : AgentNode Reference :=
  { child with
    agentId := "db8311e900131762a7819b20113d97cbd7afd26e3ba08604da86dfcef47be0a9"
    parentId := some restored.agentId
    generation := 3
    createdAt := "2026-01-01T00:03:00Z"
    signature := "6af5502ef98108b2885ce66ce1057b439d902bc6114c38902745180928036066" ++
      "8b6a6c7533e076dd00b19b8ef044041fec5115c9a182c22c1b47f23ead0ef90c" }

theorem regressed_signed : signNode (cycleInputs onRestored "" ⟨half, .null⟩ .promoted true) seed = .ok regressed :=
  signNode_eq rfl (by decide) (by decide +kernel)

/-- The pinned root, its child, and the rollback to that child. -/
def rolledLedger : InMemoryInner Reference := .push (.push (.push .default snapshotNode) child) restored

theorem restored_committed :
    (exec host (Op.commitRollback strictVeh child.agentId "2026-01-01T00:02:00Z").act
      (.push (.push .default snapshotNode) child)).2 = rolledLedger := by
  have hv : verifyNode child = .ok () := verify_signNode signs hexReads child_signed
  have hchild : (InMemoryInner.push (.push .default snapshotNode) child).nodes child.agentId = some child :=
    InMemoryInner.push_same _ _
  have h := commitRollback_commits (h := host) (v := strictVeh) hchild hv rfl rfl hchild restored_signed (by decide)
  rw [Op.act, exec_bind, h]
  rfl

/-- Strict cycles and evaluators with finite scores. -/
def FiniteStrict : Rule Reference := fun t s h op =>
  Strict t s h op ∧ ∀ a eval, h.evaluate a = .ok eval → eval.score.isFinite = true

theorem host_finite : ∀ a eval, host.evaluate a = .ok eval → eval.score.isFinite = true := by
  intro a eval he
  cases he
  decide

theorem restored_run : ∃ t, Runs FiniteStrict t rolledLedger ∧ RolledBack t restored ∧
    Carries t rolledLedger restored half := by
  have h₁ : Runs FiniteStrict _ (.push .default snapshotNode) := snapshot_run ⟨trivial, host_finite⟩
  have h₂ := h₁.then host (.runCycle strictVeh widening) ⟨rfl, host_finite⟩ trivial (congrArg Prod.snd child_strict)
  have h₃ := h₂.then host (.commitRollback strictVeh child.agentId "2026-01-01T00:02:00Z") ⟨trivial, host_finite⟩ trivial
    restored_committed
  have hcommits : ((Op.commitRollback strictVeh child.agentId "2026-01-01T00:02:00Z").event host
      (.push (.push .default snapshotNode) child)).Commits restored := by
    refine ⟨by decide, ?_⟩
    rw [Op.event, restored_committed]
    exact InMemoryInner.push_same _ _
  have hscore : storedScore child = some half := by
    have hstored : child.evalResults = some (EvalResult.toValue ⟨half, .null⟩) := rfl
    rw [storedScore_evaluated hstored, if_pos (by decide)]
  refine ⟨_, h₃, ⟨_, List.mem_append_right _ (.head _), hcommits, strictVeh, _, _, rfl⟩, ?_⟩
  exact .restored ⟨rfl, _, List.mem_append_right _ (.head _), hcommits, strictVeh, _, rfl⟩ (.own hscore)

/-- On the rollback the candidate at 0.5 is promoted, as the gate approves it. -/
theorem regressed_promoted : (exec host (strictVeh.runCycle onRestored) rolledLedger).1 =
    .ok (.promoted regressed ⟨half, .null⟩) := by
  have he : Evaluated strictVeh host onRestored "" ⟨half, .null⟩ := ⟨manifestDiff_self _, rfl⟩
  exact congrArg Prod.fst (runCycle_promotes he rfl (by decide) regressed_signed (by decide))

theorem regression_restored : ∃ t, Runs FiniteStrict t rolledLedger ∧
    ((¬ ∃ node e, (exec host (strictVeh.runCycle onRestored) rolledLedger).1 = .ok (.promoted node e)) ↔
      ¬ RolledBack t restored ∨ ¬ GateApproves strictVeh host onRestored rolledLedger) := by
  obtain ⟨t, hr, -, hcarries⟩ := restored_run
  exact ⟨t, hr, ((regression_iff hr).1 strictVeh host onRestored half ⟨half, .null⟩ rfl hcarries rfl (by decide)).1⟩

/-- Its artifact was scored at 0.5 by its target's cycle, and it records no evaluation. -/
theorem regression_promoted : ∃ t, Runs FiniteStrict t rolledLedger ∧ restored ∈ rolledLedger.list ∧
    Carries t rolledLedger restored half ∧ half.le half = true ∧
    (exec host (strictVeh.runCycle onRestored) rolledLedger).1 = .ok (.promoted regressed ⟨half, .null⟩) ∧
    restored.parentId ≠ none ∧ restored.evalResults = none := by
  obtain ⟨t, hr, -, hcarries⟩ := restored_run
  have hstored : restored ∈ rolledLedger.list :=
    (InMemoryInner.mem_list (runs_wf hr)).mpr (InMemoryInner.push_same _ restored)
  exact ⟨t, hr, hstored, hcarries, by decide, regressed_promoted, by decide, rfl⟩

end Reference

end RigVeh
