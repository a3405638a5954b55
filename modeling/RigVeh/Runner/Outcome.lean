/-
  RigVeh.Runner.Outcome — what a result says of the ledger.

  `Appended` is the frame of an append: one node more, last in the order, and the rest
  of the map as it was. `Records` is the node of a cycle, field by field.
  - A cycle that returns a node has appended that node and no other; the head goes to a
    promoted one and stays for a rejected one. A pause leaves the ledger as it was
    (`runCycle_tells`).
  - A runner's operation that fails leaves the ledger as it was (`failed_unchanged`).
  - A generation that fails does too, and drops no pause, unless its cycle had
    returned and it is the sandbox's teardown that failed (`failed_generation`).
-/

import RigVeh.Runner.Descent
import RigVeh.Runner.Head

namespace RigVeh

open RigVeh.Json RigVeh.Base

variable {X : Crates}

/-! ## Cycles -/

/-- `s'` is `s` with `node` appended last. -/
structure Appended (s s' : InMemoryInner X) (node : AgentNode X) : Prop where
  fresh : s.nodes node.agentId = none
  order : s'.insertionOrder = s.insertionOrder ++ [node.agentId]
  stored : s'.nodes node.agentId = some node
  others : ∀ id, id ≠ node.agentId → s'.nodes id = s.nodes id
  list : s.Wf → s'.list = s.list ++ [node]

/-- `node` was made from the cycle's inputs and from what its evaluator returned. -/
structure Records (v : Veh X) (h : Host X) (i : CycleInputs X) (status : NodeStatus) (validParent : Bool)
    (eval : EvalResult) (node : AgentNode X) : Prop where
  evaluated : h.evaluate i.candidate = .ok eval
  evalResults : node.evalResults = some eval.toValue
  mutationDiff : manifestDiff i.parent.artifact i.candidate = .ok node.mutationDiff
  parentId : node.parentId = some i.parent.agentId
  generation : node.generation = i.parent.generation + 1
  artifact : node.artifact = i.candidate
  capabilitySbom : node.capabilitySbom = i.candidate.capabilitySbom
  mutationIntent : node.mutationIntent = i.intent
  allowedScope : node.allowedScope = i.allowedScope
  createdAt : node.createdAt = i.createdAt
  signer : node.signerPublicKey = X.hexEncode (X.keyToBytes (X.verifyingKey v.signingKey)).1
  verifies : verifyNode node = .ok ()
  status_eq : node.status = status
  valid : node.validParent = validParent

section

variable {v : Veh X} {h : Host X} {i : CycleInputs X} {s : InMemoryInner X} {node : AgentNode X}

theorem push_appended (hf : s.nodes node.agentId = none) : Appended s (s.push node) node where
  fresh := hf
  order := rfl
  stored := InMemoryInner.push_same s node
  others _ hid := InMemoryInner.push_ne s node hid
  list hs := InMemoryInner.list_push hs hf

theorem cycle_records (hS : X.Signs) (hH : X.HexReads) {diff : String} {eval : EvalResult} {status : NodeStatus}
    {validParent : Bool} (he : Evaluated v h i diff eval)
    (hn : signNode (cycleInputs i diff eval status validParent) v.signingKey = .ok node) :
    Records v h i status validParent eval node := by
  obtain ⟨hi, hsbom, hkey⟩ := signNode_inputs hn
  refine ⟨he.eval, congrArg CommitInputs.evalResults hi, ?_, congrArg CommitInputs.parentId hi,
    congrArg CommitInputs.generation hi, congrArg CommitInputs.artifact hi, hsbom, congrArg CommitInputs.mutationIntent hi,
    congrArg CommitInputs.allowedScope hi, congrArg CommitInputs.createdAt hi, hkey, verify_signNode hS hH hn,
    congrArg CommitInputs.status hi, congrArg CommitInputs.validParent hi⟩
  rw [he.diff]
  exact congrArg Except.ok (congrArg CommitInputs.mutationDiff hi).symm

/-- What a cycle returned and left, it returned and left in one of these ways. -/
theorem cycle_of_exec {r : Except Error (CycleOutcome X)} {s' : InMemoryInner X}
    (hr : exec h (v.runCycle i) s = (r, s')) : Cycle v h i s r s' := by
  have hc := runCycle_cycle v h i s
  rw [hr] at hc
  exact hc

end

/-- A cycle's outcome is what it committed. -/
theorem runCycle_tells (hS : X.Signs) (hH : X.HexReads) (v : Veh X) (h : Host X) (i : CycleInputs X)
    (s s' : InMemoryInner X) :
    (∀ node eval, exec h (v.runCycle i) s = (.ok (.promoted node eval), s') →
      Appended s s' node ∧ s'.head = some node.agentId ∧ Records v h i .promoted true eval node) ∧
    (∀ node reason, exec h (v.runCycle i) s = (.ok (.rejected node reason), s') →
      Appended s s' node ∧ s'.head = s.head ∧ ∃ eval, Records v h i .rejected false eval node) ∧
    ∀ pending, exec h (v.runCycle i) s = (.ok (.awaitingApproval pending), s') → s' = s := by
  refine ⟨?_, ?_, ?_⟩
  · intro node eval hr
    cases cycle_of_exec hr with
    | promoted he _ _ hn hf =>
      have hrec := cycle_records hS hH he hn
      refine ⟨push_appended hf, ?_, hrec⟩
      rw [InMemoryInner.push_head, if_pos hrec.status_eq]
  · intro node reason hr
    cases cycle_of_exec hr with
    | rejected _ he hn hf =>
      have hrec := cycle_records hS hH he hn
      refine ⟨push_appended hf, ?_, _, hrec⟩
      rw [InMemoryInner.push_head, if_neg (by rw [hrec.status_eq]; decide)]
  · intro pending hr
    cases cycle_of_exec hr with
    | awaiting => rfl

namespace Reference

theorem runCycle_tells_child :
    Appended (.push .default snapshotNode) (.push (.push .default snapshotNode) child) child ∧
      (InMemoryInner.push (.push .default snapshotNode) child).head = some child.agentId ∧
      Records veh host widening .promoted true ⟨half, .null⟩ child :=
  (runCycle_tells signs hexReads veh host widening _ _).1 child ⟨half, .null⟩ child_promoted

end Reference

/-! ## Failures of the runner -/

section

variable {h : Host X} {s : InMemoryInner X}

/-- A cycle that fails appended nothing. -/
theorem failed_cycle {v : Veh X} {i : CycleInputs X} {e : Error} {s' : InMemoryInner X}
    (hr : exec h (v.runCycle i) s = (.error e, s')) : s' = s := by
  cases cycle_of_exec hr with
  | failed => rfl

theorem Op.OfRunner.readsOnly {op : Op X} (ho : op.OfRunner) : op.ReadsOnly := by
  cases op with
  | runGeneration => exact ho.elim
  | _ => trivial

/-- No operation of the runner writes before its last failure point. -/
theorem failed_unchanged {op : Op X} (ho : op.OfRunner) {e : Error} (hr : (exec h op.act s).1 = .error e) :
    (exec h op.act s).2 = s := by
  have he := effect h op ho.readsOnly s
  rw [hr] at he
  generalize hs' : (exec h op.act s).2 = s' at he
  cases he with
  | failed => rfl
  | @cycle _ v i _ _ _ hc _ _ =>
    cases hc with
    | generation => cases ho
    | run =>
      -- the effect allows for a teardown's failure, which a cycle of the runner has not
      simp only [Op.act, exec_bind] at hr hs'
      rcases hrun : exec h (v.runCycle i) s with ⟨e' | o, s''⟩
      · rw [hrun] at hs'
        exact hs'.symm.trans (failed_cycle hrun)
      · rw [hrun] at hr
        cases hr

end

namespace Reference

/-- The ledger with the root and its child, its head moved back to the root. -/
def backAtRoot : InMemoryInner Reference :=
  { InMemoryInner.push (.push .default snapshotNode) child with head := some snapshotNode.agentId }

/-- The child's cycle once more goes all the way to the append, which refuses the child. -/
theorem cycle_refused : (exec host (Op.runCycle veh widening).act backAtRoot).1 =
    .error (InMemoryInner.duplicate child.agentId) := by
  have he : Evaluated veh host widening "" ⟨half, .null⟩ := ⟨manifestDiff_self _, rfl⟩
  rw [Op.act, exec_bind, runCycle_refused he rfl (by decide) child_signed (by decide), Prog.andThen_error]

theorem failed_unchanged_cycle : (exec host (Op.runCycle veh widening).act backAtRoot).2 = backAtRoot :=
  failed_unchanged trivial cycle_refused

end Reference

/-! ## Failures of a generation -/

/-- A generation came to its cycle: a parent was selected and found, and the sandbox let
    the proposed candidate in. -/
structure Cycled (h : Host X) (s : InMemoryInner X) (select : Act X AgentId) (intent : MutationIntent)
    (allowedScope : AllowedScope) (context : MutationContext) (parent : AgentNode X) (candidate : AgentArtifact X) : Prop where
  selected : ∃ parentId, (exec h select s).1 = .ok parentId ∧ s.nodes parentId = some parent
  proposed : h.propose parent intent context = .ok candidate
  enforced : h.enforce candidate allowedScope = .ok ()

section

variable {v : Veh X} {h : Host X} {s : InMemoryInner X} {select : Act X AgentId} {intent : MutationIntent}
  {allowedScope : AllowedScope} {context : MutationContext} {createdAt : String} {parent : AgentNode X}
  {candidate : AgentArtifact X}

/-- A generation that came to its cycle ends as the cycle does, unless the teardown fails. -/
theorem runGeneration_cycled (hro : (exec h select s).2 = s)
    (hc : Cycled h s select intent allowedScope context parent candidate) :
    exec h (v.runGeneration select intent allowedScope context createdAt) s =
      Prog.andThen (exec h (v.runCycle ⟨parent, intent, candidate, allowedScope, createdAt⟩) s)
        fun o s' => (h.teardown.map fun _ => o, s') := by
  obtain ⟨⟨parentId, hsel, hpar⟩, hprop, henf⟩ := hc
  have hsel : exec h select s = (.ok parentId, s) := Prod.ext hsel hro
  simp only [Veh.runGeneration, exec_bind, hsel, exec_get, InMemoryInner.get_ok.mpr hpar, Prog.andThen_ok, exec_propose,
    hprop, exec_enforce, henf, exec_observe, exec_teardown, exec_attempt]
  rcases exec h (v.runCycle _) s with ⟨e | o, s'⟩
  · rfl
  · cases h.teardown <;> rfl

/-- One that did not has failed and written nothing. -/
theorem runGeneration_uncycled (hro : (exec h select s).2 = s)
    (hc : ¬ ∃ parent candidate, Cycled h s select intent allowedScope context parent candidate) :
    (exec h (v.runGeneration select intent allowedScope context createdAt) s).2 = s := by
  rw [Veh.runGeneration, exec_bind]
  rcases hsel : exec h select s with ⟨e | parentId, s'⟩
  · rw [← hro, hsel]
    rfl
  obtain rfl : s' = s := by rw [← hro, hsel]
  rw [Prog.andThen_ok, exec_bind, exec_get]
  rcases hget : s'.get parentId with e | parent
  · rfl
  rw [Prog.andThen_ok, exec_bind, exec_propose]
  rcases hprop : h.propose parent intent context with e | candidate
  · rfl
  rw [Prog.andThen_ok, exec_bind, exec_enforce]
  rcases henf : h.enforce candidate allowedScope with e | ⟨⟩
  · rfl
  refine (hc ⟨parent, candidate, ⟨parentId, ?_, InMemoryInner.get_ok.mp hget⟩, hprop, henf⟩).elim
  rw [hsel]

end

/-- The generation's cycle returned. -/
def CycleReturned (v : Veh X) (h : Host X) (s : InMemoryInner X) (select : Act X AgentId) (intent : MutationIntent)
    (allowedScope : AllowedScope) (context : MutationContext) (createdAt : String) (outcome : CycleOutcome X)
    (s' : InMemoryInner X) : Prop :=
  ∃ parent candidate, Cycled h s select intent allowedScope context parent candidate ∧
    exec h (v.runCycle ⟨parent, intent, candidate, allowedScope, createdAt⟩) s = (.ok outcome, s')

section

variable {v : Veh X} {h : Host X} {s : InMemoryInner X} {select : Act X AgentId} {intent : MutationIntent}
  {allowedScope : AllowedScope} {context : MutationContext} {createdAt : String}

/-- A cycle that returned has appended its node or paused. -/
theorem returned_moves {i : CycleInputs X} {outcome : CycleOutcome X} {s' : InMemoryInner X}
    (hr : exec h (v.runCycle i) s = (.ok outcome, s')) : s' ≠ s ∨ ∃ pending, outcome = .awaitingApproval pending := by
  have hpush {node : AgentNode X} (hf : s.nodes node.agentId = none) : s.push node ≠ s := by
    intro heq
    have hsame := InMemoryInner.push_same s node
    rw [heq, hf] at hsame
    cases hsame
  cases cycle_of_exec hr with
  | promoted _ _ _ _ hf => exact .inl (hpush hf)
  | rejected _ _ _ hf => exact .inl (hpush hf)
  | awaiting => exact .inr ⟨_, rfl⟩

/-- A failed generation has committed nothing and dropped no pause, exactly if its cycle
    did not return; where it did, it was the teardown that failed. -/
theorem failed_generation (hro : (exec h select s).2 = s) {e : Error} {s' : InMemoryInner X}
    (hr : exec h (v.runGeneration select intent allowedScope context createdAt) s = (.error e, s')) :
    ((s' = s ∧ ¬ ∃ pending s₁,
        CycleReturned v h s select intent allowedScope context createdAt (.awaitingApproval pending) s₁) ↔
      ¬ ∃ outcome s₁, CycleReturned v h s select intent allowedScope context createdAt outcome s₁) ∧
    ∀ outcome s₁, CycleReturned v h s select intent allowedScope context createdAt outcome s₁ →
      h.teardown = .error e ∧ s' = s₁ := by
  have hreturned : ∀ outcome s₁, CycleReturned v h s select intent allowedScope context createdAt outcome s₁ →
      h.teardown = .error e ∧ s' = s₁ := by
    intro outcome s₁ hret
    obtain ⟨parent, candidate, hc, hcycle⟩ := hret
    rw [runGeneration_cycled hro hc, hcycle, Prog.andThen_ok] at hr
    rcases htear : h.teardown with e' | ⟨⟩
    · rw [htear] at hr
      cases hr
      exact ⟨rfl, rfl⟩
    · rw [htear] at hr
      cases hr
  refine ⟨⟨?_, ?_⟩, hreturned⟩
  · intro hsame hsome
    obtain ⟨hs, hdropped⟩ := hsame
    obtain ⟨outcome, s₁, parent, candidate, hc, hcycle⟩ := hsome
    obtain ⟨-, rfl⟩ := hreturned outcome s₁ ⟨parent, candidate, hc, hcycle⟩
    rcases returned_moves hcycle with hne | ⟨pending, rfl⟩
    · exact hne hs
    · exact hdropped ⟨pending, _, parent, candidate, hc, hcycle⟩
  · intro hnone
    refine ⟨?_, fun hdropped => hnone (hdropped.elim fun _ h => ⟨_, h⟩)⟩
    by_cases hc : ∃ parent candidate, Cycled h s select intent allowedScope context parent candidate
    · obtain ⟨parent, candidate, hc⟩ := hc
      rw [runGeneration_cycled hro hc] at hr
      rcases hcycle : exec h (v.runCycle ⟨parent, intent, candidate, allowedScope, createdAt⟩) s with ⟨e' | o, s₁⟩
      · rw [hcycle] at hr
        cases hr
        exact failed_cycle hcycle
      · exact (hnone ⟨o, s₁, parent, candidate, hc, hcycle⟩).elim
    · have hs : (exec h (v.runGeneration select intent allowedScope context createdAt) s).2 = s :=
        runGeneration_uncycled hro hc
      rw [hr] at hs
      exact hs

end

namespace Reference

/-- `host`, with a sandbox that cannot be torn down. -/
def stuckHost : Host Reference := { host with teardown := .error (.ledger "busy") }

/-- The generation of the pinned root under it. -/
def stuckGeneration : Act Reference (CycleOutcome Reference) :=
  veh.runGeneration latest widening.intent widening.allowedScope ⟨none, .null⟩ widening.createdAt

theorem stuck_cycled : Cycled stuckHost (.push .default snapshotNode) latest widening.intent widening.allowedScope
    ⟨none, .null⟩ snapshotNode rootArtifact :=
  ⟨⟨snapshotNode.agentId, rfl, InMemoryInner.push_same _ _⟩, rfl, rfl⟩

theorem stuck_returned : CycleReturned veh stuckHost (.push .default snapshotNode) latest widening.intent
    widening.allowedScope ⟨none, .null⟩ widening.createdAt (.promoted child ⟨half, .null⟩)
    (.push (.push .default snapshotNode) child) :=
  ⟨snapshotNode, rootArtifact, stuck_cycled,
    runCycle_promotes (i := widening) ⟨manifestDiff_self _, rfl⟩ rfl (by decide) child_signed (by decide)⟩

theorem stuckGeneration_fails : exec stuckHost stuckGeneration (.push .default snapshotNode) =
    (.error (.ledger "busy"), .push (.push .default snapshotNode) child) := by
  obtain ⟨_, _, hc, hcycle⟩ := stuck_returned
  rw [stuckGeneration, runGeneration_cycled rfl hc, hcycle]
  rfl

theorem failed_generation_stuck :
    (¬ (InMemoryInner.push (.push .default snapshotNode) child = .push .default snapshotNode ∧
      ¬ ∃ pending s₁, CycleReturned veh stuckHost (.push .default snapshotNode) latest widening.intent
        widening.allowedScope ⟨none, .null⟩ widening.createdAt (.awaitingApproval pending) s₁)) ∧
    stuckHost.teardown = .error (.ledger "busy") := by
  have h := failed_generation rfl stuckGeneration_fails
  exact ⟨fun hsame => h.1.mp hsame ⟨_, _, stuck_returned⟩, (h.2 _ _ stuck_returned).1⟩

/-- A generation that fails and has moved the head to a node it stored. -/
theorem failed_generation_commits : ∃ e, (exec stuckHost stuckGeneration (.push .default snapshotNode)).1 = .error e ∧
    (exec stuckHost stuckGeneration (.push .default snapshotNode)).2.head ≠
      (InMemoryInner.push .default snapshotNode).head ∧
    (exec stuckHost stuckGeneration (.push .default snapshotNode)).2.list ≠
      (InMemoryInner.push .default snapshotNode).list := by
  rw [stuckGeneration_fails]
  exact ⟨_, rfl, by decide, fun h => absurd (congrArg List.length h) (by decide)⟩

end Reference

end RigVeh
