/-
  RigVeh.Runner.Reopen — the runner on a file whose nodes come back changed.

  Two sessions go side by side: one in memory, and one on a file with serde_json's own
  reading of it, where every restart replaces the nodes by readings of them. The numbers
  are read as they were written; where one is not, the node is another and the sessions
  part. A cycle's parent may be such a reading: its diff, the score compared with and the
  node signed stay the same, and so does the decision of a gate that looks at nothing
  else (`runCycle_rereads`); a rollback signs the reading of its target to the same
  payload. So the session on the file returns the same errors, the very same cycle
  outcomes and readings of the same nodes, and its ledger stays a reading of the other
  (`sessions_reread`).
-/

import RigVeh.Ledger.Reread
import RigVeh.Runner.Driver
import RigVeh.Runner.Export
import RigVeh.Runner.Plan
import RigVeh.Runner.Session

namespace RigVeh

open RigVeh.Json RigVeh.Base RigVeh.Base.Prog

variable {X : Crates}

/-- The gate does not tell a node from a reading of it. -/
def PolicyGate.Blind (gate : PolicyGate X) : Prop := ∀ n n' : AgentNode X, n.Rereads n' → gate n = gate n'

/-- Nor does the mutator. -/
def Host.Blind (h : Host X) : Prop := ∀ (n n' : AgentNode X) (intent : MutationIntent) (context : MutationContext),
  n.Rereads n' → h.propose n intent context = h.propose n' intent context

theorem default_blind : PolicyGate.Blind (X := X) DefaultPolicyGate.evaluate := by
  intro n n' h
  have hscope : n.allowedScope = n'.allowedScope := h.inputs.allowedScope
  have hgen : n.generation = n'.generation := h.inputs.generation
  funext intent sbom
  simp only [DefaultPolicyGate.evaluate, DefaultPolicyGate.overDepth, hscope, hgen, h.capabilitySbom]

/-- The calls that go side by side, and their answers. -/
inductive Call.Beside : Prog.Beside (calls X)
  | append {n n' : AgentNode X} : n.Rereads n' → Beside (.ledger (.append n)) (.ledger (.append n')) Eq
  | get (id : AgentId) : Beside (.ledger (.get id)) (.ledger (.get id)) (Matches AgentNode.Rereads)
  | head : Beside (.ledger .head) (.ledger .head) Eq
  | setHead (id : AgentId) : Beside (.ledger (.setHead id)) (.ledger (.setHead id)) Eq
  | nodes : Beside (.ledger .nodes) (.ledger .nodes) (Matches (List.Forall₂ AgentNode.Rereads))
  | evaluate (artifact : AgentArtifact X) : Beside (.evaluate artifact) (.evaluate artifact) Eq
  | propose {n n' : AgentNode X} (intent : MutationIntent) (context : MutationContext) : n.Rereads n' →
      Beside (.propose n intent context) (.propose n' intent context) Eq
  | enforce (artifact : AgentArtifact X) (scope : AllowedScope) :
      Beside (.enforce artifact scope) (.enforce artifact scope) Eq
  | teardown : Beside .teardown .teardown Eq
  | now : Beside .now .now Eq

/-- The two go side by side, to the same error or to results related by `V`. -/
abbrev Act.Beside {α β : Type} (V : α → β → Prop) (x : Act X α) (y : Act X β) : Prop :=
  Paired Call.Beside (Matches V) x.run y.run

/-! ## A parent read back -/

theorem canonicalBytes_form {a b : AgentArtifact X} (h : a.SameForm b) : a.canonicalBytes = b.canonicalBytes := by
  obtain ⟨v, w, hv, hw, hvw⟩ := h.manifest
  simp only [AgentArtifact.canonicalBytes, AgentArtifact.manifestValue, hv, hw, Except.mapError, ok_bind]
  rw [canonicalJson_congr hvw]

/-- A cycle on a reading of its parent is the same cycle. -/
theorem runCycle_rereads {v : Veh X} (hv : PolicyGate.Blind v.policy) (i : CycleInputs X) {parent : AgentNode X}
    (h : i.parent.Rereads parent) : v.runCycle i = v.runCycle { i with parent := parent } := by
  have hbytes : i.parent.artifact.canonicalBytes = parent.artifact.canonicalBytes :=
    canonicalBytes_form h.inputs.artifact
  have hdiff : manifestDiff i.parent.artifact i.candidate = manifestDiff parent.artifact i.candidate := by
    rw [manifestDiff, manifestDiff, hbytes]
  have hscore (eval : EvalResult) : v.notImproved i.parent eval = v.notImproved parent eval := by
    rw [Veh.notImproved, Veh.notImproved, h.alike.score]
  have hinputs (diff : String) (eval : EvalResult) (status : NodeStatus) (valid : Bool) :
      cycleInputs i diff eval status valid = cycleInputs { i with parent := parent } diff eval status valid := by
    rw [cycleInputs, cycleInputs, h.agentId, h.alike.generation]
  have hpause (diff : String) (eval : EvalResult) (reason : String) :
      Veh.pause i diff eval reason = Veh.pause { i with parent := parent } diff eval reason := by
    rw [Veh.pause, Veh.pause, h.agentId, h.alike.generation]
  simp only [Veh.runCycle, Veh.commitPromoted, Veh.commitRejected, hdiff, hscore, hinputs, hpause, hv _ _ h]

/-! ## Operations side by side -/

section

theorem same_matches {α : Type} (r r' : Except Error α) (h : r = r') : Matches Eq r r' := h ▸ matches_eq

theorem call_beside {c d : Call X} {A : c.Ans → d.Ans → Prop} (h : Call.Beside c d A) :
    Paired Call.Beside A (Prog.op (S := calls X) c) (Prog.op (S := calls X) d) := paired_op h

theorem append_beside {n n' : AgentNode X} (hn : n.Rereads n') : Act.Beside Eq (Act.append n) (Act.append n') :=
  paired_mono same_matches (call_beside (.append hn))

theorem get_beside (id : AgentId) : Act.Beside AgentNode.Rereads (Act.get id) (Act.get (X := X) id) :=
  call_beside (.get id)

theorem head_beside : Act.Beside Eq Act.head (Act.head (X := X)) :=
  paired_mono same_matches (call_beside .head)

theorem setHead_beside (id : AgentId) : Act.Beside Eq (Act.setHead id) (Act.setHead (X := X) id) :=
  paired_mono same_matches (call_beside (.setHead id))

theorem nodes_beside : Act.Beside (List.Forall₂ AgentNode.Rereads) Act.nodes (Act.nodes (X := X)) :=
  call_beside .nodes

theorem propose_beside {n n' : AgentNode X} (hn : n.Rereads n') (intent : MutationIntent) (context : MutationContext) :
    Act.Beside Eq (Act.propose n intent context) (Act.propose n' intent context) :=
  paired_mono same_matches (call_beside (.propose intent context hn))

theorem enforce_beside (artifact : AgentArtifact X) (scope : AllowedScope) :
    Act.Beside Eq (Act.enforce artifact scope) (Act.enforce artifact scope) :=
  paired_mono same_matches (call_beside (.enforce artifact scope))

theorem teardown_beside : Act.Beside Eq Act.teardown (Act.teardown (X := X)) :=
  paired_mono same_matches (call_beside .teardown)

theorem observe_beside {α : Type} {x y : Act X α} (h : Act.Beside Eq x y) : Act.Beside Eq (observe x) (observe y) := by
  refine paired_bind h fun r r' hr => .ret (.ok ?_)
  cases hr with
  | ok hab => rw [hab]
  | error e => rfl

variable {v : Veh X}

theorem commit_beside {i j : CommitInputs X} (h : i.Rereads j) (k : X.SigningKey) :
    Act.Beside AgentNode.Rereads (commit i k) (commit j k) := by
  refine paired_seq (paired_attempt (signNode_rereads h k)) fun n n' hn => ?_
  exact paired_seq (append_beside hn) fun _ _ _ => .ret (.ok hn)

theorem rollbackTarget_beside (id : AgentId) :
    Act.Beside AgentNode.Rereads (rollbackTarget id) (rollbackTarget (X := X) id) := by
  refine paired_seq (get_beside id) fun n n' hn => ?_
  have hstatus : n.status = n'.status := hn.inputs.status
  rw [verifyNode_rereads hn, hstatus]
  refine paired_seq (paired_attempt (V := Eq) matches_eq) fun _ _ _ => ?_
  split
  · exact paired_attempt (.error _)
  · exact .ret (.ok hn)

theorem runCycle_beside (hM : X.ManifestReads) (i : CycleInputs X) : Act.Beside Eq (v.runCycle i) (v.runCycle i) := by
  refine paired_self (fun c hc => ?_) (runCycle_makes v i)
  cases c with
  | ledger c =>
    cases c with
    | append n => exact .append (.refl hM n)
    | get | head | setHead | nodes => exact hc.elim
  | evaluate artifact => exact .evaluate artifact
  | propose | enforce | teardown | now => exact hc.elim

theorem rollbackInputs_rereads {parent parent' target target' : AgentNode X} (hp : parent.Rereads parent')
    (ht : target.Rereads target') (targetId : AgentId) (createdAt : String) :
    (rollbackInputs parent target targetId createdAt).Rereads (rollbackInputs parent' target' targetId createdAt) where
  parentId := congrArg some hp.agentId
  generation := congrArg (· + 1) hp.inputs.generation
  createdAt := rfl
  mutationIntent := ⟨rfl, rfl, rfl, rfl, Value.equiv_refl _⟩
  mutationDiff := rfl
  allowedScope := ht.inputs.allowedScope
  evalResults := Value.equiv_refl _
  artifact := ht.inputs.artifact
  status := rfl
  parentAgentSuccess := rfl
  validParent := rfl
  evalStage := rfl

theorem rollback_beside (targetId : AgentId) (createdAt : String) :
    Act.Beside AgentNode.Rereads (v.commitRollback targetId createdAt) (v.commitRollback targetId createdAt) := by
  refine paired_seq (rollbackTarget_beside targetId) fun target target' ht => ?_
  refine paired_seq head_beside fun o _ ho => ?_
  obtain rfl := ho
  rcases o with _ | parentId
  · exact paired_attempt (.error _)
  refine paired_seq (get_beside parentId) fun parent parent' hp => ?_
  exact commit_beside (rollbackInputs_rereads hp ht targetId createdAt) v.signingKey

/-- A built-in selector picks the same. -/
theorem select_beside {select : Act X AgentId} (hb : BuiltIn select) : Act.Beside Eq select select := by
  obtain ⟨R, A, hash, b, rfl⟩ := hb
  rw [ParentSelector.select_choose]
  refine paired_seq nodes_beside fun l l' hl => ?_
  rw [choose_cards A hash b (alike_cards (hl.imp fun _ _ h => h.alike))]
  refine paired_self (fun c hc => ?_) (ParentSelector.choose_makes A hash l' b)
  obtain rfl := hc
  exact .now

theorem generation_beside (hM : X.ManifestReads) (hv : PolicyGate.Blind v.policy) {select : Act X AgentId}
    (hb : BuiltIn select) (intent : MutationIntent) (scope : AllowedScope) (context : MutationContext)
    (createdAt : String) : Act.Beside Eq (v.runGeneration select intent scope context createdAt)
      (v.runGeneration select intent scope context createdAt) := by
  refine paired_seq (select_beside hb) fun id _ hid => ?_
  obtain rfl := hid
  refine paired_seq (get_beside id) fun p p' hp => ?_
  refine paired_seq (propose_beside hp intent context) fun candidate _ hc => ?_
  obtain rfl := hc
  refine paired_seq (enforce_beside candidate scope) fun _ _ _ => ?_
  rw [runCycle_rereads hv ⟨p, intent, candidate, scope, createdAt⟩ hp]
  refine paired_seq (observe_beside (runCycle_beside hM _)) fun outcome _ ho => ?_
  obtain rfl := ho
  refine paired_seq (observe_beside teardown_beside) fun teardown _ ht => ?_
  obtain rfl := ht
  refine paired_seq (paired_attempt (V := Eq) matches_eq) fun result _ hr => ?_
  obtain rfl := hr
  exact paired_seq (paired_attempt (V := Eq) matches_eq) fun _ _ _ => .ret (.ok rfl)

end

/-- The same operation, but that a cycle's parent may be a reading. -/
inductive Op.Beside : Op X → Op X → Prop
  | root (v : Veh X) (artifact : AgentArtifact X) (scope : AllowedScope) (createdAt : String) :
      Beside (.commitRoot v artifact scope createdAt) (.commitRoot v artifact scope createdAt)
  | cycle {v : Veh X} {i : CycleInputs X} {parent : AgentNode X} : PolicyGate.Blind v.policy →
      i.parent.Rereads parent → Beside (.runCycle v i) (.runCycle v { i with parent := parent })
  | resume (pending : PendingApproval X) (key : X.SigningKey) :
      Beside (.resumeWithApproval pending key) (.resumeWithApproval pending key)
  | rollbackTo (id : AgentId) : Beside (.rollbackTo id) (.rollbackTo id)
  | rollback (v : Veh X) (targetId : AgentId) (createdAt : String) :
      Beside (.commitRollback v targetId createdAt) (.commitRollback v targetId createdAt)
  | generation {v : Veh X} {select : Act X AgentId} (intent : MutationIntent) (scope : AllowedScope)
      (context : MutationContext) (createdAt : String) : PolicyGate.Blind v.policy → BuiltIn select →
      Beside (.runGeneration v select intent scope context createdAt)
        (.runGeneration v select intent scope context createdAt)

/-- What is returned: a node and a reading of it, or the very same outcome of a cycle. -/
inductive Outcome.Rereads : Outcome X → Outcome X → Prop
  | node {n n' : AgentNode X} : n.Rereads n' → Rereads (.node n) (.node n')
  | cycle (outcome : CycleOutcome X) : Rereads (.cycle outcome) (.cycle outcome)
  | done : Rereads .done .done

theorem op_beside (hM : X.ManifestReads) {op op' : Op X} (h : op.Beside op') :
    Act.Beside Outcome.Rereads op.act op'.act := by
  cases h with
  | root v artifact scope createdAt =>
    exact paired_seq (commit_beside (.refl hM _) _) fun _ _ hn => .ret (.ok (.node hn))
  | @cycle v i parent hv hp =>
    rw [Op.act, Op.act, ← runCycle_rereads hv i hp]
    refine paired_seq (runCycle_beside hM i) fun o _ ho => ?_
    obtain rfl := ho
    exact .ret (.ok (.cycle o))
  | resume pending key => exact paired_seq (commit_beside (.refl hM _) key) fun _ _ hn => .ret (.ok (.node hn))
  | rollbackTo id =>
    refine paired_seq (V := Eq) ?_ fun _ _ _ => .ret (.ok .done)
    exact paired_seq (rollbackTarget_beside id) fun _ _ _ => setHead_beside id
  | rollback v targetId createdAt =>
    exact paired_seq (rollback_beside targetId createdAt) fun _ _ hn => .ret (.ok (.node hn))
  | generation intent scope context createdAt hv hb =>
    refine paired_seq (generation_beside hM hv hb intent scope context createdAt) fun o _ ho => ?_
    obtain rfl := ho
    exact .ret (.ok (.cycle o))

/-! ## Sessions side by side -/

/-- The same turn, with collaborators that do not tell a reading. -/
inductive Turn.Beside : Turn X → Turn X → Prop
  | runs {h : Host X} {op op' : Op X} : h.Blind → op.Beside op' → Beside (.runs h op) (.runs h op')
  | restart : Beside .restart .restart

/-- serde_json writes and reads the nodes that the turn has appended, or tries to. -/
def Turn.Serde (codec : NodeCodec X) : Turn X → JsonlLineage X → Prop
  | .runs h op, s => ∀ a ∈ Prog.trace (h.answerFile codec) op.act.run s, ∀ n, a.1 = .ledger (.append n) → codec.Serde n
  | .restart, _ => True

/-- Along a session on a file, newest turn first. -/
def Lettered (codec : NodeCodec X) : List (Turn X) → Prop
  | [] => True
  | i :: older => Lettered codec older ∧ i.Serde codec (drive (JsonlLineage.turn codec) .fresh older).2

section

variable {codec : NodeCodec X} {m : InMemoryInner X} {s : JsonlLineage X}

theorem call_onFile {h : Host X} (hb : h.Blind) {c d : Call X} {A : c.Ans → d.Ans → Prop} (hq : Call.Beside c d A)
    (hd : ∀ n, d = .ledger (.append n) → codec.Serde n) (hk : OnFile codec m s) :
    A (h.answer c m).1 (h.answerFile codec d s).1 ∧ OnFile codec (h.answer c m).2 (h.answerFile codec d s).2 := by
  cases hq with
  | append hn => exact append_reread hk hn (hd _ rfl)
  | get id => exact ⟨hk.inner.get id, hk⟩
  | head => exact ⟨congrArg Except.ok hk.inner.head, hk⟩
  | setHead id => exact setHead_reread hk id
  | nodes => exact ⟨.ok hk.inner.list, hk⟩
  | propose intent context hn => exact ⟨hb _ _ intent context hn, hk⟩
  | evaluate | enforce | teardown | now => exact ⟨rfl, hk⟩

theorem turn_onFile (hM : X.ManifestReads) {i i' : Turn X} (hi : i.Beside i') (hs : i'.Serde codec s)
    (hk : OnFile codec m s) : Matches Outcome.Rereads (m.turn i).1 (s.turn codec i').1 ∧
      OnFile codec (m.turn i).2 (s.turn codec i').2 := by
  cases hi with
  | @runs h op op' hb ho =>
    exact paired_run (S := calls X) (C := fun c => ∀ n, c = Call.ledger (.append n) → codec.Serde n)
      (fun hq hd _ _ hk => call_onFile hb hq hd hk) (op_beside hM ho) hs hk
  | restart =>
    obtain ⟨reopened, hopen, hk'⟩ := reopened_reread hM hk
    rw [JsonlLineage.turn, hopen]
    exact ⟨.ok .done, hk'⟩

end

theorem session_onFile (hM : X.ManifestReads) {codec : NodeCodec X} {turns turns' : List (Turn X)}
    (ht : List.Forall₂ Turn.Beside turns turns') (hs : Lettered codec turns') :
    List.Forall₂ (Matches Outcome.Rereads) (drive InMemoryInner.turn .default turns).1
        (drive (JsonlLineage.turn codec) .fresh turns').1 ∧
      OnFile codec (drive InMemoryInner.turn .default turns).2 (drive (JsonlLineage.turn codec) .fresh turns').2 := by
  induction ht with
  | nil => exact ⟨.nil, fresh_reread⟩
  | cons hi _ ih =>
    obtain ⟨hans, hk⟩ := ih hs.1
    obtain ⟨h1, h2⟩ := turn_onFile hM hi hs.2 hk
    exact ⟨.cons h1 hans, h2⟩

/-- On a file that serde_json writes and reads, with every number as it was written, each
    session returns what it returns in memory, nodes as readings of nodes, and holds the
    same ledger, read back; so does the file alone, but for the head. -/
theorem sessions_reread (hM : X.ManifestReads) {codec : NodeCodec X} {turns turns' : List (Turn X)}
    (ht : List.Forall₂ Turn.Beside turns turns') (hs : Lettered codec turns') :
    let memory := drive InMemoryInner.turn .default turns
    let file := drive (JsonlLineage.turn codec) .fresh turns'
    List.Forall₂ (Matches Outcome.Rereads) memory.1 file.1 ∧ memory.2.Rereads file.2.inner ∧
      ∃ reopened, JsonlLineage.open codec file.2.file = .ok reopened ∧
        InMemoryInner.Rereads { memory.2 with head := memory.2.newest } reopened.inner := by
  obtain ⟨hans, hk⟩ := session_onFile hM ht hs
  obtain ⟨reopened, hopen, hk'⟩ := reopened_reread hM hk
  exact ⟨hans, hk.inner, reopened, hopen, hk'.inner⟩

/-- A rollback of the pointer appends nothing. -/
theorem rollbackTo_silent (id : AgentId) :
    (Op.rollbackTo id : Op X).act.run.Makes fun c => ∀ n, c ≠ Call.ledger (.append n) := by
  have htarget : (rollbackTarget id : Act X (AgentNode X)).run.Makes fun c => ∀ n, c ≠ Call.ledger (.append n) := by
    refine Prog.makes_seq ⟨fun _ h => (by cases h), fun _ => trivial⟩ fun target => Prog.makes_check fun _ _ => ?_
    split <;> trivial
  exact Prog.makes_seq (Prog.makes_seq htarget fun _ => ⟨fun _ h => (by cases h), fun _ => trivial⟩) fun _ => trivial

namespace Reference

theorem host_blind : host.Blind := by
  intro n n' _ _ h
  obtain ⟨v, w, hv, hw, hvw⟩ := h.inputs.artifact.manifest
  have hmanifest : n.artifact.manifest = n'.artifact.manifest := manifestInjective _ _ v w hv hw hvw
  have hartifact : n.artifact = n'.artifact := congrArg AgentArtifact.mk hmanifest
  exact congrArg Except.ok hartifact

def infinity : F64 := ⟨0x7ff0000000000000⟩

/-- The cycle of the pinned root's child, for an intent that expects infinitely much. -/
def eagerCycle : CycleInputs Reference :=
  { widening with intent := { MutationIntent.new "x" with expectedImprovement := some infinity } }

/-- That child: signed as `child`, for what is signed has no infinity. -/
def eager : AgentNode Reference := { child with mutationIntent := eagerCycle.intent }

theorem eager_signed : signNode (cycleInputs eagerCycle "" ⟨half, .null⟩ .promoted true) seed = .ok eager :=
  signNode_eq rfl (by decide) (by decide +kernel)

/-- What stands behind the id in its line. -/
def childParts : List String := [
  "\",\"parent_id\":\"d75a8c0e5eb9e5042896999c710c103193bb48cbb94cdabe7f7ed095b65c8dd0\",",
  "\"generation\":1,\"created_at\":\"2026-01-01T00:01:00Z\",",
  "\"mutation_intent\":\x7b\"goal\":\"x\",\"rationale\":\"\",",
  "\"expected_improvement\":null,\"constraints\":[],\"metadata\":null\x7d,",
  "\"capability_sbom\":[],\"eval_results\":\x7b\"details\":null,\"score\":0.5\x7d,\"mutation_diff\":\"\",",
  "\"allowed_scope\":\x7b\"allowed_tools\":[\"shell\"],\"allowed_mcp_servers\":[],\"allowed_delegates\":[],",
  "\"max_generation\":null,\"gated_capabilities\":[]\x7d,",
  "\"artifact\":\x7b\"manifest\":\x7b\"name\":\"root\",\"model\":null,\"instructions\":null,\"tools\":[],",
  "\"mcp_servers\":[],\"knowledge\":null,\"delegates\":[]\x7d\x7d,",
  "\"signer_public_key\":\"ea4a6c63e29c520abef5507b132ec5f9954776aebebe7b92421eea691446d22c\",",
  "\"signature\":\"b87730c7fa9b670498a5466d32393dbf90aef066c53ca593ba020ec473fb7abf",
  "301cd9f240e36696b16f701f94b56f71e9daed35ff41bfd67c4a3875fcc2da04\",",
  "\"status\":\"promoted\",\"parent_agent_success\":true,\"valid_parent\":true,\"eval_stage\":null\x7d"]

def childLine : String := lineWith child.agentId childParts

/-- serde_json on the child and its like as well. -/
def childCodec : NodeCodec Reference where
  toString n := if n.agentId = child.agentId then .ok childLine else codec.toString n
  fromStr s := if s = childLine then .ok child else codec.fromStr s

theorem childCodec_other {n : AgentNode Reference} (h : n.agentId ≠ child.agentId) :
    childCodec.toString n = codec.toString n := by simp only [childCodec, h, if_false]

theorem childCodec_written {n : AgentNode Reference} (h : n.agentId = child.agentId) :
    childCodec.toString n = .ok childLine := by simp only [childCodec, h, if_true]

theorem childCodec_read : childCodec.fromStr childLine = .ok child := by simp only [childCodec, if_true]

theorem snapshot_serde : childCodec.Serde snapshotNode := by
  obtain ⟨line, hline⟩ := snapshot_reads
  have hne : snapshotNode.agentId ≠ child.agentId := by decide
  have hwritten : childCodec.toString snapshotNode = .ok line := (childCodec_other hne).trans hline.written
  have hread : childCodec.fromStr line = .ok snapshotNode := by
    have hother : line ≠ childLine := by
      obtain rfl : lineOf snapshotNode.agentId = line := Except.ok.inj hline.written
      exact fun h => hne (lineWith_id (by decide) h)
    simp only [childCodec, hother, if_false, hline.read]
  refine ⟨line, ⟨hwritten, hline.object, hline.newline, hline.carriage⟩, _, _, rfl, Value.equiv_refl _, ?_⟩
  rw [hread]
  rfl

theorem childParts_plain : childParts.all plain = true := by
  simp only [childParts, List.all_cons, List.all_nil, Bool.and_true, Bool.and_eq_true]
  refine ⟨?_, ?_, ?_, ?_, ?_, ?_, ?_, ?_, ?_, ?_, ?_, ?_, ?_⟩
  all_goals exact plain_ofList (by decide +kernel)

/-- The improvement is written as null. -/
theorem eager_serde : childCodec.Serde eager := by
  have hplain : plain childLine = true := lineWith_plain (by decide +kernel) childParts_plain
  refine ⟨childLine, ⟨childCodec_written rfl, lineWith_object _ _, plain_not_mem hplain (by decide),
    plain_not_mem hplain (by decide)⟩, _, _, rfl, Value.equiv_refl _, ?_⟩
  rw [childCodec_read]
  rfl

/-- So what is read is the child, which is another node. -/
theorem eager_changes : childCodec.toString eager = .ok childLine ∧ childCodec.fromStr childLine = .ok child ∧
    child ≠ eager := by
  refine ⟨childCodec_written rfl, childCodec_read, fun h => ?_⟩
  cases congrArg (fun n => n.mutationIntent.expectedImprovement) h

/-- The cycle pauses. -/
def eagerPause : PendingApproval Reference := Veh.pause eagerCycle "" ⟨half, .null⟩ "ask"

/-- The root is committed, a cycle on it pauses and is resumed, the process restarts, and
    the head is moved to what was committed last. -/
def seating : List (Turn Reference) :=
  [.runs host (.rollbackTo child.agentId), .restart, .runs host (.resumeWithApproval eagerPause seed),
    .runs host (.runCycle askingVeh eagerCycle),
    .runs host (.commitRoot veh rootArtifact .default "2026-01-01T00:00:00Z")]

theorem eager_evaluates : (Op.runCycle askingVeh eagerCycle).act.run.Makes (· = Call.evaluate rootArtifact) := by
  refine Prog.makes_seq (Prog.makes_check fun diff _ => ?_) fun _ => trivial
  refine Prog.makes_seq ⟨rfl, fun _ => trivial⟩ fun eval => ?_
  have himproved : askingVeh.notImproved eagerCycle.parent eval = none := rfl
  rw [himproved]
  trivial

theorem eager_appends : (Op.resumeWithApproval eagerPause seed).act.run.Makes (· = Call.ledger (.append eager)) := by
  refine Prog.makes_seq (Prog.makes_check fun node hn => ?_) fun _ => trivial
  obtain rfl : eager = node := Except.ok.inj (eager_signed.symm.trans hn)
  exact ⟨rfl, fun r => by cases r <;> trivial⟩

theorem seating_lettered : Lettered childCodec seating := by
  refine ⟨⟨⟨⟨⟨trivial, fun a ha n hn => ?_⟩, fun a ha n hn => ?_⟩, fun a ha n hn => ?_⟩, trivial⟩, fun a ha n hn => ?_⟩
  · rw [Prog.trace_makes _ root_appends _ a ha] at hn
    cases hn
    exact snapshot_serde
  · rw [Prog.trace_makes _ eager_evaluates _ a ha] at hn
    cases hn
  · rw [Prog.trace_makes _ eager_appends _ a ha] at hn
    cases hn
    exact eager_serde
  · exact absurd hn (Prog.trace_makes _ (rollbackTo_silent child.agentId) _ a ha n)

theorem sessions_reread_seating :
    let memory := drive InMemoryInner.turn .default seating
    let file := drive (JsonlLineage.turn childCodec) .fresh seating
    List.Forall₂ (Matches Outcome.Rereads) memory.1 file.1 ∧ memory.2.Rereads file.2.inner ∧
      ∃ reopened, JsonlLineage.open childCodec file.2.file = .ok reopened ∧
        InMemoryInner.Rereads { memory.2 with head := memory.2.newest } reopened.inner := by
  have hasking : PolicyGate.Blind askingVeh.policy := fun _ _ _ => rfl
  have hcycle : Op.Beside (.runCycle askingVeh eagerCycle) (.runCycle askingVeh eagerCycle) :=
    .cycle hasking (.refl manifestReads _)
  exact sessions_reread manifestReads (.cons (.runs host_blind (.rollbackTo _)) (.cons .restart
    (.cons (.runs host_blind (.resume ..)) (.cons (.runs host_blind hcycle) (.cons (.runs host_blind (.root ..)) .nil)))))
    seating_lettered

end Reference

end RigVeh
