/-
  RigVeh.Identity.Wire — a node as JSON, and back (`Serialize` and `Deserialize` of
  `AgentNode`).

  A node is built in `sign_node`, written field by field by serde, and its payload is
  built once more in `verify_node`: three lists of fields. JSON keeps less than the
  node has: a null evaluation comes back absent, and so does an improvement that is not
  finite, keys come back in any order, and a manifest is only known to have the same
  serde form. `Rereads` is what is kept; it is all that the signing payload is made of
  (`signingPayload_rereads`), so a node read back has the same payload and the same
  verdict of `verify_node` (`stored_alike`).
-/

import RigVeh.Json.Decode
import RigVeh.Json.Form

namespace RigVeh

open RigVeh.Json

variable {X : Crates}

/-! ## The parts of a node -/

namespace MutationIntent

def read (X : Crates) : Reader MutationIntent :=
  Reader.struct X "MutationIntent" "5 elements" [
    .of "goal" (Reader.string X),
    .of "rationale" (Reader.string X),
    .of "expected_improvement" (Reader.option (Reader.f64 X)),
    .of "constraints" (Reader.vec X (Reader.string X)),
    .of "metadata" Reader.value] fun src => do
  let goal ← src.field 0 "goal" (Reader.string X) none
  let rationale ← src.field 1 "rationale" (Reader.string X) (some "")
  let expectedImprovement ← src.field 2 "expected_improvement" (Reader.option (Reader.f64 X)) (some none)
  let constraints ← src.field 3 "constraints" (Reader.vec X (Reader.string X)) (some [])
  let metadata ← src.field 4 "metadata" Reader.value (some .null)
  return ⟨goal, rationale, expectedImprovement, constraints, metadata⟩

end MutationIntent

namespace AllowedScope

def read (X : Crates) : Reader AllowedScope :=
  Reader.struct X "AllowedScope" "5 elements" [
    .of "allowed_tools" (Reader.vec X (Reader.string X)),
    .of "allowed_mcp_servers" (Reader.vec X (Reader.string X)),
    .of "allowed_delegates" (Reader.vec X (Reader.string X)),
    .of "max_generation" (Reader.option (Reader.u32 X)),
    .of "gated_capabilities" (Reader.vec X (Reader.string X))] fun src => do
  let allowedTools ← src.field 0 "allowed_tools" (Reader.vec X (Reader.string X)) (some [])
  let allowedMcpServers ← src.field 1 "allowed_mcp_servers" (Reader.vec X (Reader.string X)) (some [])
  let allowedDelegates ← src.field 2 "allowed_delegates" (Reader.vec X (Reader.string X)) (some [])
  let maxGeneration ← src.field 3 "max_generation" (Reader.option (Reader.u32 X)) (some none)
  let gatedCapabilities ← src.field 4 "gated_capabilities" (Reader.vec X (Reader.string X)) (some [])
  return ⟨allowedTools, allowedMcpServers, allowedDelegates, maxGeneration, gatedCapabilities⟩

end AllowedScope

def NodeStatus.read (X : Crates) : Reader NodeStatus :=
  Reader.unitVariant X [("promoted", .promoted), ("rejected", .rejected)]

def EvalStage.read (X : Crates) : Reader EvalStage :=
  Reader.unitVariant X [("continue", .Continue), ("promote", .Promote), ("stop", .Stop)]

namespace AgentArtifact

def toValue (a : AgentArtifact X) : Except Error Value := do
  return .object [("manifest", ← a.manifestValue)] (List.nodup_singleton _)

def read (X : Crates) : Reader (AgentArtifact X) :=
  Reader.struct X "AgentArtifact" "1 element" [.of "manifest" X.manifestFromValue] fun src => do
  return ⟨← src.field 0 "manifest" X.manifestFromValue none⟩

end AgentArtifact

/-! ## The node -/

namespace AgentNode

def entries (n : AgentNode X) (artifact : Value) : List (String × Value) := [
  ("agent_id", .string n.agentId),
  ("parent_id", .ofOption .string n.parentId),
  ("generation", .ofU32 n.generation),
  ("created_at", .string n.createdAt),
  ("mutation_intent", n.mutationIntent.toValue),
  ("capability_sbom", .ofStrings n.capabilitySbom),
  ("eval_results", n.evalResults.getD .null),
  ("mutation_diff", .string n.mutationDiff),
  ("allowed_scope", n.allowedScope.toValue),
  ("artifact", artifact),
  ("signer_public_key", .string n.signerPublicKey),
  ("signature", .string n.signature),
  ("status", n.status.toValue),
  ("parent_agent_success", .bool n.parentAgentSuccess),
  ("valid_parent", .bool n.validParent),
  ("eval_stage", .ofOption EvalStage.toValue n.evalStage)]

theorem entries_nodup (n : AgentNode X) (artifact : Value) : ((n.entries artifact).map Prod.fst).Nodup :=
  show ["agent_id", "parent_id", "generation", "created_at", "mutation_intent", "capability_sbom", "eval_results",
    "mutation_diff", "allowed_scope", "artifact", "signer_public_key", "signature", "status", "parent_agent_success",
    "valid_parent", "eval_stage"].Nodup by decide

/-- `serde_json::to_value` of a node. -/
def toValue (n : AgentNode X) : Except Error Value := do
  let artifact ← n.artifact.toValue
  return .object (n.entries artifact) (n.entries_nodup artifact)

def read (X : Crates) : Reader (AgentNode X) :=
  Reader.struct X "AgentNode" "16 elements" [
    .of "agent_id" (Reader.string X),
    .of "parent_id" (Reader.option (Reader.string X)),
    .of "generation" (Reader.u32 X),
    .of "created_at" (Reader.string X),
    .of "mutation_intent" (MutationIntent.read X),
    .of "capability_sbom" (Reader.vec X (Reader.string X)),
    .of "eval_results" (Reader.option Reader.value),
    .of "mutation_diff" (Reader.string X),
    .of "allowed_scope" (AllowedScope.read X),
    .of "artifact" (AgentArtifact.read X),
    .of "signer_public_key" (Reader.string X),
    .of "signature" (Reader.string X),
    .of "status" (NodeStatus.read X),
    .of "parent_agent_success" (Reader.bool X),
    .of "valid_parent" (Reader.bool X),
    .of "eval_stage" (Reader.option (EvalStage.read X))] fun src => do
  let agentId ← src.field 0 "agent_id" (Reader.string X) none
  let parentId ← src.field 1 "parent_id" (Reader.option (Reader.string X)) (some none)
  let generation ← src.field 2 "generation" (Reader.u32 X) none
  let createdAt ← src.field 3 "created_at" (Reader.string X) none
  let mutationIntent ← src.field 4 "mutation_intent" (MutationIntent.read X) none
  let capabilitySbom ← src.field 5 "capability_sbom" (Reader.vec X (Reader.string X)) none
  let evalResults ← src.field 6 "eval_results" (Reader.option Reader.value) (some none)
  let mutationDiff ← src.field 7 "mutation_diff" (Reader.string X) (some "")
  let allowedScope ← src.field 8 "allowed_scope" (AllowedScope.read X) none
  let artifact ← src.field 9 "artifact" (AgentArtifact.read X) none
  let signerPublicKey ← src.field 10 "signer_public_key" (Reader.string X) none
  let signature ← src.field 11 "signature" (Reader.string X) none
  let status ← src.field 12 "status" (NodeStatus.read X) (some .promoted)
  let parentAgentSuccess ← src.field 13 "parent_agent_success" (Reader.bool X) (some false)
  let validParent ← src.field 14 "valid_parent" (Reader.bool X) (some false)
  let evalStage ← src.field 15 "eval_stage" (Reader.option (EvalStage.read X)) (some none)
  return { agentId, parentId, generation, createdAt, mutationIntent, capabilitySbom, evalResults, mutationDiff,
           allowedScope, artifact, signerPublicKey, signature, status, parentAgentSuccess, validParent, evalStage }

end AgentNode

/-! ## The parts read back -/

open Reader

variable (X) in
theorem intent_readsBack : ReadsBack (MutationIntent.read X) MutationIntent.toValue MutationIntent.Agree := by
  refine struct_readsBack ?_ ?_
  · intro i
    exact .cons ((string_readsBack X).covers _ _) <| .cons ((string_readsBack X).covers _ _) <|
      .cons ((option_f64_readsBack X).covers _ _) <| .cons ((strings_readsBack X).covers _ _) <|
      .cons (value_readsBack.covers _ _) .nil
  · intro i map h
    obtain ⟨_, hgoal, hg⟩ := h.field (string_readsBack X) 0 "goal" none i.goal (by simp)
    obtain ⟨_, hrationale, hr⟩ := h.field (string_readsBack X) 1 "rationale" (some "") i.rationale (by simp)
    obtain ⟨_, himprovement, hi⟩ :=
      h.field (option_f64_readsBack X) 2 "expected_improvement" (some none) i.expectedImprovement (by simp)
    obtain ⟨_, hconstraints, hc⟩ := h.field (strings_readsBack X) 3 "constraints" (some []) i.constraints (by simp)
    obtain ⟨_, hmetadata, hm⟩ := h.field value_readsBack 4 "metadata" (some .null) i.metadata (by simp)
    simp only [hgoal, hrationale, himprovement, hconstraints, hmetadata, bind, Except.bind]
    exact ⟨_, rfl, hg, hr, hi, hc, hm⟩

variable (X) in
theorem scope_readsBack : ReadsBack (AllowedScope.read X) AllowedScope.toValue Eq := by
  have hmax : ReadsBack (Reader.option (u32 X)) (.ofOption .ofU32) Eq := option_readsBack (u32_readsBack X) fun n v hv => by
    obtain rfl := Value.number_of_equiv hv
    exact id
  refine struct_readsBack ?_ ?_
  · intro s
    exact .cons ((strings_readsBack X).covers _ _) <| .cons ((strings_readsBack X).covers _ _) <|
      .cons ((strings_readsBack X).covers _ _) <| .cons (hmax.covers _ _) <| .cons ((strings_readsBack X).covers _ _) .nil
  · intro s map h
    obtain ⟨_, htools, rfl⟩ := h.field (strings_readsBack X) 0 "allowed_tools" (some []) s.allowedTools (by simp)
    obtain ⟨_, hservers, rfl⟩ := h.field (strings_readsBack X) 1 "allowed_mcp_servers" (some []) s.allowedMcpServers (by simp)
    obtain ⟨_, hdelegates, rfl⟩ := h.field (strings_readsBack X) 2 "allowed_delegates" (some []) s.allowedDelegates (by simp)
    obtain ⟨_, hgeneration, rfl⟩ := h.field hmax 3 "max_generation" (some none) s.maxGeneration (by simp)
    obtain ⟨_, hgated, rfl⟩ := h.field (strings_readsBack X) 4 "gated_capabilities" (some []) s.gatedCapabilities (by simp)
    simp only [htools, hservers, hdelegates, hgeneration, hgated, bind, Except.bind]
    exact ⟨_, rfl, rfl⟩

variable (X) in
theorem status_readsBack : ReadsBack (NodeStatus.read X) NodeStatus.toValue Eq :=
  unitVariant_readsBack fun s => by cases s <;> rfl

variable (X) in
theorem stage_readsBack : ReadsBack (EvalStage.read X) EvalStage.toValue Eq :=
  unitVariant_readsBack fun s => by cases s <;> rfl

/-- The manifests are written alike and have the same names. -/
structure AgentArtifact.SameForm (a b : AgentArtifact X) : Prop where
  manifest : ∃ v w, X.manifestToValue a.manifest = .ok v ∧ X.manifestToValue b.manifest = .ok w ∧ v ≈ w
  sbom : a.capabilitySbom = b.capabilitySbom

/-- A total form of the manifests, as `ManifestReads` gives one. -/
abbrev Forms (form : X.Manifest → Value) : Prop := ∀ m, X.manifestToValue m = .ok (form m)

theorem artifact_readsBack (hM : X.ManifestReads) {form : X.Manifest → Value} (hform : Forms form) :
    ReadsBack (AgentArtifact.read X) (fun a => .object [("manifest", form a.manifest)] (List.nodup_singleton _))
      AgentArtifact.SameForm := by
  have hread : ReadsBack X.manifestFromValue form fun m m' => ∃ w, X.manifestToValue m' = .ok w ∧ form m ≈ w := by
    intro m v hv
    obtain ⟨m', w, hm', hw, hsame⟩ := hM.reads m _ v (hform m) hv
    exact ⟨m', hm', w, hw, hsame⟩
  refine struct_readsBack (fun a => .cons (hread.covers _ _) .nil) ?_
  intro a map h
  obtain ⟨m', hm', w, hw, hsame⟩ := h.field hread 0 "manifest" none a.manifest (by simp)
  obtain ⟨ht, hs, hd⟩ := hM.names _ _ _ _ (hform a.manifest) hw hsame
  simp only [hm', bind, Except.bind]
  refine ⟨_, rfl, ⟨_, w, hform a.manifest, hw, hsame⟩, ?_⟩
  simp only [AgentArtifact.capabilitySbom, ht, hs, hd]

/-! ## The node read back -/

/-- What is kept of the inputs. -/
structure CommitInputs.Rereads (i j : CommitInputs X) : Prop where
  parentId : i.parentId = j.parentId
  generation : i.generation = j.generation
  createdAt : i.createdAt = j.createdAt
  mutationIntent : i.mutationIntent.Agree j.mutationIntent
  mutationDiff : i.mutationDiff = j.mutationDiff
  allowedScope : i.allowedScope = j.allowedScope
  evalResults : i.evalResults.getD .null ≈ j.evalResults.getD .null
  artifact : i.artifact.SameForm j.artifact
  status : i.status = j.status
  parentAgentSuccess : i.parentAgentSuccess = j.parentAgentSuccess
  validParent : i.validParent = j.validParent
  evalStage : i.evalStage = j.evalStage

structure AgentNode.Rereads (n n' : AgentNode X) : Prop where
  inputs : n.inputs.Rereads n'.inputs
  agentId : n.agentId = n'.agentId
  capabilitySbom : n.capabilitySbom = n'.capabilitySbom
  signerPublicKey : n.signerPublicKey = n'.signerPublicKey
  signature : n.signature = n'.signature

theorem toValue_form {form : X.Manifest → Value} (hform : Forms form) (n : AgentNode X) : n.toValue = .ok
    (.object (n.entries (.object [("manifest", form n.artifact.manifest)] (List.nodup_singleton _))) (n.entries_nodup _)) := by
  simp only [AgentNode.toValue, AgentArtifact.toValue, AgentArtifact.manifestValue, hform, Except.mapError, bind,
    Except.bind, pure, Except.pure]

theorem node_readsBack (hM : X.ManifestReads) {form : X.Manifest → Value} (hform : Forms form) :
    ReadsBack (AgentNode.read X) (fun n => .object
      (n.entries (.object [("manifest", form n.artifact.manifest)] (List.nodup_singleton _))) (n.entries_nodup _))
      AgentNode.Rereads := by
  have hparent : ReadsBack (Reader.option (string X)) (.ofOption .string) Eq :=
    option_readsBack (string_readsBack X) fun s v hv => by
      obtain rfl := Value.string_of_equiv hv
      exact id
  have hstage : ReadsBack (Reader.option (EvalStage.read X)) (.ofOption EvalStage.toValue) Eq :=
    option_readsBack (stage_readsBack X) fun s v hv => by
      obtain rfl := Value.string_of_equiv hv
      exact id
  have hartifact := artifact_readsBack hM hform
  refine struct_readsBack ?_ ?_
  · intro n
    exact .cons ((string_readsBack X).covers _ _) <| .cons (hparent.covers _ _) <| .cons ((u32_readsBack X).covers _ _) <|
      .cons ((string_readsBack X).covers _ _) <| .cons ((intent_readsBack X).covers _ _) <|
      .cons ((strings_readsBack X).covers _ _) <| .cons (option_value_readsBack.covers _ _) <|
      .cons ((string_readsBack X).covers _ _) <| .cons ((scope_readsBack X).covers _ _) <| .cons (hartifact.covers _ _) <|
      .cons ((string_readsBack X).covers _ _) <| .cons ((string_readsBack X).covers _ _) <|
      .cons ((status_readsBack X).covers _ _) <| .cons ((bool_readsBack X).covers _ _) <|
      .cons ((bool_readsBack X).covers _ _) <| .cons (hstage.covers _ _) .nil
  · intro n map h
    obtain ⟨_, h0, r0⟩ := h.field (string_readsBack X) 0 "agent_id" none n.agentId (by simp [AgentNode.entries])
    obtain ⟨_, h1, r1⟩ := h.field hparent 1 "parent_id" (some none) n.parentId (by simp [AgentNode.entries])
    obtain ⟨_, h2, r2⟩ := h.field (u32_readsBack X) 2 "generation" none n.generation (by simp [AgentNode.entries])
    obtain ⟨_, h3, r3⟩ := h.field (string_readsBack X) 3 "created_at" none n.createdAt (by simp [AgentNode.entries])
    obtain ⟨_, h4, r4⟩ := h.field (intent_readsBack X) 4 "mutation_intent" none n.mutationIntent (by simp [AgentNode.entries])
    obtain ⟨_, h5, r5⟩ := h.field (strings_readsBack X) 5 "capability_sbom" none n.capabilitySbom (by simp [AgentNode.entries])
    obtain ⟨_, h6, r6⟩ := h.field option_value_readsBack 6 "eval_results" (some none) n.evalResults
      (by simp [AgentNode.entries])
    obtain ⟨_, h7, r7⟩ := h.field (string_readsBack X) 7 "mutation_diff" (some "") n.mutationDiff (by simp [AgentNode.entries])
    obtain ⟨_, h8, r8⟩ := h.field (scope_readsBack X) 8 "allowed_scope" none n.allowedScope (by simp [AgentNode.entries])
    obtain ⟨_, h9, r9⟩ := h.field hartifact 9 "artifact" none n.artifact (by simp [AgentNode.entries])
    obtain ⟨_, h10, r10⟩ := h.field (string_readsBack X) 10 "signer_public_key" none n.signerPublicKey
      (by simp [AgentNode.entries])
    obtain ⟨_, h11, r11⟩ := h.field (string_readsBack X) 11 "signature" none n.signature (by simp [AgentNode.entries])
    obtain ⟨_, h12, r12⟩ := h.field (status_readsBack X) 12 "status" (some .promoted) n.status (by simp [AgentNode.entries])
    obtain ⟨_, h13, r13⟩ := h.field (bool_readsBack X) 13 "parent_agent_success" (some false) n.parentAgentSuccess
      (by simp [AgentNode.entries])
    obtain ⟨_, h14, r14⟩ := h.field (bool_readsBack X) 14 "valid_parent" (some false) n.validParent (by simp [AgentNode.entries])
    obtain ⟨_, h15, r15⟩ := h.field hstage 15 "eval_stage" (some none) n.evalStage (by simp [AgentNode.entries])
    simp only [h0, h1, h2, h3, h4, h5, h6, h7, h8, h9, h10, h11, h12, h13, h14, h15, bind, Except.bind]
    exact ⟨_, rfl, ⟨r1, r2, r3, r4, r7, r8, r6, r9, r12, r13, r14, r15⟩, r0, r5, r10, r11⟩

/-! ## One payload -/

theorem ofOption_f64_filter (a : Option F64) : Value.ofOption .ofF64 (a.filter (·.isFinite)) = .ofOption .ofF64 a := by
  cases a with
  | none => rfl
  | some x => by_cases hx : x.isFinite = true <;> simp [Option.filter, hx, Value.ofOption, Value.ofF64]

theorem MutationIntent.toValue_congr {i j : MutationIntent} (h : i.Agree j) : i.toValue ≈ j.toValue := by
  have himprovement : Value.ofOption .ofF64 i.expectedImprovement = .ofOption .ofF64 j.expectedImprovement := by
    rw [← ofOption_f64_filter, h.expectedImprovement, ofOption_f64_filter]
  refine Value.object_congr ?_
  rw [h.goal, h.rationale, h.constraints, himprovement]
  have hsame (k : String) (v : Value) : (k, v).1 = (k, v).1 ∧ (k, v).2 ≈ (k, v).2 := ⟨rfl, Value.equiv_refl v⟩
  exact .cons (hsame _ _) <| .cons (hsame _ _) <| .cons (hsame _ _) <| .cons (hsame _ _) <| .cons ⟨rfl, h.metadata⟩ .nil

theorem CommitInputs.payload_congr {i j : CommitInputs X} (h : i.Rereads j) {v w : Value} (hvw : v ≈ w) :
    i.payload v ≈ j.payload w := by
  refine Value.object_congr ?_
  rw [h.parentId, h.generation, h.createdAt, h.mutationDiff, h.allowedScope, h.artifact.sbom, h.status,
    h.parentAgentSuccess, h.validParent, h.evalStage]
  have hsame (k : String) (v : Value) : (k, v).1 = (k, v).1 ∧ (k, v).2 ≈ (k, v).2 := ⟨rfl, Value.equiv_refl v⟩
  exact .cons (hsame _ _) <| .cons (hsame _ _) <| .cons (hsame _ _) <|
    .cons ⟨rfl, MutationIntent.toValue_congr h.mutationIntent⟩ <| .cons (hsame _ _) <| .cons (hsame _ _) <|
    .cons ⟨rfl, h.evalResults⟩ <| .cons (hsame _ _) <| .cons ⟨rfl, hvw⟩ <| .cons (hsame _ _) <| .cons (hsame _ _) <|
    .cons (hsame _ _) <| .cons (hsame _ _) .nil

/-- All that a payload is made of is kept. -/
theorem signingPayload_rereads {i j : CommitInputs X} (h : i.Rereads j) :
    ∃ b, i.signingPayload = .ok b ∧ j.signingPayload = .ok b := by
  obtain ⟨v, w, hv, hw, hvw⟩ := h.artifact.manifest
  have hc : canonicalJson X (i.payload v) = canonicalJson X (j.payload w) := canonicalJson_congr (i.payload_congr h hvw)
  refine ⟨utf8 (canon X (i.payload v).1), ?_, ?_⟩
  · simp only [CommitInputs.signingPayload, AgentArtifact.manifestValue, hv, canonicalJson_eq, Except.mapError, bind,
      Except.bind]
  · simp only [CommitInputs.signingPayload, AgentArtifact.manifestValue, hw, ← hc, canonicalJson_eq, Except.mapError, bind,
      Except.bind]

theorem verifyNode_rereads {n n' : AgentNode X} (h : n.Rereads n') : verifyNode n' = verifyNode n := by
  obtain ⟨b, hb, hb'⟩ := signingPayload_rereads h.inputs
  rw [verifyNode, verifyNode, hb, hb', h.agentId, h.signerPublicKey, h.signature]

/-- Everything signs and verifies, and every node, however it came about, is written and
    read back with the same payload and the same verdict. -/
theorem stored_alike (hS : X.Signs) (hH : X.HexReads) (hM : X.ManifestReads) :
    (∀ (i : CommitInputs X) (k : X.SigningKey), ∃ node, signNode i k = .ok node ∧ verifyNode node = .ok ()) ∧
    ∀ n : AgentNode X, ∃ v, n.toValue = .ok v ∧ ∀ w, v ≈ w → ∃ n', AgentNode.read X w = .ok n' ∧
      (∃ b, n.inputs.signingPayload = .ok b ∧ n'.inputs.signingPayload = .ok b) ∧ verifyNode n' = verifyNode n := by
  constructor
  · intro i k
    obtain ⟨m, hm⟩ := hM.writes i.artifact.manifest
    obtain ⟨node, hn⟩ := signNode_total hm k
    exact ⟨node, hn, verify_signNode hS hH hn⟩
  · intro n
    choose form hform using hM.writes
    refine ⟨_, toValue_form hform n, ?_⟩
    intro w hw
    obtain ⟨n', hread, hrereads⟩ := node_readsBack hM hform n w hw
    exact ⟨n', hread, signingPayload_rereads hrereads.inputs, verifyNode_rereads hrereads⟩

namespace Reference

theorem stored_alike_snapshot :
    (∃ node, signNode snapshotNode.inputs seed = .ok node ∧ verifyNode node = .ok ()) ∧
    ∃ v, snapshotNode.toValue = .ok v ∧ ∀ w, v ≈ w → ∃ n', AgentNode.read Reference w = .ok n' ∧
      (∃ b, snapshotNode.inputs.signingPayload = .ok b ∧ n'.inputs.signingPayload = .ok b) ∧
      verifyNode n' = verifyNode snapshotNode :=
  ⟨(stored_alike signs hexReads manifestReads).1 snapshotNode.inputs seed,
    (stored_alike signs hexReads manifestReads).2 snapshotNode⟩

end Reference

end RigVeh
