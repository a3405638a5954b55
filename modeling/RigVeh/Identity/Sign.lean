/-
  RigVeh.Identity.Sign — signing and verifying a node (`src/identity.rs`).

  `verifyNode` does not read the stored record's bytes: it builds the payload again
  from the node's fields (`AgentNode.inputs`), with the SBOM taken from the artifact.
  `verifyNode_ok` says what a node that verifies has shown, `verify_signNode` that a
  node just signed verifies.
-/

import RigVeh.Base.Program
import RigVeh.Identity.Node

namespace RigVeh

open RigVeh.Json RigVeh.Base

variable {X : Crates}

structure CommitInputs (X : Crates) where
  parentId : Option AgentId
  generation : UInt32
  createdAt : String
  mutationIntent : MutationIntent
  mutationDiff : String
  allowedScope : AllowedScope
  evalResults : Option Value
  artifact : AgentArtifact X
  status : NodeStatus
  parentAgentSuccess : Bool
  validParent : Bool
  evalStage : Option EvalStage

namespace CommitInputs

/-- The payload's map, given the manifest's serde form. -/
def payload (i : CommitInputs X) (manifest : Value) : Value :=
  .object [
    ("parent_id", .ofOption .string i.parentId),
    ("generation", .ofU32 i.generation),
    ("created_at", .string i.createdAt),
    ("mutation_intent", i.mutationIntent.toValue),
    ("mutation_diff", .string i.mutationDiff),
    ("allowed_scope", i.allowedScope.toValue),
    ("eval_results", i.evalResults.getD .null),
    ("capability_sbom", .ofStrings i.artifact.capabilitySbom),
    ("manifest", manifest),
    ("status", i.status.toValue),
    ("parent_agent_success", .bool i.parentAgentSuccess),
    ("valid_parent", .bool i.validParent),
    ("eval_stage", .ofOption EvalStage.toValue i.evalStage)]
    (show ["parent_id", "generation", "created_at", "mutation_intent", "mutation_diff", "allowed_scope",
      "eval_results", "capability_sbom", "manifest", "status", "parent_agent_success", "valid_parent",
      "eval_stage"].Nodup by decide)

def signingPayload (i : CommitInputs X) : Except Error Bytes := do
  let manifest ← i.artifact.manifestValue
  (canonicalJson X (i.payload manifest)).mapError .canonical

theorem signingPayload_eq {i : CommitInputs X} {b : Bytes} (h : i.signingPayload = .ok b) :
    ∃ m, X.manifestToValue i.artifact.manifest = .ok m ∧ canonicalJson X (i.payload m) = .ok b := by
  obtain ⟨m, hm, hb⟩ := Prog.bind_ok h
  exact ⟨m, Prog.mapError_ok.mp hm, Prog.mapError_ok.mp hb⟩

end CommitInputs

def computeAgentId (payload : Bytes) (signature : ByteArr 64) : AgentId :=
  X.hexEncode (X.sha256 (payload ++ signature.1)).1

def signNode (inputs : CommitInputs X) (signingKey : X.SigningKey) : Except Error (AgentNode X) := do
  let payload ← inputs.signingPayload
  let signature := X.sign signingKey payload
  return {
    agentId := computeAgentId (X := X) payload signature
    parentId := inputs.parentId
    generation := inputs.generation
    createdAt := inputs.createdAt
    mutationIntent := inputs.mutationIntent
    capabilitySbom := inputs.artifact.capabilitySbom
    evalResults := inputs.evalResults
    mutationDiff := inputs.mutationDiff
    allowedScope := inputs.allowedScope
    artifact := inputs.artifact
    signerPublicKey := X.hexEncode (X.keyToBytes (X.verifyingKey signingKey)).1
    signature := X.hexEncode signature.1
    status := inputs.status
    parentAgentSuccess := inputs.parentAgentSuccess
    validParent := inputs.validParent
    evalStage := inputs.evalStage }

/-- The inputs `verify_node` reads back off a stored node. -/
def AgentNode.inputs (node : AgentNode X) : CommitInputs X where
  parentId := node.parentId
  generation := node.generation
  createdAt := node.createdAt
  mutationIntent := node.mutationIntent
  mutationDiff := node.mutationDiff
  allowedScope := node.allowedScope
  evalResults := node.evalResults
  artifact := node.artifact
  status := node.status
  parentAgentSuccess := node.parentAgentSuccess
  validParent := node.validParent
  evalStage := node.evalStage

/-- `try_into` of a slice into `[u8; n]`. -/
def toArray (n : Nat) (b : Bytes) (e : Error) : Except Error (ByteArr n) :=
  if h : b.length = n then .ok ⟨b, h⟩ else .error e

theorem toArray_ok {n : Nat} {b : Bytes} {e : Error} {a : ByteArr n} : toArray n b e = .ok a ↔ b = a.1 := by
  unfold toArray
  split
  · simp [Subtype.ext_iff]
  · rename_i h
    simp only [reduceCtorEq, false_iff]
    exact fun hb => h (hb ▸ a.2)

def verifyNode (node : AgentNode X) : Except Error Unit := do
  let payload ← node.inputs.signingPayload
  let signatureBytes ← (X.hexDecode node.signature).mapError fun e => .signatureInvalid ("hex decode: " ++ e)
  let signature ← toArray 64 signatureBytes (.signatureInvalid "wrong signature length")
  let expectedId := computeAgentId (X := X) payload signature
  if expectedId ≠ node.agentId then .error (.hashMismatch node.agentId expectedId) else
    let pkBytes ← (X.hexDecode node.signerPublicKey).mapError fun e => .invalidKey ("hex decode: " ++ e)
    let pkArray ← toArray 32 pkBytes (.invalidKey "wrong key length")
    let verifying ← (X.keyFromBytes pkArray).mapError .invalidKey
    (X.verify verifying payload signature).mapError .signatureInvalid

/-- What a node that verifies has shown. -/
structure Verified (node : AgentNode X) (payload : Bytes) (signature : ByteArr 64) : Prop where
  payload_eq : node.inputs.signingPayload = .ok payload
  signature_eq : X.hexDecode node.signature = .ok signature.1
  agentId_eq : computeAgentId (X := X) payload signature = node.agentId
  signed : ∃ pk key, X.hexDecode node.signerPublicKey = .ok pk.1 ∧ X.keyFromBytes pk = .ok key ∧
    X.verify key payload signature = .ok ()

theorem verifyNode_ok (node : AgentNode X) :
    verifyNode node = .ok () ↔ ∃ payload signature, Verified node payload signature := by
  constructor
  · intro h
    obtain ⟨payload, hp, h⟩ := Prog.bind_ok h
    obtain ⟨sigBytes, hs, h⟩ := Prog.bind_ok h
    obtain ⟨signature, ha, h⟩ := Prog.bind_ok h
    obtain hid | hid := ne_or_eq (computeAgentId (X := X) payload signature) node.agentId
    · rw [if_pos hid] at h
      cases h
    rw [if_neg (not_not.mpr hid)] at h
    obtain ⟨pkBytes, hk, h⟩ := Prog.bind_ok h
    obtain ⟨pkArray, hka, h⟩ := Prog.bind_ok h
    obtain ⟨key, hkey, h⟩ := Prog.bind_ok h
    rw [toArray_ok.mp ha] at hs
    rw [toArray_ok.mp hka] at hk
    exact ⟨payload, signature, hp, Prog.mapError_ok.mp hs, hid, pkArray, key, Prog.mapError_ok.mp hk,
      Prog.mapError_ok.mp hkey, Prog.mapError_ok.mp h⟩
  · rintro ⟨payload, signature, hp, hs, hid, pk, key, hk, hkey, hv⟩
    simp only [verifyNode, hp, hs, hid, hk, hkey, hv, Except.mapError, toArray, signature.2, pk.2, bind, Except.bind,
      dite_true, ne_eq, not_true, if_false]

/-! ## A signed node -/

/-- A signed node stores its inputs. -/
theorem signNode_inputs {i : CommitInputs X} {k : X.SigningKey} {node : AgentNode X} (h : signNode i k = .ok node) :
    node.inputs = i ∧ node.capabilitySbom = i.artifact.capabilitySbom ∧
      node.signerPublicKey = X.hexEncode (X.keyToBytes (X.verifyingKey k)).1 := by
  obtain ⟨payload, -, h⟩ := Prog.bind_ok h
  cases h
  exact ⟨rfl, rfl, rfl⟩

/-- Inputs with one payload are signed under one id. -/
theorem signNode_alike {i i' : CommitInputs X} {k : X.SigningKey} {node : AgentNode X}
    (hp : i'.signingPayload = i.signingPayload) (h : signNode i k = .ok node) :
    ∃ node', signNode i' k = .ok node' ∧ node'.agentId = node.agentId := by
  obtain ⟨payload, hpay, h⟩ := Prog.bind_ok h
  cases h
  rw [signNode, hp, hpay]
  exact ⟨_, rfl, rfl⟩

/-- A node just signed verifies. -/
theorem verify_signNode (hS : X.Signs) (hH : X.HexReads) {i : CommitInputs X} {k : X.SigningKey} {node : AgentNode X}
    (h : signNode i k = .ok node) : verifyNode node = .ok () := by
  obtain ⟨payload, hp, h⟩ := Prog.bind_ok h
  cases h
  exact (verifyNode_ok _).mpr ⟨payload, X.sign k payload, hp, hH _, rfl, X.keyToBytes (X.verifyingKey k), X.verifyingKey k,
    hH _, hS.key k, hS.verifies k payload⟩

/-- Signing fails only when the manifest has no serde form. -/
theorem signNode_total {i : CommitInputs X} {m : Value} (h : X.manifestToValue i.artifact.manifest = .ok m)
    (k : X.SigningKey) : ∃ node, signNode i k = .ok node := by
  simp only [signNode, CommitInputs.signingPayload, AgentArtifact.manifestValue, h, canonicalJson_eq, Except.mapError,
    bind, Except.bind, pure, Except.pure]
  exact ⟨_, rfl⟩

end RigVeh
