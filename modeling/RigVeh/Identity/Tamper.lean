/-
  RigVeh.Identity.Tamper — what an agent id fixes of a node.

  `Agree` compares the inputs of two nodes: an absent evaluation with null, an absent
  improvement with a non-finite one, JSON as serde_json compares it. Equal signing
  payloads have inputs that agree (`payload_unambiguous`), and two nodes that verify
  under one id have equal payloads (`same_payload`). So an id fixes every field of a
  node that its payload is built from. The stored SBOM is not one of them: the payload
  has the artifact's (`agree_iff_sbom`).
-/

import RigVeh.Reference

namespace RigVeh

open RigVeh.Json RigVeh.Base

variable {X : Crates}

structure CommitInputs.Agree (i j : CommitInputs X) : Prop where
  parentId : i.parentId = j.parentId
  generation : i.generation = j.generation
  createdAt : i.createdAt = j.createdAt
  mutationIntent : i.mutationIntent.Agree j.mutationIntent
  mutationDiff : i.mutationDiff = j.mutationDiff
  allowedScope : i.allowedScope = j.allowedScope
  evalResults : i.evalResults.getD .null ≈ j.evalResults.getD .null
  artifact : i.artifact = j.artifact
  status : i.status = j.status
  parentAgentSuccess : i.parentAgentSuccess = j.parentAgentSuccess
  validParent : i.validParent = j.validParent
  evalStage : i.evalStage = j.evalStage

/-- Agreement on every field that the gate, the selectors, the runner or the audit read. -/
structure AgentNode.Agree (n n' : AgentNode X) : Prop where
  inputs : n.inputs.Agree n'.inputs
  capabilitySbom : n.capabilitySbom = n'.capabilitySbom

/-! ## One payload -/

theorem payload_unambiguous (hJ : X.JsonText) (hM : X.ManifestInjective) {i j : CommitInputs X} {b : Bytes}
    (hi : i.signingPayload = .ok b) (hj : j.signingPayload = .ok b) : i.Agree j := by
  obtain ⟨m, hm, hb⟩ := CommitInputs.signingPayload_eq hi
  obtain ⟨m', hm', hb'⟩ := CommitInputs.signingPayload_eq hj
  have h : i.payload m ≈ j.payload m' := canonicalJson_injective hJ (hb.trans hb'.symm)
  have field {k : String} {v w : Value} := Value.object_equiv (k := k) (v := v) (w := w) h
  have hmanifest : m ≈ m' := field (k := "manifest") (by simp) (by simp)
  have hartifact : i.artifact.manifest = j.artifact.manifest := hM _ _ _ _ hm hm' hmanifest
  exact {
    parentId := ofOption_string_equiv (field (k := "parent_id") (by simp) (by simp))
    generation := (Value.ofU32_equiv _ _).mp (field (k := "generation") (by simp) (by simp))
    createdAt := (Value.string_equiv _ _).mp (field (k := "created_at") (by simp) (by simp))
    mutationIntent := MutationIntent.agree_of_toValue (field (k := "mutation_intent") (by simp) (by simp))
    mutationDiff := (Value.string_equiv _ _).mp (field (k := "mutation_diff") (by simp) (by simp))
    allowedScope := AllowedScope.toValue_injective (field (k := "allowed_scope") (by simp) (by simp))
    evalResults := field (k := "eval_results") (by simp) (by simp)
    artifact := by cases hi : i.artifact; cases hj : j.artifact; simp_all
    status := NodeStatus.toValue_injective (field (k := "status") (by simp) (by simp))
    parentAgentSuccess := (Value.bool_equiv _ _).mp (field (k := "parent_agent_success") (by simp) (by simp))
    validParent := (Value.bool_equiv _ _).mp (field (k := "valid_parent") (by simp) (by simp))
    evalStage := ofOption_stage_equiv (field (k := "eval_stage") (by simp) (by simp)) }

/-- What is hashed is a payload and the 64 bytes behind it, and nothing else. -/
theorem hashed_cut {p p' : Bytes} {σ σ' : ByteArr 64} (h : p ++ σ.1 = p' ++ σ'.1) : p = p' ∧ σ = σ' := by
  obtain ⟨hp, hσ⟩ := List.append_inj' h (σ.2.trans σ'.2.symm)
  exact ⟨hp, Subtype.ext hσ⟩

/-- Equal payloads agree on every field, and equal bytes to hash on payload and
    signature. -/
theorem signed_unambiguous (hJ : X.JsonText) (hM : X.ManifestInjective) :
    (∀ (i j : CommitInputs X) (b : Bytes), i.signingPayload = .ok b → j.signingPayload = .ok b → i.Agree j) ∧
    ∀ (p p' : Bytes) (σ σ' : ByteArr 64), p ++ σ.1 = p' ++ σ'.1 → p = p' ∧ σ = σ' :=
  ⟨fun _ _ _ hi hj => payload_unambiguous hJ hM hi hj, fun _ _ _ _ h => hashed_cut h⟩

namespace Reference

/-- An absent evaluation and a null one have one payload, and agree. -/
theorem signed_unambiguous_null :
    snapshotNode.inputs.Agree { snapshotNode.inputs with evalResults := some .null } ∧
      ∀ σ σ' : ByteArr 64, ([1] : Bytes) ++ σ.1 = [1] ++ σ'.1 → ([1] : Bytes) = [1] ∧ σ = σ' := by
  obtain ⟨hpayload, hhashed⟩ := signed_unambiguous jsonText manifestInjective
  obtain ⟨b, _, hv⟩ := (verifyNode_ok snapshotNode).mp (verify_signNode signs hexReads snapshot_signed)
  have hb : snapshotNode.inputs.signingPayload = .ok b := hv.payload_eq
  exact ⟨hpayload _ _ b hb hb, hhashed _ _⟩

end Reference

/-! ## One id -/

/-- The bytes a node's id is the hash of. -/
def HashInput (n : AgentNode X) (b : Bytes) : Prop :=
  ∃ payload signature, n.inputs.signingPayload = .ok payload ∧ X.hexDecode n.signature = .ok signature ∧
    b = payload ++ signature

/-- No collision of SHA-256 between the bytes hashed for the two nodes. -/
def NoCollision (n n' : AgentNode X) : Prop :=
  ∀ a b, HashInput n a → HashInput n' b → X.sha256 a = X.sha256 b → a = b

/-- Two nodes that verify under one id were signed over one payload. -/
theorem same_payload (hH : X.HexReads) {n n' : AgentNode X} (hsha : NoCollision n n') {p p' : Bytes}
    {σ σ' : ByteArr 64} (hn : Verified n p σ) (hn' : Verified n' p' σ') (hid : n.agentId = n'.agentId) : p = p' := by
  rw [← hn.agentId_eq, ← hn'.agentId_eq] at hid
  have hhash : X.sha256 (p ++ σ.1) = X.sha256 (p' ++ σ'.1) := Subtype.ext (hH.injective hid)
  have hbytes : p ++ σ.1 = p' ++ σ'.1 :=
    hsha _ _ ⟨p, σ.1, hn.payload_eq, hn.signature_eq, rfl⟩ ⟨p', σ'.1, hn'.payload_eq, hn'.signature_eq, rfl⟩ hhash
  exact (hashed_cut hbytes).1

/-- The inputs of nodes that verify under one id agree. -/
theorem inputs_agree (hJ : X.JsonText) (hH : X.HexReads) (hM : X.ManifestInjective) {n n' : AgentNode X}
    (hsha : NoCollision n n') (hn : verifyNode n = .ok ()) (hn' : verifyNode n' = .ok ())
    (hid : n.agentId = n'.agentId) : n.inputs.Agree n'.inputs := by
  obtain ⟨p, σ, hv⟩ := (verifyNode_ok n).mp hn
  obtain ⟨p', σ', hv'⟩ := (verifyNode_ok n').mp hn'
  obtain rfl := same_payload hH hsha hv hv' hid
  exact payload_unambiguous hJ hM hv.payload_eq hv'.payload_eq

/-- Nodes that verify under one id agree but for their stored SBOMs, which are checked
    against nothing. -/
theorem agree_iff_sbom (hJ : X.JsonText) (hH : X.HexReads) (hM : X.ManifestInjective) (n n' : AgentNode X)
    (hsha : NoCollision n n') (hn : verifyNode n = .ok ()) (hn' : verifyNode n' = .ok ())
    (hid : n.agentId = n'.agentId) : n.Agree n' ↔ n.capabilitySbom = n'.capabilitySbom :=
  ⟨fun h => h.capabilitySbom, fun h => ⟨inputs_agree hJ hH hM hsha hn hn' hid, h⟩⟩

theorem noCollision_of_same {n n' : AgentNode X} (hi : n.inputs = n'.inputs)
    (hs : X.hexDecode n.signature = X.hexDecode n'.signature) : NoCollision n n' := by
  rintro _ _ ⟨p, σ, hp, hσ, rfl⟩ ⟨p', σ', hp', hσ', rfl⟩ -
  rw [hi, hp'] at hp
  rw [hs, hσ'] at hσ
  cases hp
  cases hσ
  rfl

/-- Verification reads a node's inputs, id, key and signature only. -/
theorem verifyNode_congr {n n' : AgentNode X} (hi : n.inputs = n'.inputs) (hid : n.agentId = n'.agentId)
    (hk : n.signerPublicKey = n'.signerPublicKey) (hs : X.hexDecode n.signature = X.hexDecode n'.signature) :
    verifyNode n = verifyNode n' := by
  rw [verifyNode, verifyNode, hi, hid, hk, hs]

namespace Reference

theorem snapshot_verifies : verifyNode snapshotNode = .ok () := verify_signNode signs hexReads snapshot_signed

/-- The pinned node with its signature in upper case. -/
def respelled : AgentNode Reference :=
  { snapshotNode with
    signature := "BC22603587A6BCCB97E7A85B7A73ACA10939A371CE91EE2B3896F4B39A01F291" ++
      "949AA0CB899C0C29221EE18758E2972E0F7088909B4D37F78877C3710D1C6701" }

theorem respelled_agrees : snapshotNode.Agree respelled := by
  have hs : Crates.hexDecode Reference snapshotNode.signature = Crates.hexDecode Reference respelled.signature := by
    decide +kernel
  have hv : verifyNode snapshotNode = verifyNode respelled := verifyNode_congr rfl rfl rfl hs
  rw [snapshot_verifies] at hv
  have hc : NoCollision snapshotNode respelled := noCollision_of_same rfl hs
  exact (agree_iff_sbom jsonText hexReads manifestInjective snapshotNode respelled hc snapshot_verifies hv.symm rfl).mpr
    rfl

/-- The pinned node with a capability its artifact does not have. -/
def widened : AgentNode Reference := { snapshotNode with capabilitySbom := ["tool:shell"] }

/-- It verifies under the pinned id, and is not the pinned node. -/
theorem widened_verifies : NoCollision snapshotNode widened ∧ verifyNode snapshotNode = .ok () ∧
    verifyNode widened = .ok () ∧ snapshotNode.agentId = widened.agentId ∧ ¬ snapshotNode.Agree widened := by
  refine ⟨noCollision_of_same rfl rfl, snapshot_verifies, snapshot_verifies, rfl, fun h => ?_⟩
  exact absurd h.capabilitySbom (by decide)

end Reference

/-- Where both nodes store the SBOM of their artifact, as every signed node does, the
    id fixes it too. -/
theorem agree_of_derived (hJ : X.JsonText) (hH : X.HexReads) (hM : X.ManifestInjective) {n n' : AgentNode X}
    (hsha : NoCollision n n') (hn : verifyNode n = .ok ()) (hn' : verifyNode n' = .ok ())
    (hid : n.agentId = n'.agentId) (hd : n.capabilitySbom = n.artifact.capabilitySbom)
    (hd' : n'.capabilitySbom = n'.artifact.capabilitySbom) : n.Agree n' := by
  have h := inputs_agree hJ hH hM hsha hn hn' hid
  exact ⟨h, by rw [hd, hd', show n.artifact = n'.artifact from h.artifact]⟩

end RigVeh
