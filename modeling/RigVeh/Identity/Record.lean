/-
  RigVeh.Identity.Record — audit records of nodes that were stored (`AuditRecord` in
  `src/evidence.rs`).

  A record unpacks what a node carries as JSON, and is JSON itself when it is handed on.
  A store gives a node back with its keys in any order, without an expected improvement
  that is not finite, and without an evaluation that is null. The record made of it
  agrees with the one made of the node but for that improvement, or neither can be
  made; only the null evaluation, which is no bundle, is audited as a root's once it was
  stored (`audit_stored`). A record that was written reads back as one that agrees with
  it (`record_readsBack`).
-/

import RigVeh.Identity.Bundle
import RigVeh.Identity.Wire
import RigVeh.Json.Respect

namespace RigVeh

open RigVeh.Json RigVeh.Json.Reader RigVeh.Base

variable {X : Crates}

/-! ## Records as JSON -/

namespace AuditRecord

def entries (r : AuditRecord) : List (String × Value) :=
  [("agent_id", .string r.agentId)] ++
    (r.parentId.toList.map fun parentId => ("parent_id", .string parentId)) ++
    [("timestamp", .string r.timestamp), ("mutation_intent", r.mutationIntent.toValue),
      ("mutation_diff", .string r.mutationDiff), ("evidence", r.evidence.toValue),
      ("signer_public_key", .string r.signerPublicKey), ("signature", .string r.signature),
      ("verification_valid", .bool r.verificationValid)]

theorem entries_nodup (r : AuditRecord) : (r.entries.map Prod.fst).Nodup := by
  unfold entries
  cases r.parentId <;> simp

def toValue (r : AuditRecord) : Value := .object r.entries r.entries_nodup

def read (X : Crates) : Reader AuditRecord :=
  Reader.struct X "AuditRecord" "9 elements" [
    .of "agent_id" (Reader.string X),
    .of "parent_id" (Reader.option (Reader.string X)),
    .of "timestamp" (Reader.string X),
    .of "mutation_intent" (MutationIntent.read X),
    .of "mutation_diff" (Reader.string X),
    .of "evidence" (EvidenceBundle.read X),
    .of "signer_public_key" (Reader.string X),
    .of "signature" (Reader.string X),
    .of "verification_valid" (Reader.bool X)] fun src => do
  let agentId ← src.field 0 "agent_id" (Reader.string X) none
  -- `skip_serializing_if` gives it no default
  let parentId ← src.optional 1 "parent_id" (Reader.string X)
  let timestamp ← src.field 2 "timestamp" (Reader.string X) none
  let mutationIntent ← src.field 3 "mutation_intent" (MutationIntent.read X) none
  let mutationDiff ← src.field 4 "mutation_diff" (Reader.string X) none
  let evidence ← src.field 5 "evidence" (EvidenceBundle.read X) none
  let signerPublicKey ← src.field 6 "signer_public_key" (Reader.string X) none
  let signature ← src.field 7 "signature" (Reader.string X) none
  let verificationValid ← src.field 8 "verification_valid" (Reader.bool X) none
  return { agentId, parentId, timestamp, mutationIntent, mutationDiff, evidence, signerPublicKey, signature,
           verificationValid }

end AuditRecord

/-! ## What agrees -/

structure EvidenceBundle.Agree (a b : EvidenceBundle) : Prop where
  version : a.version = b.version
  policy : a.policy = b.policy
  evaluatorReport : Option.Rel (· ≈ ·) a.evaluatorReport b.evaluatorReport
  contextItems : List.Forall₂ (· ≈ ·) a.contextItems b.contextItems
  operatorApprovals : a.operatorApprovals = b.operatorApprovals

structure AuditRecord.Agree (a b : AuditRecord) : Prop where
  agentId : a.agentId = b.agentId
  parentId : a.parentId = b.parentId
  timestamp : a.timestamp = b.timestamp
  mutationIntent : a.mutationIntent.Agree b.mutationIntent
  mutationDiff : a.mutationDiff = b.mutationDiff
  evidence : a.evidence.Agree b.evidence
  signerPublicKey : a.signerPublicKey = b.signerPublicKey
  signature : a.signature = b.signature
  verificationValid : a.verificationValid = b.verificationValid

theorem optionRel_eq {α : Type} {a b : Option α} (h : Option.Rel Eq a b) : a = b := by
  cases h with
  | none => rfl
  | some h => rw [h]

theorem EvidenceBundle.Agree.refl (b : EvidenceBundle) : b.Agree b where
  version := rfl
  policy := rfl
  evaluatorReport := by
    cases b.evaluatorReport with
    | none => exact .none
    | some v => exact .some (Value.equiv_refl v)
  contextItems := List.forall₂_same.mpr fun v _ => Value.equiv_refl v
  operatorApprovals := rfl

theorem MutationIntent.Agree.trans {a b c : MutationIntent} (h : a.Agree b) (h' : b.Agree c) : a.Agree c where
  goal := h.goal.trans h'.goal
  rationale := h.rationale.trans h'.rationale
  expectedImprovement := h.expectedImprovement.trans h'.expectedImprovement
  constraints := h.constraints.trans h'.constraints
  metadata := Value.equiv_trans h.metadata h'.metadata

theorem EvidenceBundle.Agree.trans {a b c : EvidenceBundle} (h : a.Agree b) (h' : b.Agree c) : a.Agree c where
  version := h.version.trans h'.version
  policy := h.policy.trans h'.policy
  evaluatorReport := by
    have hab := h.evaluatorReport
    have hbc := h'.evaluatorReport
    generalize a.evaluatorReport = x, b.evaluatorReport = y, c.evaluatorReport = z at hab hbc
    cases hab with
    | none =>
      cases hbc with
      | none => exact .none
    | some hxy =>
      cases hbc with
      | some hyz => exact .some (Value.equiv_trans hxy hyz)
  contextItems := by
    have hlen := h.contextItems.length_eq
    have hlen' := h'.contextItems.length_eq
    refine List.forall₂_iff_get.mpr ⟨hlen.trans hlen', fun i hi hi' => ?_⟩
    exact Value.equiv_trans ((List.forall₂_iff_get.mp h.contextItems).2 i hi (hlen ▸ hi))
      ((List.forall₂_iff_get.mp h'.contextItems).2 i (hlen ▸ hi) hi')
  operatorApprovals := h.operatorApprovals.trans h'.operatorApprovals

theorem AuditRecord.Agree.trans {a b c : AuditRecord} (h : a.Agree b) (h' : b.Agree c) : a.Agree c where
  agentId := h.agentId.trans h'.agentId
  parentId := h.parentId.trans h'.parentId
  timestamp := h.timestamp.trans h'.timestamp
  mutationIntent := h.mutationIntent.trans h'.mutationIntent
  mutationDiff := h.mutationDiff.trans h'.mutationDiff
  evidence := h.evidence.trans h'.evidence
  signerPublicKey := h.signerPublicKey.trans h'.signerPublicKey
  signature := h.signature.trans h'.signature
  verificationValid := h.verificationValid.trans h'.verificationValid

/-! ## The readers -/

variable (X) in
theorem intent_respects : Respects (MutationIntent.read X) MutationIntent.Agree := by
  refine struct_respects ?_ ?_
  · simp only [List.mem_cons, List.not_mem_nil, or_false, forall_eq_or_imp, forall_eq]
    exact ⟨(string_respects X).field _, (string_respects X).field _, (option_respects (f64_respects X)).field _,
      (vec_respects (string_respects X)).field _, value_respects.field _⟩
  · intro src src' h
    refine (h.field (string_respects X) 0 "goal" fun _ h => by cases h).bind fun _ _ hgoal => ?_
    refine (h.field (string_respects X) 1 "rationale" fun _ _ => rfl).bind fun _ _ hrationale => ?_
    refine (h.field (option_respects (f64_respects X)) 2 "expected_improvement" ?_).bind fun _ _ himprovement => ?_
    · rintro _ ⟨⟩
      exact .none
    refine (h.field (vec_respects (string_respects X)) 3 "constraints" ?_).bind fun _ _ hconstraints => ?_
    · rintro _ ⟨⟩
      exact .nil
    refine (h.field value_respects 4 "metadata" fun _ _ => Value.equiv_refl _).bind fun _ _ hmetadata => ?_
    rw [List.forall₂_eq_eq_eq] at hconstraints
    exact .ok ⟨hgoal, hrationale, by rw [optionRel_eq himprovement], hconstraints, hmetadata⟩

variable (X) in
theorem verdict_respects : Respects (PolicyVerdict.read X) Eq := by
  have htag : Respects (PolicyVerdict.readTag X) Eq := scalar_respects (fun _ => ⟨_, rfl⟩) fun _ _ => ⟨_, rfl⟩
  intro v w h
  cases Value.alike_of_equiv h with
  | null | bool | number | string => exact .error _ _
  | object hm hn hrel =>
    simp only [PolicyVerdict.read, Value.view_object]
    refine (field_respects htag hrel "outcome" (.error _ _)).bind fun _ _ hmake => ?_
    refine (field_respects (string_respects X) hrel "reason" (.error _ _)).bind fun _ _ hreason => ?_
    exact .ok (by rw [hmake, hreason])
  | array hall =>
    simp only [PolicyVerdict.read, Value.view_array]
    cases hall with
    | nil => exact .error _ _
    | cons hvw hrest =>
      refine (htag _ _ hvw).bind fun _ _ hmake => ?_
      refine (element_respects (string_respects X) hrest 0 (.error _ _)).bind fun _ _ hreason => ?_
      rw [hrest.length_eq]
      split
      · exact .error _ _
      · exact .ok (by rw [hmake, hreason])

variable (X) in
theorem approval_respects : Respects (OperatorApproval.read X) Eq := by
  refine struct_respects ?_ ?_
  · simp only [List.mem_cons, List.not_mem_nil, or_false, forall_eq_or_imp, forall_eq]
    exact ⟨(string_respects X).field _, (string_respects X).field _⟩
  · intro src src' h
    refine (h.field (string_respects X) 0 "operator" fun _ h => by cases h).bind fun _ _ hoperator => ?_
    refine (h.field (string_respects X) 1 "note" fun _ h => by cases h).bind fun _ _ hnote => ?_
    exact .ok (by rw [hoperator, hnote])

variable (X) in
theorem bundle_respects : Respects (EvidenceBundle.read X) EvidenceBundle.Agree := by
  have hitems := vec_respects (X := X) value_respects
  have happrovals := vec_respects (X := X) (approval_respects X)
  refine struct_respects ?_ ?_
  · simp only [List.mem_cons, List.not_mem_nil, or_false, forall_eq_or_imp, forall_eq]
    exact ⟨(u32_respects X).field _, (verdict_respects X).field _, (option_respects value_respects).field _,
      hitems.field _, happrovals.field _⟩
  · intro src src' h
    refine (h.field (u32_respects X) 0 "version" fun _ h => by cases h).bind fun _ _ hversion => ?_
    refine (h.field (verdict_respects X) 1 "policy" fun _ h => by cases h).bind fun _ _ hpolicy => ?_
    refine (h.field (option_respects value_respects) 2 "evaluator_report" ?_).bind fun _ _ hreport => ?_
    · rintro _ ⟨⟩
      exact .none
    refine (h.field hitems 3 "context_items" ?_).bind fun _ _ hcontext => ?_
    · rintro _ ⟨⟩
      exact .nil
    refine (h.field happrovals 4 "operator_approvals" ?_).bind fun _ _ happroved => ?_
    · rintro _ ⟨⟩
      exact .nil
    rw [List.forall₂_eq_eq_eq] at happroved
    exact .ok ⟨hversion, hpolicy, hreport, hcontext, happroved⟩

variable (X) in
theorem record_respects : Respects (AuditRecord.read X) AuditRecord.Agree := by
  have hstring := string_respects X
  refine struct_respects ?_ ?_
  · simp only [List.mem_cons, List.not_mem_nil, or_false, forall_eq_or_imp, forall_eq]
    exact ⟨hstring.field _, (option_respects hstring).field _, hstring.field _, (intent_respects X).field _,
      hstring.field _, (bundle_respects X).field _, hstring.field _, hstring.field _, (bool_respects X).field _⟩
  · intro src src' h
    refine (h.field hstring 0 "agent_id" fun _ h => by cases h).bind fun _ _ hagent => ?_
    refine (h.optional hstring 1 "parent_id").bind fun _ _ hparentId => ?_
    refine (h.field hstring 2 "timestamp" fun _ h => by cases h).bind fun _ _ htimestamp => ?_
    refine (h.field (intent_respects X) 3 "mutation_intent" fun _ h => by cases h).bind fun _ _ hintent => ?_
    refine (h.field hstring 4 "mutation_diff" fun _ h => by cases h).bind fun _ _ hdiff => ?_
    refine (h.field (bundle_respects X) 5 "evidence" fun _ h => by cases h).bind fun _ _ hevidence => ?_
    refine (h.field hstring 6 "signer_public_key" fun _ h => by cases h).bind fun _ _ hsigner => ?_
    refine (h.field hstring 7 "signature" fun _ h => by cases h).bind fun _ _ hsignature => ?_
    refine (h.field (bool_respects X) 8 "verification_valid" fun _ h => by cases h).bind fun _ _ hvalid => ?_
    exact .ok ⟨hagent, optionRel_eq hparentId, htimestamp, hintent, hdiff, hevidence, hsigner, hsignature, hvalid⟩

/-! ## A record read back -/

variable (X) in
/-- A record is read off its own value, but for an improvement that is not finite. -/
theorem record_read {r : AuditRecord} (hreport : r.evidence.evaluatorReport ≠ some .null) :
    ∃ r', AuditRecord.read X r.toValue = .ok r' ∧ r.Agree r' := by
  obtain ⟨intent, hintent, hagree⟩ := intent_readsBack X r.mutationIntent _ (Value.equiv_refl _)
  have hbundle : EvidenceBundle.read X r.evidence.toValue = .ok r.evidence :=
    Prog.mapError_ok.mp ((EvidenceBundle.fromValue_toValue X r.evidence).mpr hreport)
  refine ⟨{ r with mutationIntent := intent }, ?_, rfl, rfl, rfl, hagree, rfl, .refl _, rfl, rfl, rfl⟩
  obtain ⟨agentId, parentId, timestamp, mutationIntent, mutationDiff, evidence, signer, signature, valid⟩ := r
  cases parentId <;>
    simp_all [AuditRecord.read, AuditRecord.toValue, AuditRecord.entries, Reader.struct, Reader.visitMap, Source.optional,
      Source.field, Reader.field, Reader.Field.of, List.lookup_cons, Reader.string, Reader.option, Reader.bool, Except.map,
      bind, Except.bind, pure, Except.pure]

variable (X) in
theorem record_readsBack {r : AuditRecord} (hreport : r.evidence.evaluatorReport ≠ some .null) {v : Value}
    (hv : r.toValue ≈ v) : ∃ r', AuditRecord.read X v = .ok r' ∧ r.Agree r' := by
  obtain ⟨r₁, hr₁, hagree⟩ := record_read X hreport
  have hsame := record_respects X _ _ hv
  rw [hr₁] at hsame
  obtain ⟨r₂, hr₂, hagree'⟩ := hsame.of_ok
  exact ⟨r₂, hr₂, hagree.trans hagree'⟩

/-! ## Nodes read back -/

/-- A JSON number is finite. -/
theorem intent_finite {v : Value} {i : MutationIntent} (h : MutationIntent.read X v = .ok i) :
    i.expectedImprovement.filter (·.isFinite) = i.expectedImprovement := by
  obtain ⟨src, h⟩ := struct_ok h
  obtain ⟨_, -, h⟩ := Prog.bind_ok h
  obtain ⟨_, -, h⟩ := Prog.bind_ok h
  obtain ⟨improvement, himprovement, h⟩ := Prog.bind_ok h
  obtain ⟨_, -, h⟩ := Prog.bind_ok h
  obtain ⟨_, -, h⟩ := Prog.bind_ok h
  cases h
  refine field_holds (P := fun o => o.filter (·.isFinite) = o) (fun v o hv => ?_) (by rintro _ ⟨⟩; rfl) himprovement
  unfold Reader.option at hv
  split at hv
  · cases hv
    rfl
  · unfold Reader.f64 at hv
    split at hv
    · rename_i m _
      cases hv
      simp [Option.filter, m.asF64_finite]
    · cases hv

/-- What is read has no null evaluation, and no improvement that is not finite. -/
theorem node_normal {v : Value} {n : AgentNode X} (h : AgentNode.read X v = .ok n) :
    n.evalResults ≠ some .null ∧
      n.mutationIntent.expectedImprovement.filter (·.isFinite) = n.mutationIntent.expectedImprovement := by
  obtain ⟨src, h⟩ := struct_ok h
  obtain ⟨_, -, h⟩ := Prog.bind_ok h
  obtain ⟨_, -, h⟩ := Prog.bind_ok h
  obtain ⟨_, -, h⟩ := Prog.bind_ok h
  obtain ⟨_, -, h⟩ := Prog.bind_ok h
  obtain ⟨intent, hintent, h⟩ := Prog.bind_ok h
  have hfinite : intent.expectedImprovement.filter (·.isFinite) = intent.expectedImprovement :=
    field_holds (P := fun i => i.expectedImprovement.filter (·.isFinite) = i.expectedImprovement)
      (fun v i => intent_finite) (by rintro _ ⟨⟩) hintent
  obtain ⟨_, -, h⟩ := Prog.bind_ok h
  obtain ⟨results, hresults, h⟩ := Prog.bind_ok h
  have hnull := nonNull_field hresults
  obtain ⟨_, -, h⟩ := Prog.bind_ok h
  obtain ⟨_, -, h⟩ := Prog.bind_ok h
  obtain ⟨_, -, h⟩ := Prog.bind_ok h
  obtain ⟨_, -, h⟩ := Prog.bind_ok h
  obtain ⟨_, -, h⟩ := Prog.bind_ok h
  obtain ⟨_, -, h⟩ := Prog.bind_ok h
  obtain ⟨_, -, h⟩ := Prog.bind_ok h
  obtain ⟨_, -, h⟩ := Prog.bind_ok h
  obtain ⟨_, -, h⟩ := Prog.bind_ok h
  cases h
  exact ⟨hnull, hfinite⟩

/-! ## Audits -/

/-- The evidence that a node carries. -/
def AgentNode.evidence (n : AgentNode X) : Except Error EvidenceBundle :=
  match n.evalResults with
  | some val => EvidenceBundle.fromValue X val
  | none => .ok (.new (.approved "legacy_or_root"))

section

variable {n n' : AgentNode X}

theorem fromNode_bind (n : AgentNode X) : AuditRecord.fromNode n = n.evidence >>= fun evidence => .ok {
    agentId := n.agentId, parentId := n.parentId, timestamp := n.createdAt, mutationIntent := n.mutationIntent,
    mutationDiff := n.mutationDiff, evidence, signerPublicKey := n.signerPublicKey, signature := n.signature,
    verificationValid := (verifyNode n).isOk } := by
  unfold AuditRecord.fromNode AgentNode.evidence
  cases n.evalResults <;> rfl

theorem fromNode_ok {r : AuditRecord} (h : AuditRecord.fromNode n = .ok r) : n.evidence = .ok r.evidence := by
  rw [fromNode_bind] at h
  obtain ⟨evidence, he, h⟩ := Prog.bind_ok h
  cases h
  exact he

theorem evidence_report {b : EvidenceBundle} (h : n.evidence = .ok b) : b.evaluatorReport ≠ some .null := by
  unfold AgentNode.evidence at h
  split at h
  · exact EvidenceBundle.read_report (Prog.mapError_ok.mp h)
  · cases h
    simp [EvidenceBundle.new]

theorem evidence_rereads (h : n.Rereads n') (hn : n.evalResults ≠ some .null) (hn' : n'.evalResults ≠ some .null) :
    Agrees EvidenceBundle.Agree n.evidence n'.evidence := by
  have hsame := h.inputs.evalResults
  have hv : n.inputs.evalResults = n.evalResults := rfl
  have hv' : n'.inputs.evalResults = n'.evalResults := rfl
  rw [hv, hv'] at hsame
  unfold AgentNode.evidence
  rcases hr : n.evalResults with _ | v
  · rcases hr' : n'.evalResults with _ | v'
    · exact .ok (.refl _)
    · rw [hr, hr'] at hsame
      exact absurd (hr'.trans (congrArg some (Value.null_of_equiv hsame))) hn'
  · rcases hr' : n'.evalResults with _ | v'
    · rw [hr, hr'] at hsame
      exact absurd (hr.trans (congrArg some (Value.null_of_equiv (Value.equiv_symm hsame)))) hn
    · rw [hr, hr'] at hsame
      exact (bundle_respects X v v' hsame).mapError

theorem fromNode_rereads (h : n.Rereads n') (he : Agrees EvidenceBundle.Agree n.evidence n'.evidence) :
    Agrees AuditRecord.Agree (AuditRecord.fromNode n) (AuditRecord.fromNode n') := by
  rw [fromNode_bind, fromNode_bind]
  refine he.bind fun _ _ hagree => ?_
  refine .ok ⟨h.agentId, h.inputs.parentId, h.inputs.createdAt, h.inputs.mutationIntent, h.inputs.mutationDiff, hagree,
    h.signerPublicKey, h.signature, ?_⟩
  rw [verifyNode_rereads h]

end

/-- A node that was stored is audited as before, and the record can be handed on; but an
    improvement that is not finite comes back absent, and so does a null evaluation, which
    cannot be audited before and is audited as a root's after. -/
theorem audit_stored (hM : X.ManifestReads) (n : AgentNode X) :
    ∃ v, n.toValue = .ok v ∧ ∀ w, v ≈ w → ∃ n', AgentNode.read X w = .ok n' ∧
      n'.mutationIntent.expectedImprovement = n.mutationIntent.expectedImprovement.filter (·.isFinite) ∧
      (n.evalResults ≠ some .null → Agrees AuditRecord.Agree (AuditRecord.fromNode n) (AuditRecord.fromNode n')) ∧
      (n.evalResults = some .null → (∃ e, AuditRecord.fromNode n = .error e) ∧
        ∃ r, AuditRecord.fromNode n' = .ok r ∧ r.evidence = .new (.approved "legacy_or_root")) ∧
      ∀ r, AuditRecord.fromNode n' = .ok r → ∀ u, r.toValue ≈ u → ∃ r', AuditRecord.read X u = .ok r' ∧ r.Agree r' := by
  choose form hform using hM.writes
  refine ⟨_, toValue_form hform n, fun w hw => ?_⟩
  obtain ⟨n', hread, hrereads⟩ := node_readsBack hM hform n w hw
  obtain ⟨hnull, hfinite⟩ := node_normal hread
  refine ⟨n', hread, ?_, fun hn => ?_, fun hn => ?_, fun r hr u hu => ?_⟩
  · rw [← hfinite]
    exact hrereads.inputs.mutationIntent.expectedImprovement.symm
  · exact fromNode_rereads hrereads (evidence_rereads hrereads hn hnull)
  · have hnone : n'.evalResults = none := by
      have hsame : n.evalResults.getD .null ≈ n'.evalResults.getD .null := hrereads.inputs.evalResults
      rw [hn] at hsame
      rcases hn' : n'.evalResults with _ | v
      · rfl
      · rw [hn'] at hsame
        exact absurd (hn'.trans (congrArg some (Value.null_of_equiv hsame))) hnull
    simp only [AuditRecord.fromNode, hn, hnone]
    exact ⟨⟨_, rfl⟩, _, rfl, rfl⟩
  · exact record_readsBack X (evidence_report (fromNode_ok hr)) hu

namespace Reference

def evidence : EvidenceBundle :=
  { EvidenceBundle.new (.approved "within_scope") with
    evaluatorReport := some (.object [("recall@10", .ofF64 half)] (List.nodup_singleton _))
    operatorApprovals := [⟨"alice", "ship it"⟩] }

/-- The fixture with that evidence in it. -/
def evidenced : AgentNode Reference :=
  { snapshotNode with
    agentId := "0cf9b29110935932a3c7fd77c5ab867382d9c1a77eb60b96ab7b6a393749afc2"
    evalResults := some evidence.toValue
    signature := "37d81067e4da1417432560acc33989413c8e659f4b5a1830d0e7c6649e5d2adb" ++
      "92b11da7bdedc4ec2caf55ee8b39360f8b7a5d0e49d6d3e5d529f76e73ead909" }

theorem evidenced_signed : signNode { snapshot with evalResults := some evidence.toValue } seed = .ok evidenced :=
  signNode_eq rfl (by decide) (by decide +kernel)

/-- It is audited before it is stored. -/
theorem evidenced_audited :
    ∃ r, AuditRecord.fromNode evidenced = .ok r ∧ r.evidence = evidence ∧ r.verificationValid = true := by
  have hread : EvidenceBundle.fromValue Reference evidence.toValue = .ok evidence :=
    (EvidenceBundle.fromValue_toValue Reference evidence).mpr fun h => by cases congrArg Subtype.val (Option.some.inj h)
  have hverified : verifyNode evidenced = .ok () := verify_signNode signs hexReads evidenced_signed
  simp only [AuditRecord.fromNode, show evidenced.evalResults = some evidence.toValue from rfl, hread, hverified]
  exact ⟨_, rfl, rfl, rfl⟩

theorem audit_stored_evidenced : ∃ v, evidenced.toValue = .ok v ∧ ∀ w, v ≈ w →
    ∃ n' r', AgentNode.read Reference w = .ok n' ∧ AuditRecord.fromNode n' = .ok r' ∧ evidence.Agree r'.evidence ∧
      r'.verificationValid = true ∧ ∀ u, r'.toValue ≈ u → ∃ r'', AuditRecord.read Reference u = .ok r'' ∧ r'.Agree r'' := by
  obtain ⟨v, hv, hstored⟩ := audit_stored manifestReads evidenced
  refine ⟨v, hv, fun w hw => ?_⟩
  obtain ⟨n', hread, -, hagrees, -, hwritten⟩ := hstored w hw
  obtain ⟨r, hr, hevidence, hvalid⟩ := evidenced_audited
  have hagree := hagrees fun h => by cases congrArg Subtype.val (Option.some.inj h)
  rw [hr] at hagree
  obtain ⟨r', hr', hsame⟩ := hagree.of_ok
  exact ⟨n', r', hread, hr', hevidence ▸ hsame.evidence, hsame.verificationValid.symm.trans hvalid, hwritten r' hr'⟩

end Reference

end RigVeh
