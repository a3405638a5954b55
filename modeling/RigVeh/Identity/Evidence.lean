/-
  RigVeh.Identity.Evidence — evidence bundles and audit records (`src/evidence.rs`).

  A bundle travels as a JSON value: `toValue` is the derived `Serialize`, which leaves
  absent and empty fields out, `read` the derived `Deserialize`. `AuditRecord.fromNode`
  reads a node's whole `eval_results` as a bundle. What an `EvalResult` is stored as is no
  bundle (`fromValue_evalResult`).
-/

import RigVeh.Identity.Sign
import RigVeh.Json.Decode

namespace RigVeh

open RigVeh.Json

variable {X : Crates}

/-! ## Verdicts -/

inductive PolicyVerdict where
  | approved (reason : String)
  | denied (reason : String)
  | requiresApproval (reason : String)
  deriving DecidableEq, Repr

namespace PolicyVerdict

def outcome : PolicyVerdict → String
  | approved _ => "approved"
  | denied _ => "denied"
  | requiresApproval _ => "requires_approval"

def reason : PolicyVerdict → String
  | approved r => r
  | denied r => r
  | requiresApproval r => r

def toValue (p : PolicyVerdict) : Value :=
  .object [("outcome", .string p.outcome), ("reason", .string p.reason)] (show ["outcome", "reason"].Nodup by decide)

/-- The variant a tag names, and the variant's name. -/
def readTag (X : Crates) : Reader ((String → PolicyVerdict) × String) := fun v =>
  match v.view with
  | .string "approved" => .ok (approved, "Approved")
  | .string "denied" => .ok (denied, "Denied")
  | .string "requires_approval" => .ok (requiresApproval, "RequiresApproval")
  | .string s => .error ("unknown variant `" ++ s ++ "`, expected one of `approved`, `denied`, `requires_approval`")
  | _ => Reader.invalidType X v "variant identifier"

/-- The tag is read first, then what stands beside it. -/
def read (X : Crates) : Reader PolicyVerdict := fun v =>
  match v.view with
  | .object map => do
    let (make, _) ← Reader.field map "outcome" (readTag X) (Reader.missingField "outcome")
    return make (← Reader.field map "reason" (Reader.string X) (Reader.missingField "reason"))
  | .array [] => Reader.missingField "outcome"
  | .array (tag :: rest) => do
    let (make, name) ← readTag X tag
    let r ← Reader.element rest 0 (Reader.string X)
      (Reader.invalidLength 0 ("struct variant PolicyVerdict::" ++ name ++ " with 1 element"))
    if 1 < rest.length then Reader.invalidLength rest.length "1 element in sequence" else return make r
  | _ => Reader.invalidType X v "internally tagged enum PolicyVerdict"

end PolicyVerdict

/-! ## Approvals -/

structure OperatorApproval where
  operator : String
  note : String
  deriving DecidableEq, Repr

namespace OperatorApproval

def toValue (a : OperatorApproval) : Value :=
  .object [("operator", .string a.operator), ("note", .string a.note)] (show ["operator", "note"].Nodup by decide)

def read (X : Crates) : Reader OperatorApproval :=
  Reader.struct X "OperatorApproval" "2 elements" [
    .of "operator" (Reader.string X),
    .of "note" (Reader.string X)] fun src => do
  let operator ← src.field 0 "operator" (Reader.string X) none
  let note ← src.field 1 "note" (Reader.string X) none
  return ⟨operator, note⟩

end OperatorApproval

/-! ## Bundles -/

def evidenceBundleVersion : UInt32 := 1

structure EvidenceBundle where
  version : UInt32
  policy : PolicyVerdict
  evaluatorReport : Option Value
  contextItems : List Value
  operatorApprovals : List OperatorApproval

namespace EvidenceBundle

def new (policy : PolicyVerdict) : EvidenceBundle := ⟨evidenceBundleVersion, policy, none, [], []⟩

/-- The fields that are written. -/
def entries (b : EvidenceBundle) : List (String × Value) :=
  [("version", .ofU32 b.version), ("policy", b.policy.toValue)] ++
    (b.evaluatorReport.toList.map fun report => ("evaluator_report", report)) ++
    (if b.contextItems.isEmpty then [] else [("context_items", .array b.contextItems)]) ++
    if b.operatorApprovals.isEmpty then []
    else [("operator_approvals", .array (b.operatorApprovals.map OperatorApproval.toValue))]

theorem entries_nodup (b : EvidenceBundle) : (b.entries.map Prod.fst).Nodup := by
  obtain ⟨version, policy, report, items, approvals⟩ := b
  cases report <;> cases items <;> cases approvals <;> simp [entries]

def toValue (b : EvidenceBundle) : Value := .object b.entries b.entries_nodup

def read (X : Crates) : Reader EvidenceBundle :=
  Reader.struct X "EvidenceBundle" "5 elements" [
    .of "version" (Reader.u32 X),
    .of "policy" (PolicyVerdict.read X),
    .of "evaluator_report" (Reader.option Reader.value),
    .of "context_items" (Reader.vec X Reader.value),
    .of "operator_approvals" (Reader.vec X (OperatorApproval.read X))] fun src => do
  let version ← src.field 0 "version" (Reader.u32 X) none
  let policy ← src.field 1 "policy" (PolicyVerdict.read X) none
  let evaluatorReport ← src.field 2 "evaluator_report" (Reader.option Reader.value) (some none)
  let contextItems ← src.field 3 "context_items" (Reader.vec X Reader.value) (some [])
  let operatorApprovals ← src.field 4 "operator_approvals" (Reader.vec X (OperatorApproval.read X)) (some [])
  return ⟨version, policy, evaluatorReport, contextItems, operatorApprovals⟩

def fromValue (X : Crates) (v : Value) : Except Error EvidenceBundle := (read X v).mapError .json

end EvidenceBundle

/-- A stored `EvalResult` has neither of a bundle's required fields. -/
theorem fromValue_evalResult (X : Crates) (eval : EvalResult) :
    EvidenceBundle.fromValue X eval.toValue = .error (.json "missing field `version`") := by
  simp [EvidenceBundle.fromValue, EvidenceBundle.read, Reader.struct, EvalResult.toValue, Reader.visitMap, Reader.Field.of,
    List.lookup_cons, Reader.Source.field, Reader.field, Reader.missingField, Except.mapError, bind, Except.bind]

/-! ## Audit records -/

structure AuditRecord where
  agentId : AgentId
  parentId : Option AgentId
  timestamp : String
  mutationIntent : MutationIntent
  mutationDiff : String
  evidence : EvidenceBundle
  signerPublicKey : String
  signature : String
  verificationValid : Bool

def AuditRecord.fromNode (node : AgentNode X) : Except Error AuditRecord := do
  let evidence ← match node.evalResults with
    | some val => EvidenceBundle.fromValue X val
    | none => .ok (.new (.approved "legacy_or_root"))
  return {
    agentId := node.agentId
    parentId := node.parentId
    timestamp := node.createdAt
    mutationIntent := node.mutationIntent
    mutationDiff := node.mutationDiff
    evidence := evidence
    signerPublicKey := node.signerPublicKey
    signature := node.signature
    verificationValid := (verifyNode node).isOk }

end RigVeh
