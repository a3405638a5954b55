/-
  RigVeh.Identity.Node — the lineage node and what it is made of (`src/node.rs`,
  `src/intent.rs`, `src/artifact.rs`, `src/error.rs`, and the results of
  `src/evaluator.rs`), with the serde form of each part that is signed.

  A `toValue` is the derived `Serialize`: the fields in the order of the struct, an
  absent option as null, a non-finite `f64` as null.
-/

import Mathlib.Data.List.Destutter
import RigVeh.Json.Canonical

namespace RigVeh

open RigVeh.Json

abbrev AgentId := String

inductive Error where
  | canonical (msg : String)
  | hashMismatch (expected actual : String)
  | signatureInvalid (msg : String)
  | invalidKey (msg : String)
  | policyDenied (msg : String)
  | evaluator (msg : String)
  | ledger (msg : String)
  | notFound (id : String)
  | missingParent
  | json (msg : String)
  | io (msg : String)
  deriving DecidableEq, Repr

/-! ## Intent and scope -/

structure MutationIntent where
  goal : String
  rationale : String
  expectedImprovement : Option F64
  constraints : List String
  metadata : Value

namespace MutationIntent

def new (goal : String) : MutationIntent := ⟨goal, "", none, [], .null⟩

def rollback (target : String) : MutationIntent :=
  ⟨"rollback", "revert to " ++ target, none, [], .object [("rollback_target", .string target)]
    (List.nodup_singleton _)⟩

def rollbackTarget (i : MutationIntent) : Option String :=
  if i.goal ≠ "rollback" then none
  else (i.metadata.1.get "rollback_target").bind Tree.asStr

def toValue (i : MutationIntent) : Value :=
  .object [
    ("goal", .string i.goal),
    ("rationale", .string i.rationale),
    ("expected_improvement", .ofOption .ofF64 i.expectedImprovement),
    ("constraints", .ofStrings i.constraints),
    ("metadata", i.metadata)] (show ["goal", "rationale", "expected_improvement", "constraints", "metadata"].Nodup by decide)

end MutationIntent

structure AllowedScope where
  allowedTools : List String
  allowedMcpServers : List String
  allowedDelegates : List String
  maxGeneration : Option UInt32
  gatedCapabilities : List String
  deriving DecidableEq, Repr

namespace AllowedScope

/-- `AllowedScope::default`. -/
def default : AllowedScope := ⟨[], [], [], none, []⟩

def toValue (s : AllowedScope) : Value :=
  .object [
    ("allowed_tools", .ofStrings s.allowedTools),
    ("allowed_mcp_servers", .ofStrings s.allowedMcpServers),
    ("allowed_delegates", .ofStrings s.allowedDelegates),
    ("max_generation", .ofOption .ofU32 s.maxGeneration),
    ("gated_capabilities", .ofStrings s.gatedCapabilities)]
    (show ["allowed_tools", "allowed_mcp_servers", "allowed_delegates", "max_generation", "gated_capabilities"].Nodup
      by decide)

end AllowedScope

/-! ## Evaluation -/

inductive EvalStage where
  | Continue
  | Promote
  | Stop
  deriving DecidableEq, Repr

def EvalStage.name : EvalStage → String
  | .Continue => "continue"
  | .Promote => "promote"
  | .Stop => "stop"

def EvalStage.toValue (s : EvalStage) : Value := .string s.name

structure EvalResult where
  score : F64
  details : Value

def EvalResult.toValue (e : EvalResult) : Value :=
  .object [("score", .ofF64 e.score), ("details", e.details)] (show ["score", "details"].Nodup by decide)

/-! ## Artifact and node -/

variable {X : Crates}

structure AgentArtifact (X : Crates) where
  manifest : X.Manifest

namespace AgentArtifact

/-- `serde_json::to_value(&self.manifest)?`. -/
def manifestValue (a : AgentArtifact X) : Except Error Value := (X.manifestToValue a.manifest).mapError .json

def canonicalBytes (a : AgentArtifact X) : Except Error Bytes := do
  (canonicalJson X (← a.manifestValue)).mapError .canonical

theorem canonicalBytes_total {a : AgentArtifact X} {v : Value} (h : X.manifestToValue a.manifest = .ok v) :
    ∃ b, a.canonicalBytes = .ok b := by
  simp only [canonicalBytes, manifestValue, h, canonicalJson_eq, Except.mapError, bind, Except.bind]
  exact ⟨_, rfl⟩

def capabilitySbom (a : AgentArtifact X) : List String :=
  let tools := (X.tools a.manifest).map fun | .Local name => "tool:" ++ name
  let mcp := (X.mcpServers a.manifest).map ("mcp:" ++ ·)
  let delegates := (X.delegates a.manifest).map ("delegate:" ++ ·)
  ((tools ++ mcp ++ delegates).insertionSort (· ≤ ·)).destutter (· ≠ ·)

end AgentArtifact

inductive NodeStatus where
  | promoted
  | rejected
  deriving DecidableEq, Repr

def NodeStatus.name : NodeStatus → String
  | .promoted => "promoted"
  | .rejected => "rejected"

def NodeStatus.toValue (s : NodeStatus) : Value := .string s.name

structure AgentNode (X : Crates) where
  agentId : AgentId
  parentId : Option AgentId
  generation : UInt32
  createdAt : String
  mutationIntent : MutationIntent
  capabilitySbom : List String
  evalResults : Option Value
  mutationDiff : String
  allowedScope : AllowedScope
  artifact : AgentArtifact X
  signerPublicKey : String
  signature : String
  status : NodeStatus
  parentAgentSuccess : Bool
  validParent : Bool
  evalStage : Option EvalStage

/-! ## The serde forms tell their values apart -/

/-- What two intents with one serde form share: everything, where a non-finite
    improvement is written like an absent one and metadata is compared as JSON. -/
structure MutationIntent.Agree (i j : MutationIntent) : Prop where
  goal : i.goal = j.goal
  rationale : i.rationale = j.rationale
  expectedImprovement : i.expectedImprovement.filter (·.isFinite) = j.expectedImprovement.filter (·.isFinite)
  constraints : i.constraints = j.constraints
  metadata : i.metadata ≈ j.metadata

theorem ofOption_f64_equiv {a b : Option F64} (h : Value.ofOption .ofF64 a ≈ Value.ofOption .ofF64 b) :
    a.filter (·.isFinite) = b.filter (·.isFinite) := by
  rcases a with _ | x <;> rcases b with _ | y
  · rfl
  · by_cases hy : y.isFinite = true <;> simp [Value.ofOption, Value.ofF64, hy, Option.filter] at h ⊢
  · by_cases hx : x.isFinite = true <;> simp [Value.ofOption, Value.ofF64, hx, Option.filter] at h ⊢
  · by_cases hx : x.isFinite = true <;> by_cases hy : y.isFinite = true <;>
      simp [Value.ofOption, Value.ofF64, hx, hy, Option.filter] at h ⊢
    exact h

theorem MutationIntent.agree_of_toValue {i j : MutationIntent} (h : i.toValue ≈ j.toValue) : i.Agree j where
  goal := (Value.string_equiv _ _).mp (Value.object_equiv h (k := "goal") (by simp) (by simp))
  rationale := (Value.string_equiv _ _).mp (Value.object_equiv h (k := "rationale") (by simp) (by simp))
  expectedImprovement :=
    ofOption_f64_equiv (Value.object_equiv h (k := "expected_improvement") (by simp) (by simp))
  constraints := (Value.ofStrings_equiv _ _).mp (Value.object_equiv h (k := "constraints") (by simp) (by simp))
  metadata := Value.object_equiv h (k := "metadata") (by simp) (by simp)

/-- A field that may be null tells its values apart, where none of them is written as null. -/
theorem ofOption_injective {α : Type} {f : α → Value} (hnull : ∀ x, ¬ .null ≈ f x ∧ ¬ f x ≈ .null)
    (hf : ∀ x y, f x ≈ f y → x = y) {a b : Option α} (h : Value.ofOption f a ≈ Value.ofOption f b) : a = b := by
  rcases a with _ | x <;> rcases b with _ | y
  · rfl
  · exact absurd h (hnull y).1
  · exact absurd h (hnull x).2
  · exact congrArg some (hf x y h)

theorem ofOption_u32_equiv {a b : Option UInt32} (h : Value.ofOption .ofU32 a ≈ Value.ofOption .ofU32 b) : a = b :=
  ofOption_injective (fun _ => ⟨Value.null_number _, Value.number_null _⟩) (fun x y => (Value.ofU32_equiv x y).mp) h

theorem AllowedScope.toValue_injective {s s' : AllowedScope} (h : s.toValue ≈ s'.toValue) : s = s' := by
  have h1 : Value.ofStrings s.allowedTools ≈ .ofStrings s'.allowedTools :=
    Value.object_equiv h (k := "allowed_tools") (by simp) (by simp)
  have h2 : Value.ofStrings s.allowedMcpServers ≈ .ofStrings s'.allowedMcpServers :=
    Value.object_equiv h (k := "allowed_mcp_servers") (by simp) (by simp)
  have h3 : Value.ofStrings s.allowedDelegates ≈ .ofStrings s'.allowedDelegates :=
    Value.object_equiv h (k := "allowed_delegates") (by simp) (by simp)
  have h4 : Value.ofOption .ofU32 s.maxGeneration ≈ .ofOption .ofU32 s'.maxGeneration :=
    Value.object_equiv h (k := "max_generation") (by simp) (by simp)
  have h5 : Value.ofStrings s.gatedCapabilities ≈ .ofStrings s'.gatedCapabilities :=
    Value.object_equiv h (k := "gated_capabilities") (by simp) (by simp)
  rw [Value.ofStrings_equiv] at h1 h2 h3 h5
  cases s; cases s'
  simp only [AllowedScope.mk.injEq]
  exact ⟨h1, h2, h3, ofOption_u32_equiv h4, h5⟩

theorem NodeStatus.toValue_injective {s s' : NodeStatus} (h : s.toValue ≈ s'.toValue) : s = s' := by
  have := (Value.string_equiv _ _).mp h
  cases s <;> cases s' <;> simp_all [NodeStatus.name]

theorem ofOption_stage_equiv {a b : Option EvalStage} (h : Value.ofOption EvalStage.toValue a ≈ Value.ofOption EvalStage.toValue b) :
    a = b := by
  refine ofOption_injective (fun _ => ⟨Value.null_string _, Value.string_null _⟩) ?_ h
  intro x y hxy
  have hname := (Value.string_equiv _ _).mp hxy
  cases x <;> cases y <;> simp_all [EvalStage.name]

theorem ofOption_string_equiv {a b : Option String} (h : Value.ofOption .string a ≈ Value.ofOption .string b) : a = b :=
  ofOption_injective (fun _ => ⟨Value.null_string _, Value.string_null _⟩) (fun x y => (Value.string_equiv x y).mp) h

end RigVeh
