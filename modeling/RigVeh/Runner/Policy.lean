/-
  RigVeh.Runner.Policy — the policy gate (`src/policy.rs`).

  A gate is a function of the parent, the intent and the candidate's SBOM.
  `evaluate_approve` says what `DefaultPolicyGate`'s approval means: the depth cap is
  kept, every capability is the parent's or admitted by the parent's scope, and none of
  the parent's gated capabilities is present. `AllowedScope.Admits` is the scope's
  meaning without the gate's parsing of the tags (`capabilityInScope_iff`).
-/

import Mathlib.Data.List.TakeDrop
import RigVeh.Identity.Sign

namespace RigVeh

variable {X : Crates}

inductive PolicyDecision where
  | approve
  | deny (reason : String)
  | requireApproval (reason : String)
  deriving DecidableEq, Repr

/-- `PolicyGate::evaluate`: parent, intent, candidate SBOM. -/
abbrev PolicyGate (X : Crates) := AgentNode X → MutationIntent → List String → PolicyDecision

/-- `str::split_once`. -/
def splitOnce (sep : Char) (s : String) : Option (String × String) :=
  match s.toList.span (· ≠ sep) with
  | (_, []) => none
  | (a, _ :: b) => some (.ofList a, .ofList b)

def capabilityInScope (capability : String) (scope : AllowedScope) : Bool :=
  match splitOnce ':' capability with
  | none => false
  | some (kind, name) =>
    if kind = "tool" then scope.allowedTools.contains name
    else if kind = "mcp" then scope.allowedMcpServers.contains name
    else if kind = "delegate" then scope.allowedDelegates.contains name
    else false

namespace DefaultPolicyGate

/-- The depth cap's refusal, if it applies; the sum is `u32`'s. -/
def overDepth (parent : AgentNode X) : Option String :=
  parent.allowedScope.maxGeneration.bind fun max =>
    if parent.generation + 1 > max then
      some ("max_generation " ++ toString max ++ " exceeded (parent gen " ++ toString parent.generation ++ ")")
    else none

def evaluate : PolicyGate X := fun parent intent candidateSbom =>
  let scope := parent.allowedScope
  match overDepth parent with
  | some reason => .deny reason
  | none =>
    let added := candidateSbom.filter fun s => !parent.capabilitySbom.contains s
    match added.find? fun cap => !capabilityInScope cap scope with
    | some cap => .requireApproval ("capability " ++ cap ++ " outside allowed_scope")
    | none =>
      match scope.gatedCapabilities.find? fun gated => candidateSbom.contains gated || intent.constraints.contains gated with
      | some gated => .requireApproval ("gated capability " ++ gated ++ " present")
      | none => .approve

end DefaultPolicyGate

/-! ## What a scope admits -/

/-- The scope lists the capability's name under its kind. -/
inductive AllowedScope.Admits (scope : AllowedScope) : String → Prop
  | tool {name : String} : name ∈ scope.allowedTools → Admits scope ("tool:" ++ name)
  | mcp {name : String} : name ∈ scope.allowedMcpServers → Admits scope ("mcp:" ++ name)
  | delegate {name : String} : name ∈ scope.allowedDelegates → Admits scope ("delegate:" ++ name)

theorem splitOnce_eq {sep : Char} {s a b : String} :
    splitOnce sep s = some (a, b) ↔ s.toList = a.toList ++ sep :: b.toList ∧ sep ∉ a.toList := by
  rw [splitOnce, List.span_eq_takeWhile_dropWhile]
  have hsplit := List.takeWhile_append_dropWhile (p := (· ≠ sep)) (l := s.toList)
  have hbefore : ∀ c ∈ s.toList.takeWhile (· ≠ sep), c ≠ sep := fun c hc => by
    simpa using List.all_eq_true.mp List.all_takeWhile c hc
  constructor
  · intro h
    split at h
    · cases h
    · rename_i l c r heq
      simp only [Prod.mk.injEq] at heq
      obtain ⟨rfl, hdrop⟩ := heq
      simp only [Option.some.injEq, Prod.mk.injEq] at h
      obtain ⟨rfl, rfl⟩ := h
      have hc : c = sep := by
        have := List.head?_dropWhile_not (· ≠ sep) s.toList
        rw [hdrop] at this
        simpa using this
      subst hc
      rw [String.toList_ofList, String.toList_ofList, ← hdrop, hsplit]
      exact ⟨rfl, fun hm => hbefore _ hm rfl⟩
  · rintro ⟨hs, ha⟩
    have htake : s.toList.takeWhile (· ≠ sep) = a.toList := by
      rw [hs, List.takeWhile_append_of_pos (fun c hc => by simpa using ne_of_mem_of_not_mem hc ha)]
      simp
    rw [htake] at hsplit ⊢
    rw [hs, List.append_cancel_left_eq] at hsplit
    rw [hs, hsplit]
    simp

theorem splitOnce_append {tag : String} (kind name : String) (h : tag.toList = kind.toList ++ [':'])
    (hk : ':' ∉ kind.toList) : splitOnce ':' (tag ++ name) = some (kind, name) :=
  splitOnce_eq.mpr ⟨by simp [h], hk⟩

theorem capabilityInScope_iff {capability : String} {scope : AllowedScope} :
    capabilityInScope capability scope = true ↔ scope.Admits capability := by
  constructor
  · intro h
    rw [capabilityInScope] at h
    split at h
    · cases h
    · rename_i kind name heq
      obtain ⟨hcap, -⟩ := splitOnce_eq.mp heq
      have hcap : capability = kind ++ ":" ++ name := String.toList_inj.mp (by simpa using hcap)
      subst hcap
      split at h
      · rename_i hk; subst hk; exact .tool (by simpa using h)
      split at h
      · rename_i hk; subst hk; exact .mcp (by simpa using h)
      split at h
      · rename_i hk; subst hk; exact .delegate (by simpa using h)
      · cases h
  · intro h
    cases h with
    | tool hm =>
      rw [capabilityInScope, splitOnce_append "tool" _ (by decide) (by decide)]
      simpa using hm
    | mcp hm =>
      rw [capabilityInScope, splitOnce_append "mcp" _ (by decide) (by decide)]
      simpa using hm
    | delegate hm =>
      rw [capabilityInScope, splitOnce_append "delegate" _ (by decide) (by decide)]
      simpa using hm

/-! ## What an approval means -/

namespace DefaultPolicyGate

structure Approved (parent : AgentNode X) (intent : MutationIntent) (sbom : List String) : Prop where
  depth : ∀ max, parent.allowedScope.maxGeneration = some max → parent.generation + 1 ≤ max
  capability : ∀ cap ∈ sbom, cap ∈ parent.capabilitySbom ∨ parent.allowedScope.Admits cap
  ungated : ∀ gated ∈ parent.allowedScope.gatedCapabilities, gated ∉ sbom ∧ gated ∉ intent.constraints

theorem overDepth_none {parent : AgentNode X} :
    overDepth parent = none ↔ ∀ max, parent.allowedScope.maxGeneration = some max → parent.generation + 1 ≤ max := by
  unfold overDepth
  cases parent.allowedScope.maxGeneration with
  | none => simp
  | some max => simp [UInt32.not_lt]

theorem evaluate_approve {parent : AgentNode X} {intent : MutationIntent} {sbom : List String} :
    evaluate parent intent sbom = .approve ↔ Approved parent intent sbom := by
  have hcap : ((sbom.filter fun s => !parent.capabilitySbom.contains s).find?
      fun cap => !capabilityInScope cap parent.allowedScope) = none ↔
      ∀ cap ∈ sbom, cap ∈ parent.capabilitySbom ∨ parent.allowedScope.Admits cap := by
    simp only [List.find?_eq_none, List.mem_filter, ← capabilityInScope_iff]
    simp [or_iff_not_imp_left]
  have hgate : (parent.allowedScope.gatedCapabilities.find?
      fun gated => sbom.contains gated || intent.constraints.contains gated) = none ↔
      ∀ gated ∈ parent.allowedScope.gatedCapabilities, gated ∉ sbom ∧ gated ∉ intent.constraints := by
    simp [List.find?_eq_none]
  constructor
  · intro h
    cases hd : overDepth parent with
    | some r => simp [evaluate, hd] at h
    | none =>
      simp only [evaluate, hd] at h
      split at h
      · cases h
      rename_i hc
      split at h
      · cases h
      rename_i hg
      exact ⟨overDepth_none.mp hd, hcap.mp hc, hgate.mp hg⟩
  · rintro ⟨hd, hc, hg⟩
    simp only [evaluate, overDepth_none.mpr hd, hcap.mpr hc, hgate.mpr hg]

end DefaultPolicyGate

end RigVeh
