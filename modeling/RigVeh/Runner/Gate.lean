/-
  RigVeh.Runner.Gate — the default gate's rule, on the candidate's manifest.

  `DefaultPolicyGate.evaluate` is given the candidate's SBOM, whose entries are
  `kind:name` strings, and splits each again at its first colon. `TooDeep`, `Exceeds` and
  `Gates` say the rule on the names themselves: the depth cap, then a capability that
  is new and not listed for its kind, then a gated tag. `evaluate_decides`: the gate
  denies, asks for an approval and approves exactly by that rule. Of each list only
  the members matter (`ruling_same`). A gated tag is compared with the SBOM's entries and
  not with the names, so a bare name gates no capability (`gated_asked_iff`).
-/

import RigVeh.Identity.Sbom
import RigVeh.Reference
import RigVeh.Runner.Policy

namespace RigVeh

open RigVeh.Json

variable {X : Crates}

/-! ## The rule -/

namespace AllowedScope

variable {scope : AllowedScope} {name : String}

/-- Whatever the name, its tag is read back off the capability. -/
@[simp] theorem admits_tool : scope.Admits ("tool:" ++ name) ↔ name ∈ scope.allowedTools := by
  rw [← capabilityInScope_iff, capabilityInScope, splitOnce_append "tool" _ (by decide) (by decide)]
  simp

@[simp] theorem admits_mcp : scope.Admits ("mcp:" ++ name) ↔ name ∈ scope.allowedMcpServers := by
  rw [← capabilityInScope_iff, capabilityInScope, splitOnce_append "mcp" _ (by decide) (by decide)]
  simp

@[simp] theorem admits_delegate : scope.Admits ("delegate:" ++ name) ↔ name ∈ scope.allowedDelegates := by
  rw [← capabilityInScope_iff, capabilityInScope, splitOnce_append "delegate" _ (by decide) (by decide)]
  simp

end AllowedScope

/-- A child of the parent would be deeper than the parent's scope lets it be. -/
def TooDeep (parent : AgentNode X) : Prop :=
  ∃ max, parent.allowedScope.maxGeneration = some max ∧ max.toNat < parent.generation.toNat + 1

/-- The candidate has a capability that its parent has not and the list for its kind
    has not. -/
inductive Exceeds (parent : AgentNode X) (candidate : AgentArtifact X) : Prop
  | tool {name : String} : .Local name ∈ X.tools candidate.manifest → "tool:" ++ name ∉ parent.capabilitySbom →
      name ∉ parent.allowedScope.allowedTools → Exceeds parent candidate
  | mcp {name : String} : name ∈ X.mcpServers candidate.manifest → "mcp:" ++ name ∉ parent.capabilitySbom →
      name ∉ parent.allowedScope.allowedMcpServers → Exceeds parent candidate
  | delegate {name : String} : name ∈ X.delegates candidate.manifest → "delegate:" ++ name ∉ parent.capabilitySbom →
      name ∉ parent.allowedScope.allowedDelegates → Exceeds parent candidate

/-- A tag the parent gates is a capability of the candidate or a constraint of the
    intent. -/
def Gates (parent : AgentNode X) (intent : MutationIntent) (candidate : AgentArtifact X) : Prop :=
  ∃ gated ∈ parent.allowedScope.gatedCapabilities, gated ∈ candidate.capabilitySbom ∨ gated ∈ intent.constraints

theorem exceeds_iff {parent : AgentNode X} {candidate : AgentArtifact X} : Exceeds parent candidate ↔
    ∃ cap ∈ candidate.capabilitySbom, cap ∉ parent.capabilitySbom ∧ ¬ parent.allowedScope.Admits cap := by
  constructor
  · intro h
    cases h with
    | tool hm hp hl => exact ⟨_, mem_capabilitySbom.mpr (.inl ⟨_, hm, rfl⟩), hp, by simpa using hl⟩
    | mcp hm hp hl => exact ⟨_, mem_capabilitySbom.mpr (.inr (.inl ⟨_, hm, rfl⟩)), hp, by simpa using hl⟩
    | delegate hm hp hl => exact ⟨_, mem_capabilitySbom.mpr (.inr (.inr ⟨_, hm, rfl⟩)), hp, by simpa using hl⟩
  · intro ⟨cap, hc, hp, ha⟩
    rcases mem_capabilitySbom.mp hc with ⟨name, hm, rfl⟩ | ⟨name, hm, rfl⟩ | ⟨name, hm, rfl⟩
    · exact .tool hm hp (by simpa using ha)
    · exact .mcp hm hp (by simpa using ha)
    · exact .delegate hm hp (by simpa using ha)

/-! ## The gate -/

namespace DefaultPolicyGate

variable {parent : AgentNode X} {intent : MutationIntent} {sbom : List String}

theorem overDepth_iff (hg : parent.generation.toNat < 2 ^ 32 - 1) :
    (∃ reason, overDepth parent = some reason) ↔ TooDeep parent := by
  have hsucc : (parent.generation + 1).toNat = parent.generation.toNat + 1 := by
    rw [UInt32.toNat_add]
    exact Nat.mod_eq_of_lt (by simp; omega)
  unfold overDepth TooDeep
  cases parent.allowedScope.maxGeneration with
  | none => simp
  | some max =>
    simp only [Option.bind_some, gt_iff_lt, UInt32.lt_iff_toNat_lt, hsucc, Option.some.injEq, exists_eq_left']
    split <;> simp_all

/-- The gate denies for the depth alone. -/
theorem evaluate_deny : (∃ reason, evaluate parent intent sbom = .deny reason) ↔ ∃ reason, overDepth parent = some reason := by
  unfold evaluate
  cases overDepth parent with
  | some r => simp
  | none =>
    simp only [reduceCtorEq, exists_false, iff_false]
    intro ⟨reason, h⟩
    split at h
    · cases h
    · split at h <;> cases h

/-- What is neither denied nor approved waits for an approval. -/
theorem evaluate_asks : (∃ reason, evaluate parent intent sbom = .requireApproval reason) ↔
    (¬ ∃ reason, evaluate parent intent sbom = .deny reason) ∧ evaluate parent intent sbom ≠ .approve := by
  cases evaluate parent intent sbom <;> simp

theorem approve_iff {candidate : AgentArtifact X} : evaluate parent intent candidate.capabilitySbom = .approve ↔
    overDepth parent = none ∧ ¬ Exceeds parent candidate ∧ ¬ Gates parent intent candidate := by
  rw [evaluate_approve, exceeds_iff]
  constructor
  · intro ⟨hd, hc, hu⟩
    refine ⟨overDepth_none.mpr hd, ?_, ?_⟩
    · intro ⟨cap, hcap, hp, ha⟩
      exact (hc cap hcap).elim hp ha
    · intro ⟨gated, hmem, h⟩
      exact h.elim (hu gated hmem).1 (hu gated hmem).2
  · intro ⟨hnone, he, hg⟩
    refine ⟨overDepth_none.mp hnone, ?_, ?_⟩
    · intro cap hcap
      by_cases hp : cap ∈ parent.capabilitySbom
      · exact .inl hp
      · exact .inr (not_not.mp fun ha => he ⟨cap, hcap, hp, ha⟩)
    · intro gated hmem
      exact ⟨fun hs => hg ⟨gated, hmem, .inl hs⟩, fun hi => hg ⟨gated, hmem, .inr hi⟩⟩

theorem approved_iff {candidate : AgentArtifact X} (hg : parent.generation.toNat < 2 ^ 32 - 1) :
    evaluate parent intent candidate.capabilitySbom = .approve ↔
      ¬ TooDeep parent ∧ ¬ (Exceeds parent candidate ∨ Gates parent intent candidate) := by
  rw [approve_iff, ← overDepth_iff hg, not_or]
  exact and_congr_left fun _ => Option.eq_none_iff_forall_ne_some.trans not_exists.symm

end DefaultPolicyGate

/-! ## Lists as sets -/

/-- A decision without its reason. -/
inductive Ruling where
  | approve
  | deny
  | requireApproval
  deriving DecidableEq, Repr

def PolicyDecision.ruling : PolicyDecision → Ruling
  | .approve => .approve
  | .deny _ => .deny
  | .requireApproval _ => .requireApproval

/-- Every list that the gate reads has the same members in both, in whatever order and
    however often. -/
structure SameSets (parent parent' : AgentNode X) (intent intent' : MutationIntent) (candidate candidate' : AgentArtifact X) :
    Prop where
  generation : parent.generation = parent'.generation
  maxGeneration : parent.allowedScope.maxGeneration = parent'.allowedScope.maxGeneration
  sbom : ∀ cap, cap ∈ parent.capabilitySbom ↔ cap ∈ parent'.capabilitySbom
  allowedTools : ∀ name, name ∈ parent.allowedScope.allowedTools ↔ name ∈ parent'.allowedScope.allowedTools
  allowedMcpServers : ∀ name, name ∈ parent.allowedScope.allowedMcpServers ↔ name ∈ parent'.allowedScope.allowedMcpServers
  allowedDelegates : ∀ name, name ∈ parent.allowedScope.allowedDelegates ↔ name ∈ parent'.allowedScope.allowedDelegates
  gated : ∀ tag, tag ∈ parent.allowedScope.gatedCapabilities ↔ tag ∈ parent'.allowedScope.gatedCapabilities
  constraints : ∀ tag, tag ∈ intent.constraints ↔ tag ∈ intent'.constraints
  tools : ∀ t, t ∈ X.tools candidate.manifest ↔ t ∈ X.tools candidate'.manifest
  mcpServers : ∀ name, name ∈ X.mcpServers candidate.manifest ↔ name ∈ X.mcpServers candidate'.manifest
  delegates : ∀ name, name ∈ X.delegates candidate.manifest ↔ name ∈ X.delegates candidate'.manifest

section

variable {parent parent' : AgentNode X} {intent intent' : MutationIntent} {candidate candidate' : AgentArtifact X}

theorem SameSets.symm (h : SameSets parent parent' intent intent' candidate candidate') :
    SameSets parent' parent intent' intent candidate' candidate where
  generation := h.generation.symm
  maxGeneration := h.maxGeneration.symm
  sbom cap := (h.sbom cap).symm
  allowedTools name := (h.allowedTools name).symm
  allowedMcpServers name := (h.allowedMcpServers name).symm
  allowedDelegates name := (h.allowedDelegates name).symm
  gated tag := (h.gated tag).symm
  constraints tag := (h.constraints tag).symm
  tools t := (h.tools t).symm
  mcpServers name := (h.mcpServers name).symm
  delegates name := (h.delegates name).symm

theorem SameSets.tooDeep (h : SameSets parent parent' intent intent' candidate candidate') :
    TooDeep parent ↔ TooDeep parent' := by
  unfold TooDeep
  rw [h.maxGeneration, h.generation]

theorem SameSets.exceeds (h : SameSets parent parent' intent intent' candidate candidate')
    (he : Exceeds parent candidate) : Exceeds parent' candidate' := by
  cases he with
  | tool hm hp hl => exact .tool ((h.tools _).mp hm) (mt (h.sbom _).mpr hp) (mt (h.allowedTools _).mpr hl)
  | mcp hm hp hl => exact .mcp ((h.mcpServers _).mp hm) (mt (h.sbom _).mpr hp) (mt (h.allowedMcpServers _).mpr hl)
  | delegate hm hp hl => exact .delegate ((h.delegates _).mp hm) (mt (h.sbom _).mpr hp) (mt (h.allowedDelegates _).mpr hl)

theorem SameSets.gates (h : SameSets parent parent' intent intent' candidate candidate')
    (hg : Gates parent intent candidate) : Gates parent' intent' candidate' := by
  obtain ⟨gated, hm, hc⟩ := hg
  refine ⟨gated, (h.gated gated).mp hm, hc.imp ?_ (h.constraints gated).mp⟩
  intro hs
  simp only [mem_capabilitySbom, h.tools, h.mcpServers, h.delegates] at hs ⊢
  exact hs

end

/-! ## The decision -/

section

variable (parent : AgentNode X) (intent : MutationIntent) (candidate : AgentArtifact X)

open DefaultPolicyGate

theorem ruling_same {parent' : AgentNode X} {intent' : MutationIntent} {candidate' : AgentArtifact X}
    (hg : parent.generation.toNat < 2 ^ 32 - 1) (h : SameSets parent parent' intent intent' candidate candidate') :
    (evaluate parent intent candidate.capabilitySbom).ruling = (evaluate parent' intent' candidate'.capabilitySbom).ruling := by
  have hg' : parent'.generation.toNat < 2 ^ 32 - 1 := h.generation ▸ hg
  have hdeny : (∃ r, evaluate parent intent candidate.capabilitySbom = .deny r) ↔
      ∃ r, evaluate parent' intent' candidate'.capabilitySbom = .deny r := by
    rw [evaluate_deny, evaluate_deny, overDepth_iff hg, overDepth_iff hg', h.tooDeep]
  have happrove : evaluate parent intent candidate.capabilitySbom = .approve ↔
      evaluate parent' intent' candidate'.capabilitySbom = .approve := by
    rw [approved_iff hg, approved_iff hg', h.tooDeep,
      show Exceeds parent candidate ↔ Exceeds parent' candidate' from ⟨h.exceeds, h.symm.exceeds⟩,
      show Gates parent intent candidate ↔ Gates parent' intent' candidate' from ⟨h.gates, h.symm.gates⟩]
  cases hd : evaluate parent intent candidate.capabilitySbom <;>
    cases hd' : evaluate parent' intent' candidate'.capabilitySbom <;> simp_all [PolicyDecision.ruling]

/-- The default gate denies what is too deep, else asks for an approval of what exceeds
    or is gated, else approves; and it reads its lists as sets. -/
theorem evaluate_decides (hg : parent.generation.toNat < 2 ^ 32 - 1) :
    ((∃ r, evaluate parent intent candidate.capabilitySbom = .deny r) ↔ TooDeep parent) ∧
    ((∃ r, evaluate parent intent candidate.capabilitySbom = .requireApproval r) ↔
      ¬ TooDeep parent ∧ (Exceeds parent candidate ∨ Gates parent intent candidate)) ∧
    (evaluate parent intent candidate.capabilitySbom = .approve ↔
      ¬ TooDeep parent ∧ ¬ (Exceeds parent candidate ∨ Gates parent intent candidate)) ∧
    ∀ parent' intent' candidate', SameSets parent parent' intent intent' candidate candidate' →
      (evaluate parent intent candidate.capabilitySbom).ruling =
        (evaluate parent' intent' candidate'.capabilitySbom).ruling := by
  have hdeny : (∃ r, evaluate parent intent candidate.capabilitySbom = .deny r) ↔ TooDeep parent :=
    evaluate_deny.trans (overDepth_iff hg)
  refine ⟨hdeny, ?_, approved_iff hg, fun _ _ _ h => ruling_same _ _ _ hg h⟩
  rw [evaluate_asks, hdeny, ne_eq, approved_iff hg]
  tauto

end

namespace Reference

/-- A tool with a colon in its name and one without a name, which the parent's scope
    allows, beside one it does not. -/
def colonArtifact : AgentArtifact Reference := ⟨⟨some "colon", [.Local "a:b", .Local "", .Local "c"]⟩⟩

def colonParent : AgentNode Reference :=
  { snapshotNode with allowedScope := { AllowedScope.default with allowedTools := ["a:b", ""] } }

theorem evaluate_decides_colon : ∃ r, DefaultPolicyGate.evaluate colonParent (.new "x") colonArtifact.capabilitySbom =
    .requireApproval r := by
  have hexceeds : Exceeds colonParent colonArtifact :=
    .tool (show ToolSpec.Local "c" ∈ [ToolSpec.Local "a:b", .Local "", .Local "c"] by simp) List.not_mem_nil (by decide)
  refine (evaluate_decides colonParent (.new "x") colonArtifact (by decide)).2.1.mpr ⟨?_, .inl hexceeds⟩
  intro ⟨max, hmax, _⟩
  cases hmax

end Reference

/-! ## Gated names -/

/-- A tool, MCP server or delegate of the candidate has this name. -/
def BareName (candidate : AgentArtifact X) (name : String) : Prop :=
  .Local name ∈ X.tools candidate.manifest ∨ name ∈ X.mcpServers candidate.manifest ∨
    name ∈ X.delegates candidate.manifest

/-- A gated tag names a capability of the candidate, as the SBOM does or by its bare name. -/
def GatedNamed (parent : AgentNode X) (candidate : AgentArtifact X) : Prop :=
  ∃ gated ∈ parent.allowedScope.gatedCapabilities, gated ∈ candidate.capabilitySbom ∨ BareName candidate gated

/-- A gated capability keeps the gate from approving unless the tag is a bare name, which
    is not compared with the capability's name, and nothing else keeps it. -/
theorem gated_asked_iff (parent : AgentNode X) (intent : MutationIntent) (candidate : AgentArtifact X) :
    (GatedNamed parent candidate → DefaultPolicyGate.evaluate parent intent candidate.capabilitySbom ≠ .approve) ↔
      (∀ gated ∈ parent.allowedScope.gatedCapabilities, ¬ BareName candidate gated) ∨
        (∃ max, parent.allowedScope.maxGeneration = some max ∧ max < parent.generation + 1) ∨
        Exceeds parent candidate ∨ Gates parent intent candidate := by
  have hdepth : DefaultPolicyGate.overDepth parent = none ↔
      ¬ ∃ max, parent.allowedScope.maxGeneration = some max ∧ max < parent.generation + 1 := by
    rw [DefaultPolicyGate.overDepth_none]
    simp [UInt32.not_lt]
  rw [ne_eq, DefaultPolicyGate.approve_iff, hdepth]
  constructor
  · intro h
    by_cases hbare : ∃ gated ∈ parent.allowedScope.gatedCapabilities, BareName candidate gated
    · obtain ⟨gated, hmem, hname⟩ := hbare
      have hstops := h ⟨gated, hmem, .inr hname⟩
      rw [not_and_or, not_and_or, not_not, not_not, not_not] at hstops
      exact .inr hstops
    · exact .inl fun gated hmem hname => hbare ⟨gated, hmem, hname⟩
  · intro h hnamed happrove
    obtain ⟨hd, he, hg⟩ := happrove
    obtain ⟨gated, hmem, hname⟩ := hnamed
    rcases h with h | h | h | h
    · exact hname.elim (fun hs => hg ⟨gated, hmem, .inl hs⟩) (h gated hmem)
    · exact hd h
    · exact he h
    · exact hg h

namespace Reference

/-- A parent that may have a trading tool only with an approval. -/
def tradingParent : AgentNode Reference :=
  { snapshotNode with
    allowedScope := { AllowedScope.default with
      allowedTools := ["autonomous_trading"]
      gatedCapabilities := ["autonomous_trading"] } }

def tradingArtifact : AgentArtifact Reference := ⟨⟨some "trader", [.Local "autonomous_trading"]⟩⟩

theorem trading_approved : GatedNamed tradingParent tradingArtifact ∧
    DefaultPolicyGate.evaluate tradingParent (.new "x") tradingArtifact.capabilitySbom = .approve :=
  ⟨⟨"autonomous_trading", List.mem_singleton.mpr rfl, .inr (.inl (List.mem_singleton.mpr rfl))⟩, by decide⟩

end Reference

end RigVeh
