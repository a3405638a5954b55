/-
  RigVeh.Identity.Sbom — the capability SBOM as a set (`capability_sbom`,
  `src/artifact.rs`).

  An SBOM is sorted and free of repeats, and each entry starts with the kind of its
  capability. No two kinds start alike (`tag_cut`), so an entry is of one kind however
  its name is spelled, and two artifacts have one SBOM exactly if they name the same
  tools, the same servers and the same delegates (`sbom_canonical`).
-/

import RigVeh.Base.SortedSet
import RigVeh.Identity.Node

namespace RigVeh

open RigVeh.Base

variable {X : Crates}

inductive CapabilityKind where
  | tool
  | mcp
  | delegate
  deriving DecidableEq, Repr

/-- What stands before a name in the SBOM. -/
def CapabilityKind.tag : CapabilityKind → String
  | tool => "tool:"
  | mcp => "mcp:"
  | delegate => "delegate:"

namespace AgentArtifact

/-- The names of the artifact's capabilities of a kind. -/
def names (a : AgentArtifact X) : CapabilityKind → List String
  | .tool => (X.tools a.manifest).map fun | .Local name => name
  | .mcp => X.mcpServers a.manifest
  | .delegate => X.delegates a.manifest

/-- What `capability_sbom` collects before it sorts. -/
def capabilities (a : AgentArtifact X) : List String :=
  ((X.tools a.manifest).map fun | .Local name => "tool:" ++ name) ++ (X.mcpServers a.manifest).map ("mcp:" ++ ·) ++
    (X.delegates a.manifest).map ("delegate:" ++ ·)

end AgentArtifact

section

variable {a b : AgentArtifact X} {kind kind' : CapabilityKind} {name name' cap : String}

theorem capabilitySbom_eq (a : AgentArtifact X) : a.capabilitySbom = sortDedup a.capabilities := rfl

/-- Sorting and deduplicating change no entry. -/
theorem mem_capabilitySbom : cap ∈ a.capabilitySbom ↔
    (∃ name, .Local name ∈ X.tools a.manifest ∧ "tool:" ++ name = cap) ∨
      (∃ name ∈ X.mcpServers a.manifest, "mcp:" ++ name = cap) ∨
      ∃ name ∈ X.delegates a.manifest, "delegate:" ++ name = cap := by
  simp only [capabilitySbom_eq, mem_sortDedup, AgentArtifact.capabilities, List.mem_append, List.mem_map, or_assoc]
  refine or_congr ?_ Iff.rfl
  constructor
  · intro h
    obtain ⟨⟨name⟩, ht, hc⟩ := h
    exact ⟨name, ht, hc⟩
  · intro h
    obtain ⟨name, ht, hc⟩ := h
    exact ⟨.Local name, ht, hc⟩

theorem mem_tools : name ∈ a.names .tool ↔ .Local name ∈ X.tools a.manifest := by
  simp only [AgentArtifact.names, List.mem_map]
  constructor
  · intro h
    obtain ⟨⟨n⟩, ht, rfl⟩ := h
    exact ht
  · intro h
    exact ⟨.Local name, h, rfl⟩

/-! ## Kinds and names -/

/-- The kinds start with different characters, so an entry is cut in one way. -/
theorem tag_cut : kind.tag ++ name = kind'.tag ++ name' ↔ kind = kind' ∧ name = name' := by
  constructor
  · intro h
    have hlist : kind.tag.toList ++ name.toList = kind'.tag.toList ++ name'.toList := by
      rw [← String.toList_append, h, String.toList_append]
    have hkind : kind = kind' := by
      have hhead := congrArg List.head? hlist
      cases kind <;> cases kind' <;> first | rfl | exact absurd hhead (by simp [CapabilityKind.tag])
    subst hkind
    exact ⟨rfl, String.toList_inj.mp (List.append_cancel_left hlist)⟩
  · intro h
    obtain ⟨rfl, rfl⟩ := h
    rfl

theorem mem_sbom : cap ∈ a.capabilitySbom ↔ ∃ kind, ∃ name ∈ a.names kind, kind.tag ++ name = cap := by
  rw [mem_capabilitySbom]
  constructor
  · intro h
    rcases h with ⟨name, hn, h⟩ | ⟨name, hn, h⟩ | ⟨name, hn, h⟩
    · exact ⟨.tool, name, mem_tools.mpr hn, h⟩
    · exact ⟨.mcp, name, hn, h⟩
    · exact ⟨.delegate, name, hn, h⟩
  · intro h
    obtain ⟨kind, name, hn, h⟩ := h
    cases kind with
    | tool => exact .inl ⟨name, mem_tools.mp hn, h⟩
    | mcp => exact .inr (.inl ⟨name, hn, h⟩)
    | delegate => exact .inr (.inr ⟨name, hn, h⟩)

/-- A tagged name is an entry exactly if it names a capability of that kind. -/
theorem tagged_mem : kind.tag ++ name ∈ a.capabilitySbom ↔ name ∈ a.names kind := by
  rw [mem_sbom]
  constructor
  · intro h
    obtain ⟨kind', name', hn, h⟩ := h
    obtain ⟨rfl, rfl⟩ := tag_cut.mp h
    exact hn
  · intro h
    exact ⟨kind, name, h, rfl⟩

end

/-- An SBOM is strictly increasing, and two are equal exactly if the same names stand in
    both manifests for each kind; no name passes for a capability of another kind. -/
theorem sbom_canonical (a : AgentArtifact X) : a.capabilitySbom.Pairwise (· < ·) ∧
    (∀ b : AgentArtifact X, a.capabilitySbom = b.capabilitySbom ↔
      ∀ kind name, name ∈ a.names kind ↔ name ∈ b.names kind) ∧
    ∀ (kind : CapabilityKind) (name : String), kind.tag ++ name ∈ a.capabilitySbom ↔ name ∈ a.names kind := by
  refine ⟨sortDedup_lt _, ?_, fun _ _ => tagged_mem⟩
  intro b
  constructor
  · intro h kind name
    rw [← tagged_mem, h, tagged_mem]
  · intro h
    rw [capabilitySbom_eq, capabilitySbom_eq, sortDedup_eq_iff]
    intro cap
    have hmem (a : AgentArtifact X) : cap ∈ a.capabilities ↔ ∃ kind, ∃ name ∈ a.names kind, kind.tag ++ name = cap := by
      rw [← mem_sbom, capabilitySbom_eq, mem_sortDedup]
    rw [hmem, hmem]
    simp only [h]

end RigVeh
